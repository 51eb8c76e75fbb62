import AxiomaOracle.Gateway.Main
import AxiomaOracle.Gateway.Scanners
import AxiomaOracle.Tools.LossCheck
import AxiomaOracle.Verify.Admission
import AxiomaOracle.Verify.AdmissionRuns
import AxiomaOracle.Verify.Soundness
import AxiomaOracle.Verify.Encoding
import AxiomaOracle.Verify.Limits
import AxiomaOracle.Verify.Config
import AxiomaOracle.Verify.Upstream
import AxiomaOracle.Verify.Extract
import AxiomaOracle.Verify.Frames
import AxiomaOracle.Verify.Replay
import AxiomaOracle.Verify.Calls
import AxiomaOracle.Verify.Ledger
import AxiomaOracle.Verify.LedgerFaults
import AxiomaOracle.Verify.LossCheck
import AxiomaOracle.Verify.Export
import AxiomaOracle.Verify.Footprint
import AxiomaOracle.Verify.Paths
import AxiomaOracle.Verify.Intent
import AxiomaOracle.Verify.Evidence
import AxiomaOracle.Verify.Protocol
import AxiomaOracle.Verify.Requests
import AxiomaOracle.Verify.StartUp
import AxiomaOracle.Verify.Standing
import AxiomaOracle.Verify.Fallback
import AxiomaOracle.Verify.Effects
import AxiomaOracle.Verify.Serving
import AxiomaOracle.Verify.Histories
import AxiomaOracle.Verify.Reached
import AxiomaOracle.Verify.Budget
import AxiomaOracle.Verify.Served
import AxiomaOracle.Verify.Buffers
import AxiomaOracle.Verify.Restart
import AxiomaOracle.Verify.Escapes
import AxiomaOracle.Verify.Torn
import AxiomaOracle.Verify.Parameters
import AxiomaOracle.Verify.Identifiers
import AxiomaOracle.Verify.Messages
import AxiomaOracle.Verify.Writes
import AxiomaOracle.Verify.Response
import AxiomaOracle.Verify.ScanBounds
import AxiomaOracle.Verify.LogLines
import AxiomaOracle.Gateway.Client
import AxiomaOracle.Verify.FailureLines
import AxiomaOracle.Verify.Jcs
import AxiomaOracle.Verify.Transfers
import AxiomaOracle.Verify.TopStrings
import AxiomaOracle.Verify.LogHistory
import AxiomaOracle.Verify.Harvest
import AxiomaOracle.Verify.Readers
