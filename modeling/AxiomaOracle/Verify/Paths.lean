import AxiomaOracle.Verify.Footprint
import AxiomaOracle.Verify.Ledger

/-!
# The ledger file is append-only

`Keeps` is the guarantee of the gateway's calls: the valid frames of the ledger stay at its start.
It holds along every history in which no read fails, when no file the gateway cuts, overwrites or
unlinks shares the path of the ledger (`ledger_append_only`). The loader does not ask for that, and
a socket at the path of the ledger takes the file away.
-/

namespace AxiomaOracle

open Lib

section Paths

variable {S : Substrate} {cfg : GwConfig} {w : World} {e : Env}

/-- The ledger's path is not that of the socket, the WAL, the log or the copy. The fixture may share
it: its file is only ever created where there is none. -/
def LedgerApart (cfg : GwConfig) : Prop :=
  ∀ r ∈ [Role.socket, .wal, .log, .exportCopy], cfg.path r ≠ cfg.path .ledger

/-- The valid frames of the ledger are still at its start. -/
def Keeps (S : Substrate) (cfg : GwConfig) (w w' : World) : Prop :=
  encodeAll (validFrames S (w.content cfg .ledger)) <+: w'.content cfg .ledger

theorem keeps_of_extends {w' : World} (h : w.content cfg .ledger <+: w'.content cfg .ledger) :
    Keeps S cfg w w' := (encodeAll_validFrames_le _).trans h

theorem Keeps.refl (w : World) : Keeps S cfg w w := keeps_of_extends List.prefix_rfl

theorem Keeps.trans {w1 w2 w3 : World} (h : Keeps S cfg w1 w2) (h' : Keeps S cfg w2 w3) :
    Keeps S cfg w1 w3 := (validFrames_mono h).trans h'

/-- A cut behind the frames that were accepted keeps the valid ones. -/
theorem keeps_of_cut {w' : World}
    (h : CutTo S True (w.content cfg .ledger) (w'.content cfg .ledger)) : Keeps S cfg w w' := by
  obtain ⟨fs, tail, hfile, hfile', hm, htail⟩ := h
  have hvalid : validFrames S (w.content cfg .ledger) = fs := by
    rw [hfile, validFrames_encodeAll_append hm, validFrames,
      frames_of_nextFrame_none (htail trivial)]
    exact List.append_nil fs
  unfold Keeps
  simp only [hvalid, hfile', List.prefix_rfl]

/-- A fixture at the path of the ledger is never opened. -/
def FixtureShut (cfg : GwConfig) (w : World) : Prop :=
  cfg.path .fixture = cfg.path .ledger → w.fd .fixture = none

/-- The ledger is open for writing at its end. -/
def Writing (cfg : GwConfig) (w : World) : Prop :=
  (∃ bs, LedgerAt cfg w bs) ∧ FixtureShut cfg w

/-! ## One call -/

/-- A call away from the ledger's path. -/
theorem exec_away {o : Op} (h : ∀ r, o.role = some r → cfg.path r ≠ cfg.path .ledger) :
    (exec cfg o e w).2.content cfg .ledger = w.content cfg .ledger ∧
      (∀ bs, LedgerAt cfg w bs → LedgerAt cfg (exec cfg o e w).2 bs) ∧
      (FixtureShut cfg w → FixtureShut cfg (exec cfg o e w).2) := by
  obtain ⟨hnode, hfd⟩ := exec_elsewhere (e := e) (w := w) h
  refine ⟨content_congr hnode, fun bs hat => ⟨hnode.trans hat.file, hfd.trans hat.fd⟩, ?_⟩
  intro hshut hsame
  have hfix := (exec_elsewhere (q := .fixture) (e := e) (w := w) fun r hr => hsame ▸ h r hr).2
  rw [hfix, hshut hsame]

theorem writing_of_away {o : Op} (h : ∀ r, o.role = some r → cfg.path r ≠ cfg.path .ledger)
    (hw : Writing cfg w) : Keeps S cfg w (exec cfg o e w).2 ∧ Writing cfg (exec cfg o e w).2 := by
  obtain ⟨⟨bs, hat⟩, hshut⟩ := hw
  obtain ⟨hcontent, hat', hshut'⟩ := exec_away (e := e) (w := w) h
  exact ⟨keeps_of_extends (hcontent ▸ List.prefix_rfl), ⟨bs, hat' bs hat⟩, hshut' hshut⟩

theorem writing_of_capture {o : Op} (ho : o.Capture) (hw : Writing cfg w) :
    Keeps S cfg w (exec cfg o e w).2 ∧ Writing cfg (exec cfg o e w).2 := by
  by_cases hpath : cfg.path .fixture = cfg.path .ledger
  · -- the file exists, so the exclusive open fails and there is no descriptor
    have hfd := hw.2 hpath
    obtain ⟨⟨bs, hat⟩, -⟩ := id hw
    rcases ho with rfl | ⟨chunk, rfl⟩ | rfl | rfl
    · have hexec : (exec cfg (.openExcl .fixture) e w).2 = w := by
        simp [exec, execOpenExcl, hpath, hat.file]
      rw [hexec]
      exact ⟨.refl w, hw⟩
    · have hexec : (exec cfg (.write .fixture chunk) e w).2 = w := by
        simp [exec, execWrite, hfd]
      rw [hexec]
      exact ⟨.refl w, hw⟩
    · exact ⟨.refl w, hw⟩
    · refine ⟨.refl w, ⟨bs, hat.file, ?_⟩, fun _ => ?_⟩
      · simp [exec, hat.fd]
      · simp [exec]
  · refine writing_of_away (fun r hr => ?_) hw
    rcases ho with rfl | ⟨chunk, rfl⟩ | rfl | rfl <;> cases hr <;> exact hpath

/-- **Serving calls only add to the ledger.** -/
theorem writing_of_serving (hapart : LedgerApart cfg) {o : Op} (ho : o.Serving)
    (hw : Writing cfg w) : Keeps S cfg w (exec cfg o e w).2 ∧ Writing cfg (exec cfg o e w).2 := by
  rcases ho with (rfl | rfl | hcapture | ⟨hl, hwal, hfix, -⟩) | rfl | ⟨chunk, rfl⟩ | hrole |
    ⟨body, rfl⟩
  · exact ⟨.refl w, hw⟩
  · exact ⟨.refl w, hw⟩
  · exact writing_of_capture hcapture hw
  · refine writing_of_away (fun r hr => ?_) hw
    rw [hr] at hl hwal hfix
    cases r with
    | socket => exact hapart _ (by simp)
    | log => exact hapart _ (by simp)
    | exportCopy => exact hapart _ (by simp)
    | ledger => exact absurd rfl hl
    | wal => exact absurd rfl hwal
    | fixture => exact absurd rfl hfix
  · exact ⟨.refl w, hw⟩
  · obtain ⟨⟨bs, hat⟩, hshut⟩ := hw
    obtain ⟨n, hat', -, -⟩ := exec_write_end hat chunk e
    refine ⟨keeps_of_extends ?_, ⟨_, hat'⟩, ?_⟩
    · rw [hat.content, hat'.content]
      exact List.prefix_append _ _
    · intro hpath
      rw [exec_fd (by simp [Op.role]) (by simp), hshut hpath]
  · refine writing_of_away (fun r hr => ?_) hw
    rw [hrole, Option.some.injEq] at hr
    exact hr ▸ hapart _ (by simp)
  · exact writing_of_away (fun r hr => by cases hr) hw

/-! ## Histories -/

variable {A : Env → Prop}

/-- A program of serving calls, from an open ledger. -/
theorem safe_of_serving (hapart : LedgerApart cfg) {α : Type} {Q : α → World → Prop} {p : Io α}
    (hp : p.Only Op.Serving) (hw : Writing cfg w) (hQ : ∀ a w', Writing cfg w' → Q a w') :
    Safe (machine cfg) A (Keeps S cfg) (FixtureShut cfg) Q p w :=
  .of_only (fun _ _ _ ho hw => writing_of_serving hapart ho hw) (fun _ hw => hw.2) hp hw hQ

/-- A call away from the ledger's path, before the ledger is open. -/
theorem safe_of_away (hapart : LedgerApart cfg) {α : Type} {Q : α → World → Prop} {o : Op}
    {k : Ans o → Io α} (ho : o.role.all fun r => r ∈ [Role.socket, .wal, .log, .exportCopy])
    (hw : FixtureShut cfg w) (hk : ∀ a w', FixtureShut cfg w' →
      Safe (machine cfg) A (Keeps S cfg) (FixtureShut cfg) Q (k a) w') :
    Safe (machine cfg) A (Keeps S cfg) (FixtureShut cfg) Q (sys o >>= k) w := by
  have haway : ∀ r, o.role = some r → cfg.path r ≠ cfg.path .ledger := by
    intro r hr
    rw [hr] at ho
    exact hapart r (by simpa using ho)
  have hstep : ∀ e, Keeps S cfg w (exec cfg o e w).2 ∧ FixtureShut cfg (exec cfg o e w).2 := by
    intro e
    obtain ⟨hcontent, -, hshut⟩ := exec_away (e := e) (w := w) haway
    exact ⟨keeps_of_extends (hcontent ▸ List.prefix_rfl), hshut hw⟩
  exact .perform hw hstep fun e _ => hk _ _ (hstep e).2

theorem gwLog_away (hapart : LedgerApart cfg) {secret : Bytes} {entry : LogEntry}
    (hw : FixtureShut cfg w) : Safe (machine cfg) A (Keeps S cfg) (FixtureShut cfg)
      (fun _ => FixtureShut cfg) (gwLog secret entry) w :=
  safe_of_away hapart rfl hw fun _ _ hw => safe_of_away hapart rfl hw fun _ _ hw =>
    safe_of_away hapart rfl hw fun _ _ hw => .ret hw

/-- Start-up keeps the valid frames, when no read fails. -/
theorem startUp_keeps (hapart : LedgerApart cfg) (host : Host)
    {Q : Option (GwState S) → World → Prop} (hnone : ∀ w', FixtureShut cfg w' → Q none w')
    (hany : ∀ r w', Writing cfg w' → Q r w') (hw : FixtureShut cfg w) :
    Safe (machine cfg) (fun e => none ∉ e.script) (Keeps S cfg) (FixtureShut cfg) Q
      (startUp S cfg host) w := by
  unfold startUp
  split
  · exact .ret (hnone w hw)
  split
  · exact .ret (hnone w hw)
  split
  · exact .ret (hnone w hw)
  split
  · exact .ret (hnone w hw)
  refine safe_of_away hapart rfl hw fun opened w1 hw1 => ?_
  cases opened with
  | false => exact .ret (hnone w1 hw1)
  | true =>
  refine safe_of_away hapart rfl hw1 fun allocated w2 hw2 => ?_
  cases allocated with
  | false => exact .ret (hnone w2 hw2)
  | true =>
  unfold ledgerStage
  refine Safe.bind (Q := fun _ => FixtureShut cfg) ?_ fun probe w3 hw3 => ?_
  · refine safe_of_away hapart rfl hw2 fun file w3 hw3 => ?_
    cases file with
    | none => exact .ret hw3
    | some file => exact .ret hw3
  -- the open of the ledger, and everything behind it
  have hshut : ∀ w', Apart cfg w3 w' → FixtureShut cfg w' := by
    intro w' hap hpath
    rw [hap.fd .fixture (by simp) (by simp), hw3 hpath]
  refine Safe.bind (Q := fun r w' => FixtureShut cfg w' ∧ (r.isSome → Writing cfg w')) ?_
    fun r w4 hw4 => ?_
  · refine gwlOpen_safe True (fun _ _ he => he) ?_ ?_ ?_ ?_
    · rintro w1 w2 (hsame | hcut)
      · exact keeps_of_extends (hsame ▸ List.prefix_rfl)
      · exact keeps_of_cut hcut
    · exact fun w' _ hap => hshut w' hap
    · exact fun w' _ hap => ⟨hshut w' hap, fun h => by cases h⟩
    · exact fun w' genesis fs r cut _ _ hat hap _ =>
        ⟨hshut w' hap, fun _ => ⟨⟨_, hat⟩, hshut w' hap⟩⟩
  · rcases r with _ | ⟨g, cut⟩
    · refine Safe.bind (gwLog_away hapart hw4.1) fun _ w5 hw5 => .ret (hnone w5 hw5)
    · refine safe_of_serving hapart ?_ (hw4.2 rfl) hany
      cases cut with
      | false => exact serving_of_recording (recording_of_filing (exportStage_filing cfg _ _))
      | true =>
        exact serving_of_recording (recording_of_filing ((gwLogSeq_filing _ _ _ _ _).bind fun _ =>
          exportStage_filing cfg _ _))

variable (S cfg) in
/-- What every program of the gateway keeps, with the ledger's path apart. -/
theorem gateway_keeps (host : Host) (hapart : LedgerApart cfg) :
    (gateway S cfg host).Sound (fun e => none ∉ e.script) (Keeps S cfg) (FixtureShut cfg)
      (fun _ => Writing cfg) (fun _ => True) where
  boot w hshut _ := by
    refine startUp_keeps hapart host (fun _ h => h) (fun r w' hw' => ?_) hshut
    cases r with
    | none => exact hw'.2
    | some st => exact hw'
  serve st req w hw := by
    refine safe_of_serving hapart ((handleRequest_serving cfg _ st req).bind fun _ => .ret) hw ?_
    intro r w' hw'
    cases r with
    | none => exact hw'.2
    | some st => exact hw'
  halt st w hw := by
    refine safe_of_serving hapart (serving_of_quiet (shutDown_quiet _ st)) hw ?_
    intro r w' hw'
    cases r with
    | none => exact hw'.2
    | some st => exact hw'
  idle st w hw := hw.2
  release w _ := fun _ => rfl

/-- **The evidence file is append-only**, with its path apart: between any two moments of a history
of starts, requests and crashes in which no read fails, whatever else fails, the valid frames of the
first are at the start of the file of the second. -/
theorem ledger_append_only (S : Substrate) (host : Host) (hapart : LedgerApart cfg)
    {node : Bytes → Option Node} {c c' : World × (gateway S cfg host).Control}
    (hc : (gateway S cfg host).Reaches (fun e => none ∉ e.script) (fun _ => True)
      (.initial node, .down) c)
    (hc' : (gateway S cfg host).Reaches (fun e => none ∉ e.script) (fun _ => True) c c') :
    Keeps S cfg c.1 c'.1 := by
  have hsound := gateway_keeps S cfg host hapart
  have hinv := hc.inv hsound (fun _ => rfl)
  exact hc'.guarantee hsound .refl (fun _ _ _ => .trans) (fun _ _ h => h) hinv

def sampleHost : Host := ⟨some (.ofBytes (ascii "key")), fun _ => true⟩

/-- The gateway that evaluates. -/
def sampleGateway (cfg : GwConfig) : Service (machine cfg) := gateway sampleSubstrate cfg sampleHost

/-- A first start after `n` calls, none of which fails. -/
def firstStart (cfg : GwConfig) (n : Nat) : World × (sampleGateway cfg).Control :=
  (sampleGateway cfg).run (.initial fun _ => none, .down) (.boot :: List.replicate n (.call {}))

theorem firstStart_reaches (cfg : GwConfig) (n : Nat) :
    (sampleGateway cfg).Reaches (fun e => none ∉ e.script) (fun _ => True)
      (.initial fun _ => none, .down) (firstStart cfg n) := by
  refine Service.reaches_run (fun _ _ => trivial) (fun e he => ?_) _
  rcases List.mem_cons.1 he with h | h
  · cases h
  · cases List.eq_of_mem_replicate h
    simp

theorem firstStart_step (cfg : GwConfig) (n : Nat) :
    (sampleGateway cfg).Reaches (fun e => none ∉ e.script) (fun _ => True) (firstStart cfg n)
      ((sampleGateway cfg).step (firstStart cfg n) (.call {})) :=
  .single ⟨.call {}, List.not_mem_nil, rfl⟩

theorem ledger_append_only_sample :
    (validFrames sampleSubstrate
      ((firstStart sampleConfig 17).1.content sampleConfig .ledger)).length
      = 1 ∧
    Keeps sampleSubstrate sampleConfig (firstStart sampleConfig 17).1
      ((sampleGateway sampleConfig).step (firstStart sampleConfig 17) (.call {})).1 :=
  ⟨by decide +kernel, ledger_append_only sampleSubstrate _ (by unfold LedgerApart; decide)
    (firstStart_reaches sampleConfig 17) (firstStart_step sampleConfig 17)⟩

/-- A configuration with one path for the socket and the ledger. -/
def sharedPathFile : Bytes :=
  ascii "socket_path=l\nledger_path=l\nwal_path=w\nlog_path=g\nmodel_id=m-1\n"

def sharedPathConfig : GwConfig :=
  { gwConfigDefaults sharedPathFile with
    socketPath := .ofBytes (ascii "l")
    ledgerPath := .ofBytes (ascii "l")
    walPath := .ofBytes (ascii "w")
    logPath := .ofBytes (ascii "g")
    modelId := .ofBytes (ascii "m-1") }

/-- The loader accepts it; a start appends its `AX:STATE:v1` frame and then unlinks the file. -/
theorem shared_path_unlinks_ledger :
    gwConfigLoad sharedPathFile = .ok sharedPathConfig ∧
    (sampleGateway sharedPathConfig).Reaches (fun e => none ∉ e.script) (fun _ => True)
      (.initial fun _ => none, .down) (firstStart sharedPathConfig 17) ∧
    (sampleGateway sharedPathConfig).Reaches (fun e => none ∉ e.script) (fun _ => True)
      (firstStart sharedPathConfig 17)
      ((sampleGateway sharedPathConfig).step (firstStart sharedPathConfig 17) (.call {})) ∧
    ¬ Keeps sampleSubstrate sharedPathConfig (firstStart sharedPathConfig 17).1
      ((sampleGateway sharedPathConfig).step (firstStart sharedPathConfig 17) (.call {})).1 := by
  refine ⟨by decide +kernel, firstStart_reaches _ 17, firstStart_step _ 17, ?_⟩
  unfold Keeps
  decide +kernel

end Paths

end AxiomaOracle
