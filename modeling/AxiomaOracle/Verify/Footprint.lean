import AxiomaOracle.Gateway.Main
import AxiomaOracle.Verify.Calls

/-!
# The calls of the gateway's programs

Which calls each program of `gw_main.c` can make. `Quiet` calls touch neither the ledger nor the WAL
and do not reach the oracle; `Serving` calls are those of everything but the open of the ledger: of
the ledger they only look at it or write at its end. `Recording` calls are those of them that do not
reach the oracle.
-/

namespace AxiomaOracle

open Lib

/-- The four calls on the fixture. -/
def Op.Capture (o : Op) : Prop :=
  o = .openExcl .fixture ∨ (∃ bs, o = .write .fixture bs) ∨ o = .fsync .fixture ∨
    o = .close .fixture

/-- Calls that leave the ledger, the WAL and the record of oracle calls alone. -/
def Op.Quiet (o : Op) : Prop :=
  o = .tell .ledger ∨ o = .pread .ledger ∨ o.Capture ∨
    (o.role ≠ some .ledger ∧ o.role ≠ some .wal ∧ o.role ≠ some .fixture ∧
      ∀ body, o ≠ .gwcCall body)

/-- Quiet calls that say nothing to the client. -/
def Op.Mute (o : Op) : Prop := o.Quiet ∧ ∀ bs, o ≠ .send bs

/-- Calls of everything but the open of the ledger and the call to the oracle. -/
def Op.Recording (o : Op) : Prop :=
  o.Quiet ∨ o = .fsync .ledger ∨ (∃ bs, o = .write .ledger bs) ∨ o.role = some .wal

/-- Calls that reach neither the oracle nor the client. -/
def Op.Aside (o : Op) : Prop := (∀ body, o ≠ .gwcCall body) ∧ ∀ bs, o ≠ .send bs

/-- Recording calls that say nothing to the client. -/
def Op.Filing (o : Op) : Prop := o.Recording ∧ ∀ bs, o ≠ .send bs

/-- Calls of everything but the open of the ledger. -/
def Op.Serving (o : Op) : Prop :=
  o.Quiet ∨ o = .fsync .ledger ∨ (∃ bs, o = .write .ledger bs) ∨ o.role = some .wal ∨
    ∃ body, o = .gwcCall body

theorem Op.Quiet.of_role {o : Op} {r : Role} (h : o.role = some r) (hl : r ≠ .ledger)
    (hw : r ≠ .wal) (hf : r ≠ .fixture) : o.Quiet := by
  refine .inr (.inr (.inr ⟨?_, ?_, ?_, ?_⟩))
  · rw [h, Ne, Option.some.injEq]
    exact hl
  · rw [h, Ne, Option.some.injEq]
    exact hw
  · rw [h, Ne, Option.some.injEq]
    exact hf
  · rintro body rfl
    cases h

theorem Op.Quiet.sys (c : SysCall) : (Op.sys c).Quiet := .inr (.inr (.inr (by simp [Op.role])))

theorem Op.Quiet.send (bs : Bytes) : (Op.send bs).Quiet := .inr (.inr (.inr (by simp [Op.role])))

theorem Op.Quiet.time : Op.time.Quiet := .inr (.inr (.inr (by simp [Op.role])))

theorem Op.Quiet.log {o : Op} (h : o.role = some .log) : o.Quiet :=
  .of_role h (by simp) (by simp) (by simp)

theorem Op.Quiet.exportCopy {o : Op} (h : o.role = some .exportCopy) : o.Quiet :=
  .of_role h (by simp) (by simp) (by simp)

theorem Op.Quiet.socket {o : Op} (h : o.role = some .socket) : o.Quiet :=
  .of_role h (by simp) (by simp) (by simp)

theorem Op.Quiet.capture {o : Op} (h : o.Capture) : o.Quiet := .inr (.inr (.inl h))

theorem Op.Mute.time : Op.time.Mute := ⟨.time, fun _ => by simp⟩

theorem Op.Mute.sys (c : SysCall) : (Op.sys c).Mute := ⟨.sys c, fun _ => by simp⟩

theorem Op.Mute.of_role {o : Op} {r : Role} (h : o.role = some r) (ho : o.Quiet) : o.Mute := by
  refine ⟨ho, ?_⟩
  rintro bs rfl
  cases h

theorem Op.Mute.log {o : Op} (h : o.role = some .log) : o.Mute := .of_role h (.log h)

theorem Op.Mute.exportCopy {o : Op} (h : o.role = some .exportCopy) : o.Mute :=
  .of_role h (.exportCopy h)

theorem Op.Mute.socket {o : Op} (h : o.role = some .socket) : o.Mute := .of_role h (.socket h)

theorem Op.Mute.capture {o : Op} (h : o.Capture) : o.Mute := by
  refine ⟨.capture h, ?_⟩
  rintro bs rfl
  simp [Op.Capture] at h

section Quiet

variable {S : Substrate} (cfg : GwConfig) (secret : Bytes)

/-! ## Quiet programs -/

theorem gwLog_mute (entry : LogEntry) : (gwLog secret entry).Only Op.Mute :=
  .call .time fun _ => .call (.log rfl) fun _ => .call (.log rfl) fun _ => .ret

theorem gwLogMsg_mute (level event msg : Bytes) (attempt status : Int) (seq : UInt64) :
    (gwLogMsg secret level event msg attempt status seq).Only Op.Mute := gwLog_mute secret _

theorem gwLogSeq_mute (level event msg : Bytes) (seq : UInt64) :
    (gwLogSeq secret level event msg seq).Only Op.Mute := gwLog_mute secret _

theorem quiet_of_mute {α : Type} {p : Io α} (h : p.Only Op.Mute) : p.Only Op.Quiet :=
  h.mono fun _ ho => ho.1

theorem gwLog_quiet (entry : LogEntry) : (gwLog secret entry).Only Op.Quiet :=
  quiet_of_mute (gwLog_mute secret entry)

theorem gwLogMsg_quiet (level event msg : Bytes) (attempt status : Int) (seq : UInt64) :
    (gwLogMsg secret level event msg attempt status seq).Only Op.Quiet := gwLog_quiet secret _

theorem gwLogSeq_quiet (level event msg : Bytes) (seq : UInt64) :
    (gwLogSeq secret level event msg seq).Only Op.Quiet := gwLog_quiet secret _

theorem logFault_mute (msg : Bytes) : (logFault secret msg).Only Op.Mute := gwLog_mute secret _

theorem logFault_quiet (msg : Bytes) : (logFault secret msg).Only Op.Quiet := gwLog_quiet secret _

theorem protoError_quiet (reason : Bytes) : (protoError reason).Only Op.Quiet :=
  .call (.send _) fun _ => .ret

theorem captureFixture_mute (body : Bytes) : (captureFixture cfg secret body).Only Op.Mute := by
  unfold captureFixture
  split
  · exact .ret
  · have hclose : (do
        sys (.close .fixture)
        return () : Io Unit).Only Op.Mute :=
      .call (.capture (.inr (.inr (.inr rfl)))) fun _ => .ret
    refine .call (.capture (.inl rfl)) fun opened => ?_
    cases opened with
    | false => exact .ret
    | true =>
      refine .call (.capture (.inr (.inl ⟨body, rfl⟩))) fun wrote => ?_
      cases wrote with
      | false => exact hclose
      | true =>
        refine .call (.capture (.inr (.inr (.inl rfl)))) fun synced => ?_
        cases synced with
        | false => exact hclose
        | true => exact (gwLog_mute secret _).bind fun _ => hclose

theorem outcomeOf_mute (res : GwcResult) : (outcomeOf cfg secret res).Only Op.Mute := by
  unfold outcomeOf
  split
  · refine (captureFixture_mute cfg secret _).bind fun _ => ?_
    unfold outcomeOfBody
    split
    · exact (gwLog_mute secret _).bind fun _ => .ret
    · exact (gwLog_mute secret _).bind fun _ => .ret
  · exact (gwLog_mute secret _).bind fun _ => .ret
  · exact (gwLog_mute secret _).bind fun _ => .ret
  · split
    · exact (gwLog_mute secret _).bind fun _ => .ret
    · exact (gwLog_mute secret _).bind fun _ => .ret
  · exact (gwLog_mute secret _).bind fun _ => .ret

theorem outcomeOf_quiet (res : GwcResult) : (outcomeOf cfg secret res).Only Op.Quiet :=
  quiet_of_mute (outcomeOf_mute cfg secret res)

theorem respond_quiet (o : Outcome) (info : CommitInfo) (params : AxOracleParams) :
    (respond cfg secret o info params).Only Op.Quiet := by
  unfold respond
  split
  · exact (gwLog_quiet secret _).bind fun _ => protoError_quiet _
  · refine .call (.send _) fun sent => ?_
    cases sent with
    | false => exact .ret
    | true =>
      by_cases hlen : o.output.length > 0
      · simp only [hlen, if_true]
        exact .call (.send _) fun _ => .ret
      · simp only [hlen, if_false]
        exact .ret

theorem reportRequest_quiet (st : GwState S) (o : Outcome) (info : CommitInfo)
    (params : AxOracleParams) : (reportRequest cfg secret st o info params).Only Op.Quiet := by
  have hrespond := respond_quiet cfg secret o info params
  unfold reportRequest
  refine (gwLogSeq_quiet secret _ _ _ _).bind fun _ => .ite ?_ ?_
  · exact (gwLogSeq_quiet secret _ _ _ _).bind fun _ => hrespond.bind fun _ => .ret
  · exact hrespond.bind fun _ => .ret

theorem exportLoop_mute (fuel size : Nat) (rest : Bytes) (script : ReadScript) :
    (exportLoop fuel size rest script).Only Op.Mute := by
  induction fuel generalizing size rest script with
  | zero => exact .ret
  | succ fuel ih =>
    -- one piece: at most `limit` bytes, written to the copy
    have hpiece : ∀ limit script', (if rest.take limit = [] then return false else do
        if !(← sys (.write .exportCopy (rest.take limit))) then return false
        exportLoop fuel (size - (rest.take limit).length) (rest.drop (rest.take limit).length)
          script' : Io Bool).Only Op.Mute := by
      intro limit script'
      split
      · exact .ret
      · refine .call (.exportCopy rfl) fun wrote => ?_
        cases wrote with
        | false => exact .ret
        | true => exact ih _ _ _
    unfold exportLoop
    split
    · exact .ret
    · rcases script with _ | ⟨_ | k, script⟩
      · exact hpiece _ _
      · exact .ret
      · exact hpiece _ _

theorem exportCopy_mute (g : Gwl S) : (exportCopy g).Only Op.Mute := by
  have hclose : ∀ x : Gwl S × Bool, (do
      sys (.close .exportCopy)
      return x : Io (Gwl S × Bool)).Only Op.Mute := fun _ => .call (.exportCopy rfl) fun _ => .ret
  unfold exportCopy
  refine .call (.exportCopy rfl) fun opened => ?_
  cases opened with
  | false => exact .ret
  | true =>
    refine .call (.of_role rfl (.inl rfl)) fun size =>
      .call (.of_role rfl (.inr (.inl rfl))) fun read => ?_
    refine (exportLoop_mute _ _ _ _).bind fun copied => ?_
    cases copied with
    | false => exact hclose _
    | true =>
      refine .call (.exportCopy rfl) fun synced => ?_
      cases synced with
      | false => exact hclose _
      | true => exact .ret

theorem gwlExportEnable_mute (g : Gwl S) : (gwlExportEnable cfg g).Only Op.Mute := by
  unfold gwlExportEnable
  split
  · exact .ret
  · cases hact : g.exportActive with
    | false => exact exportCopy_mute _
    | true => exact .call (.exportCopy rfl) fun _ => exportCopy_mute _

theorem listenStage_mute (st : GwState S) : (listenStage cfg secret st).Only Op.Mute := by
  have hfault : ∀ msg : Bytes, (do
      logFault secret msg
      return none : Io (Option (GwState S))).Only Op.Mute := fun msg =>
    (gwLog_mute secret _).bind fun _ => .ret
  unfold listenStage
  refine .call (.socket rfl) fun _ => .call (.sys _) fun sock => ?_
  cases sock with
  | false => exact hfault _
  | true =>
  by_cases hlen : cfg.socketPath.bytes.length ≥ 108
  · simp only [hlen, if_true]
    exact hfault _
  simp only [hlen, if_false]
  refine .call (.socket rfl) fun bound => ?_
  cases bound with
  | false => exact hfault _
  | true =>
  refine .call (.sys _) fun moded => ?_
  cases moded with
  | false => exact hfault _
  | true =>
  refine .call (.sys _) fun listening => ?_
  cases listening with
  | false => exact hfault _
  | true =>
  refine .call (.sys _) fun notified => ?_
  cases notified with
  | false => exact (gwLog_mute secret _).bind fun _ => (gwLog_mute secret _).bind fun _ => .ret
  | true => exact (gwLog_mute secret _).bind fun _ => .ret

theorem shutDown_mute (st : GwState S) : (shutDown secret st).Only Op.Mute :=
  (gwLog_mute secret _).bind fun _ => .call (.socket rfl) fun _ => .ret

theorem gwlExportEnable_quiet (g : Gwl S) : (gwlExportEnable cfg g).Only Op.Quiet :=
  quiet_of_mute (gwlExportEnable_mute cfg g)

theorem listenStage_quiet (st : GwState S) : (listenStage cfg secret st).Only Op.Quiet :=
  quiet_of_mute (listenStage_mute cfg secret st)

theorem shutDown_quiet (st : GwState S) : (shutDown secret st).Only Op.Quiet :=
  quiet_of_mute (shutDown_mute secret st)

/-! ## Everything but the open of the ledger -/

theorem Op.Filing.mute {o : Op} (h : o.Mute) : o.Filing := ⟨.inl h.1, h.2⟩

theorem Op.Filing.wal {o : Op} (h : o.role = some .wal) : o.Filing := by
  refine ⟨.inr (.inr (.inr h)), ?_⟩
  rintro bs rfl
  cases h

theorem filing_of_mute {α : Type} {p : Io α} (h : p.Only Op.Mute) : p.Only Op.Filing :=
  h.mono fun _ => .mute

theorem gwLogSeq_filing (level event msg : Bytes) (seq : UInt64) :
    (gwLogSeq secret level event msg seq).Only Op.Filing :=
  filing_of_mute (gwLogSeq_mute secret level event msg seq)

theorem mirrorFrame_mute (g : Gwl S) (chunks : List Bytes) :
    (mirrorFrame g chunks).Only Op.Mute := by
  unfold mirrorFrame
  split
  · refine ((writeAll_only .exportCopy chunks).mono ?_).bind fun copied => ?_
    · rintro o ⟨bs, rfl⟩
      exact .exportCopy rfl
    · cases copied with
      | false => exact .call (.exportCopy rfl) fun _ => .ret
      | true => exact .ret
  · exact .ret

theorem gwlAppend_filing (g : Gwl S) (tag : CStr) (payload : Bytes) :
    (gwlAppend g tag payload).Only Op.Filing := by
  unfold gwlAppend
  split
  · exact .ret
  split
  · exact .ret
  split
  · exact .ret
  split
  · exact .ret
  next commit _ =>
  refine ((writeAll_only .ledger _).mono fun o h => ?_).bind fun wrote => ?_
  · obtain ⟨bs, rfl⟩ := h
    exact ⟨.inr (.inr (.inl ⟨bs, rfl⟩)), fun _ => by simp⟩
  cases wrote with
  | false => exact .ret
  | true =>
  refine .call ⟨.inr (.inl rfl), fun _ => by simp⟩ fun synced => ?_
  cases synced with
  | false => exact .ret
  | true =>
  refine (filing_of_mute (mirrorFrame_mute g _)).bind fun g' => ?_
  cases S.axLedgerAppend g'.ctx commit with
  | none => exact .ret
  | some ctx => exact .ret

theorem commitObservation_filing (st : GwState S) (state : AxCompletionState)
    (ftype : AxFailureType) (input output : Bytes) (params : AxOracleParams) :
    (commitObservation cfg st state ftype input output params).Only Op.Filing := by
  unfold commitObservation
  dsimp only
  split
  · exact .ret
  split
  · exact .ret
  split
  · exact .ret
  split
  · exact .ret
  refine (gwlAppend_filing _ _ _).bind fun gr => ?_
  rcases gr with ⟨g, _ | ⟨head, seq⟩⟩
  · exact .ret
  · exact .ret

theorem fsyncParentDir_filing : (fsyncParentDir cfg .wal).Only Op.Filing := by
  unfold fsyncParentDir
  split
  · exact .ret
  · exact .call (.wal rfl) fun _ => .ret

theorem gwWalClear_filing : (gwWalClear cfg).Only Op.Filing := by
  refine .call (.wal rfl) fun gone => ?_
  cases gone with
  | false => exact .ret
  | true => exact fsyncParentDir_filing cfg

theorem gwWalWrite_filing (i : GwIntent) : (gwWalWrite cfg i).Only Op.Filing := by
  have hclose : closeWal.Only Op.Filing := .call (.wal rfl) fun _ => .ret
  refine .call (.wal rfl) fun created => ?_
  cases created with
  | false => exact .ret
  | true =>
  cases C.snprintf 768 (intentText i) with
  | none => exact hclose
  | some buf =>
  refine .call (.wal rfl) fun wrote => ?_
  cases wrote with
  | false => exact hclose
  | true =>
  refine .call (.wal rfl) fun synced => ?_
  cases synced with
  | false => exact hclose
  | true => exact .call (.wal rfl) fun _ => fsyncParentDir_filing cfg

theorem recoverIntent_filing (st : GwState S) (i : GwIntent) :
    (recoverIntent cfg secret st i).Only Op.Filing := by
  unfold recoverIntent
  refine .ite ?_ ?_
  · exact (gwLogSeq_filing secret _ _ _ _).bind fun _ => (gwWalClear_filing cfg).bind fun _ => .ret
  · refine (commitObservation_filing cfg _ _ _ _ _ _).bind fun x => ?_
    rcases x with ⟨st, _ | info⟩
    · exact (gwLogSeq_filing secret _ _ _ _).bind fun _ => .ret
    · exact (gwLogSeq_filing secret _ _ _ _).bind fun _ =>
        (gwWalClear_filing cfg).bind fun _ => .ret

theorem gwWalRecover_filing : gwWalRecover.Only Op.Filing := by
  refine .call (.wal rfl) fun file => ?_
  cases file with
  | none => exact .ret
  | some file => exact .ret

theorem recoverWal_filing (st : GwState S) : (recoverWal cfg secret st).Only Op.Filing := by
  unfold recoverWal
  refine gwWalRecover_filing.bind fun x => ?_
  cases x with
  | none => exact .ret
  | corrupt => exact (gwLogSeq_filing secret _ _ _ _).bind fun _ => .ret
  | intent i => exact recoverIntent_filing cfg secret st i

theorem configStage_filing (st : GwState S) : (configStage cfg secret st).Only Op.Filing := by
  have hfault := fun msg => filing_of_mute (logFault_mute secret msg)
  unfold configStage
  refine (gwlAppend_filing _ _ _).bind fun x => ?_
  rcases x with ⟨g, _ | ⟨head, seq⟩⟩
  · exact (hfault _).bind fun _ => .ret
  · refine (gwLogSeq_filing secret _ _ _ _).bind fun _ =>
      .call (.mute (.sys _)) fun ready => ?_
    cases ready with
    | false => exact (hfault _).bind fun _ => .ret
    | true => exact filing_of_mute (listenStage_mute cfg secret _)

theorem recoverStage_filing (st : GwState S) : (recoverStage cfg secret st).Only Op.Filing := by
  unfold recoverStage
  refine (recoverWal_filing cfg secret st).bind fun x => ?_
  rcases x with ⟨st, _ | _⟩
  · exact .ret
  · exact configStage_filing cfg secret st

/-- **Start-up behind the open** looks at the ledger or writes at its end. -/
theorem exportStage_filing (st : GwState S) : (exportStage cfg secret st).Only Op.Filing := by
  unfold exportStage
  refine .ite (recoverStage_filing cfg secret st) ?_
  refine (filing_of_mute (gwlExportEnable_mute cfg st.gwl)).bind fun x => ?_
  rcases x with ⟨g, _ | _⟩
  · exact (filing_of_mute (logFault_mute secret _)).bind fun _ => .ret
  · exact (gwLogSeq_filing secret _ _ _ _).bind fun _ => recoverStage_filing cfg secret _

theorem Op.Recording.not_gwcCall {o : Op} (ho : o.Recording) (body : Bytes) :
    o ≠ .gwcCall body := by
  rintro rfl
  rcases ho with ho | ho | ⟨bs, ho⟩ | ho
  · simp [Op.Quiet, Op.Capture] at ho
  · cases ho
  · cases ho
  · cases ho

theorem aside_of_filing {α : Type} {p : Io α} (h : p.Only Op.Filing) : p.Only Op.Aside :=
  h.mono fun _ ho => ⟨ho.1.not_gwcCall, ho.2⟩

theorem Op.Aside.of_role {o : Op} {r : Role} (h : o.role = some r) : o.Aside := by
  constructor
  · rintro body rfl
    cases h
  · rintro bs rfl
    cases h

theorem gwlOpen_aside (S : Substrate) (tornTailOk : Bool) :
    (gwlOpen S tornTailOk).Only Op.Aside := by
  have hclose : ∀ {α : Type}, (closeFail : Io (Option α)).Only Op.Aside :=
    fun {_} => .call (.of_role rfl) fun _ => .ret
  unfold gwlOpen
  split
  · exact .ret
  refine .call (.of_role rfl) fun opened => ?_
  cases opened with
  | false => exact .ret
  | true =>
  refine .perform (.of_role rfl) fun x => ?_
  split
  split
  · exact hclose
  · exact .call (.of_role rfl) fun _ => .ret
  · cases tornTailOk with
    | false => exact hclose
    | true =>
      refine .call (.of_role rfl) fun cut => ?_
      cases cut with
      | false => exact hclose
      | true => exact .call (.of_role rfl) fun _ => .ret

/-- **A start** reaches neither the oracle nor a client. -/
theorem startUp_aside (S : Substrate) (host : Host) : (startUp S cfg host).Only Op.Aside := by
  unfold startUp
  split
  · exact .ret
  split
  · exact .ret
  split
  · exact .ret
  split
  · exact .ret
  refine .call (.of_role rfl) fun opened => ?_
  cases opened with
  | false => exact .ret
  | true =>
  refine .call ⟨fun _ => by simp, fun _ => by simp⟩ fun ready => ?_
  cases ready with
  | false => exact .ret
  | true =>
  refine (aside_of_filing gwWalRecover_filing).bind fun probe =>
    (gwlOpen_aside S _).bind fun x => ?_
  rcases x with _ | ⟨g, cut⟩
  · exact aside_of_filing ((filing_of_mute (logFault_mute _ _)).bind fun _ => .ret)
  · cases cut with
    | false => exact aside_of_filing (exportStage_filing cfg _ _)
    | true =>
      exact aside_of_filing ((gwLogSeq_filing _ _ _ _ _).bind fun _ => exportStage_filing cfg _ _)

theorem shutDown_aside (st : GwState S) : (shutDown secret st).Only Op.Aside :=
  aside_of_filing (filing_of_mute (shutDown_mute secret st))

theorem recording_of_filing {α : Type} {p : Io α} (h : p.Only Op.Filing) : p.Only Op.Recording :=
  h.mono fun _ ho => ho.1

theorem recording_of_quiet {α : Type} {p : Io α} (h : p.Only Op.Quiet) : p.Only Op.Recording :=
  h.mono fun _ => .inl

theorem gwLogSeq_recording (level event msg : Bytes) (seq : UInt64) :
    (gwLogSeq secret level event msg seq).Only Op.Recording :=
  recording_of_quiet (gwLogSeq_quiet secret level event msg seq)

theorem protoError_recording (reason : Bytes) : (protoError reason).Only Op.Recording :=
  recording_of_quiet (protoError_quiet reason)

theorem finishRequest_recording (st : GwState S) (o : Outcome) (info : CommitInfo)
    (params : AxOracleParams) : (finishRequest cfg secret st o info params).Only Op.Recording := by
  have hreport := recording_of_quiet (reportRequest_quiet cfg secret st o info params)
  unfold finishRequest
  refine (recording_of_filing (gwWalClear_filing cfg)).bind fun cleared => ?_
  exact .ite ((gwLogSeq_recording secret _ _ _ _).bind fun _ => hreport) hreport

theorem commitFault_recording (st : GwState S) : (commitFault secret st).Only Op.Recording := by
  unfold commitFault
  exact (gwLogSeq_recording secret _ _ _ _).bind fun _ =>
    (protoError_recording _).bind fun _ => .ret

theorem commitOutcome_recording (st : GwState S) (norm : Bytes) (params : AxOracleParams)
    (o : Outcome) {fault : GwState S → Io (GwState S)}
    (hfault : ∀ st, (fault st).Only Op.Recording) :
    (commitOutcome cfg secret st norm params o fault).Only Op.Recording := by
  unfold commitOutcome
  refine (recording_of_filing (commitObservation_filing cfg _ _ _ _ _ _)).bind fun x => ?_
  rcases x with ⟨st, _ | info⟩
  · exact hfault st
  · exact finishRequest_recording cfg secret st o info params

theorem recordOutcome_recording (st : GwState S) (norm : Bytes) (params : AxOracleParams)
    (res : GwcResult) (o : Outcome) :
    (recordOutcome cfg secret st norm params res o).Only Op.Recording := by
  unfold recordOutcome
  refine commitOutcome_recording cfg secret st norm params o fun st => ?_
  refine .ite ?_ (commitFault_recording secret st)
  exact (recording_of_quiet (gwLogMsg_quiet secret _ _ _ _ _ _)).bind fun _ =>
    commitOutcome_recording cfg secret st norm params _ (commitFault_recording secret)

/-! ## Requests -/

theorem serving_of_recording {α : Type} {p : Io α} (h : p.Only Op.Recording) : p.Only Op.Serving :=
  h.mono fun _ ho => by
    rcases ho with ho | ho | ho | ho
    · exact .inl ho
    · exact .inr (.inl ho)
    · exact .inr (.inr (.inl ho))
    · exact .inr (.inr (.inr (.inl ho)))

theorem serving_of_quiet {α : Type} {p : Io α} (h : p.Only Op.Quiet) : p.Only Op.Serving :=
  h.mono fun _ => .inl

/-- A line in the log, and a refusal. -/
theorem refuse_serving {α : Type} (level event msg reason : Bytes) (seq : UInt64) (a : α) :
    (do gwLogSeq secret level event msg seq; protoError reason; return a : Io α).Only Op.Serving :=
  serving_of_quiet ((gwLogSeq_quiet secret level event msg seq).bind fun _ =>
    (protoError_quiet reason).bind fun _ => .ret)

theorem callOracle_serving (st : GwState S) (norm : Bytes) (params : AxOracleParams)
    (body : Bytes) : (callOracle cfg secret st norm params body).Only Op.Serving := by
  refine .call (.inr (.inr (.inr (.inr ⟨body, rfl⟩)))) fun reply => ?_
  cases reply with
  | none => exact refuse_serving secret _ _ _ _ _ _
  | some res =>
    exact (serving_of_quiet (outcomeOf_quiet cfg secret res)).bind fun o =>
      serving_of_recording (recordOutcome_recording cfg secret _ norm params res o)

theorem openIntent_serving (st : GwState S) (norm : Bytes) (params : AxOracleParams) :
    (openIntent cfg secret st norm params).Only Op.Serving := by
  unfold openIntent
  refine (serving_of_recording (recording_of_filing (gwWalWrite_filing cfg _))).bind fun wrote => ?_
  refine .ite (refuse_serving secret _ _ _ _ _ _) ?_
  · refine (serving_of_quiet (gwLogSeq_quiet secret _ _ _ _)).bind fun _ => ?_
    cases buildRequest cfg params norm with
    | none =>
      exact serving_of_recording ((gwLogSeq_recording secret _ _ _ _).bind fun _ =>
        (recording_of_filing (gwWalClear_filing cfg)).bind fun _ =>
          (protoError_recording _).bind fun _ => .ret)
    | some body => exact callOracle_serving cfg secret st norm params body

theorem serveRequest_serving (st : GwState S) (h : Header) (prompt : Bytes) :
    (serveRequest cfg secret st h prompt).Only Op.Serving := by
  unfold serveRequest
  split
  · exact refuse_serving secret _ _ _ _ _ _
  · exact .ite (refuse_serving secret _ _ _ _ _ _) (openIntent_serving cfg secret st _ _)

/-- **A request** looks at the ledger or writes at its end. -/
theorem handleRequest_serving (st : GwState S) (req : Bytes) :
    (handleRequest cfg secret st req).Only Op.Serving := by
  unfold handleRequest
  split
  · next r _ =>
    cases r.logged with
    | none => exact (serving_of_quiet (protoError_quiet _)).bind fun _ => .ret
    | some msg => exact refuse_serving secret _ _ _ _ _ _
  · exact serveRequest_serving cfg secret st _ _

end Quiet

end AxiomaOracle
