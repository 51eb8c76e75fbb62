import AxiomaOracle.Verify.Served

/-!
# The gateway's buffers

The gateway extracts a text into `AX_MAX_OUTPUT_BYTES` bytes and has the library normalise it into
as many, where the library on its own is given one byte more and cuts a longer text. Both buffers
decide only whether there is a record, never which (`gwjContentText_resize`, `axObsAdmit_resize`),
so the outcome is the library's exactly for the texts that fit both.
-/

namespace AxiomaOracle

open Lib

section Buffers

variable {S : Substrate} {cfg : GwConfig} {host : Host} {node : Bytes → Option Node}
  {w : World} {st : GwState S} {req secret norm : Bytes} {envs : Nat → Env} {hdr : Header}

/-! ## The buffer of the library -/

theorem axObsAdmit_fits {size : Nat} {inp : AxObsInput} {ctx : AxAdmissionCtx}
    {f : AxL3FaultFlags} (hpos : 1 ≤ size) (h : (axObsAdmit S size inp ctx f).ret = none) :
    (outputOf inp.output).length < size := by
  obtain ⟨-, -, -, hnorm⟩ := axObsAdmit_checks h
  rw [axValidateAndNormalise_cases _ _ hpos] at hnorm
  by_contra hlong
  have hfull : size ≤ (normLF (inp.output.bytes.take axMaxOutputBytes)).length :=
    Nat.not_lt.1 hlong
  rw [if_pos hfull] at hnorm
  split at hnorm <;> cases hnorm

/-- The size of the output buffer decides whether a record is admitted, never which. -/
theorem axObsAdmit_resize {size size' : Nat} {inp : AxObsInput} {ctx : AxAdmissionCtx}
    {f : AxL3FaultFlags} (h : (axObsAdmit S size inp ctx f).ret = none)
    (hfits : (outputOf inp.output).length < size') :
    axObsAdmit S size' inp ctx f = axObsAdmit S size inp ctx f := by
  obtain ⟨hord, hid, hvalid, hnorm⟩ := axObsAdmit_checks h
  obtain ⟨-, -, hv, hctl, hnfc⟩ := axValidateAndNormalise_ok hnorm
  have hnorm' : axValidateAndNormalise size' (inp.output.bytes.take axMaxOutputBytes)
      (sizeFaults inp f) = (.ok (outputOf inp.output), sizeFaults inp f) := by
    unfold outputOf at hfits hctl hnfc ⊢
    rw [axValidateAndNormalise_cases _ _ (by omega), if_neg (not_not.2 hv),
      if_neg (Nat.not_le.2 hfits), if_pos ⟨hctl, hnfc⟩]
  rw [axObsAdmit_eq hord hid hvalid hnorm', axObsAdmit_eq hord hid hvalid hnorm]

theorem axObsAdmit_state {size : Nat} {inp : AxObsInput} {ctx : AxAdmissionCtx}
    {f : AxL3FaultFlags} (h : (axObsAdmit S size inp ctx f).ret = none) :
    (axObsAdmit S size inp ctx f).out.completionState = (admitBody S inp).completionState := by
  obtain ⟨-, heq⟩ := axObsAdmit_reaches h
  rw [heq] at h ⊢
  obtain ⟨d, -, hfinish, -⟩ := admitFinish_ok h
  rw [hfinish]

/-- The text of a record tells its state. -/
theorem obsText_state {obs obs' : AxObsRecord} {b : Bool} (h : obsText obs b = obsText obs' b) :
    SameState obs.completionState obs'.completionState := by
  unfold obsText at h
  simp only [List.append_assoc] at h
  exact sameState_of_text (delimited_inj (by decide) (notMem_completionStateText _)
    (notMem_completionStateText _) (List.append_cancel_left h)).1

/-! ## What the library would have recorded -/

/-- The state a stop reason stands for. -/
def stopState (stop : Bytes) : AxCompletionState :=
  if cstr stop = ascii "max_tokens" then .truncated else .complete

/-- The admission of a text with the buffer that the library is tested with. -/
def libraryAdmission (cfg : GwConfig) (st : GwState S) (norm : Bytes) (params : AxOracleParams)
    (stop text : Bytes) : AdmitResult :=
  axObsAdmit S (axMaxOutputBytes + 1)
    (observationInput cfg st (stopState stop) .null norm text params) st.adm {}

variable {params : AxOracleParams} {stop text body : Bytes}

theorem stopState_ne_error (stop : Bytes) : ¬ SameState .error (stopState stop) := by
  unfold stopState
  split <;> simp [SameState]

/-- The library records a text as a text. -/
theorem library_state (h : (libraryAdmission cfg st norm params stop text).ret = none) :
    ¬ SameState .error (libraryAdmission cfg st norm params stop text).out.completionState := by
  have hstate : (libraryAdmission cfg st norm params stop text).out.completionState =
      if (CBuf.ofBytes text).len > axMaxOutputBytes then .truncated else stopState stop :=
    axObsAdmit_state h
  rw [hstate]
  split
  · simp [SameState]
  · exact stopState_ne_error stop

/-- A failure is recorded as an error. -/
theorem failure_state {ftype : AxFailureType}
    (h : (admission cfg st norm params (.failed ftype)).ret = none) :
    (admission cfg st norm params (.failed ftype)).out.completionState = .error :=
  axObsAdmit_state h

theorem outputOf_ofBytes (h : text.length ≤ axMaxOutputBytes) :
    outputOf (.ofBytes text) = normLF text := by
  have hmem : text.length < sizeMod := Nat.lt_of_le_of_lt h (by decide)
  have hbytes : (CBuf.ofBytes text).bytes = text := by
    unfold CBuf.ofBytes
    rw [dif_pos hmem]
    rfl
  rw [outputOf, hbytes, List.take_of_length_le h]

/-- A text in the gateway's buffers: it is admitted when its normal form leaves room for the NUL,
and then it is the library's record. -/
theorem admission_of_library (h : (libraryAdmission cfg st norm params stop text).ret = none)
    (hlen : text.length ≤ axMaxOutputBytes) :
    ((normLF text).length < axMaxOutputBytes →
      admission cfg st norm params ⟨stopState stop, .null, text, true⟩ =
        libraryAdmission cfg st norm params stop text) ∧
    ((admission cfg st norm params ⟨stopState stop, .null, text, true⟩).ret = none →
      (normLF text).length < axMaxOutputBytes) := by
  constructor
  · intro hroom
    refine axObsAdmit_resize h ?_
    rwa [show (observationInput cfg st (stopState stop) .null norm text params).output =
      .ofBytes text from rfl, outputOf_ofBytes hlen]
  · intro hret
    rw [← outputOf_ofBytes hlen]
    exact axObsAdmit_fits (by decide) hret

/-! ## What the gateway records -/

/-- What an extracted text is made of it. -/
theorem outcomeFrom_text {res : GwcResult} {cap : Nat} (hres : res.outcome = .ok)
    (htext : gwjContentText (res.body.getD []) cap = some text)
    (hstop : gwjTopString (res.body.getD []) (ascii "stop_reason") 64 = some stop) :
    outcomeFrom res = if text.length ≤ axMaxOutputBytes then ⟨stopState stop, .null, text, true⟩
      else .failed .invalidOutput := by
  have hextract : extractText (res.body.getD []) =
      if text.length ≤ axMaxOutputBytes then some (text, cstr stop) else none := by
    unfold extractText
    rw [gwjContentText_resize htext]
    split
    · simp [hstop]
    · rfl
  unfold outcomeFrom
  by_cases hlen : text.length ≤ axMaxOutputBytes
  · rw [if_pos hlen] at hextract ⊢
    rw [hres, hextract]
    rfl
  · rw [if_neg hlen] at hextract ⊢
    rw [hres, hextract]

/-- The text fits both buffers. -/
def FitsBuffers (text : Bytes) : Prop :=
  text.length ≤ axMaxOutputBytes ∧ (normLF text).length < axMaxOutputBytes

/-- **Within the buffers the library's record is recorded, and beyond them a failure.** -/
theorem recordedOutcome_text {res : GwcResult} {cap : Nat} (hres : res.outcome = .ok)
    (htext : gwjContentText (res.body.getD []) cap = some text)
    (hstop : gwjTopString (res.body.getD []) (ascii "stop_reason") 64 = some stop)
    (h : (libraryAdmission cfg st norm params stop text).ret = none) :
    (FitsBuffers text → admission cfg st norm params (recordedOutcome cfg st norm params res) =
      libraryAdmission cfg st norm params stop text) ∧
    (¬ FitsBuffers text → recordedOutcome cfg st norm params res = .failed .invalidOutput) := by
  unfold recordedOutcome
  rw [outcomeFrom_text hres htext hstop]
  constructor
  · rintro ⟨hlen, hroom⟩
    have hsame := (admission_of_library h hlen).1 hroom
    rw [if_pos hlen, if_pos (by rw [hsame]; exact h), hsame]
  · intro hbig
    by_cases hlen : text.length ≤ axMaxOutputBytes
    · rw [if_pos hlen, if_neg]
      intro hret
      exact hbig ⟨hlen, (admission_of_library h hlen).2 hret⟩
    · rw [if_neg hlen, ite_self]

theorem mem_oracleCalls {h : List (Answered Op Ans)} {request : Bytes} {res : Option GwcResult}
    (hmem : ⟨.gwcCall request, res⟩ ∈ h) : (request, res) ∈ oracleCalls h :=
  List.mem_filterMap.2 ⟨_, hmem, rfl⟩

/-- **An answered request appends the record of the answer**, when nothing fails. -/
theorem answer_recorded {file : Bytes} (hload : gwConfigLoad file = .ok cfg)
    (hpaths : PathsApart cfg) (hcount : Counts S) (hfault : Faultless S)
    (hsize : ((World.initial node).content cfg .ledger).length ≤ offMax)
    (hreach : (gateway S cfg host).Reaches (fun _ => True) (fun _ => True) (.initial node, .down)
      (w, .idle st)) (hp : Prompts cfg req hdr norm)
    (hok : ∀ c ∈ (machine cfg).trace (handleRequest cfg secret st req) envs w,
      callOk c.1 c.2 = true) {request : Bytes} {res : GwcResult}
    (hcall : ⟨.gwcCall request, some res⟩ ∈
      (machine cfg).trace (handleRequest cfg secret st req) envs w) :
    (admission cfg st norm (requestParams hdr)
      (recordedOutcome cfg st norm (requestParams hdr) res)).ret = none ∧
    ∃ fs f, w.content cfg .ledger = encodeAll fs ∧
      ((machine cfg).eval (handleRequest cfg secret st req) envs w).2.content cfg .ledger =
        encodeAll (fs ++ [f]) ∧
      FrameFor S gwTagObs (obsText (admission cfg st norm (requestParams hdr)
        (recordedOutcome cfg st norm (requestParams hdr) res)).out true) f := by
  have hcfg := gwConfigLoad_ok hload
  obtain ⟨hst, hlawful, -, -, hcommitted⟩ := handleRequest_runs
    (C := fun o a => callOk o a = true) hpaths hcount hsize hreach req secret envs hok
  -- the call was made behind an intent, so within the budget and with no other intent
  obtain ⟨hbudget, habsent⟩ : st.callsMade < cfg.callBudget ∧ w.node (cfg.path .wal) = none := by
    obtain ⟨m, hm, hop⟩ := Machine.exists_step [] hcall
    obtain ⟨_, _, hint⟩ := (hlawful m hm).call request hop
    exact ⟨hint.budget, hint.absent⟩
  obtain ⟨hdr', norm', request', res', fs, f, hp', hcalls, hbefore, hafter, hf⟩ :=
    (hcommitted ⟨smooth_of_callOk hcfg hfault, ⟨hdr, norm, hp⟩, hbudget, habsent⟩).filed
  obtain ⟨rfl, rfl⟩ := hp.unique hp'
  have hmem := mem_oracleCalls hcall
  rw [hcalls] at hmem
  cases List.mem_singleton.1 hmem
  refine ⟨?_, fs, f, hbefore, hafter, hf⟩
  unfold recordedOutcome
  split
  · next hret => exact hret
  · obtain ⟨genesis, gs, hcur⟩ := hst.current habsent
    exact failure_admitted hcfg hfault (hcur.ordered_succ hcount hst.framed) (.inr (.inl rfl)) _ _

/-- A failure is not what the library would have recorded. -/
theorem failure_not_library {ftype : AxFailureType} {fs : List Frame} {f : Frame}
    (hret : (admission cfg st norm params (.failed ftype)).ret = none)
    (hf : FrameFor S gwTagObs (obsText (admission cfg st norm params (.failed ftype)).out true) f)
    (hlib : (libraryAdmission cfg st norm params stop text).ret = none) :
    ¬ ∃ f', FrameFor S gwTagObs
        (obsText (libraryAdmission cfg st norm params stop text).out true) f' ∧
      encodeAll (fs ++ [f]) = encodeAll fs ++ f'.encode := by
  rintro ⟨f', hf', heq⟩
  have hframes := congrArg frames heq
  rw [show encodeAll fs ++ f'.encode = encodeAll (fs ++ [f']) by simp, frames_encodeAll',
    frames_encodeAll'] at hframes
  obtain rfl := List.singleton_inj.1 (List.append_cancel_left hframes)
  have hstate := obsText_state (hf.payload_eq.symm.trans hf'.payload_eq)
  rw [failure_state hret] at hstate
  exact library_state hlib hstate

/-- **The buffers keep the outcome exactly for the texts that fit them.** An answered request whose
text the library admits commits the library's record if and only if the text has at most
`AX_MAX_OUTPUT_BYTES` bytes, and its normal form fewer. -/
theorem buffers_keep_outcome {file : Bytes} (hload : gwConfigLoad file = .ok cfg)
    (hpaths : PathsApart cfg) (hcount : Counts S) (hfault : Faultless S)
    (hsize : ((World.initial node).content cfg .ledger).length ≤ offMax)
    (hreach : (gateway S cfg host).Reaches (fun _ => True) (fun _ => True) (.initial node, .down)
      (w, .idle st)) (hp : Prompts cfg req hdr norm)
    (hok : ∀ c ∈ (machine cfg).trace (handleRequest cfg secret st req) envs w,
      callOk c.1 c.2 = true) {request : Bytes} {res : GwcResult}
    (hcall : ⟨.gwcCall request, some res⟩ ∈
      (machine cfg).trace (handleRequest cfg secret st req) envs w)
    (hres : res.outcome = .ok) {cap : Nat}
    (htext : gwjContentText (res.body.getD []) cap = some text)
    (hstop : gwjTopString (res.body.getD []) (ascii "stop_reason") 64 = some stop)
    (hlib : (libraryAdmission cfg st norm (requestParams hdr) stop text).ret = none) :
    (∃ f, FrameFor S gwTagObs
        (obsText (libraryAdmission cfg st norm (requestParams hdr) stop text).out true) f ∧
      ((machine cfg).eval (handleRequest cfg secret st req) envs w).2.content cfg .ledger =
        w.content cfg .ledger ++ f.encode) ↔
    FitsBuffers text := by
  obtain ⟨hret, fs, f, hbefore, hafter, hf⟩ :=
    answer_recorded hload hpaths hcount hfault hsize hreach
    hp hok hcall
  obtain ⟨hsame, hdegraded⟩ := recordedOutcome_text hres htext hstop hlib
  rw [hafter, hbefore]
  constructor
  · intro hlibrary
    by_contra hbig
    rw [hdegraded hbig] at hf hret
    exact failure_not_library hret hf hlib hlibrary
  · intro hfits
    rw [hsame hfits] at hf
    exact ⟨f, hf, by simp⟩

end Buffers

/-! ## A body that is not read -/

/-- The same files and descriptors. -/
structure Alike (w w' : World) : Prop where
  node : w'.node = w.node
  fd : w'.fd = w.fd

/-- Only the oracle call shows what the oracle answers. -/
theorem exec_alike (cfg : GwConfig) {o : Op} (ho : ∀ request, o ≠ .gwcCall request)
    (e : Env) (reply : Option GwcResult) {w w' : World} (h : Alike w w') :
    (exec cfg o { e with reply := reply } w').1 = (exec cfg o e w).1 ∧
      Alike (exec cfg o e w).2 (exec cfg o { e with reply := reply } w').2 := by
  obtain ⟨node, fd, calls, sent, walMarks⟩ := w
  obtain ⟨node', fd', calls', sent', walMarks'⟩ := w'
  obtain ⟨hnode, hfd⟩ := h
  dsimp only at hnode hfd
  subst hnode hfd
  cases o with
  | gwcCall request => exact absurd rfl (ho request)
  | openCreat r =>
    simp only [exec, execOpen]
    split <;> [skip; split] <;> exact ⟨rfl, rfl, rfl⟩
  | openTrunc r =>
    simp only [exec, execOpen]
    split <;> [skip; split] <;> exact ⟨rfl, rfl, rfl⟩
  | openAppend r =>
    simp only [exec, execOpen]
    split <;> [skip; split] <;> exact ⟨rfl, rfl, rfl⟩
  | openExcl r =>
    simp only [exec, execOpenExcl]
    split <;> [skip; split] <;> exact ⟨rfl, rfl, rfl⟩
  | seekEnd r =>
    refine ⟨rfl, ?_⟩
    simp only [exec]
    split <;> exact ⟨rfl, rfl⟩
  | write r bs =>
    simp only [exec, execWrite]
    split
    · exact ⟨rfl, rfl, rfl⟩
    · next f _ =>
      obtain ⟨off, live, append⟩ := f
      cases live <;> cases append <;> exact ⟨rfl, rfl, rfl⟩
  | ftruncate r size =>
    simp only [exec, execFtruncate]
    split <;> [skip; split] <;> [skip; skip; split] <;> exact ⟨rfl, rfl, rfl⟩
  | unlink r =>
    simp only [exec, execUnlink]
    split <;> exact ⟨rfl, rfl, rfl⟩
  | bind r =>
    simp only [exec]
    split <;> exact ⟨rfl, rfl, rfl⟩
  | _ => exact ⟨rfl, rfl, rfl⟩

/-- The request of a call to the oracle. -/
def called : Op → Option Bytes
  | .gwcCall request => some request
  | _ => none

/-- What is looked at in a call: what it asks the oracle, and whether it succeeds. -/
def gist (c : Answered Op Ans) : Option Bytes × Bool := (called c.1, callOk c.1 c.2)

/-- A program runs alike in two environments. -/
def RunsAlike (cfg : GwConfig) (e e' : Env) {α : Type} (p : Io α) : Prop :=
  ∀ w w', Alike w w' →
    ((machine cfg).trace p (fun _ => e') w').map gist =
      ((machine cfg).trace p (fun _ => e) w).map gist ∧
    ((machine cfg).eval p (fun _ => e') w').1 = ((machine cfg).eval p (fun _ => e) w).1 ∧
    Alike ((machine cfg).eval p (fun _ => e) w).2 ((machine cfg).eval p (fun _ => e') w').2

section RunsAlike

variable {S : Substrate} {cfg : GwConfig} {e : Env} {reply : Option GwcResult} {α β : Type}

theorem RunsAlike.of_only {p : Io α} (hp : p.Only fun o => ∀ request, o ≠ .gwcCall request) :
    RunsAlike cfg e { e with reply := reply } p := by
  induction hp with
  | ret => exact fun w w' h => ⟨rfl, rfl, h⟩
  | @call o k ho _ ih =>
    intro w w' h
    obtain ⟨hans, hnext⟩ := exec_alike cfg ho e reply h
    obtain ⟨htrace, heval⟩ := ih (exec cfg o e w).1 _ _ hnext
    simp only [Machine.trace, Machine.eval, List.map_cons, gist]
    rw [hans]
    exact ⟨congrArg _ htrace, heval⟩

theorem RunsAlike.bind {e' : Env} {p : Io α} {f : α → Io β} (hp : RunsAlike cfg e e' p)
    (hf : ∀ a, RunsAlike cfg e e' (f a)) : RunsAlike cfg e e' (p >>= f) := by
  intro w w' h
  obtain ⟨htrace, hvalue, hnext⟩ := hp w w' h
  rw [Machine.trace_bind, Machine.trace_bind, Machine.eval_bind, Machine.eval_bind,
    List.map_append, List.map_append, htrace, hvalue]
  obtain ⟨htrace', heval'⟩ := hf _ _ _ hnext
  exact ⟨congrArg _ htrace', heval'⟩

theorem RunsAlike.of_recording {p : Io α} (hp : p.Only Op.Recording) :
    RunsAlike cfg e { e with reply := reply } p :=
  .of_only (hp.mono fun _ ho => ho.not_gwcCall)

variable {secret norm request body : Bytes} {st : GwState S} {params : AxOracleParams}

/-- What follows the answer of the oracle. -/
def answered (cfg : GwConfig) (secret : Bytes) (st : GwState S) (norm : Bytes)
    (params : AxOracleParams) (res : GwcResult) : Io (GwState S) :=
  outcomeOf cfg secret res >>=
    recordOutcome cfg secret { st with callsMade := st.callsMade + 1 } norm params res

theorem answered_recording (res : GwcResult) :
    (answered cfg secret st norm params res).Only Op.Recording :=
  (recording_of_quiet (outcomeOf_quiet cfg secret res)).bind
    (recordOutcome_recording cfg secret _ norm params res)

/-- A body without a text is recorded as any other without one. -/
theorem answered_unread (hfixture : cfg.fixtureCapturePath.bytes = [])
    (hnone : extractText body = none) :
    answered cfg secret st norm params (okResult body) =
      answered cfg secret st norm params (okResult []) := by
  have hcapture : ∀ bs, captureFixture cfg secret bs = pure () := fun bs => if_pos hfixture
  have hok : ∀ bs, outcomeOf cfg secret (okResult bs) =
      (captureFixture cfg secret bs >>= fun _ => outcomeOfBody secret (okResult bs)) := fun _ => rfl
  have hbody : extractText ((okResult body).body.getD []) = none := hnone
  have hempty : extractText ((okResult []).body.getD []) = none := rfl
  have houtcome : outcomeOf cfg secret (okResult body) = outcomeOf cfg secret (okResult []) := by
    rw [hok, hok, hcapture, hcapture, outcomeOfBody, outcomeOfBody, hbody, hempty]
    rfl
  unfold answered
  rw [houtcome]
  rfl

theorem callOracle_alike (hfixture : cfg.fixtureCapturePath.bytes = [])
    (hnone : extractText body = none) : RunsAlike cfg (answering []) (answering body)
      (callOracle cfg secret st norm params request) := by
  intro w w' h
  have htrace : ∀ bs w, (machine cfg).trace (callOracle cfg secret st norm params request)
      (fun _ => answering bs) w = ⟨.gwcCall request, some (okResult bs)⟩ ::
        (machine cfg).trace (answered cfg secret st norm params (okResult bs))
          (fun _ => answering bs) { w with calls := (request, some (okResult bs)) :: w.calls } :=
    fun _ _ => rfl
  have heval : ∀ bs w, (machine cfg).eval (callOracle cfg secret st norm params request)
      (fun _ => answering bs) w =
        (machine cfg).eval (answered cfg secret st norm params (okResult bs))
          (fun _ => answering bs) { w with calls := (request, some (okResult bs)) :: w.calls } :=
    fun _ _ => rfl
  rw [htrace, htrace, heval, heval, answered_unread hfixture hnone]
  have hrest : RunsAlike cfg (answering []) (answering body)
      (answered cfg secret st norm params (okResult [])) := .of_recording (answered_recording _)
  obtain ⟨hgist, hend⟩ := hrest { w with calls := (request, some (okResult [])) :: w.calls }
    { w' with calls := (request, some (okResult body)) :: w'.calls } ⟨h.node, h.fd⟩
  rw [List.map_cons, List.map_cons, hgist]
  exact ⟨rfl, hend⟩

theorem handleRequest_alike (hfixture : cfg.fixtureCapturePath.bytes = [])
    (hnone : extractText body = none) (req : Bytes) : RunsAlike cfg (answering []) (answering body)
      (handleRequest cfg secret st req) := by
  have hlog : ∀ level event msg seq, RunsAlike cfg (answering []) (answering body)
      (gwLogSeq secret level event msg seq) :=
    fun _ _ _ _ => .of_recording (gwLogSeq_recording secret _ _ _ _)
  have hrefuse : ∀ reason, RunsAlike cfg (answering []) (answering body)
      (do protoError reason; return st) :=
    fun reason => .of_recording ((protoError_recording reason).bind fun _ => .ret)
  unfold handleRequest
  split
  · next r _ =>
    cases r.logged with
    | none => exact hrefuse _
    | some msg => exact (hlog _ _ _ _).bind fun _ => hrefuse _
  unfold serveRequest
  split
  · exact (hlog _ _ _ _).bind fun _ => hrefuse _
  split
  · exact (hlog _ _ _ _).bind fun _ => hrefuse _
  unfold openIntent
  refine RunsAlike.bind (.of_recording (recording_of_filing (gwWalWrite_filing cfg _))) fun ok => ?_
  cases ok with
  | false => exact (hlog _ _ _ _).bind fun _ => hrefuse _
  | true =>
    refine (hlog _ _ _ _).bind fun _ => ?_
    split
    · refine (hlog _ _ _ _).bind fun _ => ?_
      exact (RunsAlike.of_recording (recording_of_filing (gwWalClear_filing cfg))).bind
        fun _ => hrefuse _
    · exact callOracle_alike hfixture hnone

end RunsAlike

/-! ## Texts that fit and texts that do not -/

/-- The calls of a request after the first start. -/
abbrev servedTrace (body : Bytes) : List (Answered Op Ans) :=
  (machine servedConfig).trace (handleRequest servedConfig [] servedState sampleRequest)
    (fun _ => answering body) servedWorld

/-- The request body that is sent for it. -/
def servedRequest : Bytes :=
  (buildRequest servedConfig (requestParams ⟨2, 1024, 0, -1⟩) (ascii "hi")).getD []

theorem called_answering {cfg : GwConfig} {α : Type} {p : Io α} {body request : Bytes} {w : World}
    (h : some request ∈ ((machine cfg).trace p (fun _ => answering body) w).map (called ·.1)) :
    ⟨.gwcCall request, some (okResult body)⟩ ∈ (machine cfg).trace p
      (fun _ => answering body) w := by
  induction p generalizing w with
  | pure a => cases h
  | call o k ih =>
    rcases List.mem_cons.1 h with h | h
    · cases o with
      | gwcCall request' =>
        cases h
        exact List.mem_cons_self
      | _ => cases h
    · exact List.mem_cons_of_mem _ (ih _ h)

theorem servedTrace_ok (body : Bytes) (h : ((servedTrace body).map gist).all Prod.snd = true ∧
      some servedRequest ∈ ((servedTrace body).map gist).map Prod.fst) :
    (∀ c ∈ servedTrace body, callOk c.1 c.2 = true) ∧
      ⟨.gwcCall servedRequest, some (okResult body)⟩ ∈ servedTrace body := by
  rw [List.map_map] at h
  constructor
  · intro c hc
    exact List.all_eq_true.1 h.1 _ (List.mem_map_of_mem hc)
  · exact called_answering h.2

theorem buffers_keep_outcome_sample :
    FitsBuffers (ascii "hello") ∧
    ∃ f, FrameFor sampleSubstrate gwTagObs
        (obsText (libraryAdmission servedConfig servedState (ascii "hi")
          (requestParams ⟨2, 1024, 0, -1⟩) (ascii "end_turn") (ascii "hello")).out true) f ∧
      (servedRun (ascii "hello")).2.content servedConfig .ledger =
        servedWorld.content servedConfig .ledger ++ f.encode := by
  have hfits : FitsBuffers (ascii "hello") := ⟨by decide, by decide⟩
  obtain ⟨hok, hcall⟩ := servedTrace_ok (bodyWith (ascii "hello")) (by decide +kernel)
  refine ⟨hfits, ?_⟩
  exact (buffers_keep_outcome servedConfig_loads pathsApart_servedConfig counts_sampleSubstrate
    faultless_sampleSubstrate (Nat.zero_le _) servedState_reached sampleRequest_prompts
      hok hcall rfl
    (bodyWith_text (by decide) (Nat.le_refl _)) (bodyWith_stop _) (by decide +kernel)).2 hfits

/-! ## A text that does not fit -/

/-- One letter more than the buffers hold. -/
def longText : Bytes := List.replicate (axMaxOutputBytes + 1) 97

theorem longText_unescaped : Unescaped longText := by
  intro b hb
  rw [(List.mem_replicate.1 hb).2]
  decide

theorem longText_length : longText.length = axMaxOutputBytes + 1 := List.length_replicate

theorem longText_unread : extractText (bodyWith longText) = none := by
  have htext := bodyWith_text longText_unescaped (Nat.le_of_eq longText_length)
  unfold extractText
  rw [gwjContentText_resize htext, if_neg (by rw [longText_length]; exact Nat.not_succ_le_self _)]
  rfl

/-- The calls are those for an empty body. -/
theorem longText_calls : (∀ c ∈ servedTrace (bodyWith longText), callOk c.1 c.2 = true) ∧
    ⟨.gwcCall servedRequest, some (okResult (bodyWith longText))⟩ ∈
      servedTrace (bodyWith longText) := by
  have hgist : (servedTrace (bodyWith longText)).map gist = (servedTrace []).map gist :=
    (handleRequest_alike (by decide) longText_unread sampleRequest servedWorld servedWorld
      ⟨rfl, rfl⟩).1
  refine servedTrace_ok _ ?_
  rw [hgist]
  decide +kernel

theorem longText_plain : PlainLong longText ∧ CutsBetween longText := by
  constructor
  · have h := plainLong_letters (n := axMaxOutputBytes + 1) .nil (by simp) (by decide) rfl
      (Nat.lt_succ_self _)
    rw [List.append_nil] at h
    unfold longText
    exact h
  · intro b hb
    rw [(List.mem_replicate.1 (List.mem_of_getElem? hb)).2]
    decide

theorem observationInput_output {S : Substrate} (cfg : GwConfig) (st : GwState S)
    (state : AxCompletionState) (ftype : AxFailureType) (input output : Bytes)
    (params : AxOracleParams) :
    (observationInput cfg st state ftype input output params).output = .ofBytes output := rfl

/-- The library admits it, cut. -/
theorem longText_admitted : (libraryAdmission servedConfig servedState (ascii "hi")
    (requestParams ⟨2, 1024, 0, -1⟩) (ascii "end_turn") longText).ret = none := by
  have hcfg := gwConfigLoad_ok servedConfig_loads
  have hbytes : (CBuf.ofBytes longText).bytes = longText := by
    have hlen : longText.length < sizeMod := by
      rw [longText_length]
      decide
    unfold CBuf.ofBytes
    rw [dif_pos hlen]
    rfl
  obtain ⟨hplain, hcut⟩ := longText_plain
  rw [← hbytes] at hplain hcut
  unfold libraryAdmission
  generalize hinp : observationInput servedConfig servedState (stopState (ascii "end_turn")) .null
    (ascii "hi") longText (requestParams ⟨2, 1024, 0, -1⟩) = inp
  have houtput : inp.output = .ofBytes longText := by
    rw [← hinp, observationInput_output]
  rw [← houtput] at hplain hcut
  have hfresh : servedState.adm.initialized = false := by decide +kernel
  have hordered :
      ¬ (servedState.adm.initialized ∧ inp.ledgerSeq ≤ servedState.adm.lastLedgerSeq) := by
    rintro ⟨hinit, -⟩
    rw [hfresh] at hinit
    cases hinit
  have hmodel : IdAdmitted inp.modelId 256 ∧ Unescaped (optBytes inp.modelId) := by
    rw [← hinp]
    exact ⟨hcfg.named.mono (by decide), (by decide : Unescaped servedConfig.modelId.bytes)⟩
  have horacle : IdAdmitted inp.oracleId 256 ∧ Unescaped (optBytes inp.oracleId) := by
    rw [← hinp]
    exact ⟨hcfg.oracleId.mono (by decide), (by decide : Unescaped servedConfig.oracleId.bytes)⟩
  have hstates : (inp.completionState = .complete ∨ inp.completionState = .truncated) ∧
      inp.failureType = .null := by
    rw [← hinp]
    exact ⟨.inl (by decide +kernel : stopState (ascii "end_turn") = .complete), rfl⟩
  have hinput : ¬ (inp.input.isNull = true ∧ 0 < inp.input.len) := by
    rw [← hinp]
    exact CBuf.ofBytes_present (ascii "hi")
  obtain ⟨-, -, d, heq⟩ := hplain.admitted (S := sampleSubstrate) (fun _ hnone => nomatch hnone)
    hordered hmodel.1 horacle.1 hmodel.2 horacle.2 hstates hcut hinput {}
  rw [heq]

/-- The library cuts a text that is one byte too long, and the gateway records a failure. -/
theorem long_text_degraded :
    (gateway sampleSubstrate servedConfig sampleHost).Reaches (fun _ => True) (fun _ => True)
      (.initial fun _ => none, .down) (servedWorld, .idle servedState) ∧
    (∀ c ∈ servedTrace (bodyWith longText), callOk c.1 c.2 = true) ∧
    ⟨.gwcCall servedRequest, some (okResult (bodyWith longText))⟩ ∈
      servedTrace (bodyWith longText) ∧
    gwjContentText (bodyWith longText) (axMaxOutputBytes + 1) = some longText ∧
    gwjTopString (bodyWith longText) (ascii "stop_reason") 64 = some (ascii "end_turn") ∧
    (libraryAdmission servedConfig servedState (ascii "hi") (requestParams ⟨2, 1024, 0, -1⟩)
      (ascii "end_turn") longText).ret = none ∧
    ¬ ∃ f, FrameFor sampleSubstrate gwTagObs (obsText (libraryAdmission servedConfig servedState
        (ascii "hi") (requestParams ⟨2, 1024, 0, -1⟩) (ascii "end_turn") longText).out true) f ∧
      (servedRun longText).2.content servedConfig .ledger =
        servedWorld.content servedConfig .ledger ++ f.encode := by
  obtain ⟨hok, hcall⟩ := longText_calls
  have htext : gwjContentText (bodyWith longText) (axMaxOutputBytes + 1) = some longText :=
    bodyWith_text longText_unescaped (Nat.le_of_eq longText_length)
  refine ⟨servedState_reached, hok, hcall, htext, bodyWith_stop _, longText_admitted, ?_⟩
  obtain ⟨hret, fs, f, hbefore, hafter, hf⟩ := answer_recorded servedConfig_loads
    pathsApart_servedConfig counts_sampleSubstrate faultless_sampleSubstrate (Nat.zero_le _)
    servedState_reached sampleRequest_prompts hok hcall
  have hbig : ¬ FitsBuffers longText := fun hfits =>
    absurd hfits.1 (by rw [longText_length]; exact Nat.not_succ_le_self _)
  have hres : (okResult (bodyWith longText)).outcome = .ok := rfl
  have hdegraded :=
    (recordedOutcome_text hres htext (bodyWith_stop longText) longText_admitted).2 hbig
  rw [hdegraded] at hret hf
  unfold servedRun
  rw [hafter, hbefore]
  exact failure_not_library hret hf longText_admitted

end AxiomaOracle
