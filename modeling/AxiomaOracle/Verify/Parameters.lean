import AxiomaOracle.Lib.Lines
import AxiomaOracle.Verify.Footprint
import AxiomaOracle.Verify.Upstream

/-!
# Request parameters

The header loop reads four numbers into variables whose initial values stand for "not sent". Here
the numbers are described line by line: the value of a parameter is that of the last line that sets
it (`headerLoop_values`). The checks behind the loop bound them, and the record and the upstream
request carry them on (`handleRequest_carries`). A negative `top_p_q16` is the one value that is
taken for absence (`params_as_given_iff`).
-/

namespace AxiomaOracle

open Lib

/-! ## The lines of a header -/

/-- A line without its newline, as a C string. -/
def headerLine (raw : Bytes) : Bytes := (CStr.ofBytes (raw.takeWhile (· != chr '\n'))).bytes

/-- The lines in front of the first blank one. -/
def headerLines (req : Bytes) : List Bytes := ((lines req).map headerLine).takeWhile (· ≠ [])

/-- The value of a parameter on the last line that sets it. -/
def lastParam (key : Bytes) (ls : List Bytes) : Option Int :=
    (ls.filterMap (C.scanLong key)).getLast?

theorem lastParam_cons_some {key l : Bytes} {v : Int} (h : C.scanLong key l = some v)
    (ls : List Bytes) : lastParam key (l :: ls) = some ((lastParam key ls).getD v) := by
  rw [lastParam, List.filterMap_cons_some h, List.getLast?_cons, lastParam]

theorem lastParam_cons_none {key l : Bytes} (h : C.scanLong key l = none) (ls : List Bytes) :
    lastParam key (l :: ls) = lastParam key ls := by
  rw [lastParam, List.filterMap_cons_none h, lastParam]

/-- A line sets one parameter. -/
theorem scanLong_other {key key' line : Bytes} {v : Int} (h : C.scanLong key line = some v)
    (hk : ¬ key <+: key') (hk' : ¬ key' <+: key) : C.scanLong key' line = none := by
  have hpre : key <+: line := by
    unfold C.scanLong at h
    split at h
    · assumption
    · cases h
  refine if_neg fun hpre' => ?_
  rcases List.prefix_or_prefix_of_prefix hpre hpre' with hp | hp
  · exact hk hp
  · exact hk' hp

theorem readLineLoop_split {room : Nat} {s line rest : Bytes}
    (h : readLineLoop room s = some (line, rest)) : chr '\n' ∉ line ∧ s = line ++
    chr '\n' :: rest := by
  induction room generalizing s line with
  | zero => cases h
  | succ room ih =>
    cases s with
    | nil => cases h
    | cons c s =>
      rw [readLineLoop] at h
      split at h
      · next hc =>
        cases h
        exact ⟨List.not_mem_nil, by rw [hc, List.nil_append]⟩
      · next hc =>
        obtain ⟨⟨line', rest'⟩, hrec, heq⟩ := Option.map_eq_some_iff.1 h
        cases heq
        obtain ⟨hnl, rfl⟩ := ih hrec
        refine ⟨?_, rfl⟩
        rw [List.mem_cons, not_or]
        exact ⟨Ne.symm hc, hnl⟩

theorem takeWhile_line {line : Bytes} (h : chr '\n' ∉ line) :
    (line ++ [chr '\n']).takeWhile (· != chr '\n') = line := by
  rw [List.takeWhile_append_of_pos fun b hb => ?_]
  · simp
  · rw [bne_iff_ne]
    rintro rfl
    exact h hb

/-- The header behind one line. -/
theorem headerLines_cons {line rest : Bytes} (h : chr '\n' ∉ line) :
    headerLines (line ++ chr '\n' :: rest) =
      if (CStr.ofBytes line).bytes = [] then []
      else (CStr.ofBytes line).bytes :: headerLines rest := by
  rw [headerLines, lines_line h, List.map_cons, headerLine, takeWhile_line h, List.takeWhile_cons]
  by_cases hblank : (CStr.ofBytes line).bytes = []
  · rw [if_pos hblank, if_neg (by simp [hblank])]
  · rw [if_neg hblank, if_pos (by simp [hblank])]
    rfl

/-- **The value of each parameter is that of its last line**, or what it was before the header. -/
theorem headerLoop_values {fuel : Nat} {h0 h : Header} {s rest : Bytes}
    (hok : headerLoop fuel h0 s = .ok (h, rest)) :
    h.promptLen = (lastParam (ascii "prompt_len:") (headerLines s)).getD h0.promptLen ∧
    h.maxTokens = (lastParam (ascii "max_tokens:") (headerLines s)).getD h0.maxTokens ∧
    h.tempQ16 = (lastParam (ascii "temperature_q16:") (headerLines s)).getD h0.tempQ16 ∧
    h.topPQ16 = (lastParam (ascii "top_p_q16:") (headerLines s)).getD h0.topPQ16 := by
  induction fuel generalizing h0 s with
  | zero => cases hok
  | succ fuel ih =>
    unfold headerLoop at hok
    dsimp only at hok
    split at hok
    · cases hok
    next raw s' hread =>
    obtain ⟨hnl, rfl⟩ := readLineLoop_split hread
    rw [headerLines_cons hnl]
    split at hok
    · next hblank =>
      cases hok
      rw [if_pos hblank]
      exact ⟨rfl, rfl, rfl, rfl⟩
    next hline =>
    rw [if_neg hline]
    generalize (CStr.ofBytes raw).bytes = line at hok ⊢
    -- the line of each parameter in turn
    split at hok
    · next v hv =>
      rw [lastParam_cons_some hv,
        lastParam_cons_none (scanLong_other hv (by decide) (by decide)),
        lastParam_cons_none (scanLong_other hv (by decide) (by decide)),
        lastParam_cons_none (scanLong_other hv (by decide) (by decide))]
      exact ih hok
    next h1 =>
    split at hok
    · next v hv =>
      rw [lastParam_cons_none h1, lastParam_cons_some hv,
        lastParam_cons_none (scanLong_other hv (by decide) (by decide)),
        lastParam_cons_none (scanLong_other hv (by decide) (by decide))]
      exact ih hok
    next h2 =>
    split at hok
    · next v hv =>
      rw [lastParam_cons_none h1, lastParam_cons_none h2, lastParam_cons_some hv,
        lastParam_cons_none (scanLong_other hv (by decide) (by decide))]
      exact ih hok
    next h3 =>
    split at hok
    · next v hv =>
      rw [lastParam_cons_none h1, lastParam_cons_none h2, lastParam_cons_none h3,
        lastParam_cons_some hv]
      exact ih hok
    · split at hok <;> cases hok

/-! ## What a request carries on -/

section Carries

variable {S : Substrate} (cfg : GwConfig) (secret : Bytes) (p : AxOracleParams)

variable (S) in
/-- A call of a request with the parameters `p`: a call to the oracle has the body built from them,
a write to the ledger is part of the frame of a record that holds them, and a write to the WAL is
the text of an intent that holds them. -/
structure Op.Carries (o : Op) : Prop where
  upstream : ∀ body, o = .gwcCall body → ∃ norm, buildRequest cfg p norm = some body
  record : ∀ chunk, o = .write .ledger chunk → ∃ rec f, rec.params = p ∧
    FrameFor S gwTagObs (obsText rec true) f ∧ chunk ∈ frameChunks f.tag f.payload f.commit
  intent : ∀ bs, o = .write .wal bs → ∃ norm, bs = intentText (requestIntent (S := S) cfg norm p)

variable {cfg p}

theorem Op.Quiet.carries {o : Op} (h : o.Quiet) : o.Carries S cfg p := by
  rcases h with rfl | rfl | hcap | ⟨hl, hw, -, hcall⟩
  · exact ⟨nofun, nofun, nofun⟩
  · exact ⟨nofun, nofun, nofun⟩
  · rcases hcap with rfl | ⟨bs, rfl⟩ | rfl | rfl
    all_goals exact ⟨nofun, nofun, nofun⟩
  · refine ⟨fun body heq => absurd heq (hcall body), ?_, ?_⟩
    · rintro chunk rfl
      exact absurd rfl hl
    · rintro bs rfl
      exact absurd rfl hw

theorem carries_of_quiet {α : Type} {q : Io α} (h : q.Only Op.Quiet) :
    q.Only (Op.Carries S cfg p) := h.mono fun _ ho => ho.carries

theorem carries_other {o : Op} (hcall : ∀ body, o ≠ .gwcCall body)
    (hwrite : ∀ r bs, o ≠ .write r bs) : o.Carries S cfg p :=
  ⟨fun body heq => absurd heq (hcall body), fun chunk heq => absurd heq (hwrite _ chunk),
    fun bs heq => absurd heq (hwrite _ bs)⟩

theorem writeAll_chunks (r : Role) (chunks : List Bytes) :
    (writeAll r chunks).Only fun o => ∃ chunk ∈ chunks, o = .write r chunk := by
  induction chunks with
  | nil => exact .ret
  | cons chunk chunks ih =>
    refine .perform ⟨chunk, List.mem_cons_self, rfl⟩ fun ok => ?_
    cases ok with
    | false => exact .ret
    | true => exact ih.mono fun o ⟨c, hc, ho⟩ => ⟨c, List.mem_cons_of_mem _ hc, ho⟩

theorem gwlAppend_carries (g : Gwl S) {rec : AxObsRecord} (hrec : rec.params = p) :
    (gwlAppend g gwTagObs (obsText rec true)).Only (Op.Carries S cfg p) := by
  unfold gwlAppend
  split
  · exact .ret
  split
  · exact .ret
  split
  · exact .ret
  next htag hpay =>
  cases hcommit : S.axCommitEvidence gwTagObs (obsText rec true) with
  | none => exact .ret
  | some commit =>
  refine ((writeAll_chunks .ledger _).mono ?_).bind fun wrote => ?_
  · rintro o ⟨chunk, hchunk, rfl⟩
    refine ⟨nofun, ?_, nofun⟩
    intro chunk' heq
    cases heq
    exact ⟨rec, ⟨gwTagObs.bytes, obsText rec true, commit.bytes, by omega, by omega, commit.size⟩,
      hrec, ⟨rfl, rfl, hcommit⟩, hchunk⟩
  cases wrote with
  | false => exact .ret
  | true =>
  refine .call (carries_other nofun nofun) fun synced => ?_
  cases synced with
  | false => exact .ret
  | true =>
  refine (carries_of_quiet (quiet_of_mute (mirrorFrame_mute g _))).bind fun g' => ?_
  cases S.axLedgerAppend g'.ctx commit with
  | none => exact .ret
  | some ctx => exact .ret

/-- The record of an accepted input holds its parameters. -/
theorem axObsAdmit_params {size : Nat} {inp : AxObsInput} {ctx : AxAdmissionCtx}
    {f : AxL3FaultFlags} (h : (axObsAdmit S size inp ctx f).ret = none) :
    (axObsAdmit S size inp ctx f).out.params = inp.params := by
  obtain ⟨-, heq⟩ := axObsAdmit_reaches h
  obtain ⟨d, -, hfin, -⟩ := admitFinish_ok (heq ▸ h)
  rw [heq, hfin]
  rfl

variable (cfg p)

theorem commitObservation_carries (st : GwState S) (state : AxCompletionState)
    (ftype : AxFailureType) (input output : Bytes) :
    (commitObservation cfg st state ftype input output p).Only (Op.Carries S cfg p) := by
  unfold commitObservation
  dsimp only
  split
  · exact .ret
  next hret =>
  split
  · exact .ret
  split
  · exact .ret
  next canon hcanon =>
  split
  · exact .ret
  obtain ⟨rfl, -⟩ := axObsCanonicalise_ok_iff.1 hcanon
  refine (gwlAppend_carries _ (axObsAdmit_params hret)).bind fun gr => ?_
  rcases gr with ⟨g, _ | ⟨head, seq⟩⟩
  · exact .ret
  · exact .ret

theorem fsyncParentDir_carries : (fsyncParentDir cfg .wal).Only (Op.Carries S cfg p) := by
  unfold fsyncParentDir
  split
  · exact .ret
  · exact .call (carries_other nofun nofun) fun _ => .ret

theorem gwWalClear_carries : (gwWalClear cfg).Only (Op.Carries S cfg p) := by
  refine .call (carries_other nofun nofun) fun gone => ?_
  cases gone with
  | false => exact .ret
  | true => exact fsyncParentDir_carries cfg p

theorem gwWalWrite_carries (norm : Bytes) :
    (gwWalWrite cfg (requestIntent (S := S) cfg norm p)).Only (Op.Carries S cfg p) := by
  have hclose : closeWal.Only (Op.Carries S cfg p) :=
    .call (carries_other nofun nofun) fun _ => .ret
  refine .call (carries_other nofun nofun) fun created => ?_
  cases created with
  | false => exact .ret
  | true =>
  cases hbuf : C.snprintf 768 (intentText (requestIntent (S := S) cfg norm p)) with
  | none => exact hclose
  | some buf =>
  obtain rfl := C.snprintf_eq_some hbuf
  refine .call ⟨nofun, nofun, ?_⟩ fun wrote => ?_
  · intro bs heq
    cases heq
    exact ⟨norm, rfl⟩
  cases wrote with
  | false => exact hclose
  | true =>
  refine .call (carries_other nofun nofun) fun synced => ?_
  cases synced with
  | false => exact hclose
  | true => exact .call (carries_other nofun nofun) fun _ => fsyncParentDir_carries cfg p

theorem commitOutcome_carries (st : GwState S) (norm : Bytes) (o : Outcome)
    {fault : GwState S → Io (GwState S)} (hfault : ∀ st, (fault st).Only (Op.Carries S cfg p)) :
    (commitOutcome cfg secret st norm p o fault).Only (Op.Carries S cfg p) := by
  unfold commitOutcome
  refine (commitObservation_carries cfg p _ _ _ _ _).bind fun x => ?_
  rcases x with ⟨st, _ | info⟩
  · exact hfault st
  · have hreport : (reportRequest cfg secret st o info p).Only (Op.Carries S cfg p) :=
      carries_of_quiet (reportRequest_quiet cfg secret st o info p)
    refine (gwWalClear_carries cfg p).bind fun cleared => ?_
    exact .ite ((carries_of_quiet (gwLogSeq_quiet secret _ _ _ _)).bind fun _ => hreport) hreport

/-- A line in the log, and a refusal. -/
theorem refuse_carries {α : Type} (level event msg reason : Bytes) (seq : UInt64) (a : α) :
    (do gwLogSeq secret level event msg seq; protoError reason; return a : Io α).Only
      (Op.Carries S cfg p) :=
  (carries_of_quiet (gwLogSeq_quiet secret level event msg seq)).bind fun _ =>
    (carries_of_quiet (protoError_quiet reason)).bind fun _ => .ret

theorem recordOutcome_carries (st : GwState S) (norm : Bytes) (res : GwcResult) (o : Outcome) :
    (recordOutcome cfg secret st norm p res o).Only (Op.Carries S cfg p) := by
  have hfault : ∀ st : GwState S, (commitFault secret st).Only (Op.Carries S cfg p) := fun st =>
    refuse_carries cfg secret p _ _ _ _ _ st
  unfold recordOutcome
  refine commitOutcome_carries cfg secret p st norm o fun st => .ite ?_ (hfault st)
  exact (carries_of_quiet (gwLogMsg_quiet secret _ _ _ _ _ _)).bind fun _ =>
    commitOutcome_carries cfg secret p st norm _ hfault

theorem openIntent_carries (st : GwState S) (norm : Bytes) :
    (openIntent cfg secret st norm p).Only (Op.Carries S cfg p) := by
  unfold openIntent
  refine (gwWalWrite_carries cfg p norm).bind fun wrote =>
    .ite (refuse_carries cfg secret p _ _ _ _ _ _) ?_
  refine (carries_of_quiet (gwLogSeq_quiet secret _ _ _ _)).bind fun _ => ?_
  cases hbody : buildRequest cfg p norm with
  | none =>
    exact (carries_of_quiet (gwLogSeq_quiet secret _ _ _ _)).bind fun _ =>
      (gwWalClear_carries cfg p).bind fun _ =>
        (carries_of_quiet (protoError_quiet _)).bind fun _ => .ret
  | some body =>
    refine .call ⟨?_, nofun, nofun⟩ fun reply => ?_
    · intro body' heq
      cases heq
      exact ⟨norm, hbody⟩
    cases reply with
    | none => exact refuse_carries cfg secret p _ _ _ _ _ _
    | some res =>
      exact (carries_of_quiet (outcomeOf_quiet cfg secret res)).bind fun o =>
        recordOutcome_carries cfg secret p _ norm res o

/-- **Every call of a request carries its parameters.** -/
theorem handleRequest_carries (st : GwState S) {req prompt : Bytes} {h : Header}
    (hok : ingest cfg req = .ok (h, prompt)) :
    (handleRequest cfg secret st req).Only (Op.Carries S cfg (requestParams h)) := by
  unfold handleRequest
  rw [hok]
  dsimp only
  unfold serveRequest
  split
  · exact refuse_carries cfg secret _ _ _ _ _ _ _
  · exact .ite (refuse_carries cfg secret _ _ _ _ _ _ _) (openIntent_carries cfg secret _ st _)

end Carries

/-! ## As given -/

/-- The parameters of a request are those of its lines: each number is the one on its last line (or
its default, or null, when there is no such line) and in its range, and the parameters of the record
and of the upstream request are these numbers. -/
structure AsGiven (cfg : GwConfig) (ls : List Bytes) (h : Header) : Prop where
  promptLen : lastParam (ascii "prompt_len:") ls = some h.promptLen ∧
    1 ≤ h.promptLen ∧ h.promptLen ≤ cfg.maxPromptBytes
  maxTokens : h.maxTokens = (lastParam (ascii "max_tokens:") ls).getD cfg.defaultMaxTokens ∧
    1 ≤ h.maxTokens ∧ h.maxTokens ≤ 200000
  temperature : lastParam (ascii "temperature_q16:") ls = some h.tempQ16 ∧
    0 ≤ h.tempQ16 ∧ h.tempQ16 ≤ 131072
  topP : ∀ v, lastParam (ascii "top_p_q16:") ls = some v → 0 ≤ v ∧ v ≤ 65536
  recorded : (requestParams h).maxTokens.toInt = h.maxTokens ∧
    (requestParams h).temperature.toInt = h.tempQ16 ∧ axParamsSeedIsNull (requestParams h) = true
  recordedTopP : (lastParam (ascii "top_p_q16:") ls).elim
    (axParamsTopPIsNull (requestParams h) = true) fun v =>
      axParamsTopPIsNull (requestParams h) = false ∧ (requestParams h).topP.toInt = v

/-- What ingest has checked, and where its numbers come from. -/
theorem ingest_values {cfg : GwConfig} {req prompt : Bytes} {h : Header}
    (hok : ingest cfg req = .ok (h, prompt)) :
    (1 ≤ h.promptLen ∧ h.promptLen ≤ cfg.maxPromptBytes) ∧
    h.promptLen = (lastParam (ascii "prompt_len:") (headerLines req)).getD (-1) ∧
    h.maxTokens = (lastParam (ascii "max_tokens:") (headerLines req)).getD cfg.defaultMaxTokens ∧
    h.tempQ16 = (lastParam (ascii "temperature_q16:") (headerLines req)).getD (-1) ∧
    h.topPQ16 = (lastParam (ascii "top_p_q16:") (headerLines req)).getD (-1) := by
  simp only [ingest, bind, Except.bind, pure, Except.pure] at hok
  split at hok
  · cases hok
  next hs hloop =>
    obtain ⟨hdr, s⟩ := hs
    dsimp only at hok
    iterate 5
      split at hok
      · cases hok
    next hlen _ _ _ _ =>
      cases hok
      exact ⟨by omega, headerLoop_values hloop⟩

/-- A value that is not the initial one was sent. -/
theorem eq_some_of_getD {o : Option Int} {v : Int} (h : v = o.getD (-1)) (hv : 0 ≤ v) :
    o = some v := by
  cases o with
  | none =>
    rw [Option.getD_none] at h
    omega
  | some x => rw [h, Option.getD_some]

/-- **When the parameters are taken as given.** A request whose header is accepted, and whose prompt
is then validated, has each parameter from its last line, within its range, and every call of the
request carries exactly these values, if and only if no `top_p_q16` line was sent or the last one
is not negative. A negative one is taken for its absence, and the record says null. -/
theorem params_as_given_iff {cfg : GwConfig} {req prompt : Bytes} {h : Header}
    (hok : ingest cfg req = .ok (h, prompt)) :
    (AsGiven cfg (headerLines req) h ∧ ∀ (S : Substrate) (secret : Bytes) (st : GwState S),
      (handleRequest cfg secret st req).Only (Op.Carries S cfg (requestParams h))) ↔
    ∀ v, lastParam (ascii "top_p_q16:") (headerLines req) = some v → 0 ≤ v := by
  obtain ⟨hlen, hprompt, htokens, htemp, htop⟩ := ingest_values hok
  obtain ⟨hacc, -⟩ := ingest_accepted hok
  have hrec := hacc.records
  constructor
  · rintro ⟨hgiven, -⟩ v hv
    exact (hgiven.topP v hv).1
  · intro hsign
    refine ⟨?_, fun S secret st => handleRequest_carries cfg secret st hok⟩
    refine ⟨⟨eq_some_of_getD hprompt (by omega), hlen⟩, ⟨htokens, hacc.maxTokens⟩,
      ⟨eq_some_of_getD htemp hacc.tempQ16.1, hacc.tempQ16⟩, ?_,
      ⟨hrec.maxTokens, hrec.temperature, ?_⟩, ?_⟩
    · intro v hv
      rw [hv, Option.getD_some] at htop
      have hle := hacc.topPQ16
      exact ⟨hsign v hv, by omega⟩
    · unfold requestParams
      dsimp only
      split
      all_goals split
      all_goals rfl
    · have hp := hrec.topP
      cases hlast : lastParam (ascii "top_p_q16:") (headerLines req) with
      | none =>
        rw [hlast, Option.getD_none] at htop
        rwa [if_neg (by omega)] at hp
      | some v =>
        have hv := hsign v hlast
        rw [hlast, Option.getD_some] at htop
        rw [if_pos (by omega)] at hp
        exact ⟨not_isNull_of_nonneg (by omega), hp.trans htop⟩

/-- A request whose last `top_p_q16` line has the text `v`. -/
def topPRequest (v : Bytes) : Bytes :=
  ascii "prompt_len: 2\ntemperature_q16: 65536\ntop_p_q16: 9\ntop_p_q16: " ++ v ++ ascii "\n\nhi"

theorem params_as_given_iff_sample :
    ∃ h, ingest (gwConfigDefaults []) (topPRequest (ascii "65536")) = .ok (h, ascii "hi") ∧
      AsGiven (gwConfigDefaults []) (headerLines (topPRequest (ascii "65536"))) h ∧
      (requestParams h).topP.toInt = 65536 := by
  have hok : ingest (gwConfigDefaults []) (topPRequest (ascii "65536")) =
      .ok (⟨2, 1024, 65536, 65536⟩, ascii "hi") := by rfl
  refine ⟨_, hok, ((params_as_given_iff hok).2 ?_).1, by decide⟩
  have hlast : lastParam (ascii "top_p_q16:") (headerLines (topPRequest (ascii "65536"))) =
      some 65536 := by decide +kernel
  intro v hv
  rw [hlast] at hv
  obtain rfl := Option.some.inj hv
  decide

/-- A `top_p_q16` of -5 is accepted, out of range, and recorded as null. -/
theorem params_not_as_given :
    ∃ h, ingest (gwConfigDefaults []) (topPRequest (ascii "-5")) = .ok (h, ascii "hi") ∧
      lastParam (ascii "top_p_q16:") (headerLines (topPRequest (ascii "-5"))) = some (-5) ∧
      axParamsTopPIsNull (requestParams h) = true ∧
      ¬ AsGiven (gwConfigDefaults []) (headerLines (topPRequest (ascii "-5"))) h := by
  have hlast : lastParam (ascii "top_p_q16:") (headerLines (topPRequest (ascii "-5"))) =
      some (-5) := by decide +kernel
  refine ⟨⟨2, 1024, 65536, -5⟩, by rfl, hlast, by decide, fun hgiven => ?_⟩
  exact absurd (hgiven.topP (-5) hlast).1 (by decide)

end AxiomaOracle
