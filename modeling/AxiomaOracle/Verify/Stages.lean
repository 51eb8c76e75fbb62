import AxiomaOracle.Verify.Extract
import AxiomaOracle.Verify.Protocol

/-!
# The stages of a request

`handle_request` as a walk from stage to stage, once for everything that is said of whole requests.
What holds at a stage is up to the reader of the walk: `RequestRules` asks how each call takes the
process to its next stage, and `RequestRules.handleRequest` is the rule for the request that
follows. `Requests` keeps the evidence on this walk, and `Serving` what is called, recorded and
said.
-/

namespace AxiomaOracle

open Lib

/-! ## The prompt -/

/-- The request is accepted: its header, and its prompt as it is normalised. -/
def Prompts (cfg : GwConfig) (req : Bytes) (hdr : Header) (norm : Bytes) : Prop :=
  ∃ prompt, ingest cfg req = .ok (hdr, prompt) ∧
    (axValidateAndNormalise (cfg.maxPromptBytes.toNat + 1) prompt {}).1 = .ok norm

section Prompts

variable {cfg : GwConfig} {req norm : Bytes} {hdr : Header}

theorem strtol_le {s rest : Bytes} {v : Int} (h : C.strtol s = some (v, rest)) : v ≤ C.longMax := by
  simp only [C.strtol, Option.ite_none_left_eq_some, Option.some.injEq, Prod.mk.injEq] at h
  obtain ⟨-, rfl, -⟩ := h
  have : C.longMin ≤ C.longMax := by decide
  omega

theorem scanLong_le {literal line : Bytes} {v : Int} (h : C.scanLong literal line = some v) :
    v ≤ C.longMax := by
  unfold C.scanLong at h
  split at h
  · obtain ⟨⟨v', rest⟩, hv, rfl⟩ := Option.map_eq_some_iff.1 h
    exact strtol_le hv
  · cases h

theorem headerLoop_promptLen {fuel : Nat} {h h' : Header} {s s' : Bytes}
    (hle : h.promptLen ≤ C.longMax) (hok : headerLoop fuel h s = .ok (h', s')) :
    h'.promptLen ≤ C.longMax := by
  induction fuel generalizing h s with
  | zero => cases hok
  | succ fuel ih =>
    unfold headerLoop at hok
    dsimp only at hok
    split at hok
    · cases hok
    split at hok
    · cases hok
      exact hle
    split at hok
    · next v hv => exact ih (scanLong_le hv) hok
    iterate 3
      split at hok
      · refine ih ?_ hok
        exact hle
    split at hok <;> cases hok

/-- A prompt has at least one byte, and a length that fits `size_t`. -/
theorem ingest_prompt {req prompt : Bytes} {h : Header} (hok : ingest cfg req = .ok (h, prompt)) :
    prompt ≠ [] ∧ prompt.length < sizeMod := by
  simp only [ingest, bind, Except.bind, pure, Except.pure] at hok
  split at hok
  · cases hok
  next hs hloop =>
    obtain ⟨hdr, s⟩ := hs
    have hmax : hdr.promptLen ≤ C.longMax :=
      headerLoop_promptLen (show (-1 : Int) ≤ C.longMax by decide) hloop
    dsimp only at hok
    iterate 5
      split at hok
      · cases hok
    next hlen _ _ _ hshort =>
      cases hok
      have hbound : C.longMax < (sizeMod : Int) := by decide
      rw [← List.length_pos_iff, List.length_take]
      omega

theorem Prompts.norm_eq (hp : Prompts cfg req hdr norm) :
    ∃ prompt, ingest cfg req = .ok (hdr, prompt) ∧ norm = normLF prompt ∧ Utf8.Valid norm := by
  obtain ⟨prompt, hingest, hnorm⟩ := hp
  obtain ⟨rfl, -, hvalid, -⟩ := axValidateAndNormalise_ok (Prod.ext hnorm rfl)
  exact ⟨prompt, hingest, rfl, normLF_valid hvalid⟩

theorem Prompts.ne_nil (hp : Prompts cfg req hdr norm) : norm ≠ [] := by
  obtain ⟨prompt, hingest, rfl, -⟩ := hp.norm_eq
  exact normLF_ne_nil (ingest_prompt hingest).1

theorem Prompts.length_lt (hp : Prompts cfg req hdr norm) : norm.length < sizeMod := by
  obtain ⟨prompt, hingest, rfl, -⟩ := hp.norm_eq
  exact Nat.lt_of_le_of_lt (normLF_length_le prompt) (ingest_prompt hingest).2

/-- There is one header and one prompt. -/
theorem Prompts.unique {hdr' : Header} {norm' : Bytes} (hp : Prompts cfg req hdr norm)
    (hp' : Prompts cfg req hdr' norm') : hdr' = hdr ∧ norm' = norm := by
  obtain ⟨prompt, hingest, hnorm⟩ := hp
  obtain ⟨prompt', hingest', hnorm'⟩ := hp'
  rw [hingest] at hingest'
  cases hingest'
  rw [hnorm] at hnorm'
  cases hnorm'
  exact ⟨rfl, rfl⟩

end Prompts

/-! ## Stages -/

/-- How far a request has come. -/
inductive Stage where
  /-- Nothing has been said, and a refusal is due. -/
  | failed
  | opened (hdr : Header) (norm : Bytes)
  | answered (hdr : Header) (norm : Bytes) (res : GwcResult)
  /-- The answer could not be committed as it is. -/
  | unrecorded (hdr : Header) (norm : Bytes) (res : GwcResult)
  | committed (o : Outcome) (info : CommitInfo) (params : AxOracleParams)
  /-- The clear of the intent was tried. -/
  | closed (o : Outcome) (info : CommitInfo) (params : AxOracleParams)

/-- A condition on the process, the calls so far and the world. -/
abbrev Condition (S : Substrate) := GwState S → List (Answered Op Ans) → World → Prop

/-- The text of the answer can be at fault. -/
def HasText (o : Outcome) : Prop := o.state = .complete ∨ o.state = .truncated

section Stages

variable {S : Substrate} (cfg : GwConfig) (secret req : Bytes) (st0 : GwState S) (w0 : World)

/-- The calls of a request from `st0` and `w0`, by stages: each is observed and takes the process
from what `Holds` at its stage to the next one, and the last to `Q`. -/
structure RequestRules (D P : Step (machine cfg) → Prop) (Holds : Stage → Condition S)
    (Q : Condition S) : Prop where
  mute {α : Type} {p : Io α} {s : Stage} {st : GwState S} {h : List (Answered Op Ans)} {w : World} :
    p.Only Op.Mute → Holds s st h w →
    Observes (machine cfg) D P (fun _ h' w' => Holds s st h' w') p h w
  unserved : (¬ ∃ hdr norm, Prompts cfg req hdr norm) ∨ cfg.callBudget ≤ st0.callsMade →
    Holds .failed st0 [] w0
  intent {hdr : Header} {norm : Bytes} : Prompts cfg req hdr norm →
    st0.callsMade < cfg.callBudget →
    Observes (machine cfg) D P
      (fun ok h' w' => Holds (if ok then .opened hdr norm else .failed) st0 h' w')
      (gwWalWrite cfg (requestIntent (S := S) cfg norm (requestParams hdr))) [] w0
  abandon {hdr : Header} {norm : Bytes} {st : GwState S} {h : List (Answered Op Ans)} {w : World} :
    buildRequest cfg (requestParams hdr) norm = none → Holds (.opened hdr norm) st h w →
    Observes (machine cfg) D P (fun _ h' w' => Holds .failed st h' w') (gwWalClear cfg) h w
  call {hdr : Header} {norm body : Bytes} {st : GwState S} {h : List (Answered Op Ans)}
    {w : World} :
    buildRequest cfg (requestParams hdr) norm = some body → Holds (.opened hdr norm) st h w →
    Observes (machine cfg) D P
      (fun res h' w' => Holds (res.elim .failed (.answered hdr norm))
        { st with callsMade := st.callsMade + 1 } h' w') (sys (.gwcCall body)) h w
  commit {hdr : Header} {norm : Bytes} {res : GwcResult} {st : GwState S}
      {h : List (Answered Op Ans)} {w : World} : Holds (.answered hdr norm res) st h w →
    Observes (machine cfg) D P
      (fun x h' w' => Holds (x.2.elim (.unrecorded hdr norm res)
        (.committed (outcomeFrom res) · (requestParams hdr))) x.1 h' w')
      (commitObservation cfg st (outcomeFrom res).state (outcomeFrom res).ftype norm
        (outcomeFrom res).output (requestParams hdr)) h w
  degrade {hdr : Header} {norm : Bytes} {res : GwcResult} {st : GwState S}
      {h : List (Answered Op Ans)} {w : World} : HasText (outcomeFrom res) →
    Holds (.unrecorded hdr norm res) st h w →
    Observes (machine cfg) D P
      (fun x h' w' => Holds (x.2.elim .failed
        (.committed (.failed .invalidOutput) · (requestParams hdr))) x.1 h' w')
      (commitObservation cfg st (Outcome.failed .invalidOutput).state
        (Outcome.failed .invalidOutput).ftype norm (Outcome.failed .invalidOutput).output
        (requestParams hdr)) h w
  fault {hdr : Header} {norm : Bytes} {res : GwcResult} {st : GwState S}
      {h : List (Answered Op Ans)} {w : World} : ¬ HasText (outcomeFrom res) →
    Holds (.unrecorded hdr norm res) st h w → Holds .failed st h w
  clear {o : Outcome} {info : CommitInfo} {params : AxOracleParams} {st : GwState S}
      {h : List (Answered Op Ans)} {w : World} : Holds (.committed o info params) st h w →
    Observes (machine cfg) D P (fun _ h' w' => Holds (.closed o info params) st h' w')
      (gwWalClear cfg) h w
  respond {o : Outcome} {info : CommitInfo} {params : AxOracleParams} {st : GwState S}
      {h : List (Answered Op Ans)} {w : World} (b : Bool) : Holds (.closed o info params) st h w →
    Observes (machine cfg) D P (fun _ h' w' => Q { st with exportDropLogged := b } h' w')
      (respond cfg secret o info params) h w
  refuse {reason : Bytes} {st : GwState S} {h : List (Answered Op Ans)} {w : World} :
    Holds .failed st h w →
    Observes (machine cfg) D P (fun _ h' w' => Q st h' w') (protoError reason) h w

namespace RequestRules

variable {cfg secret req st0 w0} {D P : Step (machine cfg) → Prop} {Holds : Stage → Condition S}
  {Q : Condition S} {hdr : Header} {norm : Bytes} {st : GwState S} {h : List (Answered Op Ans)}
  {w : World}

/-- A mute program, and what follows it. -/
theorem logs (R : RequestRules cfg secret req st0 w0 D P Holds Q) {s : Stage} {α β : Type}
    {T : β → List (Answered Op Ans) → World → Prop} {p : Io α} {f : α → Io β} (hp : p.Only Op.Mute)
    (hs : Holds s st h w)
    (hf : ∀ a h' w', Holds s st h' w' → Observes (machine cfg) D P T (f a) h' w') :
    Observes (machine cfg) D P T (p >>= f) h w := (R.mute hp hs).bind hf

/-- A refusal ends the request. -/
theorem refusal (R : RequestRules cfg secret req st0 w0 D P Holds Q) {reason : Bytes}
    (hs : Holds .failed st h w) :
    Observes (machine cfg) D P Q (do protoError reason; return st) h w :=
  (R.refuse hs).bind fun _ _ _ hq => .ret hq

/-- A line in the log, and a refusal. -/
theorem logs_refusal (R : RequestRules cfg secret req st0 w0 D P Holds Q)
    {level event msg reason : Bytes} {seq : UInt64} (hs : Holds .failed st h w) :
    Observes (machine cfg) D P Q
      (do gwLogSeq secret level event msg seq; protoError reason; return st) h w :=
  R.logs (gwLogSeq_mute secret _ _ _ _) hs fun _ _ _ hs1 => R.refusal hs1

/-! ## Behind the commit -/

theorem reportRequest (R : RequestRules cfg secret req st0 w0 D P Holds Q) {o : Outcome}
    {info : CommitInfo} {params : AxOracleParams} (hs : Holds (.closed o info params) st h w) :
    Observes (machine cfg) D P Q (reportRequest cfg secret st o info params) h w := by
  unfold AxiomaOracle.reportRequest
  refine R.logs (gwLogSeq_mute secret _ _ _ _) hs fun _ h1 w1 hs1 => ?_
  split
  · refine R.logs (gwLogSeq_mute secret _ _ _ _) hs1 fun _ h2 w2 hs2 => ?_
    exact (R.respond true hs2).bind fun _ _ _ hq => .ret hq
  · exact (R.respond st.exportDropLogged hs1).bind fun _ _ _ hq => .ret hq

theorem finishRequest (R : RequestRules cfg secret req st0 w0 D P Holds Q) {o : Outcome}
    {info : CommitInfo} {params : AxOracleParams} (hs : Holds (.committed o info params) st h w) :
    Observes (machine cfg) D P Q (finishRequest cfg secret st o info params) h w := by
  unfold AxiomaOracle.finishRequest
  refine (R.clear hs).bind fun cleared h1 w1 hs1 => ?_
  cases cleared with
  | true => exact R.reportRequest hs1
  | false =>
    exact R.logs (gwLogSeq_mute secret _ _ _ _) hs1 fun _ h2 w2 hs2 => R.reportRequest hs2

/-! ## The observation -/

/-- **Steps 9 and 10.** -/
theorem recordOutcome (R : RequestRules cfg secret req st0 w0 D P Holds Q) {res : GwcResult}
    (hs : Holds (.answered hdr norm res) st h w) :
    Observes (machine cfg) D P Q
      (recordOutcome cfg secret st norm (requestParams hdr) res (outcomeFrom res)) h w := by
  unfold AxiomaOracle.recordOutcome commitOutcome
  refine (R.commit hs).bind ?_
  rintro ⟨st1, info⟩ h1 w1 hs1
  cases info with
  | some info => exact R.finishRequest hs1
  | none =>
    dsimp only
    split
    · next htext =>
      refine R.logs (gwLogMsg_mute secret _ _ _ _ _ _) hs1 fun _ h2 w2 hs2 => ?_
      refine (R.degrade htext hs2).bind ?_
      rintro ⟨st3, info⟩ h3 w3 hs3
      cases info with
      | some info => exact R.finishRequest hs3
      | none => exact R.logs_refusal hs3
    · next htext => exact R.logs_refusal (R.fault htext hs1)

/-! ## The intent and the call -/

/-- **Step 5.** -/
theorem callOracle (R : RequestRules cfg secret req st0 w0 D P Holds Q) {body : Bytes}
    (hbody : buildRequest cfg (requestParams hdr) norm = some body)
    (hs : Holds (.opened hdr norm) st h w) :
    Observes (machine cfg) D P Q (callOracle cfg secret st norm (requestParams hdr) body) h w := by
  unfold AxiomaOracle.callOracle
  refine (R.call hbody hs).bind fun res h1 w1 hs1 => ?_
  cases res with
  | none => exact R.logs_refusal hs1
  | some res =>
    refine ((R.mute (outcomeOf_mute cfg secret res) hs1).yields
      (outcomeOf_yields cfg secret res)).bind ?_
    rintro o h2 w2 ⟨rfl, hs2⟩
    exact R.recordOutcome hs2

/-- **Step 4.** -/
theorem openIntent (R : RequestRules cfg secret req st0 w0 D P Holds Q)
    (hp : Prompts cfg req hdr norm) (hbudget : st0.callsMade < cfg.callBudget) :
    Observes (machine cfg) D P Q (openIntent cfg secret st0 norm (requestParams hdr)) [] w0 := by
  unfold AxiomaOracle.openIntent
  refine (R.intent hp hbudget).bind fun ok h1 w1 hs1 => ?_
  cases ok with
  | false => exact R.logs_refusal hs1
  | true =>
    refine R.logs (gwLogSeq_mute secret _ _ _ _) hs1 fun _ h2 w2 hs2 => ?_
    cases hbody : buildRequest cfg (requestParams hdr) norm with
    | some body => exact R.callOracle hbody hs2
    | none =>
      refine R.logs (gwLogSeq_mute secret _ _ _ _) hs2 fun _ h3 w3 hs3 => ?_
      exact (R.abandon hbody hs3).bind fun _ _ _ hs4 => R.refusal hs4

/-! ## The request -/

/-- **Steps 2 and 3.** -/
theorem serveRequest (R : RequestRules cfg secret req st0 w0 D P Holds Q) {prompt : Bytes}
    (hingest : ingest cfg req = .ok (hdr, prompt)) :
    Observes (machine cfg) D P Q (serveRequest cfg secret st0 hdr prompt) [] w0 := by
  unfold AxiomaOracle.serveRequest
  split
  · next hreject =>
    refine R.logs_refusal (R.unserved (.inl ?_))
    rintro ⟨hdr', norm, prompt', hingest', hnorm⟩
    rw [hingest] at hingest'
    cases hingest'
    rw [hreject] at hnorm
    cases hnorm
  · next norm _ hnorm =>
    split
    · next hspent => exact R.logs_refusal (R.unserved (.inr hspent))
    · next hleft => exact R.openIntent ⟨prompt, hingest, by rw [hnorm]⟩ (Int.not_le.1 hleft)

/-- **A request**, by the rules for its calls. -/
theorem handleRequest (R : RequestRules cfg secret req st0 w0 D P Holds Q) :
    Observes (machine cfg) D P Q (handleRequest cfg secret st0 req) [] w0 := by
  unfold AxiomaOracle.handleRequest
  split
  · next r hreject =>
    have hs : Holds .failed st0 [] w0 := by
      refine R.unserved (.inl ?_)
      rintro ⟨hdr, norm, prompt, hingest, -⟩
      rw [hreject] at hingest
      cases hingest
    cases r.logged with
    | none => exact R.refusal hs
    | some msg => exact R.logs_refusal hs
  · next hingest => exact R.serveRequest hingest

end RequestRules

end Stages

end AxiomaOracle
