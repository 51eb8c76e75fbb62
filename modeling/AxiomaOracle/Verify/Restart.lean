import AxiomaOracle.Verify.Served

/-!
# Starting again

When a start comes to listen, from whatever a history of starts, requests, failures and crashes has
left, in an execution in which every call works. Two of its refusals are reached: a WAL that does
not parse, and a cut frame at the end of the ledger with no intent to account for it. The third, a
frame that does not match its commitment, is not (`Framed`).
-/

namespace AxiomaOracle

open Lib

/-! ## Calls that work -/

/-- The call was not refused. The old socket may be absent when a start removes it. -/
def worked : (o : Op) → Ans o → Bool
  | .openCreat _, ok => ok
  | .openExcl _, ok => ok
  | .openTrunc _, ok => ok
  | .openAppend _, ok => ok
  | .write _ _, ok => ok
  | .fsync _, ok => ok
  | .fsyncDir _, ok => ok
  | .ftruncate _ _, ok => ok
  | .unlink .wal, ok => ok
  | .bind _, ok => ok
  | .sys _, ok => ok
  | _, _ => true

/-- A call that works: no read meets an error, and it is not refused. -/
structure Works (cfg : GwConfig) (m : Step (machine cfg)) : Prop where
  reads : none ∉ m.env.script
  answer : worked m.op m.answer = true

section Restart

variable {S : Substrate} {cfg : GwConfig} {host : Host} {w w' : World} {secret : Bytes}
  {st : GwState S} {genesis : S.LedgerCtx} {fs : List Frame} {h : List (Answered Op Ans)}

variable (cfg) in
/-- How a program ends when every call works. -/
abbrev Ends {α : Type} (Q : α → List (Answered Op Ans) → World → Prop) (p : Io α)
    (h : List (Answered Op Ans)) (w : World) : Prop :=
  Observes (machine cfg) (Works cfg) (fun _ => True) Q p h w

variable (S cfg) in
/-- The stage ends with a process exactly when `cond` holds. -/
def Starts (cond : Prop) (p : Io (Option (GwState S))) (h : List (Answered Op Ans)) (w : World) :
    Prop :=
  Ends cfg (fun r _ _ => r.isSome = true ↔ cond) p h w

theorem Starts.congr {c c' : Prop} {p : Io (Option (GwState S))} (hp : Starts S cfg c p h w)
    (hc : c ↔ c') : Starts S cfg c' p h w :=
  Observes.mono (fun _ _ _ hr => hr.trans hc) hp

variable (cfg) in
/-- The ledger ends with a whole frame. -/
def WholeLedger (w : World) : Prop := ∃ fs, w.content cfg .ledger = encodeAll fs

/-- Frames that match their commitments are accepted. -/
theorem acceptAll_of_matches (hfault : Faultless S) (hmatch : ∀ f ∈ fs, commitMatches S f = true)
    (r : Replayed S) : ∃ r', acceptAll S r fs = some r' := by
  induction fs generalizing r with
  | nil => exact ⟨r, rfl⟩
  | cons f fs ih =>
    have hf := hmatch f List.mem_cons_self
    unfold commitMatches at hf
    cases hcommit : S.axCommitEvidence (.ofBytes f.tag) f.payload with
    | none =>
      rw [hcommit] at hf
      cases hf
    | some d =>
      rw [hcommit] at hf
      obtain ⟨ctx, hctx⟩ := Option.isSome_iff_exists.1 (hfault.append r.ctx d)
      obtain ⟨r', hr'⟩ := ih (fun g hg => hmatch g (List.mem_cons_of_mem f hg)) _
      refine ⟨r', ?_⟩
      rw [acceptAll_cons, accept_of hcommit (eq_of_beq hf) hctx]
      exact hr'

/-- The beginning of a frame behind whole ones is not the end of a whole one. -/
theorem not_whole_of_torn {tail : Bytes} (hfile : w.content cfg .ledger = encodeAll fs ++ tail)
    (htorn : (readFrame tail []).1 = .torn) : ¬ WholeLedger cfg w := by
  rintro ⟨gs, hgs⟩
  have hframes : frames (encodeAll fs ++ tail) = fs := frames_encodeAll fs (nextFrame_of_torn htorn)
  rw [← hfile, hgs, frames_encodeAll'] at hframes
  rw [hgs, hframes] at hfile
  have htail : tail = [] := List.append_cancel_left ((hfile.symm.trans (List.append_nil _).symm))
  rw [htail] at htorn
  cases htorn

instance (m : Step (machine cfg)) : Decidable (Works cfg m) :=
  decidable_of_iff (none ∉ m.env.script ∧ worked m.op m.answer = true)
    ⟨fun h => ⟨h.1, h.2⟩, fun h => ⟨h.reads, h.answer⟩⟩

end Restart

end AxiomaOracle
