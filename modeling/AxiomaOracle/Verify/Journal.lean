import AxiomaOracle.Gateway.Main
import AxiomaOracle.Verify.Footprint
import AxiomaOracle.Verify.FailureLines

/-!
# What the gateway's programs log

`Journals secret R p` says of a program that it touches the log only through `gw_log`, and that each
line it writes is about the gateway itself or about a reply of the oracle: one of `R`, or one the
program has got in between. An `oracle_fail` line is always about a reply (`ReplyEntry`).
-/

namespace AxiomaOracle

open Lib

/-! ## Lines -/

def oracleFail : Bytes := ascii "oracle_fail"

/-- The message about a reply that is no completion. -/
def failText (res : GwcResult) : Bytes :=
  match res.outcome with
  | .ok => ascii "200 body failed structural parse"
  | .httpFail => failMessage res
  | .timeout | .overcap | .transport => res.errbuf.bytes

def rejectText : Bytes := ascii "output failed admission; recording INVALID_OUTPUT"

/-- The `oracle_fail` lines a reply can lead to. -/
inductive ReplyEntry (res : GwcResult) : LogEntry → Prop where
  | fail : ReplyEntry res
      ⟨ascii "error", oracleFail, some (failText res), res.attempts, res.httpStatus, 0⟩
  | reject : ReplyEntry res
      ⟨ascii "warn", oracleFail, some rejectText, res.attempts, res.httpStatus, 0⟩

/-- The words of a line about the gateway itself. -/
def OwnWords (level event : Bytes) : Prop := Bare level ∧ Bare event ∧ event ≠ oracleFail

instance (level event : Bytes) : Decidable (OwnWords level event) :=
  inferInstanceAs (Decidable (Bare level ∧ Bare event ∧ event ≠ oracleFail))

/-- A line after the replies `R`. -/
def Entry (R : List GwcResult) (e : LogEntry) : Prop :=
  OwnWords e.level e.event ∨ ∃ res ∈ R, ReplyEntry res e

variable {R R' : List GwcResult} {e : LogEntry}

theorem Entry.mono (hR : R ⊆ R') (h : Entry R e) : Entry R' e :=
  h.imp_right fun ⟨res, hres, he⟩ => ⟨res, hR hres, he⟩

/-! ## Programs -/

/-- Calls away from the log and from the oracle. -/
def Op.OffLog (o : Op) : Prop := o.role ≠ some .log ∧ ∀ body, o ≠ .gwcCall body

theorem Op.OffLog.of_role {o : Op} {r : Role} (h : o.role = some r) (hr : r ≠ .log) : o.OffLog := by
  refine ⟨fun hlog => hr (Option.some.inj (h.symm.trans hlog)), ?_⟩
  rintro body rfl
  cases h

theorem Op.OffLog.sys (c : SysCall) : (Op.sys c).OffLog :=
  ⟨by simp [Op.role], fun _ => by simp⟩

theorem Op.OffLog.send (bs : Bytes) : (Op.send bs).OffLog :=
  ⟨by simp [Op.role], fun _ => by simp⟩

inductive Journals (secret : Bytes) {α : Type} : List GwcResult → Io α → Prop where
  | ret {R : List GwcResult} {a : α} : Journals secret R (.pure a)
  | call {R : List GwcResult} {o : Op} {k : Ans o → Io α} : o.OffLog →
      (∀ a, Journals secret R (k a)) → Journals secret R (.call o k)
  | reply {R : List GwcResult} {body : Bytes} {k : Option GwcResult → Io α} :
      (∀ res, Journals secret (res.toList ++ R) (k res)) →
      Journals secret R (.call (.gwcCall body) k)
  | openLog {R : List GwcResult} {k : Bool → Io α} : (∀ ok, Journals secret R (k ok)) →
      Journals secret R (.call (.openAppend .log) k)
  | line {R : List GwcResult} {e : LogEntry} {k : Unit → Io α} : Entry R e →
      Journals secret R (k ()) → Journals secret R (gwLog secret e >>= k)

section Programs

variable {S : Substrate} {α β : Type} (cfg : GwConfig) (secret : Bytes)

namespace Journals

variable {secret} {p q : Io α}

theorem mono (h : Journals secret R p) (hR : R ⊆ R') : Journals secret R' p := by
  induction h generalizing R' with
  | ret => exact .ret
  | call ho _ ih => exact .call ho fun a => ih a hR
  | reply _ ih =>
    refine .reply fun res => ih res fun x hx => ?_
    exact (List.mem_append.1 hx).elim (List.mem_append_left _) fun h =>
      List.mem_append_right _ (hR h)
  | openLog _ ih => exact .openLog fun ok => ih ok hR
  | line he _ ih => exact .line (he.mono hR) (ih hR)

theorem bind {f : α → Io β} (h : Journals secret R p) (hf : ∀ a, Journals secret R (f a)) :
    Journals secret R (p >>= f) := by
  have hall : ∀ R', R ⊆ R' → ∀ a, Journals secret R' (f a) := fun R' hR a => (hf a).mono hR
  clear hf
  induction h with
  | ret => exact hall _ (List.Subset.refl _) _
  | call ho _ ih => exact .call ho fun a => ih a hall
  | reply _ ih =>
    exact .reply fun res => ih res fun R' hR =>
      hall R' (List.Subset.trans (List.subset_append_right _ _) hR)
  | openLog _ ih => exact .openLog fun ok => ih ok hall
  | @line R e k he _ ih => exact .line (k := fun u => k u >>= f) he (ih hall)

theorem ite {c : Prop} [Decidable c] (hp : Journals secret R p) (hq : Journals secret R q) :
    Journals secret R (if c then p else q) := by
  split
  · exact hp
  · exact hq

/-- A program that stays away from the log. -/
theorem of_only (h : p.Only Op.OffLog) : Journals secret R p := by
  induction h with
  | ret => exact .ret
  | call ho _ ih => exact .call ho ih

theorem entry (he : Entry R e) : Journals secret R (gwLog secret e) :=
  .line (k := fun u => .pure u) he .ret

end Journals

variable {cfg}

/-! ## Away from the log -/

variable (cfg) {secret}

end Programs

end AxiomaOracle
