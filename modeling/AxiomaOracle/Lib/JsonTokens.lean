import AxiomaOracle.Lib.JsonGrammar
import Mathlib.Data.List.Chain

/-!
# Tokens of a JSON text

`Lexes s ts` cuts a text into brackets, commas, colons, strings and atoms. A text is `Tidy` when
this succeeds, no comma stands in front of a closing brace and nothing stands behind the first
value: conditions on the tokens alone, which say nothing about their order. Every JSON text is tidy
(`tidy_of_decode`).
-/

namespace Lib

namespace Json

inductive Token where
  | mark (b : UInt8)
  | text
  | atom
  deriving DecidableEq

/-- Brackets, the comma and the colon. -/
def isMark (b : UInt8) : Bool := ([91, 93, 123, 125, 44, 58] : Bytes).contains b

/-- What may follow an atom. -/
def Bounded (r : Bytes) : Prop := ∀ b ∈ r.head?, isWs b = true ∨ isMark b = true

inductive Lexes : Bytes → List Token → Prop where
  | nil : Lexes [] []
  | ws {b : UInt8} {s : Bytes} {ts : List Token} : isWs b = true → Lexes s ts → Lexes (b :: s) ts
  | mark {b : UInt8} {s : Bytes} {ts : List Token} : isMark b = true → Lexes s ts →
      Lexes (b :: s) (.mark b :: ts)
  | text {s t r : Bytes} {ts : List Token} : string s = some (t, r) → Lexes r ts →
      Lexes (34 :: s) (.text :: ts)
  | atom {s r : Bytes} {v : Json} {ts : List Token} : Json.atom s = some (v, r) → Bounded r →
      Lexes r ts → Lexes s (.atom :: ts)

/-- The tokens behind the bracket that closes the first one, from inside `d` brackets. -/
def afterClose : Nat → List Token → List Token
  | _, [] => []
  | d, .mark b :: ts =>
    if b = 91 ∨ b = 123 then afterClose (d + 1) ts
    else if b = 93 ∨ b = 125 then (if d ≤ 1 then ts else afterClose (d - 1) ts)
    else afterClose d ts
  | d, _ :: ts => afterClose d ts

/-- No comma in front of a closing brace. -/
def MayFollow (a b : Token) : Prop := ¬ (a = .mark 44 ∧ b = .mark 125)

structure Tidy (s : Bytes) : Prop where
  utf8 : Utf8.Valid s
  tokens : ∃ ts, Lexes s ts ∧ ts.IsChain MayFollow ∧ afterClose 0 ts = []

/-! ## Tokens from the left -/

variable {s r : Bytes} {ts : List Token}

theorem Lexes.of_skipWs (h : Lexes (skipWs s) ts) : Lexes s ts := by
  induction s with
  | nil => exact h
  | cons b s ih =>
    cases hb : isWs b with
    | true =>
      rw [show skipWs (b :: s) = skipWs s from List.dropWhile_cons_of_pos hb] at h
      exact .ws hb (ih h)
    | false =>
      rw [skipWs_cons hb] at h
      exact h

theorem lexes_mark {b : UInt8} (hs : skipWs s = b :: r) (hb : isMark b = true) (h : Lexes r ts) :
    Lexes s (.mark b :: ts) := .of_skipWs (hs ▸ .mark hb h)

theorem bounded_of_skipWs {b : UInt8} (hs : skipWs s = b :: r) (hb : isMark b = true) :
    Bounded s := by
  intro c hc
  cases s with
  | nil => cases hc
  | cons d s =>
    obtain rfl : d = c := Option.some.inj hc
    cases hd : isWs d with
    | true => exact .inl rfl
    | false =>
      rw [skipWs_cons hd] at hs
      rw [(List.cons.inj hs).1]
      exact .inr hb

theorem bounded_nil (hs : skipWs s = []) : Bounded s := by
  intro c hc
  cases s with
  | nil => cases hc
  | cons d s =>
    obtain rfl : d = c := Option.some.inj hc
    cases hd : isWs d with
    | true => exact .inl rfl
    | false =>
      rw [skipWs_cons hd] at hs
      cases hs

theorem isMark_cases {b : UInt8} (h : isMark b = true) :
    b = 91 ∨ b = 93 ∨ b = 123 ∨ b = 125 ∨ b = 44 ∨ b = 58 := by
  simpa [isMark] using h

theorem isWs_of_isMark {b : UInt8} (h : isMark b = true) : isWs b = false := by
  rcases isMark_cases h with rfl | rfl | rfl | rfl | rfl | rfl <;> decide

theorem isAtomByte_other {b : UInt8} (h : isAtomByte b = true) :
    isWs b = false ∧ isMark b = false ∧ b ≠ 34 := by
  have hall : ∀ c ∈ ascii "0123456789+-.eEtrufalsn",
      isWs c = false ∧ isMark c = false ∧ c ≠ 34 := by decide
  exact hall b (mem_atomBytes h)

theorem lexes_nil (hs : skipWs s = []) : Lexes s [] := .of_skipWs (hs ▸ .nil)

theorem Lexes.skip (h : Lexes s ts) : Lexes (skipWs s) ts := by
  induction h with
  | nil => exact .nil
  | ws hb _ ih =>
    rw [skipWs, List.dropWhile_cons_of_pos hb]
    exact ih
  | mark hb h _ =>
    rw [skipWs_cons (isWs_of_isMark hb)]
    exact .mark hb h
  | text ht h _ =>
    rw [skipWs_cons (by decide)]
    exact .text ht h
  | @atom s r v ts hv hr h _ =>
    cases s with
    | nil => cases hv
    | cons b s =>
      rw [skipWs_cons (isAtomByte_other (atom_head hv).1).1]
      exact .atom hv hr h

/-- Nothing but whitespace has no tokens. -/
theorem Lexes.end_of_nil (h : Lexes s []) : skipWs s = [] := by
  generalize hts : ([] : List Token) = ts at h
  induction h with
  | nil => rfl
  | ws hb _ ih => rw [skipWs, List.dropWhile_cons_of_pos hb, ← skipWs, ih hts]
  | mark | text | atom => cases hts

/-- The first token, by the byte it starts with. -/
theorem Lexes.first {b : UInt8} (h : Lexes s ts) (hs : skipWs s = b :: r) :
    (isMark b = true ∧ ∃ us, ts = .mark b :: us ∧ Lexes r us) ∨
    (b = 34 ∧ ∃ t r' us, ts = .text :: us ∧ string r = some (t, r') ∧ Lexes r' us) ∨
    (isAtomByte b = true ∧ ∃ v r' us, ts = .atom :: us ∧ Json.atom (b :: r) = some (v, r') ∧
      Bounded r' ∧ Lexes r' us) := by
  have hws := skipWs_head hs
  have hskip := h.skip
  rw [hs] at hskip
  cases hskip with
  | ws hb _ =>
    rw [hws] at hb
    cases hb
  | mark hb hrest => exact .inl ⟨hb, _, rfl, hrest⟩
  | text ht hrest => exact .inr (.inl ⟨rfl, _, _, _, rfl, ht, hrest⟩)
  | atom hv hr hrest =>
    exact .inr (.inr ⟨(atom_head hv).1, _, _, _, rfl, hv, hr, hrest⟩)

theorem Lexes.of_mark {b : UInt8} (h : Lexes s ts) (hs : skipWs s = b :: r) (hb : isMark b = true) :
    ∃ us, ts = .mark b :: us ∧ Lexes r us := by
  rcases h.first hs with ⟨-, h⟩ | ⟨rfl, -⟩ | ⟨hatom, -⟩
  · exact h
  · exact absurd hb (by decide)
  · rw [(isAtomByte_other hatom).2.1] at hb
    cases hb

theorem Lexes.of_text (h : Lexes s ts) (hs : skipWs s = 34 :: r) :
    ∃ t r' us, ts = .text :: us ∧ string r = some (t, r') ∧ Lexes r' us := by
  rcases h.first hs with ⟨hb, -⟩ | ⟨-, h⟩ | ⟨hatom, -⟩
  · exact absurd hb (by decide)
  · exact h
  · exact absurd hatom (by decide)

theorem Lexes.of_atom {b : UInt8} (h : Lexes s ts) (hs : skipWs s = b :: r) (hb : isMark b = false)
    (hquote : b ≠ 34) :
    ∃ v r' us, ts = .atom :: us ∧ Json.atom (b :: r) = some (v, r') ∧ Bounded r' ∧ Lexes r' us := by
  rcases h.first hs with ⟨hmark, -⟩ | ⟨rfl, -⟩ | ⟨-, h⟩
  · rw [hmark] at hb
    cases hb
  · exact absurd rfl hquote
  · exact h

/-! ## Groups of tokens -/

theorem afterClose_open {b : UInt8} (hb : b = 91 ∨ b = 123) (d : Nat) (ts : List Token) :
    afterClose d (.mark b :: ts) = afterClose (d + 1) ts := by
  rw [afterClose, if_pos hb]

theorem afterClose_close {b : UInt8} (hb : b = 93 ∨ b = 125) (ts : List Token) :
    afterClose 1 (.mark b :: ts) = ts ∧
    ∀ d, 1 ≤ d → afterClose (d + 1) (.mark b :: ts) = afterClose d ts := by
  have hopen : ¬ (b = 91 ∨ b = 123) := by rcases hb with rfl | rfl <;> decide
  refine ⟨by rw [afterClose, if_neg hopen, if_pos hb, if_pos (Nat.le_refl 1)], fun d hd => ?_⟩
  rw [afterClose, if_neg hopen, if_pos hb, if_neg (by omega), Nat.add_sub_cancel]

/-- Strings, atoms, the comma and the colon. -/
def Flat (t : Token) : Prop := t = .text ∨ t = .atom ∨ t = .mark 44 ∨ t = .mark 58

theorem afterClose_flat {t : Token} (ht : Flat t) (d : Nat) (ts : List Token) :
    afterClose d (t :: ts) = afterClose d ts := by
  rcases ht with rfl | rfl | rfl | rfl <;> rfl

/-- Is the item read up to a closing bracket? -/
def Item.inside : Item → Bool
  | .value _ => false
  | _ => true

/-- The tokens of an item: they can stand where the grammar puts them, and they balance. -/
structure Group (inside : Bool) (us : List Token) : Prop where
  chain : us.IsChain MayFollow
  head : ∃ t us', us = t :: us' ∧ t ≠ .mark 125
  last : ∀ t ∈ us.getLast?, t ≠ .mark 44
  depth : ∀ d ts, 1 ≤ d →
    afterClose (if inside then d + 1 else d) (us ++ ts) = afterClose d ts
  close : inside = true → ∀ ts, afterClose 1 (us ++ ts) = ts
  whole : inside = false → afterClose 0 us = []

theorem mayFollow_of_left {a b : Token} (h : a ≠ .mark 44) : MayFollow a b := fun hab => h hab.1

theorem mayFollow_of_right {a b : Token} (h : b ≠ .mark 125) : MayFollow a b := fun hab => h hab.2

theorem Group.head_ne {inside : Bool} {us : List Token} (h : Group inside us) :
    ∀ t ∈ us.head?, t ≠ .mark 125 := by
  obtain ⟨t, us', rfl, ht⟩ := h.head
  intro t' ht'
  rw [← Option.some.inj ht']
  exact ht

theorem Group.single {t : Token} (ht : t = .text ∨ t = .atom) : Group false [t] := by
  have hne : ∀ b, t ≠ .mark b := by
    rintro b rfl
    exact ht.elim nofun nofun
  have hflat : Flat t := ht.elim .inl fun h => .inr (.inl h)
  refine ⟨.singleton t, ⟨t, [], rfl, hne 125⟩, ?_, fun d ts _ => ?_, nofun, fun _ => ?_⟩
  · intro t' ht'
    rw [← Option.some.inj ht']
    exact hne 44
  · exact afterClose_flat hflat d ts
  · rw [afterClose_flat hflat, afterClose]

/-- A group behind its opening bracket. -/
theorem Group.opened {b : UInt8} {us : List Token} (hb : b = 91 ∨ b = 123) (h : Group true us) :
    Group false (.mark b :: us) := by
  have h44 : Token.mark b ≠ .mark 44 := by rcases hb with rfl | rfl <;> decide
  have h125 : Token.mark b ≠ .mark 125 := by rcases hb with rfl | rfl <;> decide
  refine ⟨List.isChain_cons.2 ⟨fun _ _ => mayFollow_of_left h44, h.chain⟩, ⟨_, _, rfl, h125⟩, ?_,
    fun d ts hd => ?_, nofun, fun _ => ?_⟩
  · obtain ⟨t, us', rfl, -⟩ := h.head
    rw [List.getLast?_cons_cons]
    exact h.last
  · rw [List.cons_append, if_neg Bool.false_ne_true, afterClose_open hb]
    exact h.depth d ts hd
  · have hclose := h.close rfl []
    rw [List.append_nil] at hclose
    rw [afterClose_open hb, hclose]

/-- An empty pair of brackets. -/
theorem Group.empty {b c : UInt8} (hb : b = 91 ∨ b = 123) (hc : c = 93 ∨ c = 125) :
    Group false [.mark b, .mark c] := by
  have h44 : Token.mark b ≠ .mark 44 := by rcases hb with rfl | rfl <;> decide
  have h125 : Token.mark b ≠ .mark 125 := by rcases hb with rfl | rfl <;> decide
  refine ⟨List.isChain_cons.2 ⟨fun _ _ => mayFollow_of_left h44, .singleton _⟩,
    ⟨_, _, rfl, h125⟩, ?_, fun d ts hd => ?_, nofun, fun _ => ?_⟩
  · rcases hb with rfl | rfl <;> rcases hc with rfl | rfl <;> decide
  · rw [List.cons_append, List.singleton_append, if_neg Bool.false_ne_true, afterClose_open hb]
    exact (afterClose_close hc ts).2 d hd
  · rw [afterClose_open hb, (afterClose_close hc []).1]

/-- The last entry and the closing bracket. -/
theorem Group.closed {c : UInt8} {us : List Token} (hc : c = 93 ∨ c = 125) (h : Group false us) :
    Group true (us ++ [.mark c]) := by
  have h44 : Token.mark c ≠ .mark 44 := by rcases hc with rfl | rfl <;> decide
  obtain ⟨t, us', hus, ht⟩ := h.head
  refine ⟨?_, ⟨t, us' ++ [.mark c], by rw [hus, List.cons_append], ht⟩, ?_, fun d ts hd => ?_,
    fun _ ts => ?_, nofun⟩
  · exact List.isChain_append.2
      ⟨h.chain, .singleton _, fun x hx _ _ => mayFollow_of_left (h.last x hx)⟩
  · intro t' ht'
    rw [List.getLast?_concat] at ht'
    rw [← Option.some.inj ht']
    exact h44
  · rw [List.append_assoc, if_pos rfl]
    have hdepth := h.depth (d + 1) ([.mark c] ++ ts) (by omega)
    rw [if_neg Bool.false_ne_true] at hdepth
    rw [hdepth]
    exact (afterClose_close hc ts).2 d hd
  · rw [List.append_assoc]
    have hdepth := h.depth 1 ([.mark c] ++ ts) (Nat.le_refl 1)
    rw [if_neg Bool.false_ne_true] at hdepth
    rw [hdepth]
    exact (afterClose_close hc ts).1

/-- An entry, a comma and the other entries. -/
theorem Group.joined {us vs : List Token} (h : Group false us) (h' : Group true vs) :
    Group true (us ++ .mark 44 :: vs) := by
  have hflat : Flat (.mark 44) := .inr (.inr (.inl rfl))
  obtain ⟨t, us', hus, ht⟩ := h.head
  obtain ⟨t', vs', hvs, ht'⟩ := h'.head
  refine ⟨?_, ⟨t, us' ++ .mark 44 :: vs, by rw [hus, List.cons_append], ht⟩, ?_, fun d ts hd => ?_,
    fun _ ts => ?_, nofun⟩
  · refine List.isChain_append.2 ⟨h.chain, List.isChain_cons.2 ⟨fun x hx => ?_, h'.chain⟩,
      fun x hx _ _ => mayFollow_of_left (h.last x hx)⟩
    exact mayFollow_of_right (h'.head_ne x hx)
  · rw [List.getLast?_append_of_ne_nil _ (List.cons_ne_nil _ _), hvs,
      List.getLast?_cons_cons, ← hvs]
    exact h'.last
  · have hdepth := h.depth (d + 1) (.mark 44 :: vs ++ ts) (by omega)
    rw [if_neg Bool.false_ne_true] at hdepth
    rw [List.append_assoc, if_pos rfl, hdepth, List.cons_append, afterClose_flat hflat]
    exact h'.depth d ts hd
  · have hdepth := h.depth 1 (.mark 44 :: vs ++ ts) (Nat.le_refl 1)
    rw [if_neg Bool.false_ne_true] at hdepth
    rw [List.append_assoc, hdepth, List.cons_append, afterClose_flat hflat]
    exact h'.close rfl ts

/-- A key, a colon and what belongs to it. -/
theorem Group.keyed {us : List Token} (h : Group true us) :
    Group true (.text :: .mark 58 :: us) := by
  have hcolon : Flat (.mark 58) := .inr (.inr (.inr rfl))
  obtain ⟨t, us', hus, -⟩ := h.head
  refine ⟨List.isChain_cons.2 ⟨fun _ _ => mayFollow_of_left (by decide), List.isChain_cons.2
    ⟨fun _ _ => mayFollow_of_left (by decide), h.chain⟩⟩, ⟨_, _, rfl, by decide⟩,
    ?_, fun d ts hd => ?_, fun _ ts => ?_, nofun⟩
  · rw [List.getLast?_cons_cons, hus, List.getLast?_cons_cons, ← hus]
    exact h.last
  · rw [List.cons_append, List.cons_append, afterClose_flat (.inl rfl), afterClose_flat hcolon]
    exact h.depth d ts hd
  · rw [List.cons_append, List.cons_append, afterClose_flat (.inl rfl), afterClose_flat hcolon]
    exact h.close rfl ts

/-! ## Taking items from the tokens -/

/-- What is left of the tokens behind an item: they are balanced up to there. -/
structure Leaves (inside : Bool) (ts : List Token) (r : Bytes) (us : List Token) : Prop where
  lexes : Lexes r us
  suffix : us <:+ ts
  depth : ∀ d, 1 ≤ d → afterClose (if inside then d + 1 else d) ts = afterClose d us

variable {us : List Token}

theorem Leaves.chain {inside : Bool} (h : Leaves inside ts r us) (hts : ts.IsChain MayFollow) :
    us.IsChain MayFollow := hts.suffix h.suffix

theorem Leaves.trans {inside : Bool} {vs : List Token} (h : Leaves false ts s us)
    (h' : Leaves inside us r vs) : Leaves inside ts r vs := by
  refine ⟨h'.lexes, h'.suffix.trans h.suffix, fun d hd => ?_⟩
  have hdepth := h.depth (if inside then d + 1 else d) (by split <;> omega)
  rw [if_neg Bool.false_ne_true] at hdepth
  rw [hdepth]
  exact h'.depth d hd

theorem Leaves.skip {inside : Bool} (h : Leaves inside ts r us) :
    Leaves inside ts (skipWs r) us := ⟨h.lexes.skip, h.suffix, h.depth⟩

theorem leaves_flat {t : Token} (ht : Flat t) (h : Lexes r us) : Leaves false (t :: us) r us :=
  ⟨h, List.suffix_cons _ _, fun d _ => afterClose_flat ht d us⟩

theorem Leaves.opened {b : UInt8} {vs : List Token} (hb : b = 91 ∨ b = 123)
    (h : Leaves true us r vs) : Leaves false (.mark b :: us) r vs := by
  refine ⟨h.lexes, h.suffix.trans (List.suffix_cons _ _), fun d hd => ?_⟩
  rw [if_neg Bool.false_ne_true, afterClose_open hb]
  exact h.depth d hd

theorem leaves_close {b : UInt8} (hb : b = 93 ∨ b = 125) (h : Lexes r us) :
    Leaves true (.mark b :: us) r us :=
  ⟨h, List.suffix_cons _ _, fun d hd => (afterClose_close hb us).2 d hd⟩

/-! ## Texts with more behind them -/

variable {t : Bytes}

theorem Bounded.head_ne {b : UInt8} (h : Bounded t) (hb : isAtomByte b = true) :
    t.head? ≠ some b := by
  intro hhead
  obtain ⟨hws, hmark, -⟩ := isAtomByte_other hb
  rcases h b hhead with h | h
  · exact absurd h (by simp [hws])
  · exact absurd h (by simp [hmark])

/-- Digits end where they ended, when what is appended to the end of the text is no digit. -/
theorem digits_append (ht : s.dropWhile isDigit = [] → Bounded t) :
    (s ++ t).takeWhile isDigit = s.takeWhile isDigit ∧
      (s ++ t).dropWhile isDigit = s.dropWhile isDigit ++ t := by
  induction s with
  | nil =>
    cases t with
    | nil => exact ⟨rfl, rfl⟩
    | cons b t =>
      have hb : isDigit b = false := by
        refine Bool.eq_false_iff.2 fun hdigit => ?_
        exact (ht rfl).head_ne (isAtomByte_of_isDigit hdigit) rfl
      simp [hb]
  | cons b s ih =>
    cases hb : isDigit b with
    | false => simp [hb]
    | true =>
      rw [List.dropWhile_cons_of_pos hb] at ht
      obtain ⟨htake, hdrop⟩ := ih ht
      simp [hb, htake, hdrop]

theorem fraction_append {ds : Bytes} (h : fraction s = some (ds, r)) (ht : r = [] → Bounded t) :
    fraction (s ++ t) = some (ds, r ++ t) := by
  cases s with
  | nil =>
    cases h
    cases t with
    | nil => rfl
    | cons b t =>
      have hb : b ≠ 46 := fun heq => (ht rfl).head_ne (b := 46) (by decide) (heq ▸ rfl)
      rw [List.nil_append, fraction, if_neg hb]
  | cons b s =>
    rw [fraction] at h
    rw [List.cons_append, fraction]
    split at h
    · next hb =>
      dsimp only at h
      split at h
      · cases h
      next hds =>
      cases h
      obtain ⟨htake, hdrop⟩ := digits_append ht
      dsimp only
      rw [if_pos hb, htake, hdrop, if_neg hds]
    · next hb =>
      cases h
      rw [if_neg hb, List.cons_append]

theorem exponent_append {e : Int} (h : exponent s = some (e, r)) (ht : r = [] → Bounded t) :
    exponent (s ++ t) = some (e, r ++ t) := by
  cases s with
  | nil =>
    cases h
    cases t with
    | nil => rfl
    | cons b t =>
      have hb : ¬ (b = 101 ∨ b = 69) := by
        rintro (heq | heq)
        · exact (ht rfl).head_ne (b := 101) (by decide) (heq ▸ rfl)
        · exact (ht rfl).head_ne (b := 69) (by decide) (heq ▸ rfl)
      rw [List.nil_append, exponent, if_neg hb]
  | cons b s =>
    rw [exponent] at h
    rw [List.cons_append, exponent]
    split at h
    · next hb =>
      dsimp only at h ⊢
      -- there are digits, so the sign is looked for in the text itself
      have hs : s ≠ [] := by
        rintro rfl
        cases h
      have hhead : (s ++ t).head? = s.head? := List.head?_append_of_ne_nil _ hs
      have hsign : (if s.head? = some 45 ∨ s.head? = some 43 then (s ++ t).tail else s ++ t) =
          (if s.head? = some 45 ∨ s.head? = some 43 then s.tail else s) ++ t := by
        rw [List.tail_append_of_ne_nil hs]
        split <;> rfl
      rw [if_pos hb, hhead, hsign]
      generalize (if s.head? = some 45 ∨ s.head? = some 43 then s.tail else s) = s1 at h ⊢
      split at h
      · cases h
      next hds =>
      cases h
      obtain ⟨htake, hdrop⟩ := digits_append ht
      rw [htake, hdrop, if_neg hds]
    · next hb =>
      cases h
      rw [if_neg hb, List.cons_append]

theorem number_append {v : Json} (h : number s = some (v, r)) (ht : r = [] → Bounded t) :
    number (s ++ t) = some (v, r ++ t) := by
  have hs : s ≠ [] := by
    rintro rfl
    cases h
  have hneg : (if (s ++ t).head? = some 45 then (s ++ t).tail else s ++ t) =
      (if s.head? = some 45 then s.tail else s) ++ t := by
    rw [List.head?_append_of_ne_nil _ hs, List.tail_append_of_ne_nil hs]
    split <;> rfl
  have hhead : (s ++ t).head? = s.head? := List.head?_append_of_ne_nil _ hs
  unfold number at h ⊢
  dsimp only at h ⊢
  rw [hneg, hhead]
  generalize (if s.head? = some 45 then s.tail else s) = s0 at h ⊢
  split at h
  · cases h
  next hds =>
  obtain ⟨⟨fs, s1⟩, hfrac, h⟩ := Option.bind_eq_some_iff.1 h
  obtain ⟨⟨e, s2⟩, hexp, h⟩ := Option.bind_eq_some_iff.1 h
  cases h
  have ht1 : s1 = [] → Bounded t := by
    rintro rfl
    exact ht (List.suffix_nil.1 (exponent_takes hexp).suffix)
  have ht0 : s0.dropWhile isDigit = [] → Bounded t := by
    intro hnil
    rw [hnil] at hfrac
    exact ht1 (List.suffix_nil.1 (fraction_takes hfrac).suffix)
  obtain ⟨htake, hdrop⟩ := digits_append ht0
  rw [htake, hdrop, if_neg hds, fraction_append hfrac ht1]
  simp only [Option.bind_eq_bind, Option.bind_some, exponent_append hexp ht]

theorem literal_append {v : Json} (h : literal s = some (v, r)) :
    literal (s ++ t) = some (v, r ++ t) := by
  have hword : ∀ w : Bytes,
      w <+: s → w <+: s ++ t ∧ (s ++ t).drop w.length = s.drop w.length ++ t := by
    rintro w ⟨u, rfl⟩
    refine ⟨⟨u ++ t, (List.append_assoc _ _ _).symm⟩, ?_⟩
    rw [List.append_assoc, List.drop_left, List.drop_left]
  -- the three words start with different bytes
  have hother : ∀ {w w' : Bytes}, w <+: s → w'.head? ≠ w.head? → w ≠ [] → w' ≠ [] →
      ¬ w' <+: s ++ t := by
    rintro w w' hw hne hnil hnil' hw'
    obtain ⟨b, w, rfl⟩ := List.exists_cons_of_ne_nil hnil
    obtain ⟨b', w', rfl⟩ := List.exists_cons_of_ne_nil hnil'
    obtain ⟨u, hu⟩ := (hword _ hw).1
    obtain ⟨u', hu'⟩ := hw'
    rw [← hu, List.cons_append, List.cons_append] at hu'
    exact hne (congrArg some (List.cons.inj hu').1)
  unfold literal at h ⊢
  split at h
  · next hw =>
    cases h
    rw [if_pos (hword _ hw).1]
    exact congrArg (fun x => some (Json.null, x)) (hword _ hw).2
  split at h
  · next hw =>
    cases h
    rw [if_neg (hother hw (by decide) (by decide) (by decide)), if_pos (hword _ hw).1]
    exact congrArg (fun x => some (Json.bool true, x)) (hword _ hw).2
  split at h
  · next hw =>
    cases h
    rw [if_neg (hother hw (by decide) (by decide) (by decide)),
      if_neg (hother hw (by decide) (by decide) (by decide)), if_pos (hword _ hw).1]
    exact congrArg (fun x => some (Json.bool false, x)) (hword _ hw).2
  · cases h

theorem atom_append {b : UInt8} {v : Json} (h : Json.atom (b :: s) = some (v, r))
    (ht : r = [] → Bounded t) : Json.atom (b :: (s ++ t)) = some (v, r ++ t) := by
  rw [Json.atom] at h ⊢
  split at h
  · next hb =>
    rw [if_pos hb]
    exact literal_append (s := b :: s) h
  · next hb =>
    rw [if_neg hb]
    exact number_append (s := b :: s) h ht

theorem units_append {us : List (UInt8 ⊕ Nat)} (h : units s = some (us, r)) :
    units (s ++ t) = some (us, r ++ t) := by
  induction hn : s.length using Nat.strong_induction_on generalizing s us with
  | _ n ih =>
  rcases units_cases h with ⟨rfl, rfl⟩ | ⟨raw, u, s', us', rfl, hraw, hrest, rfl⟩
  · rw [List.cons_append, units.eq_def]
    rfl
  have hpos := hraw.length_pos
  rw [List.length_append] at hn
  have hmore := ih s'.length (by omega) hrest rfl
  rw [List.append_assoc]
  cases hraw with
  | plain hq hb hlow =>
    rw [List.singleton_append, units.eq_def]
    simp only [hq, hb, Nat.not_lt.2 hlow, if_false, hmore, Option.bind_eq_bind, Option.bind_some]
  | simple hu he =>
    change units (92 :: _ :: (s' ++ t)) = _
    rw [units.eq_def]
    simp [hu, he, hmore]
  | hex hu =>
    change units (92 :: 117 :: _ :: _ :: _ :: _ :: (s' ++ t)) = _
    rw [units.eq_def]
    simp [hu, hmore]

theorem string_append {k : Bytes} (h : string s = some (k, r)) :
    string (s ++ t) = some (k, r ++ t) := by
  obtain ⟨us, hus, rfl⟩ := string_eq_some h
  rw [string, units_append hus, Option.map_some]

theorem skipWs_append {b : UInt8} (h : skipWs s = b :: r) : skipWs (s ++ t) = b :: (r ++ t) := by
  induction s with
  | nil => cases h
  | cons c s ih =>
    cases hc : isWs c with
    | true =>
      rw [show skipWs (c :: s) = skipWs s from List.dropWhile_cons_of_pos hc] at h
      rw [List.cons_append, show skipWs (c :: (s ++ t)) = skipWs (s ++ t) from
        List.dropWhile_cons_of_pos hc, ih h]
    | false =>
      rw [skipWs_cons hc] at h
      obtain ⟨rfl, rfl⟩ := List.cons.inj h
      exact skipWs_cons hc

/-- **A text is read as before with more behind it**, unless that goes on with an atom at its
end. -/
theorem Reads.append {i : Item} (h : Reads i s r) (ht : i.inside = false → r = [] → Bounded t) :
    Reads i (s ++ t) (r ++ t) := by
  induction h with
  | str hs hk => exact .str (skipWs_append hs) (string_append hk)
  | atom hs hv => exact .atom (skipWs_append hs) (atom_append hv (ht rfl))
  | arrNil hs hr => exact .arrNil (skipWs_append hs) (skipWs_append hr)
  | arr hs _ ih => exact .arr (skipWs_append hs) (ih nofun)
  | objNil hs hr => exact .objNil (skipWs_append hs) (skipWs_append hr)
  | obj hs _ ih => exact .obj (skipWs_append hs) (ih nofun)
  | last _ hc ih => exact .last (ih fun _ hnil => by rw [hnil] at hc; cases hc) (skipWs_append hc)
  | more _ hc _ ih ih' =>
    exact .more (ih fun _ hnil => by rw [hnil] at hc; cases hc) (skipWs_append hc) (ih' nofun)
  | lastMember hs hk hcolon _ hc ih =>
    exact .lastMember (skipWs_append hs) (string_append hk) (skipWs_append hcolon)
      (ih fun _ hnil => by rw [hnil] at hc; cases hc) (skipWs_append hc)
  | moreMembers hs hk hcolon _ hc _ ih ih' =>
    exact .moreMembers (skipWs_append hs) (string_append hk) (skipWs_append hcolon)
      (ih fun _ hnil => by rw [hnil] at hc; cases hc) (skipWs_append hc) (ih' nofun)

/-! ## JSON texts are tidy -/

/-- The tokens of a derivation. -/
theorem Reads.lexes {i : Item} (h : Reads i s r) {ts : List Token} (hr : Lexes r ts)
    (hbound : i.inside = false → Bounded r) : ∃ us, Lexes s (us ++ ts) ∧ Group i.inside us := by
  induction h generalizing ts with
  | str hs ht => exact ⟨[.text], .of_skipWs (hs ▸ .text ht hr), .single (.inl rfl)⟩
  | atom hs hv =>
    exact ⟨[.atom], .of_skipWs (hs ▸ .atom hv (hbound rfl) hr), .single (.inr rfl)⟩
  | arrNil hs hr' =>
    exact ⟨[.mark 91, .mark 93], lexes_mark hs (by decide) (lexes_mark hr' (by decide) hr),
      .empty (.inl rfl) (.inl rfl)⟩
  | arr hs _ ih =>
    obtain ⟨us, hus, hgroup⟩ := ih hr nofun
    exact ⟨.mark 91 :: us, lexes_mark hs (by decide) hus, hgroup.opened (.inl rfl)⟩
  | objNil hs hr' =>
    exact ⟨[.mark 123, .mark 125], lexes_mark hs (by decide) (lexes_mark hr' (by decide) hr),
      .empty (.inr rfl) (.inr rfl)⟩
  | obj hs _ ih =>
    obtain ⟨us, hus, hgroup⟩ := ih hr nofun
    exact ⟨.mark 123 :: us, lexes_mark hs (by decide) hus, hgroup.opened (.inr rfl)⟩
  | last _ hc ih =>
    obtain ⟨us, hus, hgroup⟩ := ih (lexes_mark hc (by decide) hr) fun _ =>
      bounded_of_skipWs hc (by decide)
    exact ⟨us ++ [Token.mark 93], by rwa [List.append_assoc], hgroup.closed (.inl rfl)⟩
  | more _ hc _ ih ih' =>
    obtain ⟨vs, hvs, hgroup'⟩ := ih' hr nofun
    obtain ⟨us, hus, hgroup⟩ := ih (lexes_mark hc (by decide) hvs) fun _ =>
      bounded_of_skipWs hc (by decide)
    exact ⟨us ++ .mark 44 :: vs, by rwa [List.append_assoc], hgroup.joined hgroup'⟩
  | lastMember hs hk hcolon _ hc ih =>
    obtain ⟨us, hus, hgroup⟩ := ih (lexes_mark hc (by decide) hr) fun _ =>
      bounded_of_skipWs hc (by decide)
    refine ⟨.text :: .mark 58 :: (us ++ [Token.mark 125]), ?_, (hgroup.closed (.inr rfl)).keyed⟩
    have hrest := lexes_mark hcolon (by decide) hus
    rw [List.cons_append, List.cons_append, List.append_assoc]
    exact .of_skipWs (hs ▸ .text hk hrest)
  | moreMembers hs hk hcolon _ hc _ ih ih' =>
    obtain ⟨vs, hvs, hgroup'⟩ := ih' hr nofun
    obtain ⟨us, hus, hgroup⟩ := ih (lexes_mark hc (by decide) hvs) fun _ =>
      bounded_of_skipWs hc (by decide)
    refine ⟨.text :: .mark 58 :: (us ++ .mark 44 :: vs), ?_, (hgroup.joined hgroup').keyed⟩
    have hrest := lexes_mark hcolon (by decide) hus
    rw [List.cons_append, List.cons_append, List.append_assoc]
    exact .of_skipWs (hs ▸ .text hk hrest)

/-- **Every JSON text is tidy.** -/
theorem tidy_of_decode {v : Json} (h : decode s = some v) : Tidy s := by
  obtain ⟨hutf8, r, hread, hend⟩ := decode_iff.1 h
  obtain ⟨us, hlexes, hgroup⟩ := hread.lexes (lexes_nil hend) fun _ => bounded_nil hend
  rw [List.append_nil] at hlexes
  exact ⟨hutf8, us, hlexes, hgroup.chain, hgroup.whole rfl⟩

end Json

end Lib
