import AxiomaOracle.Lib.JsonGrammar
import AxiomaOracle.Lib.JsonText

/-!
# Torn records

A line-wise journal of JSON objects loses the end of a record when its writer dies, and the next
record goes on behind what is left. `Torn` is a text put together from beginnings of records. For
records of strings and counters it is JSON only when it is one whole record (`Torn.whole`): no torn
line is ever taken for a record, whatever the places of the cuts.

Readers in use accept more numbers and names than the grammar has. `Skeletal` is the language with
any word for a number or a literal, and the result is about it.
-/

namespace Lib

namespace Json

/-! ## The skeleton of a text -/

/-- What is read: a value, or the rest of an array or an object, at least one entry. -/
inductive Part where
  | value | elements | members

/-- A byte that is no whitespace, quote or mark. -/
def Wordy (b : UInt8) : Prop := isWs b = false ∧ b ∉ ([34, 44, 58, 91, 93, 123, 125] : Bytes)

/-- The grammar, with any word of such bytes for a number or a literal. -/
inductive Shaped : Part → Bytes → Bytes → Prop where
  | str {s s' r t : Bytes} : skipWs s = 34 :: s' → string s' = some (t, r) → Shaped .value s r
  | word {s p r : Bytes} : skipWs s = p ++ r → p ≠ [] → (∀ b ∈ p, Wordy b) → Shaped .value s r
  | arrNil {s s' r : Bytes} : skipWs s = 91 :: s' → skipWs s' = 93 :: r → Shaped .value s r
  | arr {s s' r : Bytes} : skipWs s = 91 :: s' → Shaped .elements s' r → Shaped .value s r
  | objNil {s s' r : Bytes} : skipWs s = 123 :: s' → skipWs s' = 125 :: r → Shaped .value s r
  | obj {s s' r : Bytes} : skipWs s = 123 :: s' → Shaped .members s' r → Shaped .value s r
  | last {s s' r : Bytes} : Shaped .value s s' → skipWs s' = 93 :: r → Shaped .elements s r
  | more {s s' s'' r : Bytes} : Shaped .value s s' → skipWs s' = 44 :: s'' →
      Shaped .elements s'' r → Shaped .elements s r
  | lastMember {s s1 s2 s3 s4 r k : Bytes} : skipWs s = 34 :: s1 → string s1 = some (k, s2) →
      skipWs s2 = 58 :: s3 → Shaped .value s3 s4 → skipWs s4 = 125 :: r → Shaped .members s r
  | moreMembers {s s1 s2 s3 s4 s5 r k : Bytes} : skipWs s = 34 :: s1 → string s1 = some (k, s2) →
      skipWs s2 = 58 :: s3 → Shaped .value s3 s4 → skipWs s4 = 44 :: s5 → Shaped .members s5 r →
      Shaped .members s r

/-- One value of the wider grammar, with whitespace around it. -/
def Skeletal (s : Bytes) : Prop := ∃ r, Shaped .value s r ∧ skipWs r = []

def Item.part : Item → Part
  | .value _ => .value
  | .elements _ => .elements
  | .members _ => .members

theorem wordy_of_isAtomByte {b : UInt8} (h : isAtomByte b = true) : Wordy b := by
  have hall : ∀ c ∈ ascii "0123456789+-.eEtrufalsn",
      isWs c = false ∧ c ∉ ([34, 44, 58, 91, 93, 123, 125] : Bytes) := by decide
  exact hall b (mem_atomBytes h)

theorem Reads.shaped {i : Item} {s r : Bytes} (h : Reads i s r) : Shaped i.part s r := by
  induction h with
  | str hs ht => exact .str hs ht
  | atom hs hv =>
    obtain ⟨⟨p, hp, hatoms⟩, hlt⟩ := atom_takes hv
    refine .word (hs.trans hp) ?_ fun b hb => wordy_of_isAtomByte (hatoms b hb)
    rintro rfl
    rw [hp, List.nil_append] at hlt
    exact Nat.lt_irrefl _ hlt
  | arrNil hs hr => exact .arrNil hs hr
  | arr hs _ ih => exact .arr hs ih
  | objNil hs hr => exact .objNil hs hr
  | obj hs _ ih => exact .obj hs ih
  | last _ hr ih => exact .last ih hr
  | more _ hc _ ih ih' => exact .more ih hc ih'
  | lastMember hs hk hc _ hr ih => exact .lastMember hs hk hc ih hr
  | moreMembers hs hk hc _ hr _ ih ih' => exact .moreMembers hs hk hc ih hr ih'

/-- **Every JSON text has the skeleton of one.** -/
theorem skeletal_of_decode {s : Bytes} {v : Json} (h : decode s = some v) : Skeletal s := by
  obtain ⟨-, r, hread, hend⟩ := decode_iff.1 h
  exact ⟨r, hread.shaped, hend⟩

/-! ## Records -/

/-- A string or a decimal number. -/
def Member.Scalar (m : Member) : Prop :=
  (∃ s e, StringText s e ∧ m.valueText = 34 :: e ++ [34]) ∨ ∃ n, m.valueText = decimal n

/-- What no comma, colon or closing brace follows. -/
def Stuck (s : Bytes) : Prop := ∀ b ∈ s.head?, isWs b = false ∧ b ≠ 44 ∧ b ≠ 58 ∧ b ≠ 125

def membersText (m : Member) (ms : List Member) : Bytes :=
  m.text ++ (ms.flatMap (44 :: Member.text ·) ++ [125])

/-- A record: a compact object of scalars whose first name starts with a letter. -/
structure Record where
  first : Member
  rest : List Member
  scalar : ∀ m ∈ first :: rest, m.Scalar
  named : ∃ c k, first.keyText = c :: k ∧ c ≠ 34 ∧ Stuck [c]

def Record.text (t : Record) : Bytes := 123 :: membersText t.first t.rest

/-- Beginnings of records, one behind the other; `P` is what is known of the records. -/
inductive Torn (P : Record → Prop) : Bytes → Prop where
  | nil : Torn P []
  | piece {p r : Bytes} (t : Record) : P t → p <+: t.text → p ≠ [] → Torn P r → Torn P (p ++ r)

variable {P : Record → Prop} {p q r s : Bytes}

/-! ## What follows a cut -/

theorem Stuck.elim {b : UInt8} {t : Bytes} (h : Stuck s) (hs : skipWs s = b :: t)
    (hb : b = 44 ∨ b = 58 ∨ b = 125) : False := by
  cases s with
  | nil => cases hs
  | cons c s =>
    obtain ⟨hws, hne⟩ := h c rfl
    rw [skipWs_cons hws] at hs
    obtain rfl := (List.cons.inj hs).1
    rcases hb with rfl | rfl | rfl
    · exact hne.1 rfl
    · exact hne.2.1 rfl
    · exact hne.2.2 rfl

theorem Torn.head (h : Torn P r) : r = [] ∨ ∃ r', r = 123 :: r' := by
  cases h with
  | nil => exact .inl rfl
  | @piece p r t _ hp hne _ =>
    rcases List.prefix_cons_iff.1 hp with rfl | ⟨p', rfl, -⟩
    · exact absurd rfl hne
    · exact .inr ⟨_, rfl⟩

theorem Torn.stuck (h : Torn P r) : Stuck r := by
  rcases h.head with rfl | ⟨r', rfl⟩
  · exact fun _ hb => nomatch hb
  · intro b hb
    obtain rfl : 123 = b := Option.some.inj hb
    decide

/-- A cut inside a text is before its second part or in it. -/
theorem prefix_append_cases {a b : Bytes} (h : q <+: a ++ b) :
    q <+: a ∨ ∃ q', q = a ++ q' ∧ q' ≠ [] ∧ q' <+: b := by
  rcases List.prefix_or_prefix_of_prefix h (List.prefix_append a b) with hq | ⟨q', rfl⟩
  · exact .inl hq
  · by_cases hne : q' = []
    · rw [hne, List.append_nil]
      exact .inl List.prefix_rfl
    · exact .inr ⟨q', rfl, hne, (List.prefix_append_right_inj a).1 h⟩

/-- A string that was open at the cut is closed by the first quote behind it, where no text goes
on. -/
theorem Torn.units (h : Torn P r) {us : List (UInt8 ⊕ Nat)} (hus : units r = some (us, s)) :
    Stuck s := by
  induction h generalizing us s with
  | nil => cases hus
  | @piece p r t ht hpre hne hr ih =>
    obtain ⟨c, k, hkey, -, hc⟩ := t.named
    obtain ⟨p, rfl, hp⟩ := (List.prefix_cons_iff.1 hpre).resolve_left hne
    rw [show membersText t.first t.rest = 34 :: c :: (k ++ 34 :: 58 :: t.first.valueText ++
      (t.rest.flatMap (44 :: Member.text ·) ++ [125])) by
        rw [membersText, Member.text, hkey]
        rfl] at hp
    rcases units_cases hus with ⟨heq, -⟩ | ⟨raw, u, s', us', heq, hraw, hrest, -⟩
    · exact absurd (List.cons.inj heq).1 (by decide)
    -- the brace is a plain character
    have hs' : s' = p ++ r := by
      cases hraw with
      | plain => exact (List.cons.inj heq).2.symm
      | simple => exact absurd (List.cons.inj heq).1 (by decide)
      | hex => exact absurd (List.cons.inj heq).1 (by decide)
    rw [hs'] at hrest
    rcases List.prefix_cons_iff.1 hp with rfl | ⟨p2, rfl, hp2⟩
    · exact ih hrest
    rw [List.cons_append, units.eq_def] at hrest
    obtain rfl : p2 ++ r = s := congrArg Prod.snd (Option.some.inj hrest)
    rcases List.prefix_cons_iff.1 hp2 with rfl | ⟨p3, rfl, -⟩
    · exact hr.stuck
    · exact hc

theorem units_unit {raw : Bytes} {u : UInt8 ⊕ Nat} (h : UnitText raw u) (s : Bytes) :
    units (raw ++ s) = (units s).bind fun x => some (u :: x.1, x.2) := by
  cases h with
  | plain hq hb hlow =>
    rw [List.singleton_append, units.eq_def]
    simp only [hq, hb, Nat.not_lt.2 hlow, if_false]
    rfl
  | simple hu he =>
    change units (92 :: _ :: s) = _
    rw [units.eq_def]
    simp only [show (92 : UInt8) ≠ 34 by decide, hu, if_false, if_true, he]
    rfl
  | hex hu =>
    change units (92 :: 117 :: _ :: _ :: _ :: _ :: s) = _
    rw [units.eq_def]
    simp only [show (92 : UInt8) ≠ 34 by decide, if_false, if_true, hu]
    rfl

/-- Four hexadecimal digits have no brace among them. -/
theorem hex4_brace {a b c d : UInt8} {u : Nat} (h : hex4 a b c d = some u) :
    123 ∉ [a, b, c, d] := by
  have hnone : hexVal 123 = none := by decide
  intro hmem
  unfold hex4 at h
  obtain ⟨_, ha, h⟩ := Option.bind_eq_some_iff.1 h
  obtain ⟨_, hb, h⟩ := Option.bind_eq_some_iff.1 h
  obtain ⟨_, hc, h⟩ := Option.bind_eq_some_iff.1 h
  obtain ⟨_, hd, -⟩ := Option.bind_eq_some_iff.1 h
  simp only [List.mem_cons, List.not_mem_nil, or_false] at hmem
  rcases hmem with rfl | rfl | rfl | rfl
  · exact nomatch hnone.symm.trans ha
  · exact nomatch hnone.symm.trans hb
  · exact nomatch hnone.symm.trans hc
  · exact nomatch hnone.symm.trans hd

/-- An escape that was cut is not completed by what follows. -/
theorem units_escape_cut {raw : Bytes} {u : UInt8 ⊕ Nat} {us : List (UInt8 ⊕ Nat)} (hr : Torn P r)
    (hraw : UnitText raw u) (hq : q <+: raw) (hnil : q ≠ []) (hne : q ≠ raw) :
    units (q ++ r) ≠ some (us, s) := by
  intro h
  obtain ⟨b, q, rfl⟩ := List.exists_cons_of_ne_nil hnil
  obtain ⟨raw', rfl⟩ := hq
  have hb : b = 92 ∧ ∃ c e, q ++ raw' = c :: e ∧ (c = 117 → e.length = 4) ∧ (c ≠ 117 → e = []) := by
    generalize hx : b :: q ++ raw' = x at hraw
    cases hraw with
    | plain =>
      have htail := List.append_eq_nil_iff.1 (List.cons.inj hx).2
      rw [htail.1, htail.2, List.append_nil] at hne
      exact absurd rfl hne
    | simple hu =>
      exact ⟨(List.cons.inj hx).1, _, _, (List.cons.inj hx).2, fun h => absurd h hu, fun _ => rfl⟩
    | hex => exact ⟨(List.cons.inj hx).1, _, _,
        (List.cons.inj hx).2, fun _ => rfl, fun h => absurd rfl h⟩
  obtain ⟨rfl, c, e, hce, hfour, hnone⟩ := hb
  have hlt : q.length ≤ e.length := by
    have hlen := congrArg List.length hce
    rw [List.length_append, List.length_cons] at hlen
    have hpos : raw' ≠ [] := fun h => hne (by rw [h, List.append_nil])
    have := List.length_pos_iff.2 hpos
    omega
  rcases units_cases h with ⟨heq, -⟩ | ⟨raw2, u2, s2, us2, heq, hraw2, -, -⟩
  · exact absurd (List.cons.inj heq).1 (by decide)
  cases hraw2 with
  | plain _ h92 => exact absurd (List.cons.inj heq).1.symm h92
  | @simple e2 c2 he2 hc2 =>
    have heq := (List.cons.inj heq).2
    cases q with
    | nil =>
      rcases hr.head with rfl | ⟨r', rfl⟩
      · cases heq
      · rw [← (List.cons.inj heq).1, show simpleEscape 123 = none from rfl] at hc2
        cases hc2
    | cons c' q =>
      obtain rfl : c' = e2 := (List.cons.inj heq).1
      obtain rfl : c' = c := (List.cons.inj hce).1
      rw [hnone he2] at hlt
      cases hlt
  | @hex a b c' d u hu =>
    have heq := (List.cons.inj heq).2
    cases q with
    | nil =>
      rcases hr.head with rfl | ⟨r', rfl⟩
      · cases heq
      · exact absurd (List.cons.inj heq).1 (by decide)
    | cons x q =>
      obtain rfl : x = 117 := (List.cons.inj heq).1
      rw [hfour (List.cons.inj hce).1.symm, List.length_cons] at hlt
      have heq : q ++ r = [a, b, c', d] ++ s2 := (List.cons.inj heq).2
      rcases hr.head with rfl | ⟨r', rfl⟩
      · have hlen := congrArg List.length heq
        simp only [List.length_append, List.length_cons, List.length_nil] at hlen
        omega
      · -- the brace stands among the digits
        have hat := congrArg (·[q.length]?) heq
        simp only [List.getElem?_append_right (Nat.le_refl _), Nat.sub_self,
          List.getElem?_cons_zero] at hat
        rw [List.getElem?_append_left (show q.length < [a, b, c', d].length from hlt)] at hat
        exact hex4_brace hu (List.mem_of_getElem? hat.symm)

theorem units_cut {e : Bytes} {us us' : List (UInt8 ⊕ Nat)} (hr : Torn P r)
    (he : units (e ++ [34]) = some (us, [])) (hq : q <+: e) (h : units (q ++ r) = some (us', s)) :
    Stuck s := by
  induction hn : e.length using Nat.strong_induction_on generalizing e q us us' with
  | _ n ih =>
  by_cases hnil : q = []
  · rw [hnil] at h
    exact hr.units h
  have hpos := List.length_pos_iff.2 hnil
  have hle := hq.length_le
  rcases units_cases he with ⟨heq, -⟩ | ⟨raw, u, s', us1, heq, hraw, hrest, -⟩
  · have hlen := congrArg List.length heq
    rw [List.length_append, List.length_cons, List.length_nil] at hlen
    omega
  -- the closing quote is not part of the first character
  obtain ⟨e', rfl, rfl⟩ : ∃ e', e = raw ++ e' ∧ s' = e' ++ [34] := by
    rcases List.append_eq_append_iff.1 heq with ⟨x, hx, hx'⟩ | ⟨x, hx, hx'⟩
    · cases x with
      | nil =>
        rw [List.append_nil] at hx
        exact ⟨[], by rw [hx, List.append_nil], by rw [hx']; rfl⟩
      | cons y x =>
        have hlen := congrArg List.length hx'
        have hpos' := units_length hrest
        rw [List.length_append, List.length_cons] at hlen
        simp only [List.length_cons, List.length_nil] at hlen hpos'
        omega
    · exact ⟨x, hx, hx'⟩
  rcases prefix_append_cases hq with hq' | ⟨q', rfl, -, hq'⟩
  · by_cases hfull : q = raw
    · rw [hfull, units_unit hraw] at h
      obtain ⟨⟨us2, r2⟩, hunits, heq2⟩ := Option.bind_eq_some_iff.1 h
      obtain rfl : r2 = s := congrArg Prod.snd (Option.some.inj heq2)
      exact hr.units hunits
    · exact absurd h (units_escape_cut hr hraw hq' hnil hfull)
  · rw [List.append_assoc, units_unit hraw] at h
    obtain ⟨⟨us2, r2⟩, hunits, heq2⟩ := Option.bind_eq_some_iff.1 h
    obtain rfl : r2 = s := congrArg Prod.snd (Option.some.inj heq2)
    have hraw' := hraw.length_pos
    exact ih e'.length (by rw [← hn, List.length_append]; omega) hrest hq' hunits rfl

theorem string_cut {x e t : Bytes} (hr : Torn P r) (he : StringText x e) (hq : q <+: e)
    (h : string (q ++ r) = some (t, s)) : Stuck s := by
  obtain ⟨us, hus, -⟩ := string_eq_some (he [])
  obtain ⟨us', hus', -⟩ := string_eq_some h
  exact units_cut hr hus hq hus'

/-! ## Values that were cut -/

/-- A value that opens with a quote is a string. -/
theorem shaped_quote (h : Shaped .value (34 :: q) s) : ∃ t, string q = some (t, s) := by
  have hskip : skipWs (34 :: q) = 34 :: q := skipWs_cons (by decide)
  cases h with
  | str hs ht =>
    rw [hskip] at hs
    rw [(List.cons.inj hs).2]
    exact ⟨_, ht⟩
  | @word _ p _ hs hne hp =>
    obtain ⟨b, p, rfl⟩ := List.exists_cons_of_ne_nil hne
    rw [hskip] at hs
    have hb := hp b List.mem_cons_self
    rw [← (List.cons.inj hs).1] at hb
    exact absurd (by decide) hb.2
  | arrNil hs _ | arr hs _ | objNil hs _ | obj hs _ =>
    rw [hskip] at hs
    exact absurd (List.cons.inj hs).1 (by decide)

theorem stuck_digit {b : UInt8} (hb : isDigit b = true) :
    isWs b = false ∧ b ≠ 44 ∧ b ≠ 58 ∧ b ≠ 125 := by
  have hne : ∀ c, isDigit c = false → b ≠ c := by
    rintro c hc rfl
    rw [hb] at hc
    cases hc
  exact ⟨(opens_of_isDigit (.inl hb)).1.1, hne 44 rfl, hne 58 rfl, hne 125 rfl⟩

/-- A number in front of a mark or of nothing: it is read to its end, or digits follow. -/
theorem shaped_digits {x : Bytes} (hne : q ≠ []) (hq : ∀ b ∈ q, isDigit b = true)
    (hx : ∀ b ∈ x.head?, ¬ Wordy b) (h : Shaped .value (q ++ x) s) : s = x ∨ Stuck s := by
  obtain ⟨d, q', rfl⟩ := List.exists_cons_of_ne_nil hne
  have hd := hq d List.mem_cons_self
  have hhead : ∀ c, isDigit c = false → d ≠ c := by
    rintro c hc rfl
    rw [hd] at hc
    cases hc
  have hskip : skipWs (d :: q' ++ x) = d :: q' ++ x := skipWs_cons (stuck_digit hd).1
  cases h with
  | @word _ p _ hs hnil hp =>
    rw [hskip] at hs
    rcases List.append_eq_append_iff.1 hs with ⟨y, rfl, rfl⟩ | ⟨y, hy, rfl⟩
    · -- the word would go on behind the number
      cases y with
      | nil => exact .inl rfl
      | cons b y => exact absurd (hp b (List.mem_append_right _ List.mem_cons_self)) (hx b rfl)
    · cases y with
      | nil => exact .inl rfl
      | cons b y =>
        refine .inr fun c hc => ?_
        obtain rfl : b = c := Option.some.inj hc
        exact stuck_digit (hq b (by rw [hy]; exact List.mem_append_right _ List.mem_cons_self))
  | str hs _ | arrNil hs _ | arr hs _ | objNil hs _ | obj hs _ =>
    rw [hskip] at hs
    exact absurd (List.cons.inj hs).1 (hhead _ (by decide))

theorem scalar_cut {m : Member} (hr : Torn P r) (hval : ∀ s, Shaped .value r s → Stuck s)
    (hm : m.Scalar) (hq : q <+: m.valueText) (h : Shaped .value (q ++ r) s) : Stuck s := by
  by_cases hnil : q = []
  · rw [hnil] at h
    exact hval s h
  rcases hm with ⟨x, e, hx, htext⟩ | ⟨n, htext⟩
  · rw [htext, List.cons_append] at hq
    obtain ⟨q1, rfl, hq1⟩ := (List.prefix_cons_iff.1 hq).resolve_left hnil
    rw [List.cons_append] at h
    obtain ⟨t, ht⟩ := shaped_quote h
    rcases prefix_append_cases hq1 with hq1 | ⟨q2, rfl, hne, hq2⟩
    · exact string_cut hr hx hq1 ht
    · -- the string is complete
      obtain ⟨q3, rfl, hq3⟩ := (List.prefix_cons_iff.1 hq2).resolve_left hne
      rw [List.prefix_nil.1 hq3, List.append_assoc, List.singleton_append, hx r] at ht
      obtain rfl : r = s := congrArg Prod.snd (Option.some.inj ht)
      exact hr.stuck
  · rw [htext] at hq
    have hx : ∀ b ∈ r.head?, ¬ Wordy b := by
      intro b hb
      rcases hr.head with rfl | ⟨r', rfl⟩
      · cases hb
      · cases hb
        exact fun hw => absurd (by decide) hw.2
    rcases shaped_digits hnil (fun b hb => decimal_isDigit n b (hq.subset hb)) hx h with rfl | hs
    · exact hr.stuck
    · exact hs

/-- A scalar in front of a comma or a closing bracket is read to its end, or no mark follows. -/
theorem scalar_whole {m : Member} {x : Bytes} (hm : m.Scalar) (hx : Delimited x)
    (h : Shaped .value (m.valueText ++ x) s) : s = x ∨ Stuck s := by
  rcases hm with ⟨t, e, ht, htext⟩ | ⟨n, htext⟩
  · rw [htext, List.append_assoc, List.cons_append] at h
    obtain ⟨t', ht'⟩ := shaped_quote h
    rw [List.singleton_append, ht x] at ht'
    exact .inl (congrArg Prod.snd (Option.some.inj ht')).symm
  · rw [htext] at h
    refine shaped_digits (decimal_ne_nil n) (decimal_isDigit n) (fun b hb hw => hw.2 ?_) h
    rcases hx b hb with rfl | rfl | rfl <;> decide

/-! ## Members that were cut -/

/-- A reading of members starts with one of them. -/
theorem members_cases (h : Shaped .members q s) : ∃ s1 s2 s3 s4 k, skipWs q = 34 :: s1 ∧
    string s1 = some (k, s2) ∧ skipWs s2 = 58 :: s3 ∧ Shaped .value s3 s4 ∧
    (skipWs s4 = 125 :: s ∨ ∃ s5, skipWs s4 = 44 :: s5 ∧ Shaped .members s5 s) := by
  cases h with
  | lastMember hs hk hc hv hr => exact ⟨_, _, _, _, _, hs, hk, hc, hv, .inl hr⟩
  | moreMembers hs hk hc hv hr hms => exact ⟨_, _, _, _, _, hs, hk, hc, hv, .inr ⟨_, hr, hms⟩⟩

/-- Behind a cut inside a member nothing is read: the first member is complete, and part of what
stands behind it is there. -/
theorem member_cut {m : Member} {tail : Bytes} (hr : Torn P r)
    (hval : ∀ s, Shaped .value r s → Stuck s) (hm : m.Scalar) (htail : Delimited tail)
    (hq : q <+: m.text ++ tail) (h : Shaped .members (q ++ r) s) :
    ∃ b q', q = m.text ++ b :: q' ∧ b :: q' <+: tail ∧ (skipWs (b :: q' ++ r) = 125 :: s ∨
      ∃ s5, skipWs (b :: q' ++ r) = 44 :: s5 ∧ Shaped .members s5 s) := by
  obtain ⟨s1, s2, s3, s4, k, hs1, hk, hs3, hv, hs4⟩ := members_cases h
  have hstuck : ¬ Stuck s4 := by
    intro hs
    rcases hs4 with hs4 | ⟨s5, hs4, -⟩
    · exact hs.elim hs4 (.inr (.inr rfl))
    · exact hs.elim hs4 (.inl rfl)
  -- the name opens
  rw [Member.text, List.append_assoc, List.cons_append] at hq
  rcases List.prefix_cons_iff.1 hq with rfl | ⟨q1, rfl, hq1⟩
  · rcases hr.head with rfl | ⟨r', rfl⟩
    · cases hs1
    · rw [List.nil_append, skipWs_cons (by decide)] at hs1
      exact absurd (List.cons.inj hs1).1 (by decide)
  rw [List.cons_append, skipWs_cons (by decide)] at hs1
  obtain rfl := (List.cons.inj hs1).2
  -- it is complete
  rcases prefix_append_cases hq1 with hq1 | ⟨q2, rfl, hne2, hq2⟩
  · exact ((string_cut hr m.key_reads hq1 hk).elim hs3 (.inr (.inl rfl))).elim
  obtain ⟨q3, rfl, hq3⟩ := (List.prefix_cons_iff.1 hq2).resolve_left hne2
  rw [List.append_assoc, List.cons_append, m.key_reads] at hk
  obtain rfl : q3 ++ r = s2 := congrArg Prod.snd (Option.some.inj hk)
  -- so is the colon
  rcases List.prefix_cons_iff.1 hq3 with rfl | ⟨q4, rfl, hq4⟩
  · exact (hr.stuck.elim hs3 (.inr (.inl rfl))).elim
  rw [List.cons_append, skipWs_cons (by decide)] at hs3
  obtain rfl := (List.cons.inj hs3).2
  -- and the value
  rcases prefix_append_cases hq4 with hq4 | ⟨q5, rfl, hne5, hq5⟩
  · exact absurd (scalar_cut hr hval hm hq4 hv) hstuck
  obtain ⟨b, q', rfl⟩ := List.exists_cons_of_ne_nil hne5
  have hdel : Delimited (b :: q' ++ r) := by
    obtain ⟨tail', rfl⟩ := hq5
    exact htail
  rw [List.append_assoc] at hv
  obtain rfl := (scalar_whole hm hdel hv).resolve_right hstuck
  exact ⟨b, q', by simp [Member.text], hq5, hs4⟩

theorem members_cut {m : Member} {ms : List Member} (hr : Torn P r)
    (hval : ∀ s, Shaped .value r s → Stuck s) (hscalar : ∀ x ∈ m :: ms, x.Scalar)
    (hq : q <+: membersText m ms) (h : Shaped .members (q ++ r) s) :
    q = membersText m ms ∧ s = r := by
  induction ms generalizing m q with
  | nil =>
    obtain ⟨b, q', rfl, hq', hend⟩ := member_cut hr hval (hscalar m List.mem_cons_self)
      (by simp [Delimited]) hq h
    obtain ⟨hb, hnil⟩ : b = 125 ∧ q' = [] := by
      obtain ⟨tail, htail⟩ := hq'
      exact ⟨(List.cons.inj htail).1, (List.append_eq_nil_iff.1 (List.cons.inj htail).2).1⟩
    subst hb hnil
    rw [List.singleton_append, skipWs_cons (by decide)] at hend
    rcases hend with hend | ⟨s5, hend, -⟩
    · exact ⟨rfl, (List.cons.inj hend).2.symm⟩
    · exact absurd (List.cons.inj hend).1 (by decide)
  | cons m' ms ih =>
    have htext : membersText m (m' :: ms) = m.text ++ 44 :: membersText m' ms := by
      simp [membersText]
    rw [htext] at hq
    obtain ⟨b, q', rfl, hq', hend⟩ := member_cut hr hval (hscalar m List.mem_cons_self)
      (by simp [Delimited]) hq h
    obtain ⟨rfl, hq2⟩ : b = 44 ∧ q' <+: membersText m' ms := by
      obtain ⟨tail, htail⟩ := hq'
      exact ⟨(List.cons.inj htail).1, tail, (List.cons.inj htail).2⟩
    rw [List.cons_append, skipWs_cons (by decide)] at hend
    rcases hend with hend | ⟨s5, hend, hms⟩
    · exact absurd (List.cons.inj hend).1 (by decide)
    · obtain rfl := (List.cons.inj hend).2
      obtain ⟨rfl, rfl⟩ := ih (fun x hx => hscalar x (List.mem_cons_of_mem _ hx)) hq2 hms
      exact ⟨htext.symm, rfl⟩

/-! ## Torn texts -/

/-- A value that opens with a brace is an object; the closing brace does not follow a cut. -/
theorem shaped_brace (hq : q = [] → Stuck r) (hhead : ∀ b ∈ q.head?, b = 34)
    (h : Shaped .value (123 :: q ++ r) s) : Shaped .members (q ++ r) s := by
  have hskip : skipWs (123 :: q ++ r) = 123 :: (q ++ r) := skipWs_cons (by decide)
  cases h with
  | str hs _ | arrNil hs _ | arr hs _ =>
    rw [hskip] at hs
    exact absurd (List.cons.inj hs).1 (by decide)
  | @word _ p _ hs hne hp =>
    obtain ⟨b, p, rfl⟩ := List.exists_cons_of_ne_nil hne
    rw [hskip] at hs
    have hb := hp b List.mem_cons_self
    rw [← (List.cons.inj hs).1] at hb
    exact absurd (by decide) hb.2
  | objNil hs hend =>
    rw [hskip] at hs
    rw [← (List.cons.inj hs).2] at hend
    cases q with
    | nil => exact ((hq rfl).elim hend (.inr (.inr rfl))).elim
    | cons b q =>
      obtain rfl := hhead b rfl
      rw [List.cons_append, skipWs_cons (by decide)] at hend
      exact absurd (List.cons.inj hend).1 (by decide)
  | obj hs hms =>
    rw [hskip] at hs
    rwa [← (List.cons.inj hs).2] at hms

/-- What is read as a value from a torn text is a whole record, and torn text is left. -/
theorem Torn.value (h : Torn P r) (hv : Shaped .value r s) :
    Torn P s ∧ ∃ t, P t ∧ r = t.text ++ s := by
  induction h generalizing s with
  | nil =>
    cases hv with
    | word hs hne _ => exact absurd (List.append_eq_nil_iff.1 hs.symm).1 hne
    | str hs _ | arrNil hs _ | arr hs _ | objNil hs _ | obj hs _ => cases hs
  | @piece p r t ht hpre hne hr ih =>
    obtain ⟨q, rfl, hq⟩ := (List.prefix_cons_iff.1 hpre).resolve_left hne
    have hhead : ∀ b ∈ q.head?, b = 34 := by
      intro b hb
      obtain ⟨q', rfl⟩ := List.head?_eq_some_iff.1 hb
      obtain ⟨x, hx⟩ := hq
      exact (List.cons.inj hx).1
    obtain ⟨rfl, rfl⟩ := members_cut hr (fun s hv => (ih hv).1.stuck) t.scalar hq
      (shaped_brace (fun _ => hr.stuck) hhead hv)
    exact ⟨hr, t, ht, rfl⟩

/-- What is left of a torn text that is cut once more. -/
theorem Torn.cut (h : Torn P r) (hq : q <+: r) : Torn P q := by
  induction h generalizing q with
  | nil =>
    rw [List.prefix_nil.1 hq]
    exact .nil
  | piece t ht hp hne hr ih =>
    rcases prefix_append_cases hq with hq | ⟨q', rfl, -, hq'⟩
    · by_cases hnil : q = []
      · rw [hnil]
        exact .nil
      · have hpiece := Torn.piece t ht (hq.trans hp) hnil .nil
        rwa [List.append_nil] at hpiece
    · exact .piece t ht hp hne (ih hq')

/-- **A torn text is a value only when it is one whole record.** -/
theorem Torn.whole (h : Torn P r) (hr : Skeletal r) : ∃ t, P t ∧ r = t.text := by
  obtain ⟨s, hread, hend⟩ := hr
  obtain ⟨hs, t, ht, rfl⟩ := h.value hread
  rcases hs.head with rfl | ⟨s', rfl⟩
  · exact ⟨t, ht, List.append_nil _⟩
  · rw [skipWs_cons (by decide)] at hend
    cases hend

/-! ## Lines -/

theorem splitOn_append_of_notMem {b : UInt8} {s t : Bytes} (h : b ∉ s) :
    (s ++ t).splitOn b = (t.splitOn b).modifyHead (s ++ ·) := by
  induction s with
  | nil =>
    obtain ⟨u, us, hu⟩ := List.exists_cons_of_ne_nil (List.splitOn_ne_nil b t)
    rw [List.nil_append, hu]
    rfl
  | cons c s ih =>
    rw [List.mem_cons, not_or] at h
    rw [List.cons_append, List.splitOn_cons_eq_if_modifyHead,
      if_neg (by simpa using Ne.symm h.1), ih h.2, List.modifyHead_modifyHead]
    rfl

/-- **The lines of a journal are torn texts**, wherever the writes of its records were cut: no
record holds a line feed, and each is written with one behind it. -/
theorem torn_lines {b : UInt8} {ps : List Bytes} (hclean : ∀ t, P t → b ∉ t.text)
    (hps : ∀ p ∈ ps, ∃ t, P t ∧ p <+: t.text ++ [b]) : ∀ l ∈ ps.flatten.splitOn b, Torn P l := by
  induction ps with
  | nil =>
    intro l hl
    rw [List.flatten_nil, List.splitOn_nil, List.mem_singleton] at hl
    rw [hl]
    exact .nil
  | cons p ps ih =>
    intro l hl
    have hrest := ih fun q hq => hps q (List.mem_cons_of_mem _ hq)
    obtain ⟨t, ht, hp⟩ := hps p List.mem_cons_self
    rw [List.flatten_cons] at hl
    rcases prefix_append_cases hp with hp | ⟨q, rfl, hne, hq⟩
    · -- the record was cut
      have hb : b ∉ p := fun hb => hclean t ht (hp.subset hb)
      obtain ⟨u, us, hu⟩ := List.exists_cons_of_ne_nil (List.splitOn_ne_nil b ps.flatten)
      rw [hu] at hrest
      rw [splitOn_append_of_notMem hb, hu, List.modifyHead_cons, List.mem_cons] at hl
      rcases hl with rfl | hl
      · by_cases hnil : p = []
        · rw [hnil]
          exact hrest u List.mem_cons_self
        · exact .piece t ht hp hnil (hrest u List.mem_cons_self)
      · exact hrest l (List.mem_cons_of_mem _ hl)
    · obtain ⟨q', rfl, hq'⟩ := (List.prefix_cons_iff.1 hq).resolve_left hne
      rw [List.prefix_nil.1 hq', List.append_assoc, List.singleton_append,
        List.splitOn_append_cons_self_of_not_mem (hclean t ht), List.mem_cons] at hl
      rcases hl with rfl | hl
      · have hwhole := Torn.piece t ht List.prefix_rfl (List.cons_ne_nil _ _) .nil
        rwa [List.append_nil] at hwhole
      · exact hrest l hl

end Json

end Lib
