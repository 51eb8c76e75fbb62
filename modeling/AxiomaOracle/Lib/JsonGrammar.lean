import AxiomaOracle.Lib.Json

/-!
# Derivations of JSON texts

`Reads i s r` says that the grammar takes a value, the elements of an array or the members of an
object from the front of `s` and leaves `r`. It has no bound on the recursion, so results about
texts are inductions over derivations; `decode_iff` is the connection to the reader.
-/

namespace Lib

namespace Json

/-- Numbers and the three literals. -/
def atom : Bytes → Option (Json × Bytes)
  | [] => none
  | b :: r => if b = 110 ∨ b = 116 ∨ b = 102 then literal (b :: r) else number (b :: r)

/-- What is read: a value, or the rest of an array or an object, at least one entry. -/
inductive Item where
  | value (v : Json)
  | elements (vs : List Json)
  | members (ms : List (Bytes × Json))

inductive Reads : Item → Bytes → Bytes → Prop where
  | str {s s' r t : Bytes} : skipWs s = 34 :: s' → string s' = some (t, r) →
      Reads (.value (.str t)) s r
  | atom {s s' r : Bytes} {b : UInt8} {v : Json} : skipWs s = b :: s' →
      atom (b :: s') = some (v, r) → Reads (.value v) s r
  | arrNil {s s' r : Bytes} : skipWs s = 91 :: s' → skipWs s' = 93 :: r →
      Reads (.value (.arr [])) s r
  | arr {s s' r : Bytes} {vs : List Json} : skipWs s = 91 :: s' → Reads (.elements vs) s' r →
      Reads (.value (.arr vs)) s r
  | objNil {s s' r : Bytes} : skipWs s = 123 :: s' → skipWs s' = 125 :: r →
      Reads (.value (.obj [])) s r
  | obj {s s' r : Bytes} {ms : List (Bytes × Json)} : skipWs s = 123 :: s' →
      Reads (.members ms) s' r → Reads (.value (.obj ms)) s r
  | last {s s' r : Bytes} {v : Json} : Reads (.value v) s s' → skipWs s' = 93 :: r →
      Reads (.elements [v]) s r
  | more {s s' s'' r : Bytes} {v : Json} {vs : List Json} : Reads (.value v) s s' →
      skipWs s' = 44 :: s'' → Reads (.elements vs) s'' r → Reads (.elements (v :: vs)) s r
  | lastMember {s s1 s2 s3 s4 r k : Bytes} {v : Json} : skipWs s = 34 :: s1 →
      string s1 = some (k, s2) → skipWs s2 = 58 :: s3 → Reads (.value v) s3 s4 →
      skipWs s4 = 125 :: r → Reads (.members [(k, v)]) s r
  | moreMembers {s s1 s2 s3 s4 s5 r k : Bytes} {v : Json} {ms : List (Bytes × Json)} :
      skipWs s = 34 :: s1 → string s1 = some (k, s2) → skipWs s2 = 58 :: s3 →
      Reads (.value v) s3 s4 → skipWs s4 = 44 :: s5 → Reads (.members ms) s5 r →
      Reads (.members ((k, v) :: ms)) s r

mutual

/-- How deep arrays and objects are nested. -/
def nesting : Json → Nat
  | .arr vs => 1 + nestingElements vs
  | .obj ms => 1 + nestingMembers ms
  | _ => 0

def nestingElements : List Json → Nat
  | [] => 0
  | v :: vs => max (nesting v) (nestingElements vs)

def nestingMembers : List (Bytes × Json) → Nat
  | [] => 0
  | (_, v) :: ms => max (nesting v) (nestingMembers ms)

end

/-- What is left to go down in an item. -/
def Item.nesting : Item → Nat
  | .value v => Json.nesting v
  | .elements vs => 1 + nestingElements vs
  | .members ms => 1 + nestingMembers ms

/-! ## Scanning forward -/

variable {s r : Bytes}

theorem skipWs_skipWs (s : Bytes) : skipWs (skipWs s) = skipWs s := by
  induction s with
  | nil => rfl
  | cons b s ih =>
    cases h : isWs b with
    | true => rw [show skipWs (b :: s) = skipWs s from List.dropWhile_cons_of_pos h, ih]
    | false => rw [skipWs_cons h, skipWs_cons h]

theorem skipWs_length_le (s : Bytes) : (skipWs s).length ≤ s.length :=
  (List.dropWhile_sublist _).length_le

theorem length_lt_of_skipWs {b : UInt8} (h : skipWs s = b :: r) : r.length < s.length := by
  have hle := skipWs_length_le s
  rw [h, List.length_cons] at hle
  omega

theorem skipWs_head {b : UInt8} (h : skipWs s = b :: r) : isWs b = false := by
  have hnot := List.head?_dropWhile_not isWs s
  rw [show s.dropWhile isWs = b :: r from h] at hnot
  exact hnot

/-- One character of a string as it is written. -/
inductive UnitText : Bytes → UInt8 ⊕ Nat → Prop where
  | plain {b : UInt8} : b ≠ 34 → b ≠ 92 → 0x20 ≤ b.toNat → UnitText [b] (.inl b)
  | simple {e c : UInt8} : e ≠ 117 → simpleEscape e = some c → UnitText [92, e] (.inl c)
  | hex {a b c d : UInt8} {u : Nat} : hex4 a b c d = some u →
      UnitText [92, 117, a, b, c, d] (.inr u)

theorem units_cases {us : List (UInt8 ⊕ Nat)} (h : units s = some (us, r)) :
    (s = 34 :: r ∧ us = []) ∨
    ∃ raw u s' us', s = raw ++ s' ∧ UnitText raw u ∧ units s' = some (us', r) ∧ us = u :: us' := by
  revert h
  fun_cases units s
  all_goals intro h
  case case2 =>
    cases h
    exact .inl ⟨rfl, rfl⟩
  case case4 a b c d s _ =>
    obtain ⟨u, hu, h⟩ := Option.bind_eq_some_iff.1 h
    obtain ⟨⟨us', r'⟩, hus, heq⟩ := Option.bind_eq_some_iff.1 h
    cases heq
    exact .inr ⟨_, _, s, us', rfl, .hex hu, hus, rfl⟩
  case case6 e s he _ =>
    obtain ⟨c, hc, h⟩ := Option.bind_eq_some_iff.1 h
    obtain ⟨⟨us', r'⟩, hus, heq⟩ := Option.bind_eq_some_iff.1 h
    cases heq
    exact .inr ⟨_, _, s, us', rfl, .simple he hc, hus, rfl⟩
  case case8 b s h34 h92 hlow =>
    obtain ⟨⟨us', r'⟩, hus, heq⟩ := Option.bind_eq_some_iff.1 h
    cases heq
    exact .inr ⟨_, _, s, us', rfl, .plain h34 h92 (Nat.le_of_not_lt hlow), hus, rfl⟩
  all_goals cases h

theorem UnitText.length_pos {raw : Bytes} {u : UInt8 ⊕ Nat} (h : UnitText raw u) :
    0 < raw.length := by
  cases h <;> exact Nat.zero_lt_succ _

theorem units_length {us : List (UInt8 ⊕ Nat)} (h : units s = some (us, r)) :
    r.length < s.length := by
  induction hn : s.length using Nat.strong_induction_on generalizing s us with
  | _ n ih =>
  rcases units_cases h with ⟨rfl, -⟩ | ⟨raw, u, s', us', rfl, hraw, hrest, -⟩
  · rw [← hn, List.length_cons]
    exact Nat.lt_succ_self _
  · have hpos := hraw.length_pos
    rw [List.length_append] at hn
    have := ih s'.length (by omega) hrest rfl
    omega

theorem string_eq_some {t : Bytes} (h : string s = some (t, r)) :
    ∃ us, units s = some (us, r) ∧ t = assemble none us := by
  obtain ⟨⟨us, r'⟩, hus, heq⟩ := Option.map_eq_some_iff.1 h
  cases heq
  exact ⟨us, hus, rfl⟩

theorem string_length {t : Bytes} (h : string s = some (t, r)) : r.length < s.length := by
  obtain ⟨us, hus, -⟩ := string_eq_some h
  exact units_length hus

/-! ## Numbers and literals -/

/-- The bytes numbers and literals are made of. -/
def isAtomByte (b : UInt8) : Bool := (ascii "0123456789+-.eEtrufalsn").contains b

theorem mem_atomBytes {b : UInt8} (h : isAtomByte b = true) :
    b ∈ ascii "0123456789+-.eEtrufalsn" := List.contains_iff_mem.1 h

/-- `p` is taken from the front of `s`. -/
def Takes (s r : Bytes) : Prop := ∃ p, s = p ++ r ∧ ∀ b ∈ p, isAtomByte b = true

theorem Takes.refl (s : Bytes) : Takes s s := ⟨[], rfl, by simp⟩

theorem Takes.trans {t : Bytes} (h : Takes s t) (h' : Takes t r) : Takes s r := by
  obtain ⟨p, rfl, hp⟩ := h
  obtain ⟨q, rfl, hq⟩ := h'
  exact ⟨p ++ q, (List.append_assoc _ _ _).symm, List.forall_mem_append.2 ⟨hp, hq⟩⟩

theorem Takes.cons {b : UInt8} (hb : isAtomByte b = true) (h : Takes s r) : Takes (b :: s) r := by
  obtain ⟨p, rfl, hp⟩ := h
  exact ⟨b :: p, rfl, List.forall_mem_cons.2 ⟨hb, hp⟩⟩

theorem isAtomByte_of_isDigit {b : UInt8} (h : isDigit b = true) : isAtomByte b = true := by
  have hall : ∀ c ∈ ascii "0123456789", isAtomByte c = true := by decide
  exact hall b (mem_digits h)

theorem takes_digits (s : Bytes) : Takes s (s.dropWhile isDigit) :=
  ⟨s.takeWhile isDigit, List.takeWhile_append_dropWhile.symm,
    fun _ hb => isAtomByte_of_isDigit (List.mem_takeWhile_imp hb)⟩

theorem takes_tail {b : UInt8} (hb : isAtomByte b = true) (h : s.head? = some b) :
    Takes s s.tail := by
  cases s with
  | nil => cases h
  | cons c s =>
    rw [Option.some.inj h]
    exact .cons hb (.refl _)

theorem fraction_takes {ds : Bytes} (h : fraction s = some (ds, r)) : Takes s r := by
  unfold fraction at h
  split at h
  · cases h
    exact .refl _
  split at h
  · next hb =>
    dsimp only at h
    split at h
    · cases h
    · cases h
      exact .cons (by rw [hb]; decide) (takes_digits _)
  · cases h
    exact .refl _

theorem exponent_takes {e : Int} (h : exponent s = some (e, r)) : Takes s r := by
  unfold exponent at h
  split at h
  · cases h
    exact .refl _
  next b s' =>
  split at h
  · next hb =>
    have hsign : Takes s' (if s'.head? = some 45 ∨ s'.head? = some 43 then s'.tail else s') := by
      split
      · next hs => exact hs.elim (takes_tail (by decide)) (takes_tail (by decide))
      · exact .refl _
    dsimp only at h
    generalize (if s'.head? = some 45 ∨ s'.head? = some 43 then s'.tail else s') = s1 at h hsign
    split at h
    · cases h
    · cases h
      refine .cons ?_ (hsign.trans (takes_digits _))
      rcases hb with rfl | rfl <;> decide
  · cases h
    exact .refl _

theorem Takes.length_le (h : Takes s r) : r.length ≤ s.length := by
  obtain ⟨p, rfl, -⟩ := h
  rw [List.length_append]
  omega

/-- `p` is not empty. -/
def TakesSome (s r : Bytes) : Prop := Takes s r ∧ r.length < s.length

theorem number_takes {v : Json} (h : number s = some (v, r)) : TakesSome s r := by
  have hneg : Takes s (if s.head? = some 45 then s.tail else s) := by
    split
    · next hs => exact takes_tail (by decide) hs
    · exact .refl _
  unfold number at h
  dsimp only at h
  generalize (if s.head? = some 45 then s.tail else s) = s0 at h hneg
  split at h
  · cases h
  next hds =>
  obtain ⟨⟨fs, s1⟩, hfrac, h⟩ := Option.bind_eq_some_iff.1 h
  obtain ⟨⟨e, s2⟩, hexp, h⟩ := Option.bind_eq_some_iff.1 h
  cases h
  have hrest := (fraction_takes hfrac).trans (exponent_takes hexp)
  refine ⟨hneg.trans ((takes_digits _).trans hrest), ?_⟩
  have hsplit := congrArg List.length (List.takeWhile_append_dropWhile (p := isDigit) (l := s0))
  have hpos := List.length_pos_iff.2 fun hnil => hds (.inl hnil)
  have h1 := hneg.length_le
  have h2 : s2.length ≤ (s0.dropWhile isDigit).length := hrest.length_le
  rw [List.length_append] at hsplit
  change s2.length < s.length
  omega

theorem literal_takes {v : Json} (h : literal s = some (v, r)) : TakesSome s r := by
  have hword : ∀ w : Bytes, (∀ b ∈ w, isAtomByte b = true) → 0 < w.length → w <+: s →
      TakesSome s (s.drop w.length) := by
    rintro w hw hpos ⟨t, rfl⟩
    refine ⟨⟨w, by rw [List.drop_left], hw⟩, ?_⟩
    rw [List.drop_left, List.length_append]
    omega
  unfold literal at h
  split at h
  · next hw =>
    cases h
    exact hword _ (by decide) (by decide) hw
  split at h
  · next hw =>
    cases h
    exact hword _ (by decide) (by decide) hw
  split at h
  · next hw =>
    cases h
    exact hword _ (by decide) (by decide) hw
  · cases h

theorem atom_takes {v : Json} (h : atom s = some (v, r)) : TakesSome s r := by
  unfold atom at h
  split at h
  · cases h
  split at h
  · exact literal_takes h
  · exact number_takes h

/-- An atom starts with a byte of atoms. -/
theorem atom_head {b : UInt8} {v : Json} (h : atom (b :: s) = some (v, r)) :
    isAtomByte b = true ∧ Takes s r := by
  obtain ⟨⟨p, hp, hall⟩, hlen⟩ := atom_takes h
  cases p with
  | nil =>
    rw [hp] at hlen
    exact absurd hlen (Nat.lt_irrefl _)
  | cons c p =>
    obtain ⟨rfl, rfl⟩ := List.cons.inj hp
    obtain ⟨hb, hp⟩ := List.forall_mem_cons.1 hall
    exact ⟨hb, p, rfl, hp⟩

/-- What an atom can be. -/
def IsAtom : Json → Prop
  | .null | .bool _ | .num _ _ => True
  | _ => False

theorem literal_isAtom {v : Json} (h : literal s = some (v, r)) : IsAtom v := by
  unfold literal at h
  split at h
  · cases h
    trivial
  split at h
  · cases h
    trivial
  split at h
  · cases h
    trivial
  · cases h

theorem number_isAtom {v : Json} (h : number s = some (v, r)) : IsAtom v := by
  unfold number at h
  dsimp only at h
  generalize (if s.head? = some 45 then s.tail else s) = s0 at h
  split at h
  · cases h
  obtain ⟨⟨fs, s1⟩, -, h⟩ := Option.bind_eq_some_iff.1 h
  obtain ⟨⟨e, s2⟩, -, h⟩ := Option.bind_eq_some_iff.1 h
  cases h
  trivial

theorem atom_isAtom {v : Json} (h : atom s = some (v, r)) : IsAtom v := by
  unfold atom at h
  split at h
  · cases h
  split at h
  · exact literal_isAtom h
  · exact number_isAtom h

/-! ## The reader -/

/-- Reading goes forward. -/
theorem Reads.length_lt {i : Item} (h : Reads i s r) : r.length < s.length := by
  induction h with
  | str hs ht =>
    have h1 := length_lt_of_skipWs hs
    have h2 := string_length ht
    omega
  | @atom s s' r b v hs hv =>
    have h1 := skipWs_length_le s
    have h2 := (atom_takes hv).2
    rw [hs] at h1
    omega
  | arrNil hs hr =>
    have h1 := length_lt_of_skipWs hs
    have h2 := length_lt_of_skipWs hr
    omega
  | arr hs _ ih =>
    have h1 := length_lt_of_skipWs hs
    omega
  | objNil hs hr =>
    have h1 := length_lt_of_skipWs hs
    have h2 := length_lt_of_skipWs hr
    omega
  | obj hs _ ih =>
    have h1 := length_lt_of_skipWs hs
    omega
  | last _ hr ih =>
    have h1 := length_lt_of_skipWs hr
    omega
  | more _ hr _ ih ih' =>
    have h1 := length_lt_of_skipWs hr
    omega
  | lastMember hs hk hc _ hr ih =>
    have h1 := length_lt_of_skipWs hs
    have h2 := string_length hk
    have h3 := length_lt_of_skipWs hc
    have h4 := length_lt_of_skipWs hr
    omega
  | moreMembers hs hk hc _ hr _ ih ih' =>
    have h1 := length_lt_of_skipWs hs
    have h2 := string_length hk
    have h3 := length_lt_of_skipWs hc
    have h4 := length_lt_of_skipWs hr
    omega

theorem skipWs_suffix (s : Bytes) : skipWs s <:+ s := List.dropWhile_suffix _

theorem suffix_of_skipWs {b : UInt8} (h : skipWs s = b :: r) : r <:+ s :=
  (List.suffix_cons b r).trans (h ▸ skipWs_suffix s)

theorem Takes.suffix (h : Takes s r) : r <:+ s := by
  obtain ⟨p, rfl, -⟩ := h
  exact List.suffix_append p r

theorem units_suffix {us : List (UInt8 ⊕ Nat)} (h : units s = some (us, r)) : r <:+ s := by
  induction hn : s.length using Nat.strong_induction_on generalizing s us with
  | _ n ih =>
  rcases units_cases h with ⟨rfl, -⟩ | ⟨raw, u, s', us', rfl, hraw, hrest, -⟩
  · exact List.suffix_cons _ _
  · have hpos := hraw.length_pos
    rw [List.length_append] at hn
    exact (ih s'.length (by omega) hrest rfl).trans (List.suffix_append _ _)

theorem string_suffix {t : Bytes} (h : string s = some (t, r)) : r <:+ s := by
  obtain ⟨us, hus, -⟩ := string_eq_some h
  exact units_suffix hus

theorem Reads.suffix {i : Item} (h : Reads i s r) : r <:+ s := by
  induction h with
  | str hs ht => exact (string_suffix ht).trans (suffix_of_skipWs hs)
  | @atom s s' r b v hs hv => exact (atom_takes hv).1.suffix.trans (hs ▸ skipWs_suffix s)
  | arrNil hs hr | objNil hs hr => exact (suffix_of_skipWs hr).trans (suffix_of_skipWs hs)
  | arr hs _ ih | obj hs _ ih => exact ih.trans (suffix_of_skipWs hs)
  | last _ hr ih => exact (suffix_of_skipWs hr).trans ih
  | more _ hc _ ih ih' => exact ih'.trans ((suffix_of_skipWs hc).trans ih)
  | lastMember hs hk hc _ hr ih =>
    have hkey := (string_suffix hk).trans (suffix_of_skipWs hs)
    exact (suffix_of_skipWs hr).trans (ih.trans ((suffix_of_skipWs hc).trans hkey))
  | moreMembers hs hk hc _ hr _ ih ih' =>
    have hkey := (string_suffix hk).trans (suffix_of_skipWs hs)
    exact ih'.trans ((suffix_of_skipWs hr).trans (ih.trans ((suffix_of_skipWs hc).trans hkey)))

/-- Whitespace in front does not matter. -/
theorem Reads.congr {i : Item} {t : Bytes} (h : Reads i s r) (ht : skipWs t = skipWs s) :
    Reads i t r := by
  induction h with
  | str hs hx => exact .str (ht.trans hs) hx
  | atom hs hv => exact .atom (ht.trans hs) hv
  | arrNil hs hr => exact .arrNil (ht.trans hs) hr
  | arr hs hvs _ => exact .arr (ht.trans hs) hvs
  | objNil hs hr => exact .objNil (ht.trans hs) hr
  | obj hs hms _ => exact .obj (ht.trans hs) hms
  | last _ hr ih => exact .last (ih ht) hr
  | more _ hc hvs ih _ => exact .more (ih ht) hc hvs
  | lastMember hs hk hc hv hr _ => exact .lastMember (ht.trans hs) hk hc hv hr
  | moreMembers hs hk hc hv hr hms _ _ => exact .moreMembers (ht.trans hs) hk hc hv hr hms

/-- What the reader finds has a derivation. -/
theorem reads_of_some (n : Nat) :
    (∀ s v r, value n s = some (v, r) → Reads (.value v) s r) ∧
    (∀ s vs r, elements n s = some (vs, r) → Reads (.elements vs) s r) ∧
    ∀ s ms r, members n s = some (ms, r) → Reads (.members ms) s r := by
  induction n with
  | zero =>
    refine ⟨?_, ?_, ?_⟩
    · intro s v r h
      cases h
    · intro s vs r h
      cases h
    · intro s ms r h
      cases h
  | succ n ih =>
    obtain ⟨ihv, ihe, ihm⟩ := ih
    refine ⟨?_, ?_, ?_⟩
    · intro s v r h
      rw [value] at h
      split at h
      · cases h
      next b s' hs =>
      split at h
      · next h34 =>
        obtain ⟨⟨t, r'⟩, ht, heq⟩ := Option.map_eq_some_iff.1 h
        cases heq
        exact .str (h34 ▸ hs) ht
      split at h
      · next h91 =>
        subst h91
        split at h
        · cases h
        next c s'' hs' =>
        split at h
        · next h93 =>
          cases h
          exact .arrNil hs (h93 ▸ hs')
        · obtain ⟨⟨vs, r'⟩, hvs, heq⟩ := Option.map_eq_some_iff.1 h
          cases heq
          exact .arr hs ((ihe _ _ _ hvs).congr (by rw [← hs', skipWs_skipWs]))
      split at h
      · next h123 =>
        subst h123
        split at h
        · cases h
        next c s'' hs' =>
        split at h
        · next h125 =>
          cases h
          exact .objNil hs (h125 ▸ hs')
        · obtain ⟨⟨ms, r'⟩, hms, heq⟩ := Option.map_eq_some_iff.1 h
          cases heq
          exact .obj hs ((ihm _ _ _ hms).congr (by rw [← hs', skipWs_skipWs]))
      · exact .atom hs h
    · intro s vs r h
      rw [elements] at h
      obtain ⟨⟨v, s'⟩, hv, h⟩ := Option.bind_eq_some_iff.1 h
      dsimp only at h
      split at h
      · cases h
      next b s'' hs' =>
      split at h
      · next h93 =>
        cases h
        exact .last (ihv _ _ _ hv) (h93 ▸ hs')
      split at h
      · next h44 =>
        obtain ⟨⟨vs', r'⟩, hvs, heq⟩ := Option.bind_eq_some_iff.1 h
        cases heq
        exact .more (ihv _ _ _ hv) (h44 ▸ hs') (ihe _ _ _ hvs)
      · cases h
    · intro s ms r h
      rw [members] at h
      split at h
      · cases h
      next q s1 hs =>
      split at h
      · next h34 =>
        subst h34
        obtain ⟨⟨k, s2⟩, hk, h⟩ := Option.bind_eq_some_iff.1 h
        dsimp only at h
        split at h
        · cases h
        next b s3 hs2 =>
        split at h
        · next h58 =>
          subst h58
          obtain ⟨⟨v, s4⟩, hv, h⟩ := Option.bind_eq_some_iff.1 h
          dsimp only at h
          split at h
          · cases h
          next c s5 hs4 =>
          split at h
          · next h125 =>
            cases h
            exact .lastMember hs hk hs2 (ihv _ _ _ hv) (h125 ▸ hs4)
          split at h
          · next h44 =>
            obtain ⟨⟨ms', r'⟩, hms, heq⟩ := Option.bind_eq_some_iff.1 h
            cases heq
            exact .moreMembers hs hk hs2 (ihv _ _ _ hv) (h44 ▸ hs4) (ihm _ _ _ hms)
          · cases h
        · cases h
      · cases h

/-- The reader's answer for an item. -/
def Found : Item → Nat → Bytes → Bytes → Prop
  | .value v, n, s, r => value n s = some (v, r)
  | .elements vs, n, s, r => elements n s = some (vs, r)
  | .members ms, n, s, r => members n s = some (ms, r)

theorem value_skipWs (n : Nat) (s : Bytes) : value n (skipWs s) = value n s := by
  cases n with
  | zero => rfl
  | succ n => rw [value, value, skipWs_skipWs]

theorem elements_skipWs (n : Nat) (s : Bytes) : elements n (skipWs s) = elements n s := by
  cases n with
  | zero => rfl
  | succ n => rw [elements, elements, value_skipWs]

theorem members_skipWs (n : Nat) (s : Bytes) : members n (skipWs s) = members n s := by
  cases n with
  | zero => rfl
  | succ n => rw [members, members, skipWs_skipWs]

/-- A value, and the elements or members in front of a closing bracket, do not start with one. -/
theorem Reads.head_ne {i : Item} (h : Reads i s r) {b : UInt8} {t : Bytes}
    (hs : skipWs s = b :: t) :
    b ≠ 93 ∧ b ≠ 125 := by
  induction h with
  | str hs' _ =>
    rw [hs] at hs'
    rw [(List.cons.inj hs').1]
    decide
  | atom hs' hv =>
    rw [hs] at hs'
    rw [← (List.cons.inj hs').1] at hv
    have hb := (atom_head hv).1
    constructor
    · rintro rfl
      exact absurd hb (by decide)
    · rintro rfl
      exact absurd hb (by decide)
  | arrNil hs' _ | arr hs' _ _ | objNil hs' _ | obj hs' _ _ | lastMember hs' _ _ _ _ _
  | moreMembers hs' _ _ _ _ _ _ _ =>
    rw [hs] at hs'
    rw [(List.cons.inj hs').1]
    decide
  | last _ _ ih => exact ih hs
  | more _ _ _ ih _ => exact ih hs

theorem Reads.head {i : Item} (h : Reads i s r) : ∃ b t, skipWs s = b :: t := by
  induction h with
  | str hs _ | atom hs _ | arrNil hs _ | arr hs _ _ | objNil hs _ | obj hs _ _
  | lastMember hs _ _ _ _ _ | moreMembers hs _ _ _ _ _ _ _ => exact ⟨_, _, hs⟩
  | last _ _ ih => exact ih
  | more _ _ _ ih _ => exact ih

/-- **The reader finds every derivation**, with a bound as long as the text that is read. -/
theorem Reads.found {i : Item} (h : Reads i s r) :
    ∀ n, s.length ≤ n + r.length → Found i n s r := by
  induction h with
  | @str s s' r t hs ht =>
    intro n hn
    have hlen := (Reads.str hs ht).length_lt
    obtain ⟨n, rfl⟩ : ∃ m, n = m + 1 := ⟨n - 1, by omega⟩
    change value (n + 1) s = _
    rw [value, hs]
    simp only [if_true, ht, Option.map_some]
  | @atom s s' r b v hs hv =>
    intro n hn
    have hlen := (Reads.atom hs hv).length_lt
    obtain ⟨n, rfl⟩ : ∃ m, n = m + 1 := ⟨n - 1, by omega⟩
    have hb := (atom_head hv).1
    have h34 : b ≠ 34 := by
      rintro rfl
      exact absurd hb (by decide)
    have h91 : b ≠ 91 := by
      rintro rfl
      exact absurd hb (by decide)
    have h123 : b ≠ 123 := by
      rintro rfl
      exact absurd hb (by decide)
    change value (n + 1) s = _
    rw [value, hs]
    simp only [h34, h91, h123, if_false]
    exact hv
  | @arrNil s s' r hs hr =>
    intro n hn
    have hlen := (Reads.arrNil hs hr).length_lt
    obtain ⟨n, rfl⟩ : ∃ m, n = m + 1 := ⟨n - 1, by omega⟩
    change value (n + 1) s = _
    rw [value, hs]
    simp only [show (91 : UInt8) ≠ 34 by decide, if_false, if_true, hr]
  | @arr s s' r vs hs hvs ih =>
    intro n hn
    have hlen := length_lt_of_skipWs hs
    have hlt := hvs.length_lt
    obtain ⟨n, rfl⟩ : ∃ m, n = m + 1 := ⟨n - 1, by omega⟩
    obtain ⟨b, t, ht⟩ := hvs.head
    have hfound : elements n s' = some (vs, r) := ih n (by omega)
    rw [← elements_skipWs, ht] at hfound
    change value (n + 1) s = _
    rw [value, hs]
    simp only [show (91 : UInt8) ≠ 34 by decide, if_false, if_true, ht, (hvs.head_ne ht).1, hfound,
      Option.map_some]
  | @objNil s s' r hs hr =>
    intro n hn
    have hlen := (Reads.objNil hs hr).length_lt
    obtain ⟨n, rfl⟩ : ∃ m, n = m + 1 := ⟨n - 1, by omega⟩
    change value (n + 1) s = _
    rw [value, hs]
    simp only [show (123 : UInt8) ≠ 34 by decide, show (123 : UInt8) ≠ 91 by decide, if_false,
      if_true, hr]
  | @obj s s' r ms hs hms ih =>
    intro n hn
    have hlen := length_lt_of_skipWs hs
    have hlt := hms.length_lt
    obtain ⟨n, rfl⟩ : ∃ m, n = m + 1 := ⟨n - 1, by omega⟩
    obtain ⟨b, t, ht⟩ := hms.head
    have hfound : members n s' = some (ms, r) := ih n (by omega)
    rw [← members_skipWs, ht] at hfound
    change value (n + 1) s = _
    rw [value, hs]
    simp only [show (123 : UInt8) ≠ 34 by decide, show (123 : UInt8) ≠ 91 by decide, if_false,
      if_true, ht, (hms.head_ne ht).2, hfound, Option.map_some]
  | @last s s' r v hv hr ih =>
    intro n hn
    have hlen := length_lt_of_skipWs hr
    have hlt := hv.length_lt
    obtain ⟨n, rfl⟩ : ∃ m, n = m + 1 := ⟨n - 1, by omega⟩
    have hfound : value n s = some (v, s') := ih n (by omega)
    change elements (n + 1) s = _
    rw [elements, hfound]
    simp only [Option.bind_eq_bind, Option.bind_some, hr, if_true]
  | @more s s' s'' r v vs hv hc hvs ih ihs =>
    intro n hn
    have hlen := length_lt_of_skipWs hc
    have hlt := hv.length_lt
    have hlt' := hvs.length_lt
    obtain ⟨n, rfl⟩ : ∃ m, n = m + 1 := ⟨n - 1, by omega⟩
    have hfound : value n s = some (v, s') := ih n (by omega)
    have hrest : elements n s'' = some (vs, r) := ihs n (by omega)
    change elements (n + 1) s = _
    rw [elements, hfound]
    simp only [Option.bind_eq_bind, Option.bind_some, hc, show (44 : UInt8) ≠ 93 by decide,
      if_false, if_true, hrest]
  | @lastMember s s1 s2 s3 s4 r k v hs hk hc hv hr ih =>
    intro n hn
    have h1 := length_lt_of_skipWs hs
    have h2 := string_length hk
    have h3 := length_lt_of_skipWs hc
    have h4 := length_lt_of_skipWs hr
    have hlt := hv.length_lt
    obtain ⟨n, rfl⟩ : ∃ m, n = m + 1 := ⟨n - 1, by omega⟩
    have hfound : value n s3 = some (v, s4) := ih n (by omega)
    change members (n + 1) s = _
    rw [members, hs]
    simp only [if_true, hk, Option.bind_eq_bind, Option.bind_some, hc, hfound, hr]
  | @moreMembers s s1 s2 s3 s4 s5 r k v ms hs hk hc hv hr hms ih ihs =>
    intro n hn
    have h1 := length_lt_of_skipWs hs
    have h2 := string_length hk
    have h3 := length_lt_of_skipWs hc
    have h4 := length_lt_of_skipWs hr
    have hlt := hv.length_lt
    have hlt' := hms.length_lt
    obtain ⟨n, rfl⟩ : ∃ m, n = m + 1 := ⟨n - 1, by omega⟩
    have hfound : value n s3 = some (v, s4) := ih n (by omega)
    have hrest : members n s5 = some (ms, r) := ihs n (by omega)
    change members (n + 1) s = _
    rw [members, hs]
    simp only [if_true, hk, Option.bind_eq_bind, Option.bind_some, hc, hfound, hr,
      show (44 : UInt8) ≠ 125 by decide, if_false, hrest]

/-- **A JSON text is UTF-8 and one value**, with whitespace around it. -/
theorem decode_iff {v : Json} :
    decode s = some v ↔ Utf8.Valid s ∧ ∃ r, Reads (.value v) s r ∧ skipWs r = [] := by
  unfold decode
  constructor
  · intro h
    split at h
    · next hv =>
      split at h
      · next v' r hread =>
        split at h
        · next hend =>
          cases h
          exact ⟨(Utf8.check_iff s).1 hv, r, (reads_of_some _).1 _ _ _ hread, hend⟩
        · cases h
      · cases h
    · cases h
  · rintro ⟨hv, r, hread, hend⟩
    have hfound : value (s.length + 1) s = some (v, r) := hread.found _ (by omega)
    rw [if_pos ((Utf8.check_iff s).2 hv), hfound]
    dsimp only
    rw [if_pos hend]

end Json

end Lib
