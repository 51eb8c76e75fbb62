import AxiomaOracle.Verify.Accepts

/-!
# Extraction on values

What `gwj_content_text` makes of a JSON text is a function of the value it denotes (`readContent`):
of the names as `strcmp` sees them in their buffers, and of the decoded texts. `gwjContentText_eq`
is the refinement, by induction over the derivation of the text.
-/

namespace AxiomaOracle

open Lib Lib.Json

variable {body s r : Bytes}

/-! ## The decoder on JSON strings -/

theorem hexval_eq (c : UInt8) : hexval c = Json.hexVal c := by
  unfold hexval Json.hexVal
  dsimp only
  split
  · rfl
  split
  · congr 1
    omega
  split
  · congr 1
    omega
  · rfl

theorem readU4_eq (a b c d : UInt8) : readU4 a b c d = Json.hex4 a b c d := by
  unfold readU4 Json.hex4
  rw [hexval_eq, hexval_eq, hexval_eq, hexval_eq]
  cases Json.hexVal a with
  | none => rfl
  | some a =>
    cases Json.hexVal b with
    | none => rfl
    | some b =>
      cases Json.hexVal c with
      | none => rfl
      | some c =>
        cases Json.hexVal d with
        | none => rfl
        | some d =>
          simp only [Option.bind_eq_bind, Option.bind_some, Option.some.injEq]
          omega

set_option maxRecDepth 4000 in
theorem shortEscape_eq (e : UInt8) : shortEscape e = Json.simpleEscape e :=
  forall_byte (p := fun e => shortEscape e = Json.simpleEscape e) (by decide) e

/-- A character of a string is decoded to the bytes it stands for. -/
theorem decodeBody_spelled {raw bs : Bytes} (h : Spelled raw bs) (cap o : Nat) (s : Bytes) :
    decodeBody cap o (raw ++ s) = putBytes cap o bs fun o => decodeBody cap o s := by
  have hbq : chr '\\' ≠ chr '"' := by decide
  cases h with
  | plain hq hb =>
    rw [List.singleton_append, decodeBody.eq_def]
    simp only [hq, hb, if_false]
  | short hu hs =>
    rw [List.cons_append, List.singleton_append, decodeBody.eq_def]
    simp only [hbq, hu, if_false, if_true, hs]
  | unit hu hsur hbs =>
    simp only [List.cons_append, List.nil_append]
    rw [decodeBody.eq_def]
    simp only [hbq, if_false, if_true, hu, hbs]
    rw [if_neg (by omega), if_neg (by omega)]
  | pair hu hlo hhi hv hlo' hhi' hbs =>
    simp only [List.cons_append, List.nil_append]
    rw [decodeBody.eq_def]
    simp only [hbq, if_false, if_true, hu, hlo, hhi, and_self, ne_eq, not_true_eq_false, or_self,
      hv, hbs]
    rw [if_neg (by omega)]

/-- The decoder behind `\u`: a surrogate it goes past is the first of a pair. -/
theorem decodeBody_unit {a b c d : UInt8} {u cap o : Nat} {res : Bytes × Bytes}
    (hu : readU4 a b c d = some u) (hlo : 0xD800 ≤ u) (hhi : u < 0xE000)
    (h : decodeBody cap o (chr '\\' :: chr 'u' :: a :: b :: c :: d :: s) = some res) :
    u < 0xDC00 ∧ ∃ a' b' c' d' v s', s = chr '\\' :: chr 'u' :: a' :: b' :: c' :: d' :: s' ∧
      readU4 a' b' c' d' = some v ∧ 0xDC00 ≤ v ∧ v < 0xE000 := by
  obtain ⟨t, r⟩ := res
  rcases decodeBody_cases h with ⟨heq, -⟩ | ⟨raw, bs, s', t', heq, hraw, -⟩
  · exact absurd (List.cons.inj heq).1 (by decide)
  cases hraw with
  | plain _ hb => exact absurd (List.cons.inj heq).1.symm hb
  | short he _ =>
    simp only [List.cons_append, List.nil_append, List.cons.injEq] at heq
    exact absurd heq.2.1.symm he
  | unit hu' hsur _ =>
    simp only [List.cons_append, List.nil_append, List.cons.injEq] at heq
    obtain ⟨-, -, rfl, rfl, rfl, rfl, -⟩ := heq
    obtain rfl := Option.some.inj (hu.symm.trans hu')
    omega
  | pair hu' hlo' hhi' hv hvlo hvhi _ =>
    simp only [List.cons_append, List.nil_append, List.cons.injEq] at heq
    obtain ⟨-, -, rfl, rfl, rfl, rfl, rfl⟩ := heq
    obtain rfl := Option.some.inj (hu.symm.trans hu')
    exact ⟨by omega, _, _, _, _, _, _, rfl, hv, by omega, by omega⟩

/-- A high surrogate keeps its three bytes unless the next unit is a low one. -/
theorem assemble_high {u : Nat} (us : List (UInt8 ⊕ Nat))
    (h : ∀ v us', us = .inr v :: us' → ¬ (0xDC00 ≤ v ∧ v < 0xE000)) :
    ∃ x, assemble (some u) us = Utf8.encode u ++ x := by
  cases us with
  | nil => exact ⟨[], (List.append_nil _).symm⟩
  | cons w us =>
    cases w with
    | inl b => exact ⟨_, rfl⟩
    | inr v =>
      rw [assemble, if_neg (h v us rfl)]
      split
      · exact ⟨_, rfl⟩
      · exact ⟨_, List.append_assoc _ _ _⟩

theorem isScalar_of_unit {a b c d : UInt8} {u : Nat} (hu : readU4 a b c d = some u)
    (h : ¬ (0xD800 ≤ u ∧ u ≤ 0xDFFF)) : Utf8.IsScalar u := by
  have hlt := (readU4_lt hu).1
  unfold Utf8.IsScalar
  omega

/-- The first character of a JSON string: its end, one the decoder takes, or a surrogate without its
partner. -/
theorem string_cases {us : List (UInt8 ⊕ Nat)} (h : units s = some (us, r)) :
    (s = chr '"' :: r ∧ us = []) ∨
    (∃ raw bs s' us', s = raw ++ s' ∧ Spelled raw bs ∧ units s' = some (us', r) ∧
      assemble none us = bs ++ assemble none us') ∨
    ∃ p u x, 0xD800 ≤ u ∧ u < 0xE000 ∧ s = chr '\\' :: p ∧ assemble none us = Utf8.encode u ++ x ∧
      ∀ cap o, decodeBody cap o s = none := by
  rcases units_cases h with hend | ⟨raw, w, s', us', rfl, hraw, hrest, rfl⟩
  · exact .inl hend
  cases hraw with
  | plain hq hb _ => exact .inr (.inl ⟨_, _, s', us', rfl, .plain hq hb, hrest, rfl⟩)
  | simple hu hc =>
    exact .inr (.inl ⟨_, _, s', us', rfl, .short hu ((shortEscape_eq _).trans hc), hrest, rfl⟩)
  | @hex a b c d u hu =>
  have hu : readU4 a b c d = some u := (readU4_eq a b c d).trans hu
  by_cases hsur : 0xD800 ≤ u ∧ u ≤ 0xDFFF
  swap
  · have hscalar := isScalar_of_unit hu hsur
    refine .inr (.inl ⟨_, _, s', us', rfl, .unit hu hsur (utf8Bytes_eq hscalar), hrest, ?_⟩)
    rw [assemble, if_neg (by omega)]
  -- a surrogate, alone as far as the decoder is concerned
  have halone : (∀ cap o, decodeBody cap o ([92, 117, a, b, c, d] ++ s') = none) →
      (∃ x, assemble none (.inr u :: us') = Utf8.encode u ++ x) →
      ∃ p u' x, 0xD800 ≤ u' ∧ u' < 0xE000 ∧ [92, 117, a, b, c, d] ++ s' = chr '\\' :: p ∧
        assemble none (.inr u :: us') = Utf8.encode u' ++ x ∧
        ∀ cap o, decodeBody cap o ([92, 117, a, b, c, d] ++ s') = none := by
    rintro hnone ⟨x, hx⟩
    exact ⟨_, u, x, hsur.1, by omega, rfl, hx, hnone⟩
  by_cases hhigh : u < 0xDC00
  swap
  · -- a low one
    refine .inr (.inr (halone (fun cap o => ?_) ⟨assemble none us', ?_⟩))
    · refine Option.eq_none_iff_forall_ne_some.2 fun res hres => hhigh ?_
      exact (decodeBody_unit hu hsur.1 (by omega) hres).1
    · rw [assemble, if_neg (by omega)]
  have hassemble : assemble none (.inr u :: us') = assemble (some u) us' := by
    rw [assemble, if_pos ⟨hsur.1, hhigh⟩]
  by_cases hpair : ∃ a' b' c' d' v s'', s' = chr '\\' :: chr 'u' :: a' :: b' :: c' :: d' :: s'' ∧
      readU4 a' b' c' d' = some v ∧ 0xDC00 ≤ v ∧ v < 0xE000
  · -- with its low one
    obtain ⟨a', b', c', d', v, s'', rfl, hv, hvlo, hvhi⟩ := hpair
    rcases units_cases hrest with ⟨heq, -⟩ | ⟨raw, w, s3, us3, heq, hraw, hrest', rfl⟩
    · exact absurd (List.cons.inj heq).1 (by decide)
    cases hraw with
    | plain _ hb _ => exact absurd (List.cons.inj heq).1.symm hb
    | simple he _ =>
      simp only [List.cons_append, List.nil_append, List.cons.injEq] at heq
      exact absurd heq.2.1.symm he
    | hex hv' =>
      simp only [List.cons_append, List.nil_append, List.cons.injEq] at heq
      obtain ⟨-, -, rfl, rfl, rfl, rfl, rfl⟩ := heq
      obtain rfl := Option.some.inj (((readU4_eq _ _ _ _).symm.trans hv).symm.trans hv')
      have hsum : (u - 0xD800) <<< 10 ||| (v - 0xDC00) = (u - 0xD800) * 1024 + (v - 0xDC00) :=
        shiftLeft_or (by omega)
      have hscalar : Utf8.IsScalar (0x10000 + ((u - 0xD800) * 1024 + (v - 0xDC00))) := by
        unfold Utf8.IsScalar
        omega
      have hbs := utf8Bytes_eq hscalar
      rw [← hsum] at hbs
      have hspelled := Spelled.pair hu hsur.1 (by omega) hv hvlo (by omega) hbs
      refine .inr (.inl ⟨_, _, s'', us3, ?_, hspelled, hrest', ?_⟩)
      · simp only [List.cons_append, List.nil_append]
        rfl
      · rw [hassemble, assemble, if_pos ⟨hvlo, hvhi⟩, hsum, ← Nat.add_assoc]
  · refine .inr (.inr (halone (fun cap o => ?_) ?_))
    · refine Option.eq_none_iff_forall_ne_some.2 fun res hres => hpair ?_
      exact (decodeBody_unit hu hsur.1 (by omega) hres).2
    · rw [hassemble]
      refine assemble_high us' fun v us3 hus3 hlow => hpair ?_
      -- the next unit is what stands next in the text
      rcases units_cases hrest with ⟨-, heq⟩ | ⟨raw, w, s3, us4, rfl, hraw, -, heq⟩
      · rw [heq] at hus3
        cases hus3
      · obtain rfl := (List.cons.inj (heq.symm.trans hus3)).1
        cases hraw with
        | hex hv => exact ⟨_, _, _, _, v, s3, rfl, (readU4_eq _ _ _ _).trans hv, hlow⟩

theorem putBytes_ite {cap o n : Nat} {bs t : Bytes} {p : Prop} [Decidable p]
    {k : Nat → Option (Bytes × Bytes)} (hk : o + bs.length ≤ cap →
      k (o + bs.length) = if p ∧ o + bs.length + n ≤ cap then some (t, r) else none) :
    putBytes cap o bs k = if p ∧ o + (bs.length + n) ≤ cap then some (bs ++ t, r) else none := by
  unfold putBytes
  by_cases hfits : o + bs.length ≤ cap
  swap
  · rw [if_pos (by omega), if_neg (by omega)]
  rw [if_neg (by omega), hk hfits]
  by_cases hp : p ∧ o + (bs.length + n) ≤ cap
  · have hrest : p ∧ o + bs.length + n ≤ cap := ⟨hp.1, by omega⟩
    rw [if_pos hrest, if_pos hp]
    rfl
  · have hrest : ¬ (p ∧ o + bs.length + n ≤ cap) := fun h => hp ⟨h.1, by omega⟩
    rw [if_neg hp, if_neg hrest, Option.map_none]

/-- **The decoder on a JSON string**: the string, when it fits and has no lone surrogate. What has
been copied since the last escape is carried along, as in `decodeBody_valid`. -/
theorem decodeBody_units {us : List (UInt8 ⊕ Nat)} {p : Bytes} {cap o : Nat}
    (hs : Utf8.Valid (p ++ s)) (h : units s = some (us, r)) (ho : o ≤ cap) :
    decodeBody cap o s =
      if Utf8.check (p ++ assemble none us) = true ∧ o + (assemble none us).length ≤ cap then
        some (assemble none us, r) else none := by
  induction hn : s.length using Nat.strong_induction_on generalizing s us p o with
  | _ n ih =>
  rcases string_cases h with ⟨rfl, rfl⟩ | ⟨raw, bs, s', us', rfl, hraw, hrest, heq⟩ |
    ⟨q, u, x, hlo, hhi, rfl, heq, hnone⟩
  · -- the closing quote
    have hp : Utf8.check (p ++ []) = true := by
      rw [List.append_nil, Utf8.check_iff]
      exact (hs.split (by decide)).1
    rw [decodeBody.eq_def, if_pos ⟨hp, ho⟩]
    simp only [if_true]
    rfl
  · have hless : s'.length < n := by
      have hpos := hraw.length_pos
      rw [List.length_append] at hn
      omega
    rw [decodeBody_spelled hraw, heq, List.length_append]
    refine putBytes_ite fun hfits => ?_
    rcases hraw.escape with ⟨c, rfl, rfl⟩ | ⟨⟨e, rfl⟩, hascii, hbs⟩
    · -- a byte as it is
      rw [← List.append_assoc] at hs ⊢
      exact ih _ hless hs hrest hfits rfl
    · -- an escape: what was copied before it is text
      obtain ⟨hpre, hbehind⟩ := hs.split (by decide)
      have hs' : Utf8.Valid s' :=
        valid_of_ascii_append (fun b hb => hascii b (List.mem_cons_of_mem _ hb)) hbehind
      rw [Utf8.check_append hpre, Utf8.check_append hbs]
      exact ih _ hless (p := []) hs' hrest hfits rfl
  · -- a lone surrogate
    have hpre := (hs.split (by decide)).1
    have hbad : ¬ (Utf8.check (p ++ assemble none us) = true ∧
        o + (assemble none us).length ≤ cap) := by
      rw [Utf8.check_append hpre, Utf8.check_iff, heq]
      exact fun h => Utf8.not_valid_surrogate hlo hhi x h.1
    rw [hnone, if_neg hbad]

/-- A string of the body, read into a buffer of `cap` bytes. -/
theorem decodeBody_string {t : Bytes} {cap o : Nat} (hs : Utf8.Valid s)
    (h : Json.string s = some (t, r)) (ho : o ≤ cap) :
    decodeBody cap o s =
      if Utf8.check t = true ∧ o + t.length ≤ cap then some (t, r) else none := by
  obtain ⟨us, hus, rfl⟩ := string_eq_some h
  exact decodeBody_units (p := []) hs hus ho

/-! ## Skipping values -/

theorem skipValue_ws (fuel depth : Nat) (s : Bytes) :
    skipValue fuel depth (sWs s) = skipValue fuel depth s := by
  cases fuel with
  | zero => rfl
  | succ fuel => rw [skipValue, skipValue, show sWs (sWs s) = sWs s from skipWs_skipWs s]

theorem skipItems_ws (fuel depth : Nat) (isObject : Bool) (close : UInt8) (s : Bytes) :
    skipItems fuel depth isObject close (sWs s) = skipItems fuel depth isObject close s := by
  cases fuel with
  | zero => rfl
  | succ fuel =>
    rw [skipItems, skipItems, show sWs (sWs s) = sWs s from skipWs_skipWs s]
    cases isObject with
    | true => rfl
    | false =>
      simp only [Bool.false_eq_true, if_false, Option.bind_eq_bind, Option.bind_some, skipValue_ws]

theorem skipValue_string {fuel depth : Nat} {s' : Bytes} (hdepth : depth ≤ 64)
    (hs : sWs s = chr '"' :: s') : skipValue (fuel + 1) depth s = skipStringBody s' := by
  rw [skipValue, if_neg (by omega), hs]
  exact if_pos rfl

theorem skipValue_open {fuel depth : Nat} {s' : Bytes} (isObject : Bool) (hdepth : depth ≤ 64)
    (hs : sWs s = opening isObject :: s') :
    skipValue (fuel + 1) depth s =
      if (sWs s').head? = some (closing isObject) then some (sWs s').tail
      else skipItems fuel depth isObject (closing isObject) s' := by
  rw [skipValue, if_neg (by omega), hs, ← skipItems_ws]
  cases isObject with
  | true => rfl
  | false => rfl

theorem skipValue_token {fuel depth : Nat} {c : UInt8} {s' : Bytes} (hdepth : depth ≤ 64)
    (hs : sWs s = c :: s') (hc : isAtomByte c = true) :
    skipValue (fuel + 1) depth s = some (s'.dropWhile isTokenChar) := by
  have htoken := isTokenChar_of_isAtomByte hc
  have hother : c ≠ chr '"' ∧ ¬ (c = chr '{' ∨ c = chr '[') := by
    have hall : ∀ b ∈ ascii "0123456789+-.eEtrufalsn",
        b ≠ chr '"' ∧ ¬ (b = chr '{' ∨ b = chr '[') := by decide
    exact hall c (mem_atomBytes hc)
  rw [skipValue, if_neg (by omega), hs]
  simp only [hother.1, hother.2, htoken, if_false, if_true]

theorem skipItems_element {fuel depth : Nat} {close c : UInt8} {s' s'' : Bytes}
    (hv : skipValue fuel (depth + 1) s = some s') (hc : sWs s' = c :: s'') :
    skipItems (fuel + 1) depth false close s =
      if c = chr ',' then skipItems fuel depth false close s''
      else if c = close then some s'' else none := by
  rw [skipItems]
  simp only [Bool.false_eq_true, if_false, Option.bind_eq_bind, Option.bind_some, hv, hc]

theorem skipItems_member {fuel depth : Nat} {close c : UInt8} {s1 s2 s3 s' s'' : Bytes}
    (hs : sWs s = chr '"' :: s1) (hk : skipStringBody s1 = some s2)
      (hcolon : sWs s2 = chr ':' :: s3)
    (hv : skipValue fuel (depth + 1) s3 = some s') (hc : sWs s' = c :: s'') :
    skipItems (fuel + 1) depth true close s =
      if c = chr ',' then skipItems fuel depth true close s''
      else if c = close then some s'' else none := by
  have hkey : sSkipString (chr '"' :: s1) = some s2 := by rw [sSkipString, if_pos rfl, hk]
  rw [skipItems, hs]
  simp only [if_true, Option.bind_eq_bind, Option.bind_some, hkey, hcolon, List.head?_cons,
    List.tail_cons, hv, hc]

/-- The scanner gets past an item. -/
def Skips : Json.Item → Nat → Nat → Bytes → Bytes → Prop
  | .value _, fuel, depth, s, r => skipValue fuel depth s = some r
  | .elements _, fuel, depth, s, r => skipItems fuel depth false (chr ']') s = some r
  | .members _, fuel, depth, s, r => skipItems fuel depth true (chr '}') s = some r

theorem skipString_of_string {t : Bytes} (h : Json.string s = some (t, r)) :
    skipStringBody s = some r := by
  obtain ⟨us, hus, -⟩ := string_eq_some h
  exact skipStringBody_of_units hus

/-- **The scanner skips every JSON value** that is not nested too deep. -/
theorem skips_of_reads {i : Json.Item} (h : Json.Reads i s r)
    (hbound : i.inside = false → Bounded r) : ∀ fuel depth, depth + i.nesting ≤ 64 →
      2 * s.length ≤ fuel + 2 * r.length → Skips i fuel depth s r := by
  induction h with
  | @str s s' r t hs ht =>
    intro fuel depth hdepth hfuel
    have hlen := (Json.Reads.str hs ht).length_lt
    obtain ⟨fuel, rfl⟩ : ∃ m, fuel = m + 1 := ⟨fuel - 1, by omega⟩
    exact (skipValue_string (by omega) hs).trans (skipString_of_string ht)
  | @atom s s' r b v hs hv =>
    intro fuel depth hdepth hfuel
    have hlen := (Json.Reads.atom hs hv).length_lt
    obtain ⟨fuel, rfl⟩ : ∃ m, fuel = m + 1 := ⟨fuel - 1, by omega⟩
    exact (skipValue_token (by omega) hs (atom_head hv).1).trans
      (congrArg some (dropWhile_atom hv (hbound rfl)))
  | @arrNil s s' r hs hr =>
    intro fuel depth hdepth hfuel
    have hlen := (Json.Reads.arrNil hs hr).length_lt
    obtain ⟨fuel, rfl⟩ : ∃ m, fuel = m + 1 := ⟨fuel - 1, by omega⟩
    refine (skipValue_open false (by omega) hs).trans ?_
    rw [show sWs s' = closing false :: r from hr, List.head?_cons, if_pos rfl, List.tail_cons]
  | @arr s s' r vs hs hvs ih =>
    intro fuel depth hdepth hfuel
    have hlen := (Json.Reads.arr hs hvs).length_lt
    have hlen' := length_lt_of_skipWs hs
    obtain ⟨fuel, rfl⟩ : ∃ m, fuel = m + 1 := ⟨fuel - 1, by omega⟩
    obtain ⟨b, t, ht⟩ := hvs.head
    have hopen : (sWs s').head? ≠ some (closing false) := by
      rw [show sWs s' = b :: t from ht]
      exact fun h => (hvs.head_ne ht).1 (Option.some.inj h)
    refine ((skipValue_open false (by omega) hs).trans (if_neg hopen)).trans ?_
    exact ih nofun fuel depth hdepth (by omega)
  | @objNil s s' r hs hr =>
    intro fuel depth hdepth hfuel
    have hlen := (Json.Reads.objNil hs hr).length_lt
    obtain ⟨fuel, rfl⟩ : ∃ m, fuel = m + 1 := ⟨fuel - 1, by omega⟩
    refine (skipValue_open true (by omega) hs).trans ?_
    rw [show sWs s' = closing true :: r from hr, List.head?_cons, if_pos rfl, List.tail_cons]
  | @obj s s' r ms hs hms ih =>
    intro fuel depth hdepth hfuel
    have hlen := (Json.Reads.obj hs hms).length_lt
    have hlen' := length_lt_of_skipWs hs
    obtain ⟨fuel, rfl⟩ : ∃ m, fuel = m + 1 := ⟨fuel - 1, by omega⟩
    obtain ⟨b, t, ht⟩ := hms.head
    have hopen : (sWs s').head? ≠ some (closing true) := by
      rw [show sWs s' = b :: t from ht]
      exact fun h => (hms.head_ne ht).2 (Option.some.inj h)
    refine ((skipValue_open true (by omega) hs).trans (if_neg hopen)).trans ?_
    exact ih nofun fuel depth hdepth (by omega)
  | @last s s' r v hv hr ih =>
    intro fuel depth hdepth hfuel
    have hlen := hv.length_lt
    have hlen' := length_lt_of_skipWs hr
    obtain ⟨fuel, rfl⟩ : ∃ m, fuel = m + 1 := ⟨fuel - 1, by omega⟩
    simp only [Item.nesting, nestingElements] at hdepth ih
    have hskip :=
      ih (fun _ => bounded_of_skipWs hr (by decide)) fuel (depth + 1) (by omega) (by omega)
    exact skipItems_element hskip hr
  | @more s s' s'' r v vs hv hc hvs ih ihs =>
    intro fuel depth hdepth hfuel
    have hlen := hv.length_lt
    have hlen' := length_lt_of_skipWs hc
    have hlt := hvs.length_lt
    obtain ⟨fuel, rfl⟩ : ∃ m, fuel = m + 1 := ⟨fuel - 1, by omega⟩
    simp only [Item.nesting, nestingElements] at hdepth ih ihs
    have hskip :=
      ih (fun _ => bounded_of_skipWs hc (by decide)) fuel (depth + 1) (by omega) (by omega)
    exact (skipItems_element hskip hc).trans (ihs nofun fuel depth (by omega) (by omega))
  | @lastMember s s1 s2 s3 s4 r k v hs hk hcolon hv hr ih =>
    intro fuel depth hdepth hfuel
    have h1 := length_lt_of_skipWs hs
    have h2 := string_length hk
    have h3 := length_lt_of_skipWs hcolon
    have h4 := length_lt_of_skipWs hr
    have hlen := hv.length_lt
    obtain ⟨fuel, rfl⟩ : ∃ m, fuel = m + 1 := ⟨fuel - 1, by omega⟩
    simp only [Item.nesting, nestingMembers] at hdepth ih
    have hskip :=
      ih (fun _ => bounded_of_skipWs hr (by decide)) fuel (depth + 1) (by omega) (by omega)
    exact skipItems_member hs (skipString_of_string hk) hcolon hskip hr
  | @moreMembers s s1 s2 s3 s4 s5 r k v ms hs hk hcolon hv hc hms ih ihs =>
    intro fuel depth hdepth hfuel
    have h1 := length_lt_of_skipWs hs
    have h2 := string_length hk
    have h3 := length_lt_of_skipWs hcolon
    have h4 := length_lt_of_skipWs hc
    have hlen := hv.length_lt
    have hlt := hms.length_lt
    obtain ⟨fuel, rfl⟩ : ∃ m, fuel = m + 1 := ⟨fuel - 1, by omega⟩
    simp only [Item.nesting, nestingMembers] at hdepth ih ihs
    have hskip :=
      ih (fun _ => bounded_of_skipWs hc (by decide)) fuel (depth + 1) (by omega) (by omega)
    exact (skipItems_member hs (skipString_of_string hk) hcolon hskip hc).trans
      (ihs nofun fuel depth (by omega) (by omega))

theorem sSkipValue_of_reads {v : Json} (h : Json.Reads (.value v) s r) (hbound : Bounded r)
    (hdepth : nesting v ≤ 64) : sSkipValue s = some r :=
  skips_of_reads h (fun _ => hbound) _ 0 (by simpa [Item.nesting] using hdepth) (by
    unfold skipFuel
    omega)

theorem sSkipString_of_decode {cap o : Nat} {t : Bytes} (h : sDecodeString cap o s = some (t, r)) :
    sSkipString s = some r := by
  obtain ⟨s', rfl, hdec⟩ := sDecodeString_cases h
  rw [sSkipString, if_pos rfl, skipStringBody_of_decode hdec]

/-- **Skipping and decoding agree** on where a string ends, and a value is skipped up to its last
byte: `p` is the text of a value, `r` what stands behind it. -/
theorem skip_exact :
    (∀ (cap o : Nat) (s t r : Bytes),
      sDecodeString cap o s = some (t, r) → sSkipString s = some r) ∧
    ∀ (p : Bytes) (v : Json) (r : Bytes), Json.Reads (.value v) p [] → nesting v ≤ 64 → Bounded r →
      sSkipValue (p ++ r) = some r := by
  refine ⟨fun cap o s t r h => sSkipString_of_decode h, fun p v r hp hdepth hr => ?_⟩
  exact sSkipValue_of_reads (hp.append fun _ _ => hr) hr hdepth

/-- An object and a literal in an array. -/
def nestedValue : Json := .arr [.obj [(ascii "k", .num (-15) 0)], .null]

/-- A surrogate pair in front of a comma, and `nestedValue` in front of a brace. -/
theorem skip_exact_samples :
    sSkipString (ascii "\"\\ud83d\\ude00\",") = some (ascii ",") ∧
    sSkipValue (ascii "[\x7b\"k\":-15\x7d,null]" ++ ascii " \x7d") = some (ascii " \x7d") := by
  have hdec : sDecodeString 4 0 (ascii "\"\\ud83d\\ude00\",") =
      some (Utf8.encode 0x1F600, ascii ",") := by decide +kernel
  have htext : Json.render nestedValue ++ [] = ascii "[\x7b\"k\":-15\x7d,null]" := by decide +kernel
  have hread : value 9 (Json.render nestedValue ++ []) = some (nestedValue, []) :=
    value_render nestedValue 9 []
      ⟨⟨(Utf8.check_iff _).1 (by decide), rfl, trivial⟩, trivial, trivial⟩
      (by decide) nofun
  have hbound : Bounded (ascii " \x7d") := fun b hb => .inl (Option.some.inj hb ▸ by decide)
  rw [htext] at hread
  exact ⟨skip_exact.1 4 0 _ _ _ hdec,
    skip_exact.2 _ nestedValue _ ((reads_of_some 9).1 _ _ _ hread) (by decide) hbound⟩

/-! ## The extractor on values -/

def stringOf : Json → Option Bytes
  | .str t => some t
  | _ => none

/-- A name as `strcmp` sees it, decoded into a buffer of `cap` bytes. -/
def readName (cap : Nat) (k : Bytes) : Option Bytes :=
  if Utf8.check k = true ∧ k.length ≤ cap then some (cstr k) else none

/-- One member of a block: whether the block is a text, and its text so far. -/
def readField (isText : Bool) (text : Option Bytes) (name : Bytes) (v : Json) :
    Option (Bool × Option Bytes) :=
  if name = ascii "type" then
    ((stringOf v).bind (readName 15)).map fun t => (isText || t = ascii "text", text)
  else if name = ascii "text" then (stringOf v).map fun u => (isText, some u)
  else some (isText, text)

def readBlock : Bool → Option Bytes → List (Bytes × Json) → Option (Bool × Option Bytes)
  | isText, text, [] => some (isText, text)
  | isText, text, (k, v) :: fs =>
    (readName 31 k).bind fun name => (readField isText text name v).bind fun res =>
      readBlock res.1 res.2 fs

/-- The text of a block behind what has been extracted. -/
def addText (cap : Nat) (isText : Bool) (text : Option Bytes) (acc : Bytes) : Option Bytes :=
  match isText, text with
  | true, some u =>
    if Utf8.check u = true ∧ acc.length + u.length ≤ cap then some (acc ++ u) else none
  | _, _ => some acc

def readBlocks (cap : Nat) : Bytes → List Json → Option Bytes
  | acc, [] => some acc
  | acc, .obj fs :: bs =>
    (readBlock false none fs).bind fun res => (addText cap res.1 res.2 acc).bind fun acc =>
      readBlocks cap acc bs
  | _, _ :: _ => none

def arrayOf : Json → Option (List Json)
  | .arr bs => some bs
  | _ => none

/-- One member of the body. -/
def readMember (cap : Nat) (found : Bool) (acc : Bytes) (name : Bytes) (v : Json) :
    Option (Bool × Bytes) :=
  if name = ascii "content" then
    ((arrayOf v).bind (readBlocks cap acc)).map fun acc => (true, acc)
  else some (found, acc)

def readMembers (cap : Nat) : Bool → Bytes → List (Bytes × Json) → Option (Bool × Bytes)
  | found, acc, [] => some (found, acc)
  | found, acc, (k, v) :: ms =>
    (readName 63 k).bind fun name => (readMember cap found acc name v).bind fun res =>
      readMembers cap res.1 res.2 ms

/-- What `gwj_content_text` makes of the members of a body. -/
def readContent (cap : Nat) (ms : List (Bytes × Json)) : Option Bytes :=
  (readMembers cap false [] ms).bind fun res => if res.1 then some res.2 else none

/-! ## What the text of a value starts with -/

theorem str_text {v : Json} {s' : Bytes} (h : Json.Reads (.value v) s r)
    (hs : sWs s = chr '"' :: s') : ∃ t, v = .str t ∧ Json.string s' = some (t, r) := by
  have hs : skipWs s = 34 :: s' := hs
  cases h with
  | str hs' ht =>
    obtain ⟨-, rfl⟩ := List.cons.inj (hs.symm.trans hs')
    exact ⟨_, rfl, ht⟩
  | atom hs' hv =>
    obtain ⟨rfl, -⟩ := List.cons.inj (hs.symm.trans hs')
    exact absurd (atom_head hv).1 (by decide)
  | arrNil hs' _ | arr hs' _ | objNil hs' _ | obj hs' _ =>
    exact absurd (List.cons.inj (hs.symm.trans hs')).1 (by decide)

theorem str_opens {t : Bytes} (h : Json.Reads (.value (.str t)) s r) :
    ∃ s', sWs s = chr '"' :: s' ∧ Json.string s' = some (t, r) := by
  cases h with
  | str hs ht => exact ⟨_, hs, ht⟩
  | atom _ hv => exact (atom_isAtom hv).elim

theorem arr_opens {vs : List Json} (h : Json.Reads (.value (.arr vs)) s r) :
    ∃ s', sWs s = chr '[' :: s' ∧
      (vs = [] ∧ sWs s' = chr ']' :: r ∨ Json.Reads (.elements vs) s' r) := by
  cases h with
  | atom _ hv => exact (atom_isAtom hv).elim
  | arrNil hs hr => exact ⟨_, hs, .inl ⟨rfl, hr⟩⟩
  | arr hs hvs => exact ⟨_, hs, .inr hvs⟩

theorem obj_opens {ms : List (Bytes × Json)} (h : Json.Reads (.value (.obj ms)) s r) :
    ∃ s', sWs s = chr '{' :: s' ∧
      (ms = [] ∧ sWs s' = chr '}' :: r ∨ Json.Reads (.members ms) s' r) := by
  cases h with
  | atom _ hv => exact (atom_isAtom hv).elim
  | objNil hs hr => exact ⟨_, hs, .inl ⟨rfl, hr⟩⟩
  | obj hs hms => exact ⟨_, hs, .inr hms⟩

theorem arr_text {v : Json} {s' : Bytes} (h : Json.Reads (.value v) s r)
    (hs : sWs s = chr '[' :: s') : ∃ vs, v = .arr vs := by
  have hs : skipWs s = 91 :: s' := hs
  cases h with
  | arrNil | arr => exact ⟨_, rfl⟩
  | atom hs' hv =>
    obtain ⟨rfl, -⟩ := List.cons.inj (hs.symm.trans hs')
    exact absurd (atom_head hv).1 (by decide)
  | str hs' _ | objNil hs' _ | obj hs' _ =>
    exact absurd (List.cons.inj (hs.symm.trans hs')).1 (by decide)

theorem obj_text {v : Json} {s' : Bytes} (h : Json.Reads (.value v) s r)
    (hs : sWs s = chr '{' :: s') : ∃ ms, v = .obj ms := by
  have hs : skipWs s = 123 :: s' := hs
  cases h with
  | objNil | obj => exact ⟨_, rfl⟩
  | atom hs' hv =>
    obtain ⟨rfl, -⟩ := List.cons.inj (hs.symm.trans hs')
    exact absurd (atom_head hv).1 (by decide)
  | str hs' _ | arrNil hs' _ | arr hs' _ =>
    exact absurd (List.cons.inj (hs.symm.trans hs')).1 (by decide)

/-- The first member in front of a brace: its key, its value and what is behind it. -/
structure FirstMember (k : Bytes) (v : Json) (ms : List (Bytes × Json)) (s r : Bytes)
    (s1 s2 s3 s4 s5 : Bytes) (c : UInt8) : Prop where
  quote : sWs s = chr '"' :: s1
  key : Json.string s1 = some (k, s2)
  colon : sWs s2 = chr ':' :: s3
  value : Json.Reads (.value v) s3 s4
  next : sWs s4 = c :: s5
  rest : c = chr ',' ∧ Json.Reads (.members ms) s5 r ∨ c = chr '}' ∧ ms = [] ∧ s5 = r

section

variable {k : Bytes} {v : Json} {ms : List (Bytes × Json)} {s1 s2 s3 s4 s5 : Bytes} {c : UInt8}

theorem members_text (h : Json.Reads (.members ((k, v) :: ms)) s r) :
    ∃ s1 s2 s3 s4 s5 c, FirstMember k v ms s r s1 s2 s3 s4 s5 c := by
  cases h with
  | lastMember hs hk hcolon hv hr =>
    exact ⟨_, _, _, _, _, _, hs, hk, hcolon, hv, hr, .inr ⟨rfl, rfl, rfl⟩⟩
  | moreMembers hs hk hcolon hv hc hms =>
    exact ⟨_, _, _, _, _, _, hs, hk, hcolon, hv, hc, .inl ⟨rfl, hms⟩⟩

theorem FirstMember.bounded (h : FirstMember k v ms s r s1 s2 s3 s4 s5 c) : Bounded s4 := by
  refine bounded_of_skipWs h.next ?_
  rcases h.rest with ⟨rfl, -⟩ | ⟨rfl, -⟩ <;> decide

theorem FirstMember.value_suffix (h : FirstMember k v ms s r s1 s2 s3 s4 s5 c) : s3 <:+ s :=
  (suffix_of_skipWs h.colon).trans ((string_suffix h.key).trans (suffix_of_skipWs h.quote))

theorem FirstMember.rest_suffix (h : FirstMember k v ms s r s1 s2 s3 s4 s5 c) : s5 <:+ s :=
  (suffix_of_skipWs h.next).trans (h.value.suffix.trans h.value_suffix)

theorem FirstMember.length_lt (h : FirstMember k v ms s r s1 s2 s3 s4 s5 c) :
    s5.length < s.length := by
  have h1 := length_lt_of_skipWs h.next
  have h2 := h.value.length_lt
  have h3 := h.value_suffix.length_le
  omega

end

/-! ## The loops -/

/-- A string of a UTF-8 body starts UTF-8 text. -/
theorem valid_of_quote {s' : Bytes} (hv : Utf8.Valid body) (hs : s <:+ body)
    (hq : sWs s = chr '"' :: s') : Utf8.Valid s' := by
  obtain ⟨p, rfl⟩ := (hq ▸ sWs_suffix s).trans hs
  exact (hv.split (by decide)).2

theorem sDecodeString_of_string {t s' : Bytes} {cap o : Nat} (hs : Utf8.Valid s')
    (ht : Json.string s' = some (t, r)) (ho : o ≤ cap) :
    sDecodeString cap o (chr '"' :: s') =
      if Utf8.check t = true ∧ o + t.length ≤ cap then some (t, r) else none := by
  rw [sDecodeString, if_pos rfl, decodeBody_string hs ht ho]

theorem sDecodeString_none {cap o : Nat} (h : ∀ s', s ≠ chr '"' :: s') :
    sDecodeString cap o s = none := by
  refine Option.eq_none_iff_forall_ne_some.2 fun res hres => ?_
  obtain ⟨s', hs', -⟩ := sDecodeString_cases hres
  exact h s' hs'

/-- A key of the body, read into a buffer of `cap` bytes. -/
theorem memberKey_of_reads (cap : Nat) {s1 s2 s3 k : Bytes} (hv : Utf8.Valid body) (hs : s <:+ body)
    (hq : sWs s = chr '"' :: s1) (hk : Json.string s1 = some (k, s2))
    (hcolon : sWs s2 = chr ':' :: s3) :
    memberKey cap (sWs s) = (readName cap k).map fun name => (name, sWs s3) := by
  rw [hq, memberKey, sDecodeString_of_string (valid_of_quote hv hs hq) hk (Nat.zero_le cap),
    Nat.zero_add, readName]
  split
  · simp only [Option.bind_eq_bind, Option.bind_some, hcolon, List.head?_cons, List.tail_cons,
      if_true, Option.map_some]
  · rfl

/-- The place in the body where the decoder will find a text. -/
def PlaceOf : Option Bytes → Option Bytes → Prop
  | none, none => True
  | some p, some u => ∃ s' r, p = chr '"' :: s' ∧ Utf8.Valid s' ∧ Json.string s' = some (u, r)
  | _, _ => False

/-- The scanner of a block has found what the values say, and stands at `r`. -/
def Agrees (x : Option (Bool × Option Bytes × Bytes)) (y : Option (Bool × Option Bytes))
    (r : Bytes) : Prop :=
  (x = none ∧ y = none) ∨
    ∃ isText textAt text, x = some (isText, textAt, r) ∧ y = some (isText, text) ∧
      PlaceOf textAt text

theorem blockMember_agrees {textAt text : Option Bytes} {v : Json} (isText : Bool) (name : Bytes)
    (hv : Utf8.Valid body) (hs : s <:+ body) (hplace : PlaceOf textAt text)
    (hread : Json.Reads (.value v) s r) (hbound : Bounded r) (hnest : nesting v ≤ 64) :
    Agrees (blockMember isText textAt name (sWs s)) (readField isText text name v) r := by
  have hstring : ∀ {s'}, sWs s = chr '"' :: s' → ∃ t, stringOf v = some t ∧
      Json.string s' = some (t, r) := by
    intro s' hq
    obtain ⟨t, rfl, ht⟩ := str_text hread hq
    exact ⟨t, rfl, ht⟩
  have hother : (∀ s', sWs s ≠ chr '"' :: s') → stringOf v = none := by
    intro hne
    cases v with
    | str t =>
      obtain ⟨s', hq, -⟩ := str_opens hread
      exact absurd hq (hne s')
    | _ => rfl
  unfold blockMember readField
  by_cases htype : name = ascii "type"
  · rw [if_pos htype, if_pos htype]
    by_cases hq : ∃ s', sWs s = chr '"' :: s'
    · obtain ⟨s', hq⟩ := hq
      obtain ⟨t, hval, ht⟩ := hstring hq
      rw [hq, sDecodeString_of_string (valid_of_quote hv hs hq) ht (Nat.zero_le 15), hval,
        Option.bind_some, readName, Nat.zero_add]
      split
      · exact .inr ⟨_, _, _, rfl, rfl, hplace⟩
      · exact .inl ⟨rfl, rfl⟩
    · have hne : ∀ s', sWs s ≠ chr '"' :: s' := fun s' h => hq ⟨s', h⟩
      rw [sDecodeString_none hne, hother hne]
      exact .inl ⟨rfl, rfl⟩
  rw [if_neg htype, if_neg htype]
  by_cases htext : name = ascii "text"
  · rw [if_pos htext, if_pos htext]
    by_cases hq : ∃ s', sWs s = chr '"' :: s'
    · obtain ⟨s', hq⟩ := hq
      obtain ⟨t, hval, ht⟩ := hstring hq
      rw [hq, sSkipString, if_pos rfl, skipString_of_string ht, hval]
      exact .inr ⟨_, _, _, rfl, rfl, s', r, rfl, valid_of_quote hv hs hq, ht⟩
    · have hne : ∀ s', sWs s ≠ chr '"' :: s' := fun s' h => hq ⟨s', h⟩
      have hskip : sSkipString (sWs s) = none := by
        refine Option.eq_none_iff_forall_ne_some.2 fun res hres => ?_
        obtain ⟨s', hs', -⟩ := sSkipString_cases hres
        exact hne s' hs'
      rw [hskip, hother hne]
      exact .inl ⟨rfl, rfl⟩
  · have hskip : sSkipValue (sWs s) = some r :=
      sSkipValue_of_reads (hread.congr (skipWs_skipWs s)) hbound hnest
    rw [if_neg htext, if_neg htext, hskip]
    exact .inr ⟨_, _, _, rfl, rfl, hplace⟩

/-- The members of a block. -/
theorem blockLoop_agrees {fs : List (Bytes × Json)} {fuel : Nat} {isText : Bool}
    {textAt text : Option Bytes} (hv : Utf8.Valid body) (hs : s <:+ body)
    (hplace : PlaceOf textAt text) (hread : Json.Reads (.members fs) s r)
    (hnest : nestingMembers fs ≤ 64) (hfuel : s.length ≤ fuel + r.length) :
    Agrees (blockLoop fuel isText textAt s) (readBlock isText text fs) r := by
  induction fs generalizing fuel isText textAt text s with
  | nil => cases hread
  | cons f fs ih =>
    have hlen := hread.length_lt
    obtain ⟨fuel, rfl⟩ : ∃ m, fuel = m + 1 := ⟨fuel - 1, by omega⟩
    obtain ⟨k, v⟩ := f
    rw [nestingMembers] at hnest
    obtain ⟨s1, s2, s3, s4, s5, c, h⟩ := members_text hread
    have hless := h.length_lt
    have hkey := memberKey_of_reads 31 hv hs h.quote h.key h.colon
    have hopen : (sWs s).head? ≠ some (chr '}') := by
      rw [h.quote]
      exact fun h => absurd (Option.some.inj h) (by decide)
    rw [blockLoop_succ, if_neg hopen, hkey, readBlock]
    cases readName 31 k with
    | none => exact .inl ⟨rfl, rfl⟩
    | some name =>
      simp only [Option.map_some, Option.bind_some]
      rcases blockMember_agrees isText name hv (h.value_suffix.trans hs) hplace h.value
        h.bounded (by omega) with ⟨hx, hy⟩ | ⟨isText1, textAt1, text1, hx, hy, hplace1⟩
      · rw [hx, hy]
        exact .inl ⟨rfl, rfl⟩
      rw [hx, hy]
      simp only [Option.bind_some, h.next]
      rcases h.rest with ⟨rfl, hms⟩ | ⟨rfl, rfl, rfl⟩
      · exact ih (h.rest_suffix.trans hs) hplace1 hms (by omega) (by omega)
      · exact .inr ⟨isText1, textAt1, text1, rfl, rfl, hplace1⟩

/-- A block, behind its brace. -/
theorem block_agrees {fs : List (Bytes × Json)} {s' : Bytes} (fuel : Nat) (hv : Utf8.Valid body)
    (hs : s' <:+ body)
    (hread : fs = [] ∧ sWs s' = chr '}' :: r ∨ Json.Reads (.members fs) s' r)
    (hnest : nestingMembers fs ≤ 64) (hfuel : s'.length < fuel + r.length) (hpos : 0 < fuel) :
    Agrees (blockLoop fuel false none s') (readBlock false none fs) r := by
  rcases hread with ⟨rfl, hclose⟩ | hms
  · obtain ⟨fuel, rfl⟩ : ∃ m, fuel = m + 1 := ⟨fuel - 1, by omega⟩
    rw [blockLoop_succ, hclose, List.head?_cons, if_pos rfl]
    exact .inr ⟨false, none, none, rfl, rfl, trivial⟩
  · exact blockLoop_agrees hv hs trivial hms hnest (by omega)

theorem blockText_agrees {cap : Nat} {isText : Bool} {textAt text : Option Bytes} {acc : Bytes}
    (hplace : PlaceOf textAt text) (hacc : acc.length ≤ cap) :
    blockText cap isText textAt acc = addText cap isText text acc := by
  cases isText with
  | false => cases textAt <;> cases text <;> rfl
  | true =>
    cases textAt with
    | none =>
      cases text with
      | none => rfl
      | some u => exact hplace.elim
    | some p =>
      cases text with
      | none => exact hplace.elim
      | some u =>
        obtain ⟨s', r, rfl, hs', hu⟩ := hplace
        simp only [blockText, addText, sDecodeString_of_string hs' hu hacc]
        split
        · rfl
        · rfl

theorem addText_length {cap : Nat} {isText : Bool} {text : Option Bytes} {acc acc' : Bytes}
    (hacc : acc.length ≤ cap) (h : addText cap isText text acc = some acc') :
      acc'.length ≤ cap := by
  unfold addText at h
  split at h
  · split at h
    · next hfits =>
      cases h
      rw [List.length_append]
      exact hfits.2
    · cases h
  · cases h
    exact hacc

theorem contentLoop_eq {cap fuel : Nat} {bs : List Json} {acc : Bytes} (hv : Utf8.Valid body)
    (hs : s <:+ body) (hacc : acc.length ≤ cap) (hread : Json.Reads (.elements bs) s r)
    (hnest : nestingElements bs ≤ 64) (hfuel : s.length ≤ fuel + r.length) :
    contentLoop cap fuel acc s = (readBlocks cap acc bs).map fun text => (text, r) := by
  induction bs generalizing fuel acc s with
  | nil => cases hread
  | cons b bs ih =>
    have hlen := hread.length_lt
    obtain ⟨fuel, rfl⟩ : ∃ m, fuel = m + 1 := ⟨fuel - 1, by omega⟩
    rw [nestingElements] at hnest
    obtain ⟨s4, c, s5, hvalue, hnext, hrest⟩ : ∃ s4 c s5, Json.Reads (.value b) s s4 ∧
        sWs s4 = c :: s5 ∧
        (c = chr ',' ∧ Json.Reads (.elements bs) s5 r ∨ c = chr ']' ∧ bs = [] ∧ s5 = r) := by
      cases hread with
      | last hvalue hr => exact ⟨_, _, _, hvalue, hr, .inr ⟨rfl, rfl, rfl⟩⟩
      | more hvalue hc hbs => exact ⟨_, _, _, hvalue, hc, .inl ⟨rfl, hbs⟩⟩
    rw [contentLoop_succ]
    by_cases hobj : ∃ fs, b = .obj fs
    swap
    · -- no object, so no brace
      have hnone : readBlocks cap acc (b :: bs) = none := by
        cases b with
        | obj fs => exact absurd ⟨fs, rfl⟩ hobj
        | _ => rfl
      rw [hnone]
      cases hws : sWs s with
      | nil => rfl
      | cons c s0 =>
        refine if_pos ?_
        rintro rfl
        exact hobj (obj_text hvalue hws)
    obtain ⟨fs, rfl⟩ := hobj
    obtain ⟨s0, hopen, hblock⟩ := obj_opens hvalue
    have h1 := length_lt_of_skipWs hopen
    have h2 := length_lt_of_skipWs hnext
    have h3 := hvalue.length_lt
    have hs0 : s0 <:+ body := (suffix_of_skipWs hopen).trans hs
    have hs5 : s5 <:+ body := (suffix_of_skipWs hnext).trans (hvalue.suffix.trans hs)
    simp only [nesting] at hnest
    rw [hopen, readBlocks]
    dsimp only
    rw [if_neg (fun h => h rfl)]
    rcases block_agrees (s0.length + 1) hv hs0 hblock (by omega) (by omega) (by omega) with
      ⟨hx, hy⟩ | ⟨isText, textAt, text, hx, hy, hplace⟩
    · rw [hx, hy]
      rfl
    rw [hx, hy]
    simp only [Option.bind_some, blockText_agrees hplace hacc, hnext]
    cases htext : addText cap isText text acc with
    | none => rfl
    | some acc1 =>
      have hacc1 := addText_length hacc htext
      simp only [Option.bind_some]
      rcases hrest with ⟨rfl, hbs⟩ | ⟨rfl, rfl, rfl⟩
      · exact ih hs5 hacc1 hbs (by omega) (by omega)
      · rfl

theorem topMember_eq {cap : Nat} {found : Bool} {acc : Bytes} {v : Json} (name : Bytes)
    (hv : Utf8.Valid body) (hs : s <:+ body) (hacc : acc.length ≤ cap)
    (hread : Json.Reads (.value v) s r) (hbound : Bounded r) (hnest : nesting v ≤ 64) :
    topMember cap found acc name (sWs s) =
      (readMember cap found acc name v).map fun res => (res.1, res.2, r) := by
  unfold topMember readMember
  by_cases hname : name = ascii "content"
  swap
  · have hskip : sSkipValue (sWs s) = some r :=
      sSkipValue_of_reads (hread.congr (skipWs_skipWs s)) hbound hnest
    rw [if_neg hname, if_neg hname, hskip]
    rfl
  rw [if_pos hname, if_pos hname]
  by_cases harr : ∃ bs, v = .arr bs
  swap
  · -- no array, so no bracket
    have hnone : arrayOf v = none := by
      cases v with
      | arr bs => exact absurd ⟨bs, rfl⟩ harr
      | _ => rfl
    rw [hnone]
    cases hws : sWs s with
    | nil => rfl
    | cons c s0 =>
      refine if_pos ?_
      rintro rfl
      exact harr (arr_text hread hws)
  obtain ⟨bs, rfl⟩ := harr
  obtain ⟨s0, hopen, hblocks⟩ := arr_opens hread
  have hs0 : s0 <:+ body := (suffix_of_skipWs hopen).trans hs
  have h1 := length_lt_of_skipWs hopen
  simp only [nesting] at hnest
  rw [hopen, arrayOf, Option.bind_some]
  dsimp only
  rw [if_neg (fun h => h rfl)]
  rcases hblocks with ⟨rfl, hclose⟩ | hbs
  · rw [hclose, List.head?_cons, if_pos rfl]
    rfl
  · obtain ⟨b, t, ht⟩ := hbs.head
    have hne : (sWs s0).head? ≠ some (chr ']') := by
      rw [show sWs s0 = b :: t from ht]
      exact fun h => (hbs.head_ne ht).1 (Option.some.inj h)
    rw [if_neg hne, contentLoop_eq hv ((sWs_suffix s0).trans hs0) hacc
      (hbs.congr (skipWs_skipWs s0)) (by omega) (by omega), Option.map_map, Option.map_map]
    rfl

theorem readBlocks_length {cap : Nat} {bs : List Json} {acc acc' : Bytes}
    (hacc : acc.length ≤ cap) (h : readBlocks cap acc bs = some acc') : acc'.length ≤ cap := by
  induction bs generalizing acc with
  | nil =>
    cases h
    exact hacc
  | cons b bs ih =>
    cases b with
    | obj fs =>
      obtain ⟨res, -, h⟩ := Option.bind_eq_some_iff.1 h
      obtain ⟨acc1, htext, h⟩ := Option.bind_eq_some_iff.1 h
      exact ih (addText_length hacc htext) h
    | _ => cases h

theorem readMember_length {cap : Nat} {found : Bool} {acc name : Bytes} {v : Json}
    {res : Bool × Bytes} (hacc : acc.length ≤ cap)
      (h : readMember cap found acc name v = some res) :
    res.2.length ≤ cap := by
  unfold readMember at h
  split at h
  · obtain ⟨acc', hblocks, heq⟩ := Option.map_eq_some_iff.1 h
    cases heq
    obtain ⟨bs, -, hblocks⟩ := Option.bind_eq_some_iff.1 hblocks
    exact readBlocks_length hacc hblocks
  · cases h
    exact hacc

theorem contentTextLoop_eq {cap fuel : Nat} {ms : List (Bytes × Json)} {found : Bool} {acc : Bytes}
    (hv : Utf8.Valid body) (hs : s <:+ body) (hacc : acc.length ≤ cap)
    (hread : Json.Reads (.members ms) s r) (hnest : nestingMembers ms ≤ 64)
    (hfuel : s.length ≤ fuel + r.length) :
    contentTextLoop cap fuel found acc s = readMembers cap found acc ms := by
  induction ms generalizing fuel found acc s with
  | nil => cases hread
  | cons m ms ih =>
    have hlen := hread.length_lt
    obtain ⟨fuel, rfl⟩ : ∃ m, fuel = m + 1 := ⟨fuel - 1, by omega⟩
    obtain ⟨k, v⟩ := m
    rw [nestingMembers] at hnest
    obtain ⟨s1, s2, s3, s4, s5, c, h⟩ := members_text hread
    have hless := h.length_lt
    have hkey := memberKey_of_reads 63 hv hs h.quote h.key h.colon
    have hopen : (sWs s).head? ≠ some (chr '}') := by
      rw [h.quote]
      exact fun h => absurd (Option.some.inj h) (by decide)
    rw [contentTextLoop_succ, if_neg hopen, hkey, readMembers]
    cases readName 63 k with
    | none => rfl
    | some name =>
      simp only [Option.map_some, Option.bind_some]
      rw [topMember_eq name hv (h.value_suffix.trans hs) hacc h.value h.bounded (by omega)]
      cases hmember : readMember cap found acc name v with
      | none => rfl
      | some res =>
        simp only [Option.map_some, Option.bind_some, h.next]
        rcases h.rest with ⟨rfl, hms⟩ | ⟨rfl, rfl, rfl⟩
        · exact ih (h.rest_suffix.trans hs) (readMember_length hacc hmember) hms
            (by omega) (by omega)
        · rfl

/-- **The extractor computes a function of the value** a body denotes, unless it is nested too
deep. -/
theorem gwjContentText_eq {ms : List (Bytes × Json)} (hdecode : Json.decode body = some (.obj ms))
    (hnest : nesting (.obj ms) ≤ 65) (cap : Nat) :
    gwjContentText body cap = readContent cap ms := by
  obtain ⟨hv, r, hread, -⟩ := decode_iff.1 hdecode
  obtain ⟨s, hopen, hms⟩ := obj_opens hread
  have h1 := length_lt_of_skipWs hopen
  have hs : s <:+ body := suffix_of_skipWs hopen
  rw [nesting] at hnest
  have hloop : contentTextLoop cap (body.length + 1) false [] s = readMembers cap false [] ms := by
    rcases hms with ⟨rfl, hclose⟩ | hms
    · rw [contentTextLoop_succ, hclose, List.head?_cons, if_pos rfl]
      rfl
    · exact contentTextLoop_eq hv hs (Nat.zero_le cap) hms (by omega) (by omega)
  unfold gwjContentText readContent
  rw [hopen]
  dsimp only
  rw [if_neg (fun h => h rfl), hloop]
  cases readMembers cap false [] ms with
  | none => rfl
  | some res =>
    obtain ⟨found, text⟩ := res
    cases found with
    | false => rfl
    | true => rfl

end AxiomaOracle
