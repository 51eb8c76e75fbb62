import AxiomaOracle.Verify.Extract

/-!
# Scanner positions

A scanner of `gw_json.c` moves forward over the body, so every position is a suffix of it. Where a
string starts, the byte is ASCII: there a suffix of UTF-8 text is UTF-8 text, and what the decoder
makes of it is UTF-8 again. `extraction_valid` carries this through the three extractors.
-/

namespace AxiomaOracle

open Lib

variable {body s r : Bytes}

/-! ## Moving forward -/

theorem sWs_suffix (s : Bytes) : sWs s <:+ s := List.dropWhile_suffix _

theorem suffix_of_cons {c : UInt8} (h : c :: r <:+ s) : r <:+ s :=
  (List.suffix_cons c r).trans h

theorem tail_suffix (s : Bytes) : s.tail <:+ s := List.tail_suffix s

theorem skipStringBody_suffix (h : skipStringBody s = some r) : r <:+ s := by
  fun_induction skipStringBody s with
  | case1 => cases h
  | case2 =>
    cases h
    exact List.suffix_cons _ _
  | case3 => cases h
  | case4 a b c d s _ ih =>
    exact (ih h).trans (suffix_of_cons (suffix_of_cons (suffix_of_cons (suffix_of_cons
      (suffix_of_cons (List.suffix_cons _ _))))))
  | case5 => cases h
  | case6 e s hu _ ih => exact (ih h).trans (suffix_of_cons (List.suffix_cons _ _))
  | case7 c s hq hb ih => exact (ih h).trans (List.suffix_cons _ _)

theorem sSkipString_cases (h : sSkipString s = some r) :
    ∃ s', s = chr '"' :: s' ∧ skipStringBody s' = some r := by
  cases s with
  | nil => cases h
  | cons c s =>
    simp only [sSkipString] at h
    split at h
    · next hc => exact ⟨s, by rw [hc], h⟩
    · cases h

/-- One character of a string as it is written, and the bytes it stands for. -/
inductive Spelled : Bytes → Bytes → Prop where
  | plain {c : UInt8} : c ≠ chr '"' → c ≠ chr '\\' → Spelled [c] [c]
  | short {e b : UInt8} : e ≠ chr 'u' → shortEscape e = some b → Spelled [chr '\\', e] [b]
  | unit {a b c d : UInt8} {u : Nat} {bs : Bytes} : readU4 a b c d = some u →
      ¬ (0xD800 ≤ u ∧ u ≤ 0xDFFF) → utf8Bytes u = some bs →
      Spelled [chr '\\', chr 'u', a, b, c, d] bs
  | pair {a b c d a' b' c' d' : UInt8} {u v : Nat} {bs : Bytes} : readU4 a b c d = some u →
      0xD800 ≤ u → u ≤ 0xDBFF → readU4 a' b' c' d' = some v → 0xDC00 ≤ v → v ≤ 0xDFFF →
      utf8Bytes (0x10000 + ((u - 0xD800) <<< 10 ||| (v - 0xDC00))) = some bs →
      Spelled [chr '\\', chr 'u', a, b, c, d, chr '\\', chr 'u', a', b', c', d'] bs

theorem putBytes_some {cap o : Nat} {bs t : Bytes} {k : Nat → Option (Bytes × Bytes)}
    (h : putBytes cap o bs k = some (t, r)) :
    o + bs.length ≤ cap ∧ ∃ t', k (o + bs.length) = some (t', r) ∧ t = bs ++ t' := by
  unfold putBytes at h
  split at h
  · cases h
  · obtain ⟨⟨t', rest'⟩, hk, heq⟩ := Option.map_eq_some_iff.1 h
    cases heq
    exact ⟨by omega, t', hk, rfl⟩

/-- What the decoder can do: end the string, or take one character. -/
theorem decodeBody_cases {cap o : Nat} {t : Bytes} (h : decodeBody cap o s = some (t, r)) :
    (s = chr '"' :: r ∧ t = []) ∨
    ∃ raw bs s' t', s = raw ++ s' ∧ Spelled raw bs ∧ o + bs.length ≤ cap ∧
      decodeBody cap (o + bs.length) s' = some (t', r) ∧ t = bs ++ t' := by
  revert h
  fun_cases decodeBody cap o s
  all_goals intro h
  case case2 =>
    cases h
    exact .inl ⟨rfl, rfl⟩
  case case9 a b c d u hu hhigh p q a' b' c' d' s hpq v hv hlow bs hbs _ =>
    obtain ⟨hfits, t', ht, rfl⟩ := putBytes_some h
    rw [not_or, not_not, not_not] at hpq
    obtain ⟨rfl, rfl⟩ := hpq
    exact .inr ⟨_, bs, s, t', rfl, .pair hu hhigh.1 hhigh.2 hv (by omega) (by omega) hbs, hfits, ht,
      rfl⟩
  case case13 a b c d s u hu hhigh hlow bs hbs _ =>
    obtain ⟨hfits, t', ht, rfl⟩ := putBytes_some h
    exact .inr ⟨_, bs, s, t', rfl, .unit hu (by omega) hbs, hfits, ht, rfl⟩
  case case16 e s hu b hb _ =>
    obtain ⟨hfits, t', ht, rfl⟩ := putBytes_some h
    exact .inr ⟨_, [b], s, t', rfl, .short hu hb, hfits, ht, rfl⟩
  case case17 c s hq hb =>
    obtain ⟨hfits, t', ht, rfl⟩ := putBytes_some h
    exact .inr ⟨_, [c], s, t', rfl, .plain hq hb, hfits, ht, rfl⟩
  all_goals cases h

theorem Spelled.length_pos {raw bs : Bytes} (h : Spelled raw bs) : 0 < raw.length := by
  cases h <;> exact Nat.zero_lt_succ _

theorem decodeBody_suffix {cap o : Nat} {t : Bytes} (h : decodeBody cap o s = some (t, r)) :
    r <:+ s := by
  induction hn : s.length using Nat.strong_induction_on generalizing s o t with
  | _ n ih =>
  rcases decodeBody_cases h with ⟨rfl, -⟩ | ⟨raw, bs, s', t', rfl, hraw, -, hrest, -⟩
  · exact List.suffix_cons _ _
  · have hpos := hraw.length_pos
    rw [List.length_append] at hn
    exact (ih s'.length (by omega) hrest rfl).trans (List.suffix_append _ _)

/-! ## UTF-8 -/

theorem hexval_lt {c : UInt8} {d : Nat} (h : hexval c = some d) : d < 16 ∧ c.toNat < 0x80 := by
  unfold hexval at h
  split at h
  · cases h
    omega
  split at h
  · cases h
    omega
  split at h
  · cases h
    omega
  · cases h

theorem readU4_lt {a b c d : UInt8} {u : Nat} (h : readU4 a b c d = some u) :
    u < 65536 ∧ ∀ x ∈ [a, b, c, d], x.toNat < 0x80 := by
  unfold readU4 at h
  split at h
  · next ha hb hc hd =>
    obtain ⟨ha, ha'⟩ := hexval_lt ha
    obtain ⟨hb, hb'⟩ := hexval_lt hb
    obtain ⟨hc, hc'⟩ := hexval_lt hc
    obtain ⟨hd, hd'⟩ := hexval_lt hd
    cases h
    refine ⟨by omega, ?_⟩
    simp [ha', hb', hc', hd']
  · cases h

theorem shortEscape_lt {e b : UInt8} (h : shortEscape e = some b) :
    e.toNat < 0x80 ∧ b.toNat < 0x80 := by
  unfold shortEscape at h
  split_ifs at h with hself hb hf hn hr ht <;> obtain rfl := Option.some.inj h
  · rcases hself with rfl | rfl | rfl <;> decide
  all_goals
    subst e
    decide

/-- `put_utf8` writes the encoding of a character. -/
theorem utf8Bytes_eq {c : Nat} (h : Utf8.IsScalar c) : utf8Bytes c = some (Utf8.encode c) := by
  have hmask : ∀ n, n &&& 0x3F = n % 64 := fun n => Nat.and_two_pow_sub_one_eq_mod n 6
  have htail : ∀ n, 0x80 ||| n % 64 = 0x80 + n % 64 := fun n =>
    shiftLeft_or (a := 2) (i := 6) (Nat.mod_lt _ (by decide))
  unfold Utf8.IsScalar at h
  unfold utf8Bytes Utf8.encode
  simp only [hmask, htail, Nat.shiftRight_eq_div_pow, Nat.reducePow]
  split
  · rfl
  split
  · have hlead : 0xC0 ||| c / 64 = 0xC0 + c / 64 := shiftLeft_or (a := 6) (i := 5) (by omega)
    rw [hlead]
  split
  · have hlead : 0xE0 ||| c / 4096 = 0xE0 + c / 4096 := shiftLeft_or (a := 14) (i := 4) (by omega)
    rw [hlead]
  · have hlead : 0xF0 ||| c / 262144 = 0xF0 + c / 262144 :=
      shiftLeft_or (a := 30) (i := 3) (by omega)
    rw [if_pos (by omega), hlead]

/-- A character is a byte as it is, or an ASCII escape of a character. -/
theorem Spelled.escape {raw bs : Bytes} (h : Spelled raw bs) :
    (∃ c, raw = [c] ∧ bs = [c]) ∨
    (∃ e, raw = chr '\\' :: e) ∧ (∀ b ∈ raw, b.toNat < 0x80) ∧ Utf8.Valid bs := by
  cases h with
  | plain => exact .inl ⟨_, rfl, rfl⟩
  | short _ hs =>
    obtain ⟨he, hb⟩ := shortEscape_lt hs
    refine .inr ⟨⟨_, rfl⟩, ?_, .of_ascii (by simpa using hb)⟩
    simpa using ⟨(by decide : (chr '\\').toNat < 0x80), he⟩
  | @unit a b c d u bs hu hsur hbs =>
    obtain ⟨hlt, hhex⟩ := readU4_lt hu
    have hscalar : Utf8.IsScalar u := by
      unfold Utf8.IsScalar
      omega
    rw [utf8Bytes_eq hscalar] at hbs
    refine .inr ⟨⟨_, rfl⟩, ?_, Option.some.inj hbs ▸ .encode hscalar⟩
    have hlead : ∀ x ∈ [chr '\\', chr 'u'], x.toNat < 0x80 := by decide
    exact List.forall_mem_append.2 ⟨hlead, hhex⟩
  | @pair a b c d a' b' c' d' u v bs hu hlo hhi hv hlo' hhi' hbs =>
    obtain ⟨-, hhex⟩ := readU4_lt hu
    obtain ⟨-, hhex'⟩ := readU4_lt hv
    have hsum : (u - 0xD800) <<< 10 ||| (v - 0xDC00) = (u - 0xD800) * 1024 + (v - 0xDC00) :=
      shiftLeft_or (by omega)
    have hscalar : Utf8.IsScalar (0x10000 + ((u - 0xD800) * 1024 + (v - 0xDC00))) := by
      unfold Utf8.IsScalar
      omega
    rw [hsum, utf8Bytes_eq hscalar] at hbs
    refine .inr ⟨⟨_, rfl⟩, ?_, Option.some.inj hbs ▸ .encode hscalar⟩
    have hlead : ∀ x ∈ [chr '\\', chr 'u'], x.toNat < 0x80 := by decide
    exact List.forall_mem_append.2 ⟨hlead, List.forall_mem_append.2 ⟨hhex,
      List.forall_mem_append.2 ⟨hlead, hhex'⟩⟩⟩

theorem valid_of_ascii_append {p t : Bytes} (hp : ∀ b ∈ p, b.toNat < 0x80)
    (h : Utf8.Valid (p ++ t)) : Utf8.Valid t :=
  (Utf8.valid_append_iff (.of_ascii hp) t).1 h

/-- **What the decoder returns is UTF-8** when the string is. The bytes copied since the last escape
are carried along: they are completed to characters before the next ASCII byte. -/
theorem decodeBody_valid {cap o : Nat} {p t : Bytes} (hv : Utf8.Valid (p ++ s))
    (h : decodeBody cap o s = some (t, r)) : Utf8.Valid (p ++ t) := by
  induction hn : s.length using Nat.strong_induction_on generalizing s o t p with
  | _ n ih =>
  rcases decodeBody_cases h with ⟨rfl, rfl⟩ | ⟨raw, bs, s', t', rfl, hraw, -, hrest, rfl⟩
  · rw [List.append_nil]
    exact (hv.split (by decide)).1
  have hless : s'.length < n := by
    have hpos := hraw.length_pos
    rw [List.length_append] at hn
    omega
  rcases hraw.escape with ⟨c, rfl, rfl⟩ | ⟨⟨e, rfl⟩, hascii, hbs⟩
  · -- a byte as it is
    rw [← List.append_assoc] at hv ⊢
    exact ih _ hless hv hrest rfl
  · -- an escape: what was copied before it is text
    obtain ⟨hpre, hbehind⟩ := hv.split (by decide)
    have hs' : Utf8.Valid s' :=
      valid_of_ascii_append (fun b hb => hascii b (List.mem_cons_of_mem _ hb)) hbehind
    exact hpre.append (hbs.append (ih _ hless (p := []) hs' hrest rfl))

/-! ## The loops -/

theorem sDecodeString_cases {cap o : Nat} {t : Bytes} (h : sDecodeString cap o s = some (t, r)) :
    ∃ s', s = chr '"' :: s' ∧ decodeBody cap o s' = some (t, r) := by
  cases s with
  | nil => cases h
  | cons c s =>
    simp only [sDecodeString] at h
    split at h
    · next hc => exact ⟨s, by rw [hc], h⟩
    · cases h

/-- A string of a UTF-8 body. -/
theorem sDecodeString_valid {cap o : Nat} {t : Bytes} (hv : Utf8.Valid body) (hs : s <:+ body)
    (h : sDecodeString cap o s = some (t, r)) : Utf8.Valid t ∧ r <:+ body := by
  obtain ⟨s', rfl, hdec⟩ := sDecodeString_cases h
  have hrest := (decodeBody_suffix hdec).trans (suffix_of_cons hs)
  obtain ⟨pre, rfl⟩ := hs
  exact ⟨decodeBody_valid (p := []) (hv.split (by decide)).2 hdec, hrest⟩

/-- The brackets of an object and of an array. -/
def opening (isObject : Bool) : UInt8 := if isObject then chr '{' else chr '['

def closing (isObject : Bool) : UInt8 := if isObject then chr '}' else chr ']'

/-- What skipping a value can do: a string, an empty object or array, its items, or a token. -/
theorem skipValue_cases {fuel depth : Nat} (h : skipValue (fuel + 1) depth s = some r) :
    depth ≤ 64 ∧ ∃ c s', sWs s = c :: s' ∧
      (c = chr '"' ∧ skipStringBody s' = some r ∨
      (∃ isObject, c = opening isObject ∧
        (sWs s' = closing isObject :: r ∨
          skipItems fuel depth isObject (closing isObject) (sWs s') =
          some r)) ∨
      isTokenChar c = true ∧ r = s'.dropWhile isTokenChar) := by
  rw [skipValue] at h
  split at h
  · cases h
  next hdepth =>
  split at h
  · cases h
  next c s' hws =>
  refine ⟨Nat.le_of_not_lt hdepth, c, s', hws, ?_⟩
  have hempty : ∀ {b : UInt8} {l r : Bytes}, l.head? = some b → some l.tail = some r →
      l = b :: r := by
    intro b l r hb hr
    cases l with
    | nil => cases hb
    | cons b' l => rw [Option.some.inj hb, ← Option.some.inj hr, List.tail_cons]
  split at h
  · next hq => exact .inl ⟨hq, h⟩
  split at h
  · next hopen =>
    refine .inr (.inl ?_)
    rcases hopen with rfl | rfl
    · refine ⟨true, rfl, ?_⟩
      simp only [if_true] at h
      split at h
      · next hclose => exact .inl (hempty hclose h)
      · exact .inr h
    · refine ⟨false, rfl, ?_⟩
      simp only [show ¬ chr '[' = chr '{' by decide, if_false] at h
      split at h
      · next hclose => exact .inl (hempty hclose h)
      · exact .inr h
  split at h
  · next htoken =>
    exact .inr (.inr ⟨htoken, (Option.some.inj h).symm⟩)
  · cases h

/-- One pass of the loop over items: the key of a member, the value, and what is behind it. -/
theorem skipItems_cases {fuel depth : Nat} {isObject : Bool} {close : UInt8}
    (h : skipItems (fuel + 1) depth isObject close s = some r) :
    ∃ s1 s2 c s3, (if isObject then ∃ s0, sSkipString (sWs s) = some s0 ∧ sWs s0 = chr ':' :: s1
        else s1 = s) ∧
      skipValue fuel (depth + 1) s1 = some s2 ∧ sWs s2 = c :: s3 ∧
      (c = chr ',' ∧ skipItems fuel depth isObject close s3 = some r ∨
        c ≠ chr ',' ∧ c = close ∧ s3 = r) := by
  rw [skipItems] at h
  cases isObject with
  | false =>
    obtain ⟨s2, hskip, h⟩ := Option.bind_eq_some_iff.1 h
    obtain ⟨c, s3, hws, hnext⟩ := separated_iff.1 h
    exact ⟨s, s2, c, s3, rfl, hskip, hws, hnext⟩
  | true =>
    simp only [if_true] at h
    obtain ⟨s0, hkey, h⟩ := Option.bind_eq_some_iff.1 h
    split at h
    · next hcolon =>
      rw [Option.bind_eq_bind, Option.bind_some] at h
      obtain ⟨s2, hskip, h⟩ := Option.bind_eq_some_iff.1 h
      obtain ⟨c, s3, hws, hnext⟩ := separated_iff.1 h
      refine ⟨_, s2, c, s3, ⟨s0, hkey, ?_⟩, hskip, hws, hnext⟩
      cases hs0 : sWs s0 with
      | nil =>
        rw [hs0] at hcolon
        cases hcolon
      | cons b l =>
        rw [hs0] at hcolon
        rw [Option.some.inj hcolon, List.tail_cons]
    · cases h

theorem head?_eq_cons {c : UInt8} (h : s.head? = some c) : s = c :: s.tail := by
  cases s with
  | nil => cases h
  | cons b s => rw [Option.some.inj h, List.tail_cons]

/-- A key, the colon behind it, and the position of the value. -/
theorem memberKey_cases {cap : Nat} {key : Bytes} (h : memberKey cap s = some (key, r)) :
    ∃ k s0 s1 s2, s = chr '"' :: s0 ∧ decodeBody cap 0 s0 = some (k, s1) ∧ sWs s1 = chr ':' :: s2 ∧
      key = cstr k ∧ r = sWs s2 := by
  obtain ⟨⟨k, s1⟩, hdec, hbehind⟩ := Option.bind_eq_some_iff.1 h
  obtain ⟨s0, rfl, hbody⟩ := sDecodeString_cases hdec
  dsimp only at hbehind
  split at hbehind
  · next hcolon =>
    obtain ⟨rfl, rfl⟩ := Prod.mk.inj (Option.some.inj hbehind)
    exact ⟨k, s0, s1, _, rfl, hbody, head?_eq_cons hcolon, rfl, rfl⟩
  · cases hbehind

/-- One member of a content block, from its key on. -/
def blockMember (isText : Bool) (textAt : Option Bytes) (key s : Bytes) :
    Option (Bool × Option Bytes × Bytes) :=
  if key = ascii "type" then
    (sDecodeString 15 0 s).map fun (tv, s) => (isText || cstr tv = ascii "text", textAt, s)
  else if key = ascii "text" then (sSkipString s).map fun s' => (isText, some s, s')
  else (sSkipValue s).map fun s => (isText, textAt, s)

theorem blockLoop_succ (fuel : Nat) (isText : Bool) (textAt : Option Bytes) (s : Bytes) :
    blockLoop (fuel + 1) isText textAt s =
      if (sWs s).head? = some (chr '}') then some (isText, textAt, (sWs s).tail)
      else (memberKey 31 (sWs s)).bind fun key => (blockMember isText textAt key.1 key.2).bind
        fun res =>
          match sWs res.2.2 with
          | [] => none
          | c :: s =>
            if c = chr ',' then blockLoop fuel res.1 res.2.1 s
            else if c = chr '}' then some (res.1, res.2.1, s)
            else none := by
  rw [blockLoop]
  dsimp only
  split
  · rfl
  cases memberKey 31 (sWs s) with
  | none => rfl
  | some key =>
    obtain ⟨key, s1⟩ := key
    unfold blockMember
    simp only [Option.bind_eq_bind, Option.bind_some]
    split
    · cases sDecodeString 15 0 s1 <;> rfl
    split
    · cases sSkipString s1 <;> rfl
    · cases sSkipValue s1 <;> rfl

/-- What a pass over a content block can do: end it, or take one member. -/
theorem blockLoop_cases {fuel : Nat} {isText : Bool} {textAt : Option Bytes}
    {res : Bool × Option Bytes × Bytes}
    (h : blockLoop (fuel + 1) isText textAt s = some res) :
    (∃ s1, sWs s = chr '}' :: s1 ∧ res = (isText, textAt, s1)) ∨
    ∃ key s1 isText1 textAt1 s2 c s3, (sWs s).head? ≠ some (chr '}') ∧
      memberKey 31 (sWs s) = some (key, s1) ∧
      blockMember isText textAt key s1 = some (isText1, textAt1, s2) ∧ sWs s2 = c :: s3 ∧
      (c = chr ',' ∧ blockLoop fuel isText1 textAt1 s3 = some res ∨
        c ≠ chr ',' ∧ c = chr '}' ∧ (isText1, textAt1, s3) = res) := by
  rw [blockLoop_succ] at h
  split at h
  · next hclose =>
    cases h
    exact .inl ⟨_, head?_eq_cons hclose, rfl⟩
  next hopen =>
  obtain ⟨⟨key, s1⟩, hkey, h⟩ := Option.bind_eq_some_iff.1 h
  obtain ⟨⟨isText1, textAt1, s2⟩, hmember, h⟩ := Option.bind_eq_some_iff.1 h
  obtain ⟨c, s3, hws, hnext⟩ := separated_iff.1 h
  exact .inr ⟨key, s1, isText1, textAt1, s2, c, s3, hopen, hkey, hmember, hws, hnext⟩

/-- The text a content block adds. -/
def blockText (cap : Nat) (isText : Bool) (textAt : Option Bytes) (text : Bytes) : Option Bytes :=
  match isText, textAt with
  | true, some at_ => (sDecodeString cap text.length at_).map fun (t, _) => text ++ t
  | _, _ => some text

theorem contentLoop_succ (cap fuel : Nat) (text s : Bytes) :
    contentLoop cap (fuel + 1) text s =
      match sWs s with
      | [] => none
      | c :: s =>
        if c ≠ chr '{' then none
        else (blockLoop (s.length + 1) false none s).bind fun res =>
          (blockText cap res.1 res.2.1 text).bind fun text =>
            match sWs res.2.2 with
            | [] => none
            | c :: s =>
              if c = chr ',' then contentLoop cap fuel text s
              else if c = chr ']' then some (text, s)
              else none := by
  rw [contentLoop]
  cases sWs s with
  | nil => rfl
  | cons c s =>
    dsimp only
    split
    · rfl
    cases blockLoop (s.length + 1) false none s with
    | none => rfl
    | some res =>
      obtain ⟨isText, textAt, s1⟩ := res
      cases isText with
      | false => rfl
      | true =>
        cases textAt with
        | none => rfl
        | some at_ => rfl

/-- One block of the content array, and what is behind it. -/
theorem contentLoop_cases {cap fuel : Nat} {text t : Bytes}
    (h : contentLoop cap (fuel + 1) text s = some (t, r)) :
    ∃ s0 isText textAt s1 text1 c s2, sWs s = chr '{' :: s0 ∧
      blockLoop (s0.length + 1) false none s0 = some (isText, textAt, s1) ∧
      blockText cap isText textAt text = some text1 ∧ sWs s1 = c :: s2 ∧
      (c = chr ',' ∧ contentLoop cap fuel text1 s2 = some (t, r) ∨
        c ≠ chr ',' ∧ c = chr ']' ∧ (text1, s2) = (t, r)) := by
  rw [contentLoop_succ] at h
  split at h
  · cases h
  next c s0 hws =>
  split at h
  · cases h
  next hopen =>
  rw [ne_eq, not_not] at hopen
  subst hopen
  obtain ⟨⟨isText, textAt, s1⟩, hblock, h⟩ := Option.bind_eq_some_iff.1 h
  obtain ⟨text1, htext, h⟩ := Option.bind_eq_some_iff.1 h
  obtain ⟨c, s2, hws1, hnext⟩ := separated_iff.1 h
  exact ⟨s0, isText, textAt, s1, text1, c, s2, hws, hblock, htext, hws1, hnext⟩

/-- One member of the body, from its key on. -/
def topMember (cap : Nat) (found : Bool) (text key s : Bytes) : Option (Bool × Bytes × Bytes) :=
  if key = ascii "content" then
    match s with
    | [] => none
    | c :: s =>
      if c ≠ chr '[' then none
      else if (sWs s).head? = some (chr ']') then some (true, text, (sWs s).tail)
      else (contentLoop cap ((sWs s).length + 1) text (sWs s)).map fun res => (true, res.1, res.2)
  else (sSkipValue s).map fun s => (found, text, s)

theorem contentTextLoop_succ (cap fuel : Nat) (found : Bool) (text s : Bytes) :
    contentTextLoop cap (fuel + 1) found text s =
      if (sWs s).head? = some (chr '}') then some (found, text)
      else (memberKey 63 (sWs s)).bind fun key => (topMember cap found text key.1 key.2).bind
        fun res =>
          match sWs res.2.2 with
          | [] => none
          | c :: s =>
            if c = chr ',' then contentTextLoop cap fuel res.1 res.2.1 s
            else if c = chr '}' then some (res.1, res.2.1)
            else none := by
  rw [contentTextLoop]
  dsimp only
  split
  · rfl
  cases memberKey 63 (sWs s) with
  | none => rfl
  | some key =>
    obtain ⟨key, s1⟩ := key
    unfold topMember
    simp only [Option.bind_eq_bind, Option.bind_some]
    split
    · cases s1 with
      | nil => rfl
      | cons c s1 =>
        dsimp only
        split
        · rfl
        split
        · rfl
        · cases contentLoop cap ((sWs s1).length + 1) text (sWs s1) <;> rfl
    · cases sSkipValue s1 <;> rfl

/-- What a pass over the body can do: end it, or take one member. -/
theorem contentTextLoop_cases {cap fuel : Nat} {found : Bool} {text : Bytes} {res : Bool × Bytes}
    (h : contentTextLoop cap (fuel + 1) found text s = some res) :
    (∃ s1, sWs s = chr '}' :: s1 ∧ res = (found, text)) ∨
    ∃ key s1 found1 text1 s2 c s3, (sWs s).head? ≠ some (chr '}') ∧
      memberKey 63 (sWs s) = some (key, s1) ∧
      topMember cap found text key s1 = some (found1, text1, s2) ∧ sWs s2 = c :: s3 ∧
      (c = chr ',' ∧ contentTextLoop cap fuel found1 text1 s3 = some res ∨
        c ≠ chr ',' ∧ c = chr '}' ∧ (found1, text1) = res) := by
  rw [contentTextLoop_succ] at h
  split at h
  · next hclose =>
    cases h
    exact .inl ⟨_, head?_eq_cons hclose, rfl⟩
  next hopen =>
  obtain ⟨⟨key, s1⟩, hkey, h⟩ := Option.bind_eq_some_iff.1 h
  obtain ⟨⟨found1, text1, s2⟩, hmember, h⟩ := Option.bind_eq_some_iff.1 h
  obtain ⟨c, s3, hws, hnext⟩ := separated_iff.1 h
  exact .inr ⟨key, s1, found1, text1, s2, c, s3, hopen, hkey, hmember, hws, hnext⟩

/-! ## Positions stay in the body -/

theorem suffix_of_ws {c : UInt8} (hs : s <:+ body) (h : sWs s = c :: r) : r <:+ body :=
  suffix_of_cons ((h ▸ sWs_suffix s).trans hs)

theorem skip_suffix (fuel : Nat) : (∀ depth s r, skipValue fuel depth s = some r → r <:+ s) ∧
    ∀ depth isObject close s r, skipItems fuel depth isObject close s = some r → r <:+ s := by
  induction fuel with
  | zero =>
    constructor
    · intro depth s r h
      cases h
    · intro depth isObject close s r h
      cases h
  | succ fuel ih =>
    constructor
    · intro depth s r h
      obtain ⟨-, c, s', hws, ⟨-, hstr⟩ | ⟨isObject, -, hempty | hitems⟩ | ⟨-, rfl⟩⟩ :=
        skipValue_cases h
      · exact (skipStringBody_suffix hstr).trans (suffix_of_ws List.suffix_rfl hws)
      · exact suffix_of_ws (suffix_of_ws List.suffix_rfl hws) hempty
      · exact (ih.2 _ _ _ _ _ hitems).trans
          ((sWs_suffix s').trans (suffix_of_ws List.suffix_rfl hws))
      · exact (List.dropWhile_suffix _).trans (suffix_of_ws List.suffix_rfl hws)
    · intro depth isObject close s r h
      obtain ⟨s1, s2, c, s3, hkey, hvalue, hws, hnext⟩ := skipItems_cases h
      have hs1 : s1 <:+ s := by
        split at hkey
        · obtain ⟨s0, hskip, hcolon⟩ := hkey
          obtain ⟨s', hquote, hbody⟩ := sSkipString_cases hskip
          exact suffix_of_ws ((skipStringBody_suffix hbody).trans
            (suffix_of_ws List.suffix_rfl hquote)) hcolon
        · exact hkey ▸ List.suffix_rfl
      have hs3 := suffix_of_ws ((ih.1 _ _ _ hvalue).trans hs1) hws
      obtain ⟨-, hmore⟩ | ⟨-, -, rfl⟩ := hnext
      · exact (ih.2 _ _ _ _ _ hmore).trans hs3
      · exact hs3

theorem sSkipValue_suffix (h : sSkipValue s = some r) : r <:+ s := (skip_suffix _).1 _ _ _ h

theorem memberKey_suffix {cap : Nat} {key : Bytes} (hs : s <:+ body)
    (h : memberKey cap s = some (key, r)) : r <:+ body := by
  obtain ⟨k, s0, s1, s2, rfl, hbody, hcolon, -, rfl⟩ := memberKey_cases h
  exact (sWs_suffix s2).trans
    (suffix_of_ws ((decodeBody_suffix hbody).trans (suffix_of_cons hs)) hcolon)

theorem blockMember_rest {isText isText' : Bool} {textAt textAt' : Option Bytes} {key : Bytes}
    (h : blockMember isText textAt key s = some (isText', textAt', r)) : r <:+ s := by
  unfold blockMember at h
  split at h
  · obtain ⟨⟨tv, s'⟩, hdec, heq⟩ := Option.map_eq_some_iff.1 h
    cases heq
    obtain ⟨s0, rfl, hbody⟩ := sDecodeString_cases hdec
    exact (decodeBody_suffix hbody).trans (List.suffix_cons _ _)
  split at h
  · obtain ⟨s', hskip, heq⟩ := Option.map_eq_some_iff.1 h
    cases heq
    obtain ⟨s0, rfl, hbody⟩ := sSkipString_cases hskip
    exact (skipStringBody_suffix hbody).trans (List.suffix_cons _ _)
  · obtain ⟨s', hskip, heq⟩ := Option.map_eq_some_iff.1 h
    cases heq
    exact sSkipValue_suffix hskip

theorem blockMember_suffix {isText isText' : Bool} {textAt textAt' : Option Bytes} {key : Bytes}
    (hs : s <:+ body) (hat : ∀ at_ ∈ textAt, at_ <:+ body)
    (h : blockMember isText textAt key s = some (isText', textAt', r)) :
    r <:+ body ∧ ∀ at_ ∈ textAt', at_ <:+ body := by
  refine ⟨(blockMember_rest h).trans hs, ?_⟩
  unfold blockMember at h
  split at h
  · obtain ⟨res, -, heq⟩ := Option.map_eq_some_iff.1 h
    cases heq
    exact hat
  split at h
  · obtain ⟨s', -, heq⟩ := Option.map_eq_some_iff.1 h
    cases heq
    intro at_ hat_
    rw [← Option.mem_some.1 hat_]
    exact hs
  · obtain ⟨s', -, heq⟩ := Option.map_eq_some_iff.1 h
    cases heq
    exact hat

theorem blockLoop_suffix {fuel : Nat} {isText isText' : Bool} {textAt textAt' : Option Bytes}
    (hs : s <:+ body) (hat : ∀ at_ ∈ textAt, at_ <:+ body)
    (h : blockLoop fuel isText textAt s = some (isText', textAt', r)) :
    r <:+ body ∧ ∀ at_ ∈ textAt', at_ <:+ body := by
  induction fuel generalizing isText textAt s with
  | zero => cases h
  | succ fuel ih =>
    obtain ⟨s1, hclose, heq⟩ |
      ⟨key, s1, isText1, textAt1, s2, c, s3, -, hkey, hmember, hws, hnext⟩ :=
      blockLoop_cases h
    · cases heq
      exact ⟨suffix_of_ws hs hclose, hat⟩
    · have hs1 := memberKey_suffix ((sWs_suffix s).trans hs) hkey
      obtain ⟨hs2, hat2⟩ := blockMember_suffix hs1 hat hmember
      obtain ⟨-, hmore⟩ | ⟨-, -, heq⟩ := hnext
      · exact ih (suffix_of_ws hs2 hws) hat2 hmore
      · cases heq
        exact ⟨suffix_of_ws hs2 hws, hat2⟩

/-! ## The extractors -/

theorem contentLoop_valid {cap fuel : Nat} {text t : Bytes} (hv : Utf8.Valid body)
    (hs : s <:+ body) (htext : Utf8.Valid text) (h : contentLoop cap fuel text s = some (t, r)) :
    Utf8.Valid t ∧ r <:+ body := by
  induction fuel generalizing text s with
  | zero => cases h
  | succ fuel ih =>
    obtain ⟨s0, isText, textAt, s1, text1, c, s2, hopen, hblock, hadd, hws, hnext⟩ :=
      contentLoop_cases h
    obtain ⟨hs1, hat⟩ := blockLoop_suffix (suffix_of_ws hs hopen)
      (fun at_ h => absurd h (Option.not_mem_none at_)) hblock
    -- a block adds nothing, or a string of the body
    have htext1 : Utf8.Valid text1 := by
      unfold blockText at hadd
      split at hadd
      · next at_ =>
        obtain ⟨⟨u, s'⟩, hdec, heq⟩ := Option.map_eq_some_iff.1 hadd
        cases heq
        exact htext.append (sDecodeString_valid hv (hat at_ rfl) hdec).1
      · cases hadd
        exact htext
    obtain ⟨-, hmore⟩ | ⟨-, -, heq⟩ := hnext
    · exact ih (suffix_of_ws hs1 hws) htext1 hmore
    · cases heq
      exact ⟨htext1, suffix_of_ws hs1 hws⟩

theorem topMember_valid {cap : Nat} {found found' : Bool} {text t key : Bytes}
    (hv : Utf8.Valid body) (hs : s <:+ body) (htext : Utf8.Valid text)
    (h : topMember cap found text key s = some (found', t, r)) : Utf8.Valid t ∧ r <:+ body := by
  unfold topMember at h
  split at h
  · split at h
    · cases h
    next c s0 =>
    have hs0 := (sWs_suffix s0).trans (suffix_of_cons hs)
    split at h
    · cases h
    split at h
    · cases h
      exact ⟨htext, (tail_suffix _).trans hs0⟩
    · obtain ⟨⟨t1, s1⟩, hloop, heq⟩ := Option.map_eq_some_iff.1 h
      cases heq
      exact contentLoop_valid hv hs0 htext hloop
  · obtain ⟨s1, hskip, heq⟩ := Option.map_eq_some_iff.1 h
    cases heq
    exact ⟨htext, (sSkipValue_suffix hskip).trans hs⟩

theorem contentTextLoop_valid {cap fuel : Nat} {found found' : Bool} {text t : Bytes}
    (hv : Utf8.Valid body) (hs : s <:+ body) (htext : Utf8.Valid text)
    (h : contentTextLoop cap fuel found text s = some (found', t)) : Utf8.Valid t := by
  induction fuel generalizing found text s with
  | zero => cases h
  | succ fuel ih =>
    obtain ⟨s1, -, heq⟩ | ⟨key, s1, found1, text1, s2, c, s3, -, hkey, hmember, hws, hnext⟩ :=
      contentTextLoop_cases h
    · cases heq
      exact htext
    · have hs1 := memberKey_suffix ((sWs_suffix s).trans hs) hkey
      obtain ⟨htext1, hs2⟩ := topMember_valid hv hs1 htext hmember
      obtain ⟨-, hmore⟩ | ⟨-, -, heq⟩ := hnext
      · exact ih (suffix_of_ws hs2 hws) htext1 hmore
      · cases heq
        exact htext1

theorem gwjContentText_cases {cap : Nat} {text : Bytes} (h : gwjContentText body cap = some text) :
    ∃ s, sWs body = chr '{' :: s ∧
      contentTextLoop cap (body.length + 1) false [] s = some (true, text) := by
  unfold gwjContentText at h
  split at h
  · cases h
  next c s hws =>
  split at h
  · cases h
  next hopen =>
  rw [ne_eq, not_not] at hopen
  subst hopen
  split at h
  · next text' hloop =>
    cases h
    exact ⟨s, hws, hloop⟩
  · cases h

theorem topStringLoop_valid {cap fuel : Nat} {key t : Bytes} (hv : Utf8.Valid body)
    (hs : s <:+ body) (h : topStringLoop key cap fuel s = some t) : Utf8.Valid t := by
  induction fuel generalizing s with
  | zero => cases h
  | succ fuel ih =>
    unfold topStringLoop at h
    dsimp only at h
    split at h
    · cases h
    split at h
    · cases h
    next k s1 hkey =>
    have hs1 := memberKey_suffix ((sWs_suffix s).trans hs) hkey
    split at h
    · obtain ⟨⟨t', s2⟩, hdec, rfl⟩ := Option.map_eq_some_iff.1 h
      exact (sDecodeString_valid hv hs1 hdec).1
    split at h
    · cases h
    next s2 hskip =>
    split at h
    · cases h
    next c s3 hws =>
    split at h
    · exact ih (suffix_of_ws ((sSkipValue_suffix hskip).trans hs1) hws) h
    · cases h

theorem gwjTopString_valid {cap : Nat} {key t : Bytes} (hv : Utf8.Valid body) (hs : s <:+ body)
    (h : gwjTopString s key cap = some t) : Utf8.Valid t := by
  unfold gwjTopString at h
  split at h
  · cases h
  next c s0 hws =>
  split at h
  · exact topStringLoop_valid hv (suffix_of_ws hs hws) h
  · cases h

theorem errorMessageLoop_valid {cap fuel : Nat} {t : Bytes} (hv : Utf8.Valid body)
    (hs : s <:+ body) (h : errorMessageLoop cap fuel s = some t) : Utf8.Valid t := by
  induction fuel generalizing s with
  | zero => cases h
  | succ fuel ih =>
    unfold errorMessageLoop at h
    dsimp only at h
    split at h
    · cases h
    split at h
    · cases h
    next k s1 hkey =>
    have hs1 := memberKey_suffix ((sWs_suffix s).trans hs) hkey
    split at h
    · split at h
      · exact gwjTopString_valid hv hs1 h
      · cases h
    split at h
    · cases h
    next s2 hskip =>
    split at h
    · cases h
    next c s3 hws =>
    split at h
    · exact ih (suffix_of_ws ((sSkipValue_suffix hskip).trans hs1) hws) h
    · cases h

theorem gwjErrorMessage_valid {cap : Nat} {t : Bytes} (hv : Utf8.Valid body)
    (h : gwjErrorMessage body cap = some t) : Utf8.Valid t := by
  unfold gwjErrorMessage at h
  split at h
  · cases h
  next c s0 hws =>
  split at h
  · exact errorMessageLoop_valid hv (suffix_of_ws List.suffix_rfl hws) h
  · cases h

/-- **Extraction keeps UTF-8**: what the extractors return from a UTF-8 body passes the validation
of an observation's output. -/
theorem extraction_valid {body : Bytes} (hv : Utf8.Valid body) :
    (∀ cap text, gwjContentText body cap = some text → axValidateUtf8 text = true) ∧
    (∀ key cap text, gwjTopString body key cap = some text → axValidateUtf8 text = true) ∧
    ∀ cap text, gwjErrorMessage body cap = some text → axValidateUtf8 text = true := by
  have hcheck : ∀ t, Utf8.Valid t → axValidateUtf8 t = true := by
    intro t ht
    rw [axValidateUtf8_eq_check, Utf8.check_iff]
    exact ht
  refine ⟨fun cap text h => hcheck _ ?_, fun key cap text h => hcheck _ ?_,
    fun cap text h => hcheck _ (gwjErrorMessage_valid hv h)⟩
  · obtain ⟨s, hws, hloop⟩ := gwjContentText_cases h
    exact contentTextLoop_valid hv (suffix_of_ws List.suffix_rfl hws) .nil hloop
  · exact gwjTopString_valid hv List.suffix_rfl h

/-- Two blocks, with a character as it is, escapes and a surrogate pair. -/
def mixedBody : Bytes :=
  ascii "\x7b\"content\":[\x7b\"type\":\"text\",\"text\":\"" ++ Utf8.encode 0xE9 ++
    ascii "\\n\\u00e9\\ud83d\\ude00\"\x7d,\x7b\"text\":\"x\",\"type\":\"text\"\x7d]\x7d"

theorem extraction_valid_sample :
    ∃ text, gwjContentText mixedBody 64 = some text ∧ text.length = 10 ∧
      axValidateUtf8 text = true := by
  have hv : Utf8.Valid mixedBody := (Utf8.check_iff _).1 (by decide +kernel)
  have htext : (gwjContentText mixedBody 64).map List.length = some 10 := by decide +kernel
  obtain ⟨text, hsome, hlen⟩ := Option.map_eq_some_iff.1 htext
  exact ⟨text, hsome, hlen, (extraction_valid hv).1 64 text hsome⟩

end AxiomaOracle
