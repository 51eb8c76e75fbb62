import AxiomaOracle.Verify.Canonical
import AxiomaOracle.Verify.Encoding

/-!
# Decoding undoes escaping

Two escapers write strings (`gwj_escape` with short escapes, `ax_string_escape` without) and one
decoder reads them. Both replace byte by byte, so everything follows from what the decoder does with
the replacement of a single byte (`Reads`): the boundaries of the replacements are boundaries of the
decoder's steps, and an induction over the string puts them together (`decodeBody_flatMap`).
-/

namespace AxiomaOracle

open Lib

/-! ## One replacement -/

/-- The decoder takes the text `e` for the byte `c` and goes on behind it. -/
def Reads (c : UInt8) (e : Bytes) : Prop :=
  ∀ cap o rest, decodeBody cap o (e ++ rest) =
    putBytes cap o [c] fun o => decodeBody cap o rest

theorem reads_self {c : UInt8} (hq : c ≠ chr '"') (hb : c ≠ chr '\\') : Reads c [c] := by
  intro cap o rest
  rw [List.singleton_append, decodeBody.eq_def]
  simp only [hq, hb, if_false]

theorem reads_short {e c : UInt8} (hu : e ≠ chr 'u') (hs : shortEscape e = some c) :
    Reads c [chr '\\', e] := by
  intro cap o rest
  have hbq : (chr '\\') ≠ chr '"' := by decide
  rw [List.cons_append, List.singleton_append, decodeBody.eq_def]
  simp only [hbq, hu, if_false, if_true, hs]

theorem hexval_hexDigit {d : Nat} (h : d < 16) : hexval (hexDigit d) = some d := by
  have hall : ∀ d, d < 16 → hexval (hexDigit d) = some d := by decide
  exact hall d h

theorem readU4_byte (c : UInt8) :
    readU4 (chr '0') (chr '0') (hexDigit (c.toNat / 16)) (hexDigit (c.toNat % 16)) =
      some c.toNat := by
  have hc := byte_lt c
  have h0 : hexval (chr '0') = some 0 := by decide
  simp only [readU4, h0, hexval_hexDigit (show c.toNat / 16 < 16 by omega),
    hexval_hexDigit (show c.toNat % 16 < 16 by omega), Option.some.injEq]
  omega

theorem reads_control {c : UInt8} (h : c.toNat < 0x20) :
    Reads c [chr '\\', chr 'u', chr '0', chr '0', hexDigit (c.toNat / 16),
      hexDigit (c.toNat % 16)] := by
  intro cap o rest
  have hbq : (chr '\\') ≠ chr '"' := by decide
  have hutf : utf8Bytes c.toNat = some [c] := by
    rw [utf8Bytes, if_pos (by omega), UInt8.ofNat_toNat]
  rw [decodeBody.eq_def]
  simp only [List.cons_append, List.nil_append, hbq, if_false, if_true, readU4_byte]
  rw [if_neg (by omega), if_neg (by omega), hutf]

/-- Each row of the table of `gwj_escape`. -/
theorem reads_jsonEscape (c : UInt8) : Reads c (jsonEscape c) := by
  unfold jsonEscape
  by_cases h34 : c = chr '"'
  · subst h34
    exact reads_short (by decide) (by decide)
  by_cases h92 : c = chr '\\'
  · subst h92
    exact reads_short (by decide) (by decide)
  by_cases h10 : c = chr '\n'
  · subst h10
    exact reads_short (by decide) (by decide)
  by_cases h13 : c = chr '\r'
  · subst h13
    exact reads_short (by decide) (by decide)
  by_cases h9 : c = chr '\t'
  · subst h9
    exact reads_short (by decide) (by decide)
  rw [if_neg h34, if_neg h92, if_neg h10, if_neg h13, if_neg h9]
  by_cases hlow : c.toNat < 0x20
  · rw [if_pos hlow]
    exact reads_control hlow
  · rw [if_neg hlow]
    exact reads_self h34 h92

/-- Each row of the table of `write_escaped`. -/
theorem reads_escapeByte (c : UInt8) : Reads c (Json.escapeByte c) := by
  unfold Json.escapeByte
  by_cases h34 : c = 34
  · subst h34
    exact reads_short (by decide) (by decide)
  by_cases h92 : c = 92
  · subst h92
    exact reads_short (by decide) (by decide)
  rw [if_neg h34, if_neg h92]
  by_cases hlow : c.toNat < 0x20
  · rw [if_pos hlow]
    exact reads_control hlow
  · rw [if_neg hlow]
    exact reads_self h34 h92

/-! ## A whole string -/

/-- **Any table whose rows the decoder reads back is undone**, and the decoder stops behind the
closing quote. -/
theorem decodeBody_flatMap {esc : UInt8 → Bytes} (hesc : ∀ c, Reads c (esc c)) {cap o : Nat}
    {s : Bytes} (hfits : o + s.length ≤ cap) (rest : Bytes) :
    decodeBody cap o (s.flatMap esc ++ chr '"' :: rest) = some (s, rest) := by
  induction s generalizing o with
  | nil =>
    rw [List.flatMap_nil, List.nil_append, decodeBody.eq_def]
    simp only [if_true]
  | cons c s ih =>
    rw [List.length_cons] at hfits
    rw [List.flatMap_cons, List.append_assoc, hesc c, putBytes, List.length_singleton,
      if_neg (by omega), ih (by omega)]
    rfl

theorem sDecodeString_flatMap {esc : UInt8 → Bytes} (hesc : ∀ c, Reads c (esc c)) {cap o : Nat}
    {s : Bytes} (hfits : o + s.length ≤ cap) (rest : Bytes) :
    sDecodeString cap o (chr '"' :: (s.flatMap esc ++ chr '"' :: rest)) = some (s, rest) := by
  rw [sDecodeString, if_pos rfl, decodeBody_flatMap hesc hfits]

/-! ## What the escaped text is made of -/

/-- Whether a quote stands in the text that no backslash before it escapes. -/
def hasBareQuote : Bytes → Bool
  | [] => false
  | c :: s =>
    if c = chr '"' then true
    else if c = chr '\\' then
      match s with
      | [] => false
      | _ :: s => hasBareQuote s
    else hasBareQuote s

theorem hasBareQuote_plain {t : Bytes} (ht : ∀ b ∈ t, b ≠ chr '"' ∧ b ≠ chr '\\') (s : Bytes) :
    hasBareQuote (t ++ s) = hasBareQuote s := by
  induction t with
  | nil => rfl
  | cons b t ih =>
    obtain ⟨hq, hb⟩ := ht b List.mem_cons_self
    rw [List.cons_append, hasBareQuote.eq_def]
    simp only [hq, hb, if_false]
    exact ih fun b hb => ht b (List.mem_cons_of_mem _ hb)

theorem hasBareQuote_pair (e : UInt8) (s : Bytes) :
    hasBareQuote (chr '\\' :: e :: s) = hasBareQuote s := by
  have hbq : (chr '\\') ≠ chr '"' := by decide
  rw [hasBareQuote.eq_def]
  simp only [hbq, if_false, if_true]

/-- A replacement is one escape or one plain byte, so a quote after it is as bare as it was. -/
theorem hasBareQuote_jsonEscape (c : UInt8) (s : Bytes) :
    hasBareQuote (jsonEscape c ++ s) = hasBareQuote s := by
  unfold jsonEscape
  by_cases h34 : c = chr '"'
  · rw [if_pos h34]
    exact hasBareQuote_pair _ s
  by_cases h92 : c = chr '\\'
  · rw [if_neg h34, if_pos h92]
    exact hasBareQuote_pair _ s
  by_cases h10 : c = chr '\n'
  · rw [if_neg h34, if_neg h92, if_pos h10]
    exact hasBareQuote_pair _ s
  by_cases h13 : c = chr '\r'
  · rw [if_neg h34, if_neg h92, if_neg h10, if_pos h13]
    exact hasBareQuote_pair _ s
  by_cases h9 : c = chr '\t'
  · rw [if_neg h34, if_neg h92, if_neg h10, if_neg h13, if_pos h9]
    exact hasBareQuote_pair _ s
  rw [if_neg h34, if_neg h92, if_neg h10, if_neg h13, if_neg h9]
  by_cases hlow : c.toNat < 0x20
  · rw [if_pos hlow]
    have hdigits : ∀ b ∈ [chr '0', chr '0', hexDigit (c.toNat / 16), hexDigit (c.toNat % 16)],
        b ≠ chr '"' ∧ b ≠ chr '\\' := by
      have hall : ∀ d, d < 32 → ∀ b ∈ [chr '0', chr '0', hexDigit (d / 16), hexDigit (d % 16)],
          b ≠ chr '"' ∧ b ≠ chr '\\' := by decide
      exact hall c.toNat hlow
    exact (hasBareQuote_pair _ _).trans (hasBareQuote_plain hdigits s)
  · rw [if_neg hlow]
    exact hasBareQuote_plain (t := [c]) (by simp [h34, h92]) s

theorem hasBareQuote_flatMap_jsonEscape (s : Bytes) :
    hasBareQuote (s.flatMap jsonEscape) = false := by
  induction s with
  | nil => rfl
  | cons c s ih => rw [List.flatMap_cons, hasBareQuote_jsonEscape, ih]

theorem jsonEscape_printable (c : UInt8) : ∀ b ∈ jsonEscape c, 0x20 ≤ b.toNat := by
  unfold jsonEscape
  by_cases hlow : c.toNat < 0x20
  · have hall : ∀ d, d < 32 → ∀ b ∈ jsonEscape (UInt8.ofNat d), 0x20 ≤ b.toNat := by decide
    have h := hall c.toNat hlow
    rwa [UInt8.ofNat_toNat] at h
  · have hquote : ∀ b ∈ ascii "\\\"", 0x20 ≤ b.toNat := by decide
    have hback : ∀ b ∈ ascii "\\\\", 0x20 ≤ b.toNat := by decide
    have hne : ∀ d : UInt8, d.toNat < 0x20 → c ≠ d := by
      rintro d hd rfl
      exact hlow hd
    rw [if_neg (hne (chr '\n') (by decide)), if_neg (hne (chr '\r') (by decide)),
      if_neg (hne (chr '\t') (by decide)), if_neg hlow]
    split
    · exact hquote
    split
    · exact hback
    · intro b hb
      rw [List.mem_singleton.1 hb]
      exact Nat.le_of_not_lt hlow

/-! ## The escaper's result -/

theorem gwjEscape_eq (cap : Nat) (s : Bytes) :
    gwjEscape cap s =
      if (s.flatMap jsonEscape).length ≤ cap then some (s.flatMap jsonEscape) else none := by
  unfold gwjEscape
  split
  · rename_i hfits
    exact gwjEscapeLoop_eq (by omega)
  · rename_i hlong
    exact gwjEscapeLoop_none (by omega) (Nat.zero_le _)

/-- The `int` that `gwj_escape` returns. -/
def gwjEscapeReturn (cap : Nat) (src : Bytes) : Int :=
  match gwjEscape cap src with
  | none => -1
  | some out => (Int32.ofNat out.length).toInt

/-- **Decoding undoes both escapers.** Whatever the bytes of `s` are: between two quotes, the text
`gwj_escape` writes and the text `ax_string_escape` writes decode to `s`, and the scanner stands
behind the closing quote. `gwj_escape` fails for lack of room and for no other reason; what it
writes has no control byte and no quote that would close the string. -/
theorem decode_undoes_escape {s : Bytes} (hsize : (s.flatMap jsonEscape).length < 2 ^ 31) :
    (∀ cap, gwjEscapeReturn cap s = -1 ↔ cap < (s.flatMap jsonEscape).length) ∧
    (∀ cap out, gwjEscape cap s = some out → gwjEscapeReturn cap s = out.length ∧
      (∀ b ∈ out, 0x20 ≤ b.toNat) ∧ hasBareQuote out = false ∧
      ∀ dcap o rest, o + s.length ≤ dcap →
        sDecodeString dcap o (chr '"' :: (out ++ chr '"' :: rest)) = some (s, rest)) ∧
    (∀ dstSize, (Json.escape s).length < dstSize → ∃ out, axStringEscape dstSize s = .ok out) ∧
    ∀ dstSize out, 1 ≤ dstSize → axStringEscape dstSize s = .ok out →
      ∀ dcap o rest, o + s.length ≤ dcap →
        sDecodeString dcap o (chr '"' :: (out ++ chr '"' :: rest)) = some (s, rest) := by
  have hint : (Int32.ofNat (s.flatMap jsonEscape).length).toInt = (s.flatMap jsonEscape).length :=
    Int32.toInt_ofNat_of_lt hsize
  refine ⟨?_, ?_, ?_, ?_⟩
  · intro cap
    unfold gwjEscapeReturn
    rw [gwjEscape_eq]
    by_cases hfits : (s.flatMap jsonEscape).length ≤ cap
    · rw [if_pos hfits]
      simp only [hint]
      omega
    · rw [if_neg hfits]
      simp only [true_iff]
      omega
  · intro cap out hout
    unfold gwjEscapeReturn
    rw [hout]
    rw [gwjEscape_eq] at hout
    split at hout
    · obtain rfl := Option.some.inj hout
      refine ⟨hint, ?_, hasBareQuote_flatMap_jsonEscape s, ?_⟩
      · intro b hb
        obtain ⟨c, -, hc⟩ := List.mem_flatMap.1 hb
        exact jsonEscape_printable c b hc
      · intro dcap o rest hroom
        exact sDecodeString_flatMap reads_jsonEscape hroom rest
    · cases hout
  · intro dstSize hfits
    exact ⟨_, by rw [axStringEscape_eq (by omega), if_pos hfits]⟩
  · intro dstSize out hd hout dcap o rest hroom
    rw [axStringEscape_eq hd] at hout
    split at hout
    · obtain rfl := Except.ok.inj hout
      exact sDecodeString_flatMap reads_escapeByte hroom rest
    · cases hout

/-- A NUL, a quote, a byte that no UTF-8 text has, a backslash and a line feed. -/
def escapeSample : Bytes := [0, chr '"', 0xFF, chr '\\', 0x0A]

theorem decode_undoes_escape_sample :
    gwjEscape 13 escapeSample = some (escapeSample.flatMap jsonEscape) ∧
      gwjEscapeReturn 12 escapeSample = -1 ∧
      sDecodeString 5 0 (chr '"' :: (escapeSample.flatMap jsonEscape ++ [chr '"', chr ','])) =
        some (escapeSample, [chr ',']) := by
  have hround := decode_undoes_escape (s := escapeSample) (by decide)
  have hout : gwjEscape 13 escapeSample = some (escapeSample.flatMap jsonEscape) := by decide
  exact ⟨hout, (hround.1 12).2 (by decide),
    (hround.2.1 13 _ hout).2.2.2 5 0 [chr ','] (by decide)⟩

end AxiomaOracle
