import AxiomaOracle.Lib.Json

/-!
# The C library functions a line-oriented program uses

`fgets`, `strtol`, one conversion of `sscanf`, integer conversions of `printf` and the search of
`memcmp` loops, on byte strings. `long` has 64 bits; out-of-range numbers saturate, as in glibc.
-/

namespace Lib.C

/-- `isspace` in the C locale. -/
def isspace (b : UInt8) : Bool := b == 0x20 || (0x09 ≤ b.toNat && b.toNat ≤ 0x0D)

/-- `tolower` in the C locale. -/
def tolower (b : UInt8) : UInt8 := if 65 ≤ b.toNat ∧ b.toNat ≤ 90 then b + 32 else b

def longMin : Int := -2 ^ 63
def longMax : Int := 2 ^ 63 - 1

/-- A signed result of `w` bits; nothing when it overflows. -/
def signed (w : Nat) (v : Int) : Option Int :=
  if -2 ^ (w - 1) ≤ v ∧ v < 2 ^ (w - 1) then some v else none

/-- The conversion of a `size_t` to `int`. -/
def intOfSize (n : Nat) : Int :=
  if n % 2 ^ 32 < 2 ^ 31 then (n % 2 ^ 32 : Nat) else (n % 2 ^ 32 : Nat) - 2 ^ 32

theorem signed_eq {w : Nat} {v : Int} (hlo : -2 ^ (w - 1) ≤ v) (hhi : v < 2 ^ (w - 1)) :
    signed w v = some v := if_pos ⟨hlo, hhi⟩

/-- The conversion never comes out larger. -/
theorem intOfSize_le (n : Nat) : intOfSize n ≤ n := by
  have hmod := Nat.mod_le n (2 ^ 32)
  unfold intOfSize
  split <;> omega

theorem intOfSize_eq {n : Nat} (h : n < 2 ^ 31) : intOfSize n = n := by
  rw [intOfSize, Nat.mod_eq_of_lt (by omega), if_pos h]

/-- `strtol(s, &end, 10)`: the value and what `end` points at, or nothing when no digit was read. -/
def strtol (s : Bytes) : Option (Int × Bytes) :=
  let s := s.dropWhile isspace
  let neg := s.head? = some (chr '-')
  let s := if neg ∨ s.head? = some (chr '+') then s.tail else s
  let ds := s.takeWhile isDigit
  if ds = [] then none
  else
    let v : Int := if neg then -(decValue ds) else decValue ds
    some (max longMin (min longMax v), s.dropWhile isDigit)

/-- The value of `strtol(s, NULL, 10)`. -/
def strtolValue (s : Bytes) : Int := (strtol s).elim 0 Prod.fst

/-- One call of `fgets` with a buffer of `cap` bytes: at most `cap - 1` bytes, up to and including a
newline. Returns the bytes stored and the rest of the stream. -/
def fgets : Nat → Bytes → Bytes × Bytes
  | 0, s => ([], s)
  | 1, s => ([], s)
  | _ + 2, [] => ([], [])
  | cap + 2, b :: s =>
    if b = chr '\n' then ([b], s)
    else
      let (line, rest) := fgets (cap + 1) s
      (b :: line, rest)

/-- The successive results of `fgets` until the end of the stream. The first argument bounds their
number. -/
def fgetsAll (cap : Nat) : Nat → Bytes → List Bytes
  | 0, _ => []
  | _, [] => []
  | fuel + 1, b :: s =>
    let (line, rest) := fgets cap (b :: s)
    line :: fgetsAll cap fuel rest

theorem fgets_line {cap : Nat} {line : Bytes} (hline : chr '\n' ∉ line)
    (hlen : line.length + 1 < cap) (rest : Bytes) :
    fgets cap (line ++ chr '\n' :: rest) = (line ++ [chr '\n'], rest) := by
  induction line generalizing cap with
  | nil =>
    obtain ⟨n, rfl⟩ : ∃ n, cap = n + 2 := ⟨cap - 2, by simp at hlen; omega⟩
    simp [fgets]
  | cons b line ih =>
    rw [List.length_cons] at hlen
    obtain ⟨n, rfl⟩ : ∃ n, cap = n + 2 := ⟨cap - 2, by omega⟩
    rw [List.mem_cons, not_or] at hline
    rw [List.cons_append, fgets, if_neg (Ne.symm hline.1), ih hline.2 (by omega)]
    rfl

/-- Short lines come back one by one. -/
theorem fgetsAll_lines {cap : Nat} {lines : List Bytes}
    (hlines : ∀ line ∈ lines, chr '\n' ∉ line ∧ line.length + 1 < cap) {fuel : Nat}
    (hfuel : lines.length ≤ fuel) :
    fgetsAll cap fuel (lines.flatMap (· ++ [chr '\n'])) = lines.map (· ++ [chr '\n']) := by
  induction lines generalizing fuel with
  | nil => cases fuel <;> rfl
  | cons line lines ih =>
    obtain ⟨fuel, rfl⟩ : ∃ n, fuel = n + 1 := ⟨fuel - 1, by simp at hfuel; omega⟩
    obtain ⟨hline, hlen⟩ := hlines line List.mem_cons_self
    have hrest :=
      ih (fun l hl => hlines l (List.mem_cons_of_mem _ hl)) (Nat.le_of_succ_le_succ hfuel)
    have hget := fgets_line hline hlen (lines.flatMap (· ++ [chr '\n']))
    rw [List.flatMap_cons, List.append_assoc, List.singleton_append]
    -- the stream is not empty, whatever the line is
    obtain ⟨b, s, hs⟩ : ∃ b s, line ++ chr '\n' :: lines.flatMap (· ++ [chr '\n']) = b :: s := by
      cases line with
      | nil => exact ⟨_, _, rfl⟩
      | cons b line => exact ⟨_, _, rfl⟩
    rw [hs] at hget ⊢
    rw [fgetsAll, hget]
    exact congrArg _ hrest

/-- The line without the newlines and carriage returns at its end. -/
def chomp (line : Bytes) : Bytes :=
  (line.reverse.dropWhile fun b => b == chr '\n' || b == chr '\r').reverse

theorem chomp_prefix (line : Bytes) : chomp line <+: line := by
  rw [chomp, ← List.reverse_suffix, List.reverse_reverse]
  exact List.dropWhile_suffix _

/-- A line with no line end is not changed. -/
theorem chomp_eq_self {line : Bytes} (h : ∀ b ∈ line.getLast?, b ≠ chr '\n' ∧ b ≠ chr '\r') :
    chomp line = line := by
  have hstop : (line.reverse.dropWhile fun b => b == chr '\n' || b == chr '\r') = line.reverse := by
    rw [← List.head?_reverse] at h
    cases hrev : line.reverse with
    | nil => rfl
    | cons b s =>
      rw [hrev] at h
      obtain ⟨hn, hr⟩ := h b rfl
      exact List.dropWhile_cons_of_neg (by simp [hn, hr])
  rw [chomp, hstop, List.reverse_reverse]

theorem chomp_newline {line : Bytes} (h : ∀ b ∈ line.getLast?, b ≠ chr '\n' ∧ b ≠ chr '\r') :
    chomp (line ++ [chr '\n']) = line := by
  have hself := chomp_eq_self h
  rw [chomp, List.reverse_append, List.reverse_singleton, List.singleton_append,
    List.dropWhile_cons_of_pos (by simp)]
  exact hself

/-- `sscanf(line, "<literal> %ld", &x)`, with the literal's last character before the blank. -/
def scanLong (literal : Bytes) (line : Bytes) : Option Int :=
  if literal <+: line then (strtol (line.drop literal.length)).map Prod.fst else none

/-- `%ld`, `%lld`, `%zu` and `%llu`. -/
def ld (v : Int) : Bytes := Json.numeral v

theorem ld_digits (v : Int) : ∀ b ∈ ld v, isDigit b = true ∨ b = 45 := by
  cases v with
  | ofNat n => exact fun b hb => .inl (decimal_isDigit n b hb)
  | negSucc n =>
    intro b hb
    rcases List.mem_cons.1 hb with rfl | hb
    · exact .inr rfl
    · exact .inl (decimal_isDigit _ b hb)

theorem isspace_of_isDigit {b : UInt8} (h : isDigit b = true ∨ b = chr '-') :
    isspace b = false := by
  have hall : ∀ c ∈ ascii "0123456789", isspace c = false := by decide
  rcases h with h | rfl
  · exact hall b (mem_digits h)
  · decide

/-- The digits of a number, read to the end. -/
theorem digits_decimal (n : Nat) : (decimal n).takeWhile isDigit = decimal n ∧
    (decimal n).dropWhile isDigit = [] := by
  have hall := decimal_isDigit n
  exact ⟨List.takeWhile_eq_self_iff.2 hall, List.dropWhile_eq_nil_iff.2 hall⟩

/-- `strtol` reads back what `%ld` writes. -/
theorem strtol_ld {v : Int} (hlo : longMin ≤ v) (hhi : v ≤ longMax) :
    strtol (ld v) = some (v, []) := by
  obtain ⟨b, t, ht, hb⟩ := Json.numeral_head v
  have hskip : (ld v).dropWhile isspace = ld v := by
    rw [ld, ht, List.dropWhile_cons_of_neg]
    rw [isspace_of_isDigit hb]
    exact Bool.false_ne_true
  have hclamp : max longMin (min longMax v) = v := by omega
  rw [strtol, hskip]
  cases v with
  | ofNat n =>
    have hdec : ld (Int.ofNat n) = decimal n := rfl
    obtain ⟨htake, hdrop⟩ := digits_decimal n
    have hneg : (decimal n).head? ≠ some (chr '-') := by
      have := Json.decimal_head_ne_sign n []
      rwa [List.append_nil] at this
    have hpos : (decimal n).head? ≠ some (chr '+') := by
      intro h
      have := decimal_isDigit n _ (List.mem_of_head? h)
      revert this
      decide
    rw [hdec]
    simp only [hneg, hpos, or_self, if_false, htake, hdrop, decimal_ne_nil, decValue_decimal]
    rw [show ((n : Nat) : Int) = Int.ofNat n from rfl, hclamp]
  | negSucc n =>
    have hdec : ld (Int.negSucc n) = chr '-' :: decimal (n + 1) := rfl
    obtain ⟨htake, hdrop⟩ := digits_decimal (n + 1)
    rw [hdec]
    simp only [List.head?_cons, true_or, if_true, List.tail_cons, htake, hdrop, decimal_ne_nil,
      if_false, decValue_decimal]
    rw [show -(((n + 1 : Nat)) : Int) = Int.negSucc n from rfl, hclamp]

/-- What stands behind a newline does not matter, once something but white space has come. -/
theorem strtolValue_append {s : Bytes} (hend : s.getLast? = some (chr '\n'))
    (hseen : ∃ b ∈ s, isspace b = false) (t : Bytes) : strtolValue (s ++ t) = strtolValue s := by
  obtain ⟨b, hb, hspace⟩ := hseen
  have hskip : s.dropWhile isspace ≠ [] := by
    intro hnil
    rw [List.dropWhile_eq_nil_iff.1 hnil b hb] at hspace
    cases hspace
  have hdrop : (s ++ t).dropWhile isspace = s.dropWhile isspace ++ t := by
    rw [List.dropWhile_append, if_neg (by simpa using hskip)]
  have hlast : (s.dropWhile isspace).getLast? = some (chr '\n') := by
    obtain ⟨pre, hpre⟩ := List.dropWhile_suffix isspace (l := s)
    rwa [← hpre, List.getLast?_append, List.getLast?_eq_some_getLast hskip, Option.some_or,
      ← List.getLast?_eq_some_getLast hskip] at hend
  have hhead := List.head_dropWhile_not isspace hskip
  unfold strtolValue strtol
  rw [hdrop]
  generalize s.dropWhile isspace = u at hskip hlast hhead ⊢
  cases u with
  | nil => exact absurd rfl hskip
  | cons c r =>
    -- the digits end at the newline at the latest
    have hdigits : ∀ u : Bytes, u.getLast? = some (chr '\n') →
        (u ++ t).takeWhile isDigit = u.takeWhile isDigit := by
      intro u hu
      rw [List.takeWhile_append, if_neg]
      intro hall
      have hsame := List.takeWhile_prefix isDigit (l := u) |>.eq_of_length hall
      have hdigit := List.mem_takeWhile_imp (hsame ▸ List.mem_of_getLast? hu)
      exact absurd hdigit (by decide)
    have hrest : r.getLast? = some (chr '\n') := by
      cases r with
      | nil =>
        obtain rfl := Option.some.inj hlast
        cases hhead
      | cons d r => exact hlast
    have hvalue := hdigits (if c = chr '-' ∨ c = chr '+' then r else c :: r) (by
      split
      · exact hrest
      · exact hlast)
    simp only [List.cons_append, List.head?_cons, Option.some.injEq, List.tail_cons]
    split at hvalue
    · next hsign =>
      rw [if_pos hsign, if_pos hsign, hvalue]
      split <;> rfl
    · next hsign =>
      rw [if_neg hsign, if_neg hsign]
      rw [List.cons_append] at hvalue
      rw [hvalue]
      split <;> rfl

/-- White space is skipped, however much there is. -/
theorem strtolValue_spaces {s : Bytes} (h : ∀ b ∈ s, isspace b = true) (t : Bytes) :
    strtolValue (s ++ t) = strtolValue t := by
  unfold strtolValue strtol
  rw [List.dropWhile_append_of_pos h]

/-- `%06u`. -/
def u06 (v : Nat) : Bytes := List.replicate (6 - (decimal v).length) (chr '0') ++ decimal v

theorem u06_length {v : Nat} (h : v < 10 ^ 6) : (u06 v).length = 6 := by
  have hle := decimal_length_le (by decide) h
  rw [u06, List.length_append, List.length_replicate]
  omega

theorem u06_isDigit (v : Nat) : ∀ b ∈ u06 v, isDigit b = true := by
  intro b hb
  rcases List.mem_append.1 hb with hz | hd
  · rw [List.eq_of_mem_replicate hz]
    decide
  · exact decimal_isDigit v b hd

theorem decValue_u06 (v : Nat) : decValue (u06 v) = v := by
  have hzero : ∀ n, decValue (List.replicate n (chr '0')) = 0 := by
    intro n
    induction n with
    | zero => rfl
    | succ n ih =>
      rw [List.replicate_succ', decValue_append, ih]
      decide
  rw [u06, decValue_append, hzero, decValue_decimal, Nat.zero_mul, Nat.zero_add]

/-- The needle occurs in the haystack. -/
def contains (needle : Bytes) : Bytes → Bool
  | [] => needle == []
  | b :: s => needle.isPrefixOf (b :: s) || contains needle s

theorem contains_of_infix {needle s : Bytes} (h : needle <:+: s) : contains needle s = true := by
  induction s with
  | nil => simpa [contains] using List.infix_nil.1 h
  | cons b s ih =>
    rw [contains, Bool.or_eq_true, List.isPrefixOf_iff_prefix]
    exact (List.infix_cons_iff.1 h).imp id ih

/-- `snprintf` into a buffer of `cap` bytes: the text, when it fits with its terminating NUL. -/
def snprintf (cap : Nat) (text : Bytes) : Option Bytes :=
  if text.length < cap then some text else none

theorem snprintf_eq_some {cap : Nat} {text buf : Bytes} (h : snprintf cap text = some buf) :
    buf = text := by
  unfold snprintf at h
  split at h
  · exact (Option.some.inj h).symm
  · cases h

theorem snprintf_eq_none {cap : Nat} {text : Bytes} (h : snprintf cap text = none) :
    cap ≤ text.length := by
  unfold snprintf at h
  split at h
  · cases h
  · omega

end Lib.C
