import Mathlib.Algebra.Order.Field.Basic
import Mathlib.Algebra.Order.Field.Rat
import Mathlib.Data.Rat.Cast.Order
import Mathlib.Tactic.FieldSimp
import Mathlib.Tactic.Linarith
import Mathlib.Tactic.Ring
import AxiomaOracle.Lib.JsonText
import AxiomaOracle.Gateway.Main
import AxiomaOracle.Verify.Config

/-!
# The upstream request body

`handle_request` writes the body piece by piece: two strings through the escape table, integers,
and Q16.16 values as six-place decimals. The pieces are read back here with the grammar's rules, and
the capacity arithmetic shows that no append is refused.
-/

namespace AxiomaOracle

open Lib

/-! ## The escape table -/

/-- What the reader takes the replacement of a byte for. -/
def jsonUnit (c : UInt8) : UInt8 ⊕ Nat :=
  if c.toNat < 0x20 ∧ c ≠ 9 ∧ c ≠ 10 ∧ c ≠ 13 then .inr c.toNat else .inl c

theorem hex4_byte (c : UInt8) :
    Json.hex4 (chr '0') (chr '0') (hexDigit (c.toNat / 16)) (hexDigit (c.toNat % 16)) =
      some c.toNat := by
  have hc := byte_lt c
  have h0 : Json.hexVal (chr '0') = some 0 := by decide
  rw [Json.hex4, h0, Json.hexVal_hexDigit (by omega), Json.hexVal_hexDigit (by omega)]
  simp only [Option.bind_eq_bind, Option.bind_some, Option.some.injEq]
  omega

theorem units_jsonEscape (c : UInt8) (bs : Bytes) (us : List (UInt8 ⊕ Nat)) (r : Bytes)
    (h : Json.units bs = some (us, r)) :
    Json.units (jsonEscape c ++ bs) = some (jsonUnit c :: us, r) := by
  unfold jsonEscape
  by_cases h34 : c = chr '"'
  · subst h34
    exact Json.units_simpleEscape (by decide) (by decide) h
  by_cases h92 : c = chr '\\'
  · subst h92
    exact Json.units_simpleEscape (by decide) (by decide) h
  by_cases h10 : c = chr '\n'
  · subst h10
    exact Json.units_simpleEscape (by decide) (by decide) h
  by_cases h13 : c = chr '\r'
  · subst h13
    exact Json.units_simpleEscape (by decide) (by decide) h
  by_cases h9 : c = chr '\t'
  · subst h9
    exact Json.units_simpleEscape (by decide) (by decide) h
  rw [if_neg h34, if_neg h92, if_neg h10, if_neg h13, if_neg h9]
  unfold jsonUnit
  by_cases hlow : c.toNat < 0x20
  · rw [if_pos hlow, if_pos ⟨hlow, h9, h10, h13⟩]
    exact Json.units_hexEscape (hex4_byte c) h
  · rw [if_neg hlow, if_neg fun hc => hlow hc.1]
    exact Json.units_plain h34 h92 (Nat.not_lt.1 hlow) h

theorem stringText_jsonEscape (s : Bytes) : Json.StringText s (s.flatMap jsonEscape) := by
  apply Json.stringText_flatMap units_jsonEscape
  intro c
  unfold jsonUnit
  split
  · rename_i hc
    exact .inr ⟨rfl, by omega⟩
  · exact .inl rfl

theorem jsonEscape_length_le (c : UInt8) : (jsonEscape c).length ≤ 6 := by
  unfold jsonEscape
  iterate 5
    split
    · decide
  split
  · exact Nat.le_refl 6
  · exact Nat.succ_le_succ (Nat.zero_le 5)

theorem jsonEscape_ne_nil (c : UInt8) : jsonEscape c ≠ [] := by
  unfold jsonEscape
  iterate 5
    split
    · decide
  split
  · exact List.cons_ne_nil _ _
  · exact List.cons_ne_nil _ _

theorem jsonEscape_low {c : UInt8} (h : c.toNat < 0x80) : ∀ b ∈ jsonEscape c, b.toNat < 0x80 := by
  unfold jsonEscape
  iterate 5
    split
    · decide
  split
  · have hlt : c.toNat / 16 < 16 := by omega
    have hd1 := hexDigit_toNat hlt
    have hd2 := hexDigit_toNat (show c.toNat % 16 < 16 by omega)
    intro b hb
    simp only [List.mem_cons, List.not_mem_nil, or_false] at hb
    rcases hb with rfl | rfl | rfl | rfl | rfl | rfl
    · decide
    · decide
    · decide
    · decide
    · rw [hd1]; split <;> omega
    · rw [hd2]; split <;> omega
  · intro b hb
    rw [List.mem_singleton.1 hb]
    exact h

theorem jsonEscape_high {c : UInt8} (h : 0x80 ≤ c.toNat) : jsonEscape c = [c] := by
  have hne : ∀ d : UInt8, d.toNat < 0x80 → c ≠ d := by
    rintro d hd rfl
    omega
  unfold jsonEscape
  rw [if_neg (hne _ (by decide)), if_neg (hne _ (by decide)), if_neg (hne _ (by decide)),
    if_neg (hne _ (by decide)), if_neg (hne _ (by decide)), if_neg (by omega)]

theorem flatMap_jsonEscape_valid {s : Bytes} (hs : Utf8.Valid s) :
    Utf8.Valid (s.flatMap jsonEscape) :=
  Json.flatMap_valid (fun _ h => jsonEscape_low h) (fun _ h => jsonEscape_high h) hs

theorem flatMap_jsonEscape_length_le (s : Bytes) :
    (s.flatMap jsonEscape).length ≤ s.length * 6 := by
  induction s with
  | nil => exact Nat.le_refl _
  | cons c s ih =>
    have hc := jsonEscape_length_le c
    rw [List.flatMap_cons, List.length_append, List.length_cons]
    omega

/-! ## The escapers -/

theorem gwjEscapeLoop_eq {cap o : Nat} {src : Bytes}
    (h : o + (src.flatMap jsonEscape).length ≤ cap) :
    gwjEscapeLoop cap o src = some (src.flatMap jsonEscape) := by
  induction src generalizing o with
  | nil => rfl
  | cons c src ih =>
    rw [List.flatMap_cons, List.length_append] at h
    rw [gwjEscapeLoop, if_neg (by omega), ih (by omega), List.flatMap_cons]
    rfl

theorem tail_of_isTail {b : UInt8} (h : Utf8.isTail b = true) : b.toNat &&& 0xC0 = 0x80 := by
  have := isContinuation_eq b
  rw [h] at this
  simpa [isContinuation] using this

theorem utf8SeqLen_two {a b : UInt8} (h : Utf8.isTwo a b = true) (s : Bytes) :
    utf8SeqLen (a :: b :: s) = 2 := by
  simp only [Utf8.isTwo, Bool.and_eq_true, decide_eq_true_eq] at h
  obtain ⟨ha, hb⟩ := h
  simp only [utf8SeqLen]
  rw [if_neg (by omega), if_pos ha, if_pos (tail_of_isTail hb)]

theorem utf8SeqLen_three {a b c : UInt8} (h : Utf8.isThree a b c = true) (s : Bytes) :
    utf8SeqLen (a :: b :: c :: s) = 3 := by
  simp only [Utf8.isThree, Bool.and_eq_true, Bool.or_eq_true, decide_eq_true_eq,
    bne_iff_ne] at h
  obtain ⟨⟨⟨⟨ha, hb⟩, hc⟩, hlo⟩, hhi⟩ := h
  have htail : 0x80 ≤ b.toNat ∧ b.toNat ≤ 0xBF := by simpa [Utf8.isTail] using hb
  have hE0 : a = 0xE0 ↔ a.toNat = 0xE0 := UInt8.toNat_inj.symm
  have hED : a = 0xED ↔ a.toNat = 0xED := UInt8.toNat_inj.symm
  have hb1 : (if a = 0xE0 then 0xA0 else 0x80) ≤ b.toNat ∧
      b.toNat ≤ (if a = 0xED then 0x9F else 0xBF) := by
    simp only [hE0, hED]
    constructor <;> split <;> omega
  simp only [utf8SeqLen]
  rw [if_neg (by omega), if_neg (by omega), if_pos ha,
    if_pos ⟨hb1.1, hb1.2, tail_of_isTail hc⟩]

theorem utf8SeqLen_four {a b c d : UInt8} (h : Utf8.isFour a b c d = true) (s : Bytes) :
    utf8SeqLen (a :: b :: c :: d :: s) = 4 := by
  simp only [Utf8.isFour, Bool.and_eq_true, Bool.or_eq_true, decide_eq_true_eq,
    bne_iff_ne] at h
  obtain ⟨⟨⟨⟨⟨ha, hb⟩, hc⟩, hd⟩, hlo⟩, hhi⟩ := h
  have htail : 0x80 ≤ b.toNat ∧ b.toNat ≤ 0xBF := by simpa [Utf8.isTail] using hb
  have hF0 : a = 0xF0 ↔ a.toNat = 0xF0 := UInt8.toNat_inj.symm
  have hF4 : a = 0xF4 ↔ a.toNat = 0xF4 := UInt8.toNat_inj.symm
  have hb1 : (if a = 0xF0 then 0x90 else 0x80) ≤ b.toNat ∧
      b.toNat ≤ (if a = 0xF4 then 0x8F else 0xBF) := by
    simp only [hF0, hF4]
    constructor <;> split <;> omega
  simp only [utf8SeqLen]
  rw [if_neg (by omega), if_neg (by omega), if_neg (by omega), if_pos ha,
    if_pos ⟨hb1.1, hb1.2, tail_of_isTail hc, tail_of_isTail hd⟩]

/-- One sequence of the checking loop. -/
theorem utf8Loop_step {t s : Bytes} {n : Nat} (hn : utf8SeqLen (t ++ s) = n)
    (ht : t.length = n) (hpos : n ≠ 0) {fuel : Nat} (hfuel : (t ++ s).length ≤ fuel)
    (ih : ∀ fuel, s.length ≤ fuel → utf8Loop fuel s = true) : utf8Loop fuel (t ++ s) = true := by
  subst ht
  cases t with
  | nil => exact absurd rfl hpos
  | cons c t =>
    cases fuel with
    | zero => simp at hfuel
    | succ fuel =>
      rw [List.cons_append] at hn ⊢
      rw [utf8Loop, hn, if_neg hpos, ← List.cons_append, List.drop_left]
      apply ih
      simp at hfuel
      omega

/-- The loop of `gwj_escape_utf8` passes every well-formed text. -/
theorem utf8Loop_of_check {s : Bytes} (h : Utf8.check s = true) {fuel : Nat}
    (hfuel : s.length ≤ fuel) : utf8Loop fuel s = true := by
  fun_induction Utf8.check s generalizing fuel with
  | case1 => cases fuel <;> rfl
  | case2 a s ha ih =>
    have hlen : utf8SeqLen (a :: s) = 1 := by simp only [utf8SeqLen, ha, if_true]
    exact utf8Loop_step (t := [a]) hlen rfl (by decide) hfuel fun _ => ih h
  | case3 a ha => cases h
  | case4 a ha b s hab ih =>
    exact utf8Loop_step (t := [a, b]) (utf8SeqLen_two hab s) rfl (by decide) hfuel fun _ => ih h
  | case5 a ha b hab => cases h
  | case6 a ha b hab c s habc ih =>
    exact utf8Loop_step (t := [a, b, c]) (utf8SeqLen_three habc s) rfl (by decide) hfuel
      fun _ => ih h
  | case7 a ha b hab c habc => cases h
  | case8 a ha b hab c habc d s ih =>
    rw [Bool.and_eq_true] at h
    exact utf8Loop_step (t := [a, b, c, d]) (utf8SeqLen_four h.1 s) rfl (by decide) hfuel
      fun _ => ih h.2

/-- The escaper of the request body: a well-formed text that fits is escaped byte by byte. -/
theorem gwjEscapeUtf8_eq (cap : Nat) {src : Bytes} (hv : Utf8.Valid src)
    (hroom : src.length * 6 ≤ cap) : gwjEscapeUtf8 cap src = some (src.flatMap jsonEscape) := by
  have hlen := flatMap_jsonEscape_length_le src
  rw [gwjEscapeUtf8, if_pos (utf8Loop_of_check ((Utf8.check_iff src).2 hv) (Nat.le_refl _)),
    gwjEscape, gwjEscapeLoop_eq (by omega)]

/-! ## Numbers -/

/-- A decimal of six places that stands for a Q16.16 value: less than one unit of its last place
away, as no other Q16.16 value is. -/
def Represents (m : Int) (q : Int32) : Prop :=
  |(m : ℚ) / 10 ^ 6 - (q.toInt : ℚ) / 2 ^ 16| < 1 / 10 ^ 6 ∧
    ∀ q' : Int32, |(m : ℚ) / 10 ^ 6 - (q'.toInt : ℚ) / 2 ^ 16| < 1 / 10 ^ 6 → q' = q

/-- The distance, without denominators. -/
theorem abs_decimal_sub_lt_iff (m q : Int) :
    |(m : ℚ) / 10 ^ 6 - (q : ℚ) / 2 ^ 16| < 1 / 10 ^ 6 ↔ |m * 65536 - q * 1000000| < 65536 := by
  have hscale : (m : ℚ) / 10 ^ 6 - (q : ℚ) / 2 ^ 16 =
      ((m * 65536 - q * 1000000 : Int) : ℚ) / (65536 * 1000000) := by
    push_cast
    field_simp
    ring
  rw [hscale, abs_div, abs_of_pos (show (0 : ℚ) < 65536 * 1000000 by norm_num),
    div_lt_div_iff₀ (by norm_num) (by norm_num), ← Int.cast_abs]
  constructor
  · intro h
    have hq : ((|m * 65536 - q * 1000000| : Int) : ℚ) < (65536 : Int) := by
      push_cast at h ⊢
      linarith
    exact_mod_cast hq
  · intro h
    have hq : ((|m * 65536 - q * 1000000| : Int) : ℚ) < (65536 : Int) := by exact_mod_cast h
    push_cast at hq ⊢
    linarith

/-- The digits `q16_to_dec` writes: the value cut off after six places. -/
def q16Digits (v : Nat) : Nat := v / 65536 * 1000000 + v % 65536 * 1000000 / 65536

theorem represents_q16Digits {q : Int32} (hq : 0 ≤ q.toInt) :
    Represents (q16Digits q.toInt.toNat) q := by
  have hnear : |(q16Digits q.toInt.toNat : Int) * 65536 - q.toInt * 1000000| < 65536 := by
    unfold q16Digits
    rw [abs_lt]
    omega
  refine ⟨(abs_decimal_sub_lt_iff _ _).2 hnear, ?_⟩
  intro q' hq'
  rw [abs_decimal_sub_lt_iff] at hq'
  rw [abs_lt] at hnear hq'
  exact Int32.toInt_inj.1 (by omega)

theorem fraction_length_le {ds fs : Bytes} (hds : ds.length ≤ 5) (hfs : fs.length = 6) :
    (ds ++ 46 :: fs).length ≤ 12 := by
  rw [List.length_append, List.length_cons, hfs]
  omega

/-- What `q16_to_dec` writes, and how it is read. -/
theorem q16ToDec_denotes {q : Int32} (hq : 0 ≤ q.toInt) : ∃ dec, q16ToDec q = some dec ∧
    dec.length ≤ 12 ∧ Utf8.Valid dec ∧
    Json.Denotes (.num (q16Digits q.toInt.toNat) (-6)) dec := by
  have hlen : (C.u06 (q.toInt.toNat % 65536 * 1000000 / 65536)).length = 6 :=
    C.u06_length (by omega)
  have hwlen : (decimal (q.toInt.toNat / 65536)).length ≤ 5 := by
    have hlt := q.toInt_lt
    exact decimal_length_le (by decide) (by omega)
  refine ⟨decimal (q.toInt.toNat / 65536) ++
    46 :: C.u06 (q.toInt.toNat % 65536 * 1000000 / 65536), ?_, ?_, ?_, ?_⟩
  · have hdot : ascii "." = [46] := by decide
    rw [q16ToDec, if_neg (by omega)]
    simp only [hdot, List.append_assoc, List.singleton_append, C.snprintf]
    rw [if_pos (Nat.lt_of_le_of_lt (fraction_length_le hwlen hlen) (by decide))]
  · exact fraction_length_le hwlen hlen
  · apply Utf8.Valid.of_ascii
    intro b hb
    rcases List.mem_append.1 hb with hb | hb
    · exact Json.isDigit_low (decimal_isDigit _ b hb)
    · rcases List.mem_cons.1 hb with rfl | hb
      · decide
      · exact Json.isDigit_low (C.u06_isDigit _ b hb)
  · have hread := Json.Denotes.fraction (q.toInt.toNat / 65536)
      (C.u06_isDigit (q.toInt.toNat % 65536 * 1000000 / 65536))
      (List.ne_nil_of_length_pos (by omega))
    have hvalue : decValue (decimal (q.toInt.toNat / 65536) ++
        C.u06 (q.toInt.toNat % 65536 * 1000000 / 65536)) = q16Digits q.toInt.toNat := by
      rw [decValue_append, decValue_decimal, C.decValue_u06, hlen, q16Digits]
      omega
    rw [hvalue, hlen] at hread
    exact hread

/-! ## The body -/

/-- The numbers of a request as `handle_request` accepts them. -/
structure Header.Accepted (h : Header) : Prop where
  maxTokens : 1 ≤ h.maxTokens ∧ h.maxTokens ≤ 200000
  tempQ16 : 0 ≤ h.tempQ16 ∧ h.tempQ16 ≤ 131072
  topPQ16 : h.topPQ16 ≤ 65536

/-- What ingest lets through: the numbers are in range, and the prompt fits its buffer. -/
theorem ingest_accepted {cfg : GwConfig} {req prompt : Bytes} {h : Header}
    (hok : ingest cfg req = .ok (h, prompt)) :
    h.Accepted ∧ (prompt.length : Int) ≤ cfg.maxPromptBytes := by
  simp only [ingest, bind, Except.bind, pure, Except.pure] at hok
  split at hok
  · cases hok
  next hs hloop =>
    obtain ⟨hdr, s⟩ := hs
    dsimp only at hok
    iterate 5
      split at hok
      · cases hok
    next hlen hmax htemp hrange hshort =>
      cases hok
      rw [List.length_take]
      exact ⟨⟨by omega, by omega, by omega⟩, by omega⟩

/-- The parameters of the record are the numbers of the request. -/
structure Records (h : Header) (p : AxOracleParams) : Prop where
  maxTokens : p.maxTokens.toInt = h.maxTokens
  temperature : p.temperature.toInt = h.tempQ16
  topP : if 0 ≤ h.topPQ16 then p.topP.toInt = h.topPQ16 else axParamsTopPIsNull p = true

theorem Header.Accepted.records {h : Header} (ha : h.Accepted) : Records h (requestParams h) := by
  obtain ⟨hmax, htemp, htop⟩ := ha
  have hof : ∀ x : Int, 0 ≤ x → x ≤ 200000 → (Int32.ofInt x).toInt = x := by
    intro x h0 hx
    exact Int32.toInt_ofInt_of_le (by omega) (by omega)
  simp only [requestParams, ge_iff_le, htemp.1, if_true]
  by_cases hp : 0 ≤ h.topPQ16
  · simp only [hp, if_true]
    refine ⟨hof _ (by omega) hmax.2, hof _ htemp.1 (by omega), ?_⟩
    rw [if_pos hp]
    exact hof _ hp (by omega)
  · simp only [hp, if_false]
    refine ⟨hof _ (by omega) hmax.2, hof _ htemp.1 (by omega), ?_⟩
    rw [if_neg hp]
    rfl

theorem not_isNull_of_nonneg {q : Int32} (hq : 0 ≤ q.toInt) : (q == axParamsNullQ16) = false := by
  rw [beq_eq_false_iff_ne]
  rintro rfl
  exact absurd hq (by decide)

theorem reqPut_ok {cap : Nat} {buf text : Bytes} (h : buf.length + text.length < cap) :
    reqPut cap buf text = some (buf ++ text) := by
  rw [reqPut, if_neg (by omega)]

/-- The text of one member. -/
def memberText (key text : Bytes) : Bytes := 34 :: key ++ 34 :: 58 :: text

/-- The text of the `messages` member, with the brace that closes the body. -/
def messagesText (escaped : Bytes) : Bytes :=
  memberText (ascii "messages")
    (91 :: (123 :: (memberText (ascii "role") (34 :: ascii "user" ++ [34]) ++
    44 :: (memberText (ascii "content") (34 :: escaped ++ [34]) ++ [125])) ++ [93])) ++ [125]

/-- The `messages` member. -/
def messagesMember (content : Bytes) : Bytes × Json :=
  (ascii "messages",
    .arr [.obj [(ascii "role", .str (ascii "user")), (ascii "content", .str content)]])

theorem stringText_key : ∀ k ∈ [ascii "model", ascii "max_tokens", ascii "temperature",
    ascii "top_p", ascii "messages", ascii "role", ascii "user", ascii "content"],
    Json.StringText k k := by
  intro k hk
  apply Json.stringText_clean
  revert k
  decide

theorem messagesText_members {s e : Bytes} (h : Json.StringText s e) :
    Json.MembersText [messagesMember s] (messagesText e) := by
  have hcontent := Json.MembersText.single (stringText_key (ascii "content") (by simp))
    (Json.Denotes.str h)
  have hrole := Json.MembersText.cons (stringText_key (ascii "role") (by simp))
    (Json.Denotes.str (stringText_key (ascii "user") (by simp))) hcontent
  exact Json.MembersText.single (stringText_key (ascii "messages") (by simp))
    (Json.Denotes.arr (Json.ElementsText.single (Json.Denotes.obj hrole)))

/-- The members of the request object. -/
def upstreamMembers (modelId : Bytes) (maxTokens temperature : Int) (topP : Option Int)
    (content : Bytes) : List (Bytes × Json) :=
  (ascii "model", .str modelId) :: (ascii "max_tokens", .num maxTokens 0) ::
    (ascii "temperature", .num temperature (-6)) ::
    (topP.elim [messagesMember content] fun m =>
      [(ascii "top_p", .num m (-6)), messagesMember content])

/-- The text of the body, from its pieces. -/
def upstreamText (modelEsc maxTokens temperature : Bytes) (topP : Option Bytes) (escaped : Bytes) :
    Bytes :=
  123 :: (memberText (ascii "model") (34 :: modelEsc ++ [34]) ++
    44 :: (memberText (ascii "max_tokens") maxTokens ++
    44 :: (memberText (ascii "temperature") temperature ++
    44 :: topP.elim (messagesText escaped) fun dec =>
      memberText (ascii "top_p") dec ++ 44 :: messagesText escaped)))

theorem upstreamText_denotes {modelId modelEsc content escaped temperature : Bytes}
    {maxTokens t : Int} {topP : Option (Bytes × Int)} (hmodel : Json.StringText modelId modelEsc)
    (hcontent : Json.StringText content escaped) (htemp : Json.Denotes (.num t (-6)) temperature)
    (htop : ∀ d ∈ topP, Json.Denotes (.num d.2 (-6)) d.1) :
    Json.Denotes (.obj (upstreamMembers modelId maxTokens t (topP.map Prod.snd) content))
      (upstreamText modelEsc (Json.numeral maxTokens) temperature (topP.map Prod.fst) escaped) := by
  have hmessages := messagesText_members hcontent
  have hrest : Json.MembersText
      ((topP.map Prod.snd).elim [messagesMember content] fun m =>
        [(ascii "top_p", .num m (-6)), messagesMember content])
      ((topP.map Prod.fst).elim (messagesText escaped) fun dec =>
        memberText (ascii "top_p") dec ++ 44 :: messagesText escaped) := by
    cases topP with
    | none => exact hmessages
    | some d =>
      exact Json.MembersText.cons (stringText_key (ascii "top_p") (by simp)) (htop d rfl) hmessages
  apply Json.Denotes.obj
  apply Json.MembersText.cons (stringText_key (ascii "model") (by simp)) (.str hmodel)
  apply Json.MembersText.cons (stringText_key (ascii "max_tokens") (by simp)) (.int maxTokens)
  exact Json.MembersText.cons (stringText_key (ascii "temperature") (by simp)) htemp hrest

theorem memberText_valid (key : Bytes) {text : Bytes} (hkey : ∀ b ∈ key, b.toNat < 0x80)
    (htext : Utf8.Valid text) : Utf8.Valid (memberText key text) := by
  have hhead : Utf8.Valid (34 :: key ++ [34, 58]) := by
    apply Utf8.Valid.of_ascii
    intro b hb
    simp only [List.mem_append, List.mem_cons, List.not_mem_nil, or_false] at hb
    rcases hb with (rfl | hb) | rfl | rfl
    · decide
    · exact hkey b hb
    · decide
    · decide
  have hsplit : memberText key text = (34 :: key ++ [34, 58]) ++ text := by simp [memberText]
  rw [hsplit]
  exact hhead.append htext

theorem valid_cons {b : UInt8} {t : Bytes} (hb : b.toNat < 0x80) (ht : Utf8.Valid t) :
    Utf8.Valid (b :: t) := (Json.byte_valid hb).append ht

theorem messagesText_valid {e : Bytes} (h : Utf8.Valid e) : Utf8.Valid (messagesText e) := by
  have hcontent : Utf8.Valid (memberText (ascii "content") (34 :: e ++ [34]) ++ [125]) :=
    (memberText_valid _ (by decide) (valid_cons (by decide) (h.append (by decide)))).append
      (by decide)
  have hrole : Utf8.Valid (memberText (ascii "role") (34 :: ascii "user" ++ [34])) :=
    memberText_valid _ (by decide) (by decide)
  have hobj := valid_cons (b := 123) (by decide)
    (hrole.append (valid_cons (b := 44) (by decide) hcontent))
  exact (memberText_valid _ (by decide) (valid_cons (by decide) (hobj.append (by decide)))).append
    (by decide)

theorem upstreamText_valid {modelEsc maxTokens temperature escaped : Bytes} {topP : Option Bytes}
    (hmodel : Utf8.Valid modelEsc) (hmax : Utf8.Valid maxTokens) (htemp : Utf8.Valid temperature)
    (htop : ∀ d ∈ topP, Utf8.Valid d) (hesc : Utf8.Valid escaped) :
    Utf8.Valid (upstreamText modelEsc maxTokens temperature topP escaped) := by
  have hrest : Utf8.Valid (topP.elim (messagesText escaped) fun dec =>
      memberText (ascii "top_p") dec ++ 44 :: messagesText escaped) := by
    cases topP with
    | none => exact messagesText_valid hesc
    | some d =>
      exact (memberText_valid _ (by decide) (htop d rfl)).append
        (valid_cons (by decide) (messagesText_valid hesc))
  have htemp' := (memberText_valid (ascii "temperature") (by decide) htemp).append
    (valid_cons (b := 44) (by decide) hrest)
  have hmax' := (memberText_valid (ascii "max_tokens") (by decide) hmax).append
    (valid_cons (b := 44) (by decide) htemp')
  have hmodel' := memberText_valid (ascii "model") (by decide)
    (valid_cons (b := 34) (by decide) (hmodel.append (t := [34]) (by decide)))
  exact valid_cons (by decide) (hmodel'.append (valid_cons (by decide) hmax'))

/-- A Q16.16 parameter of the body: left out when it is null. -/
def Q16Text (q : Int32) (null : Bool) : Option Bytes → Prop
  | none => null = true
  | some dec => null = false ∧ q16ToDec q = some dec ∧ dec.length ≤ 12

/-- The literal pieces of the body, as the grammar reads them. -/
theorem bodyHead_eq (m n : Bytes) :
    ascii "\x7b\"model\":\"" ++ m ++ ascii "\",\"max_tokens\":" ++ n =
      123 :: (memberText (ascii "model") (34 :: m ++ [34]) ++
        44 :: memberText (ascii "max_tokens") n) := by
  have h1 : ascii "\x7b\"model\":\"" = 123 :: 34 :: ascii "model" ++ [34, 58, 34] := by decide
  have h2 : ascii "\",\"max_tokens\":" = 34 :: 44 :: 34 :: ascii "max_tokens" ++
    [34, 58] := by decide
  simp [h1, h2, memberText]

theorem bodyMember_eq (dec : Bytes) :
    ascii ",\"temperature\":" ++ dec = 44 :: memberText (ascii "temperature") dec ∧
    ascii ",\"top_p\":" ++ dec = 44 :: memberText (ascii "top_p") dec := by
  have h1 : ascii ",\"temperature\":" = 44 :: 34 :: ascii "temperature" ++ [34, 58] := by decide
  have h2 : ascii ",\"top_p\":" = 44 :: 34 :: ascii "top_p" ++ [34, 58] := by decide
  simp [h1, h2, memberText]

theorem bodyTail_eq (e : Bytes) :
    ascii ",\"messages\":[\x7b\"role\":\"user\",\"content\":\"" ++ e ++ ascii "\"\x7d]\x7d" =
      44 :: messagesText e := by
  have h1 : ascii ",\"messages\":[\x7b\"role\":\"user\",\"content\":\"" =
      44 :: 34 :: ascii "messages" ++ [34, 58, 91, 123, 34] ++ ascii "role" ++ [34, 58, 34] ++
        ascii "user" ++ [34, 44, 34] ++ ascii "content" ++ [34, 58, 34] := by decide
  have h2 : ascii "\"\x7d]\x7d" = [34, 125, 93, 125] := by decide
  simp [h1, h2, messagesText, memberText]

theorem memberText_length (key text : Bytes) :
    (memberText key text).length = key.length + text.length + 3 := by
  simp [memberText]
  omega

theorem messagesText_length (e : Bytes) : (messagesText e).length = e.length + 42 := by
  have h1 : (ascii "messages").length = 8 := by decide
  have h2 : (ascii "role").length = 4 := by decide
  have h3 : (ascii "user").length = 4 := by decide
  have h4 : (ascii "content").length = 7 := by decide
  simp only [messagesText, memberText_length, List.length_append, List.length_cons,
    List.length_nil, h1, h2, h3, h4]
  omega

/-- **The body is built.** Six bytes a byte, and the fixed members, always fit. -/
theorem buildRequest_eq {cfg : GwConfig} (hcfg : Loaded cfg) {p : AxOracleParams}
    {norm temperature : Bytes} {topP : Option Bytes} (hv : Utf8.Valid norm)
    (hlen : norm.length ≤ cfg.maxPromptBytes.toNat)
    (htemp : Q16Text p.temperature (axParamsTemperatureIsNull p) (some temperature))
    (htop : Q16Text p.topP (axParamsTopPIsNull p) topP) :
    buildRequest cfg p norm = some (upstreamText (cfg.modelId.bytes.flatMap jsonEscape)
      (C.ld p.maxTokens.toInt) temperature topP (norm.flatMap jsonEscape)) := by
  obtain ⟨c, hc, -, hidlen, hidv, -⟩ := hcfg.named
  obtain rfl := Option.some.inj hc
  obtain ⟨htnull, hdec, hdlen⟩ := htemp
  have hmodel := gwjEscapeUtf8_eq (gwIdMax * 6 + 1) hidv (by unfold gwIdMax; omega)
  have hprompt := gwjEscapeUtf8_eq (cfg.maxPromptBytes.toNat * 6 + 1) hv (by omega)
  have hmlen := flatMap_jsonEscape_length_le cfg.modelId.bytes
  have hplen := flatMap_jsonEscape_length_le norm
  have hnlen : (C.ld p.maxTokens.toInt).length ≤ 20 := by
    have hlo := p.maxTokens.le_toInt
    have hhi := p.maxTokens.toInt_lt
    exact numeral_length_le (by omega) (by omega)
  have hcap : gwReqjsonCap cfg = cfg.maxPromptBytes.toNat * 6 + 2560 := by
    rw [gwReqjsonCap, gwIdMax]
  have hkeys : (ascii "model").length = 5 ∧ (ascii "max_tokens").length = 10 ∧
      (ascii "temperature").length = 11 ∧ (ascii "top_p").length = 5 := by decide
  unfold buildRequest
  simp only [hmodel, hprompt, htnull, hdec, Option.bind_eq_bind, Option.bind_some,
    Bool.false_eq_true, if_false, bodyHead_eq, (bodyMember_eq _).1, (bodyMember_eq _).2,
    bodyTail_eq]
  generalize cfg.modelId.bytes.flatMap jsonEscape = m at hmlen ⊢
  generalize norm.flatMap jsonEscape = e at hplen ⊢
  cases topP with
  | none =>
    have hnull : axParamsTopPIsNull p = true := htop
    rw [reqPut_ok, Option.bind_some, reqPut_ok, Option.bind_some, if_pos hnull, reqPut_ok]
    · simp [upstreamText]
    all_goals
      simp only [List.nil_append, List.length_append, List.length_cons, List.length_nil,
        memberText_length, messagesText_length]
      omega
  | some dec =>
    obtain ⟨hpnull, hpdec, hpdlen⟩ := htop
    rw [reqPut_ok, Option.bind_some, reqPut_ok, Option.bind_some, hpnull, hpdec]
    simp only [Bool.false_eq_true, if_false, Option.bind_some]
    rw [reqPut_ok, Option.bind_some, reqPut_ok]
    · simp [upstreamText]
    all_goals
      simp only [List.nil_append, List.length_append, List.length_cons, List.length_nil,
        memberText_length, messagesText_length]
      omega

theorem upstreamMembers_nodup (modelId content : Bytes) (maxTokens t : Int) (topP : Option Int) :
    ((upstreamMembers modelId maxTokens t topP content).map Prod.fst).Nodup := by
  cases topP with
  | none =>
    change [ascii "model", ascii "max_tokens", ascii "temperature", ascii "messages"].Nodup
    decide
  | some m =>
    change [ascii "model", ascii "max_tokens", ascii "temperature", ascii "top_p",
      ascii "messages"].Nodup
    decide

/-- The optional decimal of the body. -/
theorem topP_text {h : Header} {p : AxOracleParams} (hrec : Records h p) :
    ∃ topP : Option (Bytes × Int), Q16Text p.topP (axParamsTopPIsNull p) (topP.map Prod.fst) ∧
      (∀ d ∈ topP, Utf8.Valid d.1 ∧ Json.Denotes (.num d.2 (-6)) d.1) ∧
      (topP.map Prod.snd).elim (h.topPQ16 < 0) (fun m => 0 ≤ h.topPQ16 ∧ Represents m p.topP) := by
  have htop := hrec.topP
  by_cases hp : 0 ≤ h.topPQ16
  · rw [if_pos hp] at htop
    have hnn : 0 ≤ p.topP.toInt := by omega
    obtain ⟨dec, hdec, hlen, hv, hread⟩ := q16ToDec_denotes hnn
    refine ⟨some (dec, _), ⟨not_isNull_of_nonneg hnn, hdec, hlen⟩, ?_, hp, represents_q16Digits hnn⟩
    rintro d hd
    obtain rfl := Option.some.inj hd
    exact ⟨hv, hread⟩
  · rw [if_neg hp] at htop
    exact ⟨none, htop, by simp, Int.not_le.1 hp⟩

/-- **The upstream request says what the record says.** For a configuration that loads, a prompt
that passes validation within its limit and numbers in their ranges, the body is built and reads as
an object of the model, the token limit, the decimals and one user message. -/
theorem upstream_request_faithful {file : Bytes} {cfg : GwConfig}
    (hcfg : gwConfigLoad file = .ok cfg) {prompt norm : Bytes} {f : AxL3FaultFlags}
    (hlen : (prompt.length : Int) ≤ cfg.maxPromptBytes)
    (hnorm : axValidateAndNormalise (cfg.maxPromptBytes.toNat + 1) prompt {} = (.ok norm, f))
    {h : Header} (ha : h.Accepted) :
    ∃ body t topP, buildRequest cfg (requestParams h) norm = some body ∧
      Json.decode body = some (.obj (upstreamMembers cfg.modelId.bytes
        (requestParams h).maxTokens.toInt t topP norm)) ∧
      ((upstreamMembers cfg.modelId.bytes (requestParams h).maxTokens.toInt t topP norm).map
        Prod.fst).Nodup ∧
      Records h (requestParams h) ∧ Represents t (requestParams h).temperature ∧
      topP.elim (h.topPQ16 < 0) fun m => 0 ≤ h.topPQ16 ∧ Represents m (requestParams h).topP := by
  have hload := gwConfigLoad_ok hcfg
  have hrec := ha.records
  obtain ⟨rfl, -, hpv, -⟩ := axValidateAndNormalise_ok hnorm
  have hv := normLF_valid hpv
  have hshort := normLF_length_le prompt
  obtain ⟨c, hc, -, -, hidv, -⟩ := hload.named
  obtain rfl := Option.some.inj hc
  have hnn : 0 ≤ (requestParams h).temperature.toInt := by
    have := hrec.temperature
    have := ha.tempQ16
    omega
  obtain ⟨dec, hdec, hdlen, hdv, hread⟩ := q16ToDec_denotes hnn
  obtain ⟨topP, htop, htext, hrep⟩ := topP_text hrec
  have hbuild := buildRequest_eq hload hv (by omega)
    ⟨not_isNull_of_nonneg hnn, hdec, hdlen⟩ htop
  refine ⟨_, _, topP.map Prod.snd, hbuild, ?_, upstreamMembers_nodup _ _ _ _ _, hrec,
    represents_q16Digits hnn, hrep⟩
  apply Json.decode_of_denotes
  · apply upstreamText_valid (flatMap_jsonEscape_valid hidv) (Json.numeral_valid _) hdv _
      (flatMap_jsonEscape_valid hv)
    intro d hd
    obtain ⟨e, he, rfl⟩ := Option.mem_map.1 hd
    exact (htext e he).1
  · exact upstreamText_denotes (stringText_jsonEscape _) (stringText_jsonEscape _) hread
      fun d hd => (htext d hd).2

/-- No append of the builder is refused. -/
theorem buildRequest_isSome {cfg : GwConfig} (hcfg : Loaded cfg) {norm : Bytes}
    (hv : Utf8.Valid norm) (hlen : norm.length ≤ cfg.maxPromptBytes.toNat) {h : Header}
    (ha : h.Accepted) : (buildRequest cfg (requestParams h) norm).isSome := by
  have hrec := ha.records
  have hnn : 0 ≤ (requestParams h).temperature.toInt := by
    have := hrec.temperature
    have := ha.tempQ16
    omega
  obtain ⟨dec, hdec, hdlen, -⟩ := q16ToDec_denotes hnn
  obtain ⟨topP, htop, -⟩ := topP_text hrec
  rw [buildRequest_eq hcfg hv hlen ⟨not_isNull_of_nonneg hnn, hdec, hdlen⟩ htop]
  rfl

/-- A configuration file with the required keys. -/
def sampleFile : Bytes :=
  ascii "socket_path=s\nledger_path=l\nwal_path=w\nlog_path=g\n" ++ ascii "model_id = m\"1\n"

theorem upstream_request_faithful_sample : ∃ cfg body t, gwConfigLoad sampleFile = .ok cfg ∧
    buildRequest cfg (requestParams ⟨4, 9, 65537, -1⟩) (ascii "hi\n") = some body ∧
    Json.decode body = some (.obj (upstreamMembers (ascii "m\"1") 9 t none (ascii "hi\n"))) ∧
    Represents t 65537 := by
  have hload : ∃ cfg, gwConfigLoad sampleFile = .ok cfg ∧ cfg.maxPromptBytes = 32768 ∧
      cfg.modelId.bytes = ascii "m\"1" := by
    have hmap :
      (gwConfigLoad sampleFile).toOption.map (fun c => (c.maxPromptBytes, c.modelId.bytes)) =
        some (32768, ascii "m\"1") := by decide +kernel
    cases hc : gwConfigLoad sampleFile with
    | error e =>
      rw [hc] at hmap
      cases hmap
    | ok cfg =>
      rw [hc] at hmap
      exact ⟨cfg, rfl, Prod.mk.inj (Option.some.inj hmap)⟩
  obtain ⟨cfg, hcfg, hmax, hid⟩ := hload
  have hlen : ((ascii "hi\r\n").length : Int) ≤ cfg.maxPromptBytes := by
    rw [hmax]
    decide
  have hnorm : axValidateAndNormalise (cfg.maxPromptBytes.toNat + 1) (ascii "hi\r\n") {} =
      (.ok (ascii "hi\n"), {}) := by
    rw [hmax]
    decide +kernel
  obtain ⟨body, t, topP, hbody, hdecode, -, -, hrep, htop⟩ :=
    upstream_request_faithful (h := ⟨4, 9, 65537, -1⟩) hcfg hlen hnorm
      ⟨by decide, by decide, by decide⟩
  cases topP with
  | some m => exact absurd htop.1 (by decide)
  | none =>
    rw [hid] at hdecode
    exact ⟨cfg, body, t, hcfg, hbody, hdecode, hrep⟩

end AxiomaOracle
