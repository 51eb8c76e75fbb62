import AxiomaOracle.Gateway.Main
import AxiomaOracle.Verify.Admission

/-!
# What links an intent to its observation

The stale test of recovery looks for the hash of the WAL in the last payload. Both sides are here:
the WAL a request writes parses back to the hash of its prompt, and the text of an admitted record
holds the hash of its input.
-/

namespace AxiomaOracle

open Lib

/-! ## The WAL text -/

/-- The lines of the WAL, without their newlines. -/
def intentLines (i : GwIntent) : List Bytes :=
  [ascii "input_hash=" ++ i.inputHashHex.bytes, ascii "model_id=" ++ i.modelId.bytes,
    ascii "max_tokens=" ++ C.ld i.maxTokens.toInt, ascii "seed=" ++ C.ld i.seed.toInt,
    ascii "temperature_q16=" ++ C.ld i.temperatureQ16.toInt,
    ascii "top_p_q16=" ++ C.ld i.topPQ16.toInt]

theorem intentText_eq (i : GwIntent) :
    intentText i = (intentLines i).flatMap (· ++ [chr '\n']) := by
  unfold intentText intentLines
  rw [show ascii "\nmodel_id=" = [chr '\n'] ++ ascii "model_id=" by decide,
    show ascii "\nmax_tokens=" = [chr '\n'] ++ ascii "max_tokens=" by decide,
    show ascii "\nseed=" = [chr '\n'] ++ ascii "seed=" by decide,
    show ascii "\ntemperature_q16=" = [chr '\n'] ++ ascii "temperature_q16=" by decide,
    show ascii "\ntop_p_q16=" = [chr '\n'] ++ ascii "top_p_q16=" by decide,
    show ascii "\n" = [chr '\n'] by decide]
  simp only [List.flatMap_cons, List.flatMap_nil, List.append_assoc, List.append_nil]

theorem newline_not_mem_ld (v : Int) : chr '\n' ∉ C.ld v :=
  fun h => absurd (C.ld_digits v _ h) (by decide)

theorem ld_length_le {v : Int} (hlo : -2 ^ 63 ≤ v) (hhi : v < 2 ^ 63) : (C.ld v).length ≤ 20 :=
  numeral_length_le hlo hhi

theorem ld_int32_length (v : Int32) : (C.ld v.toInt).length ≤ 20 := by
  have hlo := v.le_toInt
  have hhi := v.toInt_lt
  exact ld_length_le (by omega) (by omega)

/-- The text fits the buffer of `gw_wal_write`. -/
theorem intentText_length_lt {i : GwIntent} (hhash : i.inputHashHex.bytes.length = 64)
    (hlen : i.modelId.bytes.length ≤ 255) : (intentText i).length < 768 := by
  have h64 : (C.ld i.seed.toInt).length ≤ 20 := ld_length_le i.seed.le_toInt i.seed.toInt_lt
  have h1 := ld_int32_length i.maxTokens
  have h2 := ld_int32_length i.temperatureQ16
  have h3 := ld_int32_length i.topPQ16
  have hkeys : (ascii "input_hash=").length = 11 ∧ (ascii "\nmodel_id=").length = 10 ∧
      (ascii "\nmax_tokens=").length = 12 ∧ (ascii "\nseed=").length = 6 ∧
      (ascii "\ntemperature_q16=").length = 17 ∧ (ascii "\ntop_p_q16=").length = 11 ∧
      (ascii "\n").length = 1 := by decide
  unfold intentText
  simp only [List.length_append]
  omega

/-- Every line fits the buffer of `fgets`. -/
theorem intentLines_short {i : GwIntent} (hhash : i.inputHashHex.bytes.length = 64)
    (hnl : chr '\n' ∉ i.inputHashHex.bytes) (hmodel : chr '\n' ∉ i.modelId.bytes)
    (hlen : i.modelId.bytes.length ≤ 255) :
    ∀ line ∈ intentLines i, chr '\n' ∉ line ∧ line.length + 1 < 600 := by
  have h64 : (C.ld i.seed.toInt).length ≤ 20 := ld_length_le i.seed.le_toInt i.seed.toInt_lt
  have hpart : ∀ {key value : Bytes}, chr '\n' ∉ key → key.length ≤ 20 → chr '\n' ∉ value →
      value.length ≤ 255 → chr '\n' ∉ key ++ value ∧ (key ++ value).length + 1 < 600 := by
    intro key value hk hkl hv hvl
    rw [List.mem_append, not_or, List.length_append]
    exact ⟨⟨hk, hv⟩, by omega⟩
  have hnumber : ∀ {key : Bytes} {v : Int}, chr '\n' ∉ key → key.length ≤ 20 →
      (C.ld v).length ≤ 20 → chr '\n' ∉ key ++ C.ld v ∧ (key ++ C.ld v).length + 1 < 600 :=
    fun hk hkl hvl => hpart hk hkl (newline_not_mem_ld _) (by omega)
  intro line hline
  simp only [intentLines, List.mem_cons, List.not_mem_nil, or_false] at hline
  rcases hline with rfl | rfl | rfl | rfl | rfl | rfl
  · exact hpart (by decide) (by decide) hnl (by omega)
  · exact hpart (by decide) (by decide) hmodel hlen
  · exact hnumber (by decide) (by decide) (ld_int32_length _)
  · exact hnumber (by decide) (by decide) h64
  · exact hnumber (by decide) (by decide) (ld_int32_length _)
  · exact hnumber (by decide) (by decide) (ld_int32_length _)

/-! ## Its parse -/

theorem parseField_value {key v : Bytes} {cap : Nat} (hpos : v.length ≠ 0) (hcap : v.length < cap) :
    parseField (key ++ [chr '='] ++ v) key cap = some v := by
  have hdrop : (key ++ [chr '='] ++ v).drop (key.length + 1) = v :=
    List.drop_left' (by rw [List.length_append, List.length_singleton])
  rw [parseField, if_pos (List.prefix_append _ _), hdrop]
  exact if_neg (by omega)

/-- A line as the loop compares it. -/
def seenLine (raw : Bytes) : Bytes := C.chomp (CStr.ofBytes raw).bytes

/-- A line of another key. -/
theorem parseField_other {name key : Bytes} (h : ¬ (key ++ [chr '=']) <+: name)
    (h' : ¬ name <+: (key ++ [chr '='])) (v : Bytes) (cap : Nat) :
    parseField (name ++ v) key cap = none := by
  refine if_neg fun hpre => ?_
  rcases List.prefix_or_prefix_of_prefix hpre (List.prefix_append name v) with hk | hk
  · exact h hk
  · exact h' hk

theorem parseField_own {name key v : Bytes} {cap : Nat} (hname : name = key ++ [chr '='])
    (hpos : v ≠ []) (hcap : v.length < cap) : parseField (name ++ v) key cap = some v := by
  rw [hname]
  exact parseField_value (fun h => hpos (List.length_eq_zero_iff.1 h)) hcap

section Lines

variable (p : IntentParse) {raw v : Bytes}

theorem parseIntentLine_inputHash (hraw : seenLine raw = ascii "input_hash=" ++ v) (hv : v ≠ [])
    (hlen : v.length < 65) :
    parseIntentLine p raw =
      { p with intent := { p.intent with inputHashHex := .ofBytes v }, haveHash := true } := by
  unfold seenLine at hraw
  unfold parseIntentLine
  dsimp only
  rw [hraw, parseField_own (by decide) hv hlen]

theorem parseIntentLine_modelId (hraw : seenLine raw = ascii "model_id=" ++ v) (hv : v ≠ [])
    (hlen : v.length < 256) :
    parseIntentLine p raw =
      { p with intent := { p.intent with modelId := .ofBytes v }, haveModel := true } := by
  unfold seenLine at hraw
  unfold parseIntentLine
  dsimp only
  rw [hraw, parseField_other (by decide) (by decide), parseField_own (by decide) hv hlen]

theorem parseIntentLine_maxTokens (hraw : seenLine raw = ascii "max_tokens=" ++ v) (hv : v ≠ [])
    (hlen : v.length < 64) :
    parseIntentLine p raw =
      { p with intent := { p.intent with maxTokens := .ofInt (C.strtolValue v) } } := by
  unfold seenLine at hraw
  unfold parseIntentLine
  dsimp only
  rw [hraw, parseField_other (by decide) (by decide), parseField_other (by decide) (by decide),
    parseField_own (by decide) hv hlen]

theorem parseIntentLine_seed (hraw : seenLine raw = ascii "seed=" ++ v) (hv : v ≠ [])
    (hlen : v.length < 64) :
    parseIntentLine p raw =
      { p with intent := { p.intent with seed := .ofInt (C.strtolValue v) } } := by
  unfold seenLine at hraw
  unfold parseIntentLine
  dsimp only
  rw [hraw, parseField_other (by decide) (by decide), parseField_other (by decide) (by decide),
    parseField_other (by decide) (by decide), parseField_own (by decide) hv hlen]

theorem parseIntentLine_temperature (hraw : seenLine raw = ascii "temperature_q16=" ++ v)
    (hv : v ≠ []) (hlen : v.length < 64) :
    parseIntentLine p raw =
      { p with intent := { p.intent with temperatureQ16 := .ofInt (C.strtolValue v) } } := by
  unfold seenLine at hraw
  unfold parseIntentLine
  dsimp only
  rw [hraw, parseField_other (by decide) (by decide), parseField_other (by decide) (by decide),
    parseField_other (by decide) (by decide), parseField_other (by decide) (by decide),
    parseField_own (by decide) hv hlen]

theorem parseIntentLine_topP (hraw : seenLine raw = ascii "top_p_q16=" ++ v) (hv : v ≠ [])
    (hlen : v.length < 64) :
    parseIntentLine p raw =
      { p with intent := { p.intent with topPQ16 := .ofInt (C.strtolValue v) } } := by
  unfold seenLine at hraw
  unfold parseIntentLine
  dsimp only
  rw [hraw, parseField_other (by decide) (by decide), parseField_other (by decide) (by decide),
    parseField_other (by decide) (by decide), parseField_other (by decide) (by decide),
    parseField_other (by decide) (by decide), parseField_own (by decide) hv hlen]

end Lines

theorem head?_append_ne {key rest : Bytes} {c : UInt8} (h : key.head?.any (· != c) = true) :
    (key ++ rest).head? ≠ some c := by
  cases key with
  | nil => cases h
  | cons b key => simpa using h

/-- A line that does not start with an `i` leaves the hash. -/
theorem parseIntentLine_hash (p : IntentParse) {raw : Bytes} (h : raw.head? ≠ some (chr 'i')) :
    (parseIntentLine p raw).intent.inputHashHex = p.intent.inputHashHex := by
  have hline : C.chomp (CStr.ofBytes raw).bytes <+: raw :=
    (C.chomp_prefix _).trans (List.takeWhile_prefix _)
  have hnone : parseField (C.chomp (CStr.ofBytes raw).bytes) (ascii "input_hash") 65 = none := by
    refine if_neg fun hpre => h ?_
    obtain ⟨t, ht⟩ := hpre.trans hline
    rw [← ht]
    rfl
  unfold parseIntentLine
  dsimp only
  rw [hnone]
  dsimp only
  repeat' split
  all_goals rfl

theorem foldl_parseIntentLine_hash {raws : List Bytes}
    (h : ∀ raw ∈ raws, raw.head? ≠ some (chr 'i'))
    (p : IntentParse) :
    (raws.foldl parseIntentLine p).intent.inputHashHex = p.intent.inputHashHex := by
  induction raws generalizing p with
  | nil => rfl
  | cons raw raws ih =>
    rw [List.foldl_cons, ih fun r hr => h r (List.mem_cons_of_mem _ hr)]
    exact parseIntentLine_hash p (h raw List.mem_cons_self)

/-- A line is seen as it is, with its newline or without. -/
theorem seenLine_clean {s : Bytes} (hnul : (0 : UInt8) ∉ s)
    (hend : ∀ b ∈ s.getLast?, b ≠ chr '\n' ∧ b ≠ chr '\r') :
    seenLine (s ++ [chr '\n']) = s ∧ seenLine s = s := by
  have hraw : (CStr.ofBytes (s ++ [chr '\n'])).bytes = s ++ [chr '\n'] := by
    refine CStr.ofBytes_of_nulFree ?_
    rw [List.mem_append, not_or]
    exact ⟨hnul, by decide⟩
  refine ⟨?_, ?_⟩
  · rw [seenLine, hraw, C.chomp_newline hend]
  · rw [seenLine, CStr.ofBytes_of_nulFree hnul, C.chomp_eq_self hend]

/-- The line of a key. -/
theorem seenLine_keyLine {key v : Bytes} (hkey : (0 : UInt8) ∉ key) (hv : v ≠ [])
    (hnul : (0 : UInt8) ∉ v) (hend : ∀ b ∈ v, b ≠ chr '\n' ∧ b ≠ chr '\r') :
    seenLine (key ++ v ++ [chr '\n']) = key ++ v ∧ seenLine (key ++ v) = key ++ v := by
  have hlast : (key ++ v).getLast? = v.getLast? := by
    rw [List.getLast?_append, List.getLast?_eq_some_getLast hv]
    rfl
  refine seenLine_clean ?_ ?_
  · rw [List.mem_append, not_or]
    exact ⟨hkey, hnul⟩
  · rw [hlast]
    exact fun b hb => hend b (List.mem_of_getLast? hb)

theorem ld_ne_nil (v : Int) : C.ld v ≠ [] := by
  obtain ⟨b, t, ht, -⟩ := Json.numeral_head v
  rw [C.ld, ht]
  exact List.cons_ne_nil b t

theorem strtolValue_ld {v : Int} (hlo : -2 ^ 63 ≤ v) (hhi : v < 2 ^ 63) :
    C.strtolValue (C.ld v) = v := by
  have hread := C.strtol_ld (v := v) hlo (by unfold C.longMax; omega)
  rw [C.strtolValue, hread]
  rfl

/-- The digits of a 32-bit field, cast back to it. -/
theorem int32_ld (v : Int32) :
    (C.ld v.toInt).length < 64 ∧ Int32.ofInt (C.strtolValue (C.ld v.toInt)) = v := by
  have hlo := v.le_toInt
  have hhi := v.toInt_lt
  have hlen := ld_int32_length v
  refine ⟨by omega, ?_⟩
  rw [strtolValue_ld (by omega) (by omega), Int32.ofInt_toInt]

theorem int64_ld (v : Int64) :
    (C.ld v.toInt).length < 64 ∧ Int64.ofInt (C.strtolValue (C.ld v.toInt)) = v := by
  have hlen := ld_length_le v.le_toInt v.toInt_lt
  refine ⟨by omega, ?_⟩
  rw [strtolValue_ld v.le_toInt v.toInt_lt, Int64.ofInt_toInt]

theorem last_clean_of_digits {s : Bytes} (h : ∀ b ∈ s, isDigit b = true ∨ b = 45) :
    (0 : UInt8) ∉ s ∧ ∀ b ∈ s, b ≠ chr '\n' ∧ b ≠ chr '\r' := by
  have hne : ∀ b ∈ s, b ≠ 0 ∧ b ≠ chr '\n' ∧ b ≠ chr '\r' := by
    intro b hb
    refine ⟨?_, ?_, ?_⟩ <;>
    · rintro rfl
      exact absurd (h _ hb) (by decide)
  exact ⟨fun hmem => (hne 0 hmem).1 rfl, fun b hb => (hne b hb).2⟩

/-- What a line has set stays set. -/
theorem parseIntentLine_have (p : IntentParse) (raw : Bytes) :
    (p.haveHash = true → (parseIntentLine p raw).haveHash = true) ∧
      (p.haveModel = true → (parseIntentLine p raw).haveModel = true) := by
  unfold parseIntentLine
  dsimp only
  repeat' split
  all_goals exact ⟨fun h => by first | exact h | rfl, fun h => by first | exact h | rfl⟩

theorem foldl_parseIntentLine_have (raws : List Bytes) (p : IntentParse) :
    (p.haveHash = true → (raws.foldl parseIntentLine p).haveHash = true) ∧
      (p.haveModel = true → (raws.foldl parseIntentLine p).haveModel = true) := by
  induction raws generalizing p with
  | nil => exact ⟨id, id⟩
  | cons raw raws ih =>
    have hline := parseIntentLine_have p raw
    have hrest := ih (parseIntentLine p raw)
    exact ⟨fun h => hrest.1 (hline.1 h), fun h => hrest.2 (hline.2 h)⟩

/-- An intent as a request writes it: a hash in hex, and a model name without control characters. -/
structure GwIntent.Plain (i : GwIntent) : Prop where
  hashLen : i.inputHashHex.bytes.length = 64
  hashHex : ∀ b ∈ i.inputHashHex.bytes, 48 ≤ b.toNat
  modelClean : ∀ b ∈ i.modelId.bytes, 0x20 ≤ b.toNat
  modelLen : i.modelId.bytes.length ≤ 255

namespace GwIntent.Plain

variable {i : GwIntent} (hi : i.Plain)

include hi in
theorem hash_ne_nil : i.inputHashHex.bytes ≠ [] := by
  intro h
  have hlen := hi.hashLen
  rw [h] at hlen
  cases hlen

include hi in
theorem hashClean : ∀ b ∈ i.inputHashHex.bytes, b ≠ chr '\n' ∧ b ≠ chr '\r' := by
  intro b hb
  have hlow := hi.hashHex b hb
  constructor
  · rintro rfl
    exact absurd hlow (by decide)
  · rintro rfl
    exact absurd hlow (by decide)

include hi in
theorem modelEnds : ∀ b ∈ i.modelId.bytes, b ≠ chr '\n' ∧ b ≠ chr '\r' := by
  intro b hb
  have hlow := hi.modelClean b hb
  constructor
  · rintro rfl
    exact absurd hlow (by decide)
  · rintro rfl
    exact absurd hlow (by decide)

include hi in
/-- The loop reads the lines that were written. -/
theorem fgetsAll : C.fgetsAll 600 (intentText i).length (intentText i) =
    (intentLines i).map (· ++ [chr '\n']) := by
  have hlines := intentLines_short hi.hashLen (fun hmem => (hi.hashClean _ hmem).1 rfl)
    (fun hmem => (hi.modelEnds _ hmem).1 rfl) hi.modelLen
  have hfuel : (intentLines i).length ≤ (intentText i).length := by
    rw [intentText, intentLines]
    simp only [List.length_append, List.length_cons, List.length_nil, hi.hashLen]
    omega
  have := C.fgetsAll_lines hlines hfuel
  rwa [← intentText_eq] at this

include hi in
/-- The hash behind the last line. -/
theorem hash (p : IntentParse) :
    (((intentLines i).map (· ++ [chr '\n'])).foldl parseIntentLine p).intent.inputHashHex.bytes =
      i.inputHashHex.bytes := by
  unfold intentLines
  rw [List.map_cons, List.foldl_cons, foldl_parseIntentLine_hash]
  · have hlen := hi.hashLen
    have hne : i.inputHashHex.bytes ≠ [] := hi.hash_ne_nil
    have hkey : (0 : UInt8) ∉ ascii "input_hash=" := by decide
    have hline := (seenLine_keyLine hkey hne i.inputHashHex.nulFree hi.hashClean).1
    rw [parseIntentLine_inputHash p hline hne (by omega)]
    exact CStr.ofBytes_of_nulFree i.inputHashHex.nulFree
  · intro raw hraw
    simp only [List.map_cons, List.map_nil, List.mem_cons, List.not_mem_nil, or_false] at hraw
    rcases hraw with rfl | rfl | rfl | rfl | rfl <;> rw [List.append_assoc] <;>
      exact head?_append_ne (by decide)

end GwIntent.Plain

/-- **The WAL keeps the hash**: what is read back from the text of an intent has its hash. -/
theorem parseIntent_intentText {i j : GwIntent} (hi : i.Plain)
    (h : parseIntent (intentText i) = .intent j) :
    j.inputHashHex.bytes = i.inputHashHex.bytes := by
  unfold parseIntent at h
  dsimp only at h
  rw [hi.fgetsAll] at h
  split at h
  · cases h
  · cases h
    exact hi.hash intentParseInit

theorem seenLine_intentLines {i : GwIntent} (hi : i.Plain) (hmodel : i.modelId.bytes ≠ []) :
    ∀ l ∈ intentLines i, seenLine (l ++ [chr '\n']) = l ∧ seenLine l = l := by
  have hnumber : ∀ {key : Bytes} (v : Int), (0 : UInt8) ∉ key →
      seenLine (key ++ C.ld v ++ [chr '\n']) = key ++ C.ld v ∧
        seenLine (key ++ C.ld v) = key ++ C.ld v := by
    intro key v hkey
    obtain ⟨hnul, hend⟩ := last_clean_of_digits (C.ld_digits v)
    exact seenLine_keyLine hkey (ld_ne_nil v) hnul hend
  intro l hl
  simp only [intentLines, List.mem_cons, List.not_mem_nil, or_false] at hl
  rcases hl with rfl | rfl | rfl | rfl | rfl | rfl
  · exact seenLine_keyLine (by decide) hi.hash_ne_nil i.inputHashHex.nulFree hi.hashClean
  · exact seenLine_keyLine (by decide) hmodel i.modelId.nulFree hi.modelEnds
  · exact hnumber _ (by decide)
  · exact hnumber _ (by decide)
  · exact hnumber _ (by decide)
  · exact hnumber _ (by decide)

/-- **The six lines give the intent**, in whatever way each line ends. -/
theorem foldl_intentLines {i : GwIntent} (hi : i.Plain) (hmodel : i.modelId.bytes ≠ [])
    {raws : List Bytes} (hraws : raws.map seenLine = intentLines i) (p : IntentParse) :
    raws.foldl parseIntentLine p = ⟨i, true, true⟩ := by
  have hlen := hi.hashLen
  have hmlen := hi.modelLen
  obtain ⟨r1, r2, r3, r4, r5, r6, rfl⟩ : ∃ r1 r2 r3 r4 r5 r6, raws = [r1, r2, r3, r4, r5, r6] := by
    have hsix := congrArg List.length hraws
    rw [List.length_map] at hsix
    match raws, hsix with
    | [r1, r2, r3, r4, r5, r6], _ => exact ⟨r1, r2, r3, r4, r5, r6, rfl⟩
  simp only [List.map_cons, List.map_nil, intentLines, List.cons.injEq, and_true] at hraws
  obtain ⟨h1, h2, h3, h4, h5, h6⟩ := hraws
  simp only [List.foldl_cons, List.foldl_nil]
  rw [parseIntentLine_inputHash p h1 hi.hash_ne_nil (by omega),
    parseIntentLine_modelId _ h2 hmodel (by omega),
    parseIntentLine_maxTokens _ h3 (ld_ne_nil _) (int32_ld _).1,
    parseIntentLine_seed _ h4 (ld_ne_nil _) (int64_ld _).1,
    parseIntentLine_temperature _ h5 (ld_ne_nil _) (int32_ld _).1,
    parseIntentLine_topP _ h6 (ld_ne_nil _) (int32_ld _).1]
  have hself : ∀ c : CStr, CStr.ofBytes c.bytes = c :=
    fun c => CStr.ext (CStr.ofBytes_of_nulFree c.nulFree)
  simp only [(int32_ld _).2, (int64_ld _).2, hself]

theorem parseIntent_length {bs : Bytes} {i : GwIntent} (h : parseIntent bs = .intent i) :
    i.inputHashHex.bytes.length = 64 := by
  unfold parseIntent at h
  dsimp only at h
  split at h
  · cases h
  · next hc =>
    cases h
    simp only [Bool.or_eq_true, not_or, decide_eq_true_eq, ne_eq, not_not] at hc
    exact hc.2

/-! ## The stored observation -/

theorem obsText_infix (obs : AxObsRecord) (includeHash : Bool) :
    hexOf obs.inputHash.bytes <:+: obsText obs includeHash := by
  unfold obsText
  simp only [List.append_assoc]
  iterate 5 refine List.infix_append_of_infix_right ?_
  exact List.infix_append_left

theorem hex32_bytes (d : Digest) : (hex32 d).bytes = hexOf d.bytes := ofBytes_hexOf d.bytes

theorem hex32_length (d : Digest) : (hex32 d).bytes.length = 64 := by
  rw [hex32_bytes, hexOf_length, d.size]
  rfl

/-- The stale test finds the input hash in the text of a record. -/
theorem lastPayloadContains_obsText (obs : AxObsRecord) :
    lastPayloadContains (obsText obs true) (hex32 obs.inputHash).bytes = true := by
  have hin := obsText_infix obs true
  have hlen := hex32_length obs.inputHash
  have hle := hin.length_le
  rw [hex32_bytes] at hlen ⊢
  rw [lastPayloadContains, if_neg (by omega), if_neg (by omega)]
  exact C.contains_of_infix hin

variable {S : Substrate} {cfg : GwConfig}

theorem inputHashOf_ofBytes {input : Bytes} (hne : input ≠ []) (hlen : input.length < sizeMod) :
    inputHashOf S (.ofBytes input) = axComputeInputHash S input := by
  have hpos : 0 < input.length := List.length_pos_iff.2 hne
  rw [CBuf.ofBytes, dif_pos hlen, inputHashOf]
  simp [CBuf.isNull, CBuf.len, CBuf.bytes, hpos]

theorem clean_of_idIsWellFormed {c : CStr} (h : idIsWellFormed (some c) = true) :
    ∀ b ∈ c.bytes, 0x20 ≤ b.toNat := by
  intro b hb
  by_contra hlow
  have hctl : (c.bytes.any fun c => c.toNat < 0x20 || c == 0x7F) = true :=
    List.any_eq_true.2 ⟨b, hb, by simp [Nat.not_le.1 hlow]⟩
  unfold idIsWellFormed at h
  dsimp only at h
  rw [hctl] at h
  split at h <;> cases h

/-- The intent of a request is plain, when the name of the model has no control characters. -/
theorem requestIntent_plain (hmodel : ∀ b ∈ cfg.modelId.bytes, 0x20 ≤ b.toNat) (norm : Bytes)
    (params : AxOracleParams) : (requestIntent (S := S) cfg norm params).Plain where
  hashLen := hex32_length _
  hashHex := by
    intro b hb
    have hb' : b ∈ hexOf (axComputeInputHash S norm).bytes := hex32_bytes _ ▸ hb
    exact (hexOf_range _ b hb').1
  modelClean b hb := hmodel b (List.mem_of_mem_take ((List.takeWhile_sublist _).subset hb))
  modelLen := Nat.le_trans (CStr.ofBytes_length_le _) (List.length_take_le _ _)

/-- The hash in the WAL of a request is that of its prompt. -/
theorem parseIntent_requestIntent {norm : Bytes} {params : AxOracleParams} {j : GwIntent}
    (hmodel : idIsWellFormed (some cfg.modelId) = true)
    (h : parseIntent (intentText (requestIntent (S := S) cfg norm params)) = .intent j) :
    j.inputHashHex.bytes = (hex32 (axComputeInputHash S norm)).bytes :=
  parseIntent_intentText (requestIntent_plain (clean_of_idIsWellFormed hmodel) norm params) h

end AxiomaOracle
