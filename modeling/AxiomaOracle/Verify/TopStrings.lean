import AxiomaOracle.Verify.Messages

/-!
# Strings by name

What `gwj_top_string` and `gwj_error_message` return is a function of the value that the body
denotes: the first member of a name, as `strcmp` sees the names in their buffers (`firstNamed`).
With the text of `Extraction` this holds of all that is read from a response (`answer_by_value`):
how a value is spelled, its white space and its escapes, has no part in what is recorded of it.
-/

namespace AxiomaOracle

open Lib Lib.Json

variable {body s r key : Bytes} {cap : Nat}

/-! ## Members by name -/

/-- The value of the first member of a name; none when a name in front of it cannot be read. -/
def firstNamed (keyCap : Nat) (key : Bytes) : List (Bytes × Json) → Option Json
  | [] => none
  | (k, v) :: ms =>
    (readName keyCap k).bind fun name => if name = key then some v else firstNamed keyCap key ms

/-- A string as it is read into a buffer of `cap` bytes, its NUL included. -/
def readString (cap : Nat) (v : Json) : Option Bytes :=
  (stringOf v).bind fun t => if Utf8.check t = true ∧ t.length ≤ cap - 1 then some t else none

def readTop (key : Bytes) (cap : Nat) (ms : List (Bytes × Json)) : Option Bytes :=
  (firstNamed 63 key ms).bind (readString cap)

def membersOf : Json → Option (List (Bytes × Json))
  | .obj ms => some ms
  | _ => none

def readError (cap : Nat) (ms : List (Bytes × Json)) : Option Bytes :=
  ((firstNamed 31 (ascii "error") ms).bind membersOf).bind (readTop (ascii "message") cap)

/-- A name that fits its buffer. -/
def FitsName (keyCap : Nat) (k : Bytes) : Prop := Utf8.Valid k ∧ k.length ≤ keyCap

/-- **The first member of a name**: the names in front of it can be read, and are others. -/
theorem firstNamed_iff {keyCap : Nat} {ms : List (Bytes × Json)} {v : Json} :
    firstNamed keyCap key ms = some v ↔ ∃ pre k post, ms = pre ++ (k, v) :: post ∧
      (FitsName keyCap k ∧ cstr k = key) ∧ ∀ m ∈ pre, FitsName keyCap m.1 ∧ cstr m.1 ≠ key := by
  induction ms with
  | nil =>
    refine ⟨fun h => (by cases h), ?_⟩
    rintro ⟨pre, k, post, heq, -⟩
    exact absurd heq (by simp)
  | cons m ms ih =>
    obtain ⟨k, u⟩ := m
    rw [firstNamed, Option.bind_eq_some_iff]
    constructor
    · rintro ⟨name, hname, h⟩
      obtain ⟨hfits, rfl⟩ := readName_iff.1 hname
      by_cases hkey : cstr k = key
      · rw [if_pos hkey] at h
        cases h
        exact ⟨[], k, ms, rfl, ⟨hfits, hkey⟩, fun m hm => absurd hm List.not_mem_nil⟩
      · rw [if_neg hkey] at h
        obtain ⟨pre, k', post, rfl, hk', hpre⟩ := ih.1 h
        exact ⟨(k, u) :: pre, k', post, rfl, hk', List.forall_mem_cons.2 ⟨⟨hfits, hkey⟩, hpre⟩⟩
    · rintro ⟨pre, k', post, heq, ⟨hfits, hkey⟩, hpre⟩
      cases pre with
      | nil =>
        obtain ⟨heq, -⟩ := List.cons.inj heq
        cases heq
        exact ⟨cstr k, readName_iff.2 ⟨hfits, rfl⟩, if_pos hkey⟩
      | cons m pre =>
        obtain ⟨rfl, rfl⟩ := List.cons.inj heq
        obtain ⟨⟨hfits', hother⟩, hrest⟩ := List.forall_mem_cons.1 hpre
        refine ⟨cstr k, readName_iff.2 ⟨hfits', rfl⟩, ?_⟩
        rw [if_neg hother]
        exact ih.2 ⟨pre, k', post, rfl, ⟨hfits, hkey⟩, hrest⟩

/-! ## The loops -/

theorem readString_of_reads {v : Json} (hv : Utf8.Valid body) (hs : s <:+ body)
    (hread : Json.Reads (.value v) s r) (cap : Nat) :
    (sDecodeString (cap - 1) 0 (sWs s)).map Prod.fst = readString cap v := by
  by_cases hq : ∃ s', sWs s = chr '"' :: s'
  · obtain ⟨s', hq⟩ := hq
    obtain ⟨t, rfl, ht⟩ := str_text hread hq
    rw [hq, sDecodeString_of_string (valid_of_quote hv hs hq) ht (Nat.zero_le _), Nat.zero_add,
      readString, stringOf, Option.bind_some]
    split <;> rfl
  · have hne : ∀ s', sWs s ≠ chr '"' :: s' := fun s' h => hq ⟨s', h⟩
    have hother : stringOf v = none := by
      cases v with
      | str t =>
        obtain ⟨s', hq, -⟩ := str_opens hread
        exact absurd hq (hne s')
      | _ => rfl
    rw [sDecodeString_none hne, readString, hother]
    rfl

theorem not_close_of_quote {s1 : Bytes} (h : sWs s = chr '"' :: s1) :
    (sWs s).head? ≠ some (chr '}') := by
  rw [h]
  exact fun h => absurd (Option.some.inj h) (by decide)

theorem topStringLoop_eq {ms : List (Bytes × Json)} {fuel : Nat} (hv : Utf8.Valid body)
    (hs : s <:+ body) (hread : Json.Reads (.members ms) s r) (hnest : nestingMembers ms ≤ 64)
    (hfuel : s.length ≤ fuel + r.length) : topStringLoop key cap fuel s = readTop key cap ms := by
  induction ms generalizing fuel s with
  | nil => cases hread
  | cons m ms ih =>
    have hlen := hread.length_lt
    obtain ⟨fuel, rfl⟩ : ∃ m, fuel = m + 1 := ⟨fuel - 1, by omega⟩
    obtain ⟨k, v⟩ := m
    rw [nestingMembers] at hnest
    obtain ⟨s1, s2, s3, s4, s5, c, h⟩ := members_text hread
    have hless := h.length_lt
    have hs3 : s3 <:+ body := h.value_suffix.trans hs
    rw [topStringLoop, if_neg (not_close_of_quote h.quote),
      memberKey_of_reads 63 hv hs h.quote h.key h.colon, readTop, firstNamed]
    cases readName 63 k with
    | none => rfl
    | some name =>
      simp only [Option.map_some, Option.bind_some]
      by_cases hname : name = key
      · rw [if_pos hname, if_pos hname]
        exact readString_of_reads hv hs3 h.value cap
      · have hskip : sSkipValue (sWs s3) = some s4 :=
          sSkipValue_of_reads (h.value.congr (skipWs_skipWs s3)) h.bounded (by omega)
        rw [if_neg hname, if_neg hname, hskip]
        simp only [h.next]
        rcases h.rest with ⟨rfl, hms⟩ | ⟨rfl, rfl, rfl⟩
        · exact ih (h.rest_suffix.trans hs) hms (by omega) (by omega)
        · rfl

/-- `gwj_top_string` on an object, whatever stands behind it. -/
theorem gwjTopString_eq {ms : List (Bytes × Json)} (hv : Utf8.Valid body) (hs : s <:+ body)
    (hread : Json.Reads (.value (.obj ms)) s r) (hnest : nesting (.obj ms) ≤ 65) (key : Bytes)
    (cap : Nat) : gwjTopString s key cap = readTop key cap ms := by
  obtain ⟨s', hopen, hms⟩ := obj_opens hread
  have hlen := length_lt_of_skipWs hopen
  rw [nesting] at hnest
  unfold gwjTopString
  rw [hopen]
  dsimp only
  rw [if_pos rfl]
  rcases hms with ⟨rfl, hclose⟩ | hms
  · obtain ⟨fuel, hfuel⟩ : ∃ m, s.length = m + 1 := ⟨s.length - 1, by omega⟩
    rw [hfuel, topStringLoop, hclose, List.head?_cons, if_pos rfl]
    rfl
  · exact topStringLoop_eq hv ((suffix_of_skipWs hopen).trans hs) hms (by omega) (by omega)

theorem membersOf_of_other {v : Json} (hread : Json.Reads (.value v) s r)
    (hne : (sWs s).head? ≠ some (chr '{')) : membersOf v = none := by
  cases v with
  | obj ms =>
    obtain ⟨s', hopen, -⟩ := obj_opens hread
    exact absurd (by rw [hopen]; rfl) hne
  | _ => rfl

theorem errorMessageLoop_eq {ms : List (Bytes × Json)} {fuel : Nat} (hv : Utf8.Valid body)
    (hs : s <:+ body) (hread : Json.Reads (.members ms) s r) (hnest : nestingMembers ms ≤ 64)
    (hfuel : s.length ≤ fuel + r.length) : errorMessageLoop cap fuel s = readError cap ms := by
  induction ms generalizing fuel s with
  | nil => cases hread
  | cons m ms ih =>
    have hlen := hread.length_lt
    obtain ⟨fuel, rfl⟩ : ∃ m, fuel = m + 1 := ⟨fuel - 1, by omega⟩
    obtain ⟨k, v⟩ := m
    rw [nestingMembers] at hnest
    obtain ⟨s1, s2, s3, s4, s5, c, h⟩ := members_text hread
    have hless := h.length_lt
    have hs3 : s3 <:+ body := h.value_suffix.trans hs
    have hvalue := h.value.congr (skipWs_skipWs s3)
    rw [errorMessageLoop, if_neg (not_close_of_quote h.quote),
      memberKey_of_reads 31 hv hs h.quote h.key h.colon, readError, firstNamed]
    cases readName 31 k with
    | none => rfl
    | some name =>
      simp only [Option.map_some, Option.bind_some]
      by_cases hname : name = ascii "error"
      · rw [if_pos hname, if_pos hname, Option.bind_some]
        by_cases hbrace : (sWs s3).head? = some (chr '{')
        · obtain ⟨s0, hopen⟩ : ∃ s0, sWs s3 = chr '{' :: s0 := List.head?_eq_some_iff.1 hbrace
          obtain ⟨fs, rfl⟩ := obj_text h.value hopen
          rw [if_pos hbrace, gwjTopString_eq hv ((sWs_suffix s3).trans hs3) hvalue (by omega)]
          rfl
        · rw [if_neg hbrace, membersOf_of_other h.value hbrace]
          rfl
      · have hskip : sSkipValue (sWs s3) = some s4 :=
          sSkipValue_of_reads hvalue h.bounded (by omega)
        rw [if_neg hname, if_neg hname, hskip]
        simp only [h.next]
        rcases h.rest with ⟨rfl, hms⟩ | ⟨rfl, rfl, rfl⟩
        · exact ih (h.rest_suffix.trans hs) hms (by omega) (by omega)
        · rfl

theorem gwjErrorMessage_eq {ms : List (Bytes × Json)} (hv : Utf8.Valid body)
    (hread : Json.Reads (.value (.obj ms)) body r) (hnest : nesting (.obj ms) ≤ 65) (cap : Nat) :
    gwjErrorMessage body cap = readError cap ms := by
  obtain ⟨s, hopen, hms⟩ := obj_opens hread
  have hlen := length_lt_of_skipWs hopen
  rw [nesting] at hnest
  unfold gwjErrorMessage
  rw [hopen]
  dsimp only
  rw [if_pos rfl]
  rcases hms with ⟨rfl, hclose⟩ | hms
  · obtain ⟨fuel, hfuel⟩ : ∃ m, body.length = m + 1 := ⟨body.length - 1, by omega⟩
    rw [hfuel, errorMessageLoop, hclose, List.head?_cons, if_pos rfl]
    rfl
  · exact errorMessageLoop_eq hv (suffix_of_skipWs hopen) hms (by omega) (by omega)

/-! ## What is found -/

/-- The first member named `key` is `v`, for names that are read into `keyCap` bytes. -/
def FirstIs (keyCap : Nat) (key : Bytes) (ms : List (Bytes × Json)) (v : Json) : Prop :=
  ∃ pre k post, ms = pre ++ (k, v) :: post ∧ (FitsName keyCap k ∧ cstr k = key) ∧
    ∀ m ∈ pre, FitsName keyCap m.1 ∧ cstr m.1 ≠ key

theorem readTop_iff {ms : List (Bytes × Json)} {t : Bytes} :
    readTop key cap ms = some t ↔
      FirstIs 63 key ms (.str t) ∧ Utf8.Valid t ∧ t.length ≤ cap - 1 := by
  rw [readTop, Option.bind_eq_some_iff]
  constructor
  · rintro ⟨v, hv, h⟩
    obtain ⟨u, hu, h⟩ := Option.bind_eq_some_iff.1 h
    rw [Option.ite_none_right_eq_some, Option.some.injEq, Utf8.check_iff] at h
    obtain ⟨⟨hvalid, hfits⟩, rfl⟩ := h
    cases v with
    | str w =>
      obtain rfl := Option.some.inj hu
      exact ⟨firstNamed_iff.1 hv, hvalid, hfits⟩
    | _ => cases hu
  · rintro ⟨hfirst, hvalid, hfits⟩
    refine ⟨_, firstNamed_iff.2 hfirst, ?_⟩
    rw [readString, stringOf, Option.bind_some, if_pos ⟨(Utf8.check_iff _).2 hvalid, hfits⟩]

/-- **Strings by name**, on every JSON object that is not nested too deep and every buffer of
`cap + 1` bytes: `gwj_top_string` gives the first member of the name, when it is a string that fits,
and `gwj_error_message` the message of the first member `error`. A name in front of it that is too
long for its buffer, or is not valid UTF-8, hides it. -/
theorem top_strings_exact {ms : List (Bytes × Json)} (hdecode : Json.decode body = some (.obj ms))
    (hnest : nesting (.obj ms) ≤ 65) (cap : Nat) (t : Bytes) :
    (∀ key, gwjTopString body key (cap + 1) = some t ↔
      FirstIs 63 key ms (.str t) ∧ Utf8.Valid t ∧ t.length ≤ cap) ∧
    (gwjErrorMessage body (cap + 1) = some t ↔ ∃ es, FirstIs 31 (ascii "error") ms (.obj es) ∧
      FirstIs 63 (ascii "message") es (.str t) ∧ Utf8.Valid t ∧ t.length ≤ cap) := by
  obtain ⟨hv, r, hread, -⟩ := decode_iff.1 hdecode
  refine ⟨fun key => ?_, ?_⟩
  · rw [gwjTopString_eq hv List.suffix_rfl hread hnest]
    exact readTop_iff
  · rw [gwjErrorMessage_eq hv hread hnest, readError, Option.bind_eq_some_iff]
    constructor
    · rintro ⟨es, hes, h⟩
      obtain ⟨v, hfirst, hmembers⟩ := Option.bind_eq_some_iff.1 hes
      cases v with
      | obj fs =>
        obtain rfl : fs = es := Option.some.inj hmembers
        exact ⟨fs, firstNamed_iff.1 hfirst, readTop_iff.1 h⟩
      | _ => cases hmembers
    · rintro ⟨es, hfirst, h⟩
      refine ⟨es, ?_, readTop_iff.2 h⟩
      rw [firstNamed_iff.2 hfirst]
      rfl

/-- An error behind a member of this name. -/
def errorMembers (first : Bytes) : List (Bytes × Json) :=
  [(first, .null), (ascii "error", .obj [(ascii "message", .str (ascii "busy"))])]

theorem errorMembers_decode {first : Bytes} (h : Utf8.Valid first) :
    Json.decode (render (.obj (errorMembers first))) = some (.obj (errorMembers first)) :=
  decode_render ⟨h, trivial, .of_ascii (by decide),
    ⟨.of_ascii (by decide), .of_ascii (by decide), trivial⟩, trivial⟩

theorem top_strings_exact_sample :
    gwjErrorMessage (render (.obj (errorMembers (ascii "type")))) 400 = some (ascii "busy") := by
  have hname : FitsName 31 (ascii "error") ∧ cstr (ascii "error") = ascii "error" :=
    ⟨⟨.of_ascii (by decide), by decide⟩, by decide⟩
  have hfirst : FirstIs 31 (ascii "error") (errorMembers (ascii "type"))
      (.obj [(ascii "message", .str (ascii "busy"))]) := by
    refine ⟨[(ascii "type", .null)], _, [], rfl, hname, fun m hm => ?_⟩
    obtain rfl := List.mem_singleton.1 hm
    exact ⟨⟨.of_ascii (by decide), by decide⟩, by decide⟩
  have hmessage : FirstIs 63 (ascii "message") [(ascii "message", .str (ascii "busy"))]
      (.str (ascii "busy")) :=
    ⟨[], _, [], rfl, ⟨⟨.of_ascii (by decide), by decide⟩, by decide⟩, fun m hm =>
      absurd hm List.not_mem_nil⟩
  exact (top_strings_exact (errorMembers_decode (.of_ascii (by decide))) (by decide) 399
    (ascii "busy")).2.2 ⟨_, hfirst, hmessage, .of_ascii (by decide), by decide⟩

/-! ## The answer is a function of the value -/

theorem not_open_of_decode {v : Json} (hread : Json.Reads (.value v) body r)
    (hother : ∀ ms, v ≠ .obj ms) : ∀ s', sWs body ≠ chr '{' :: s' := by
  intro s' hopen
  obtain ⟨ms, rfl⟩ := obj_text hread hopen
  exact hother ms rfl

/-- A body that is no object gives nothing. -/
theorem scan_other {v : Json} (hread : Json.Reads (.value v) body r) (hother : ∀ ms, v ≠ .obj ms)
    (key : Bytes) (cap : Nat) :
    gwjContentText body cap = none ∧ gwjTopString body key cap = none ∧
      gwjErrorMessage body cap = none := by
  have hne := not_open_of_decode hread hother
  unfold gwjContentText gwjTopString gwjErrorMessage
  cases hws : sWs body with
  | nil => exact ⟨rfl, rfl, rfl⟩
  | cons c s =>
    have hc : c ≠ chr '{' := by
      rintro rfl
      exact hne s hws
    exact ⟨if_pos hc, if_neg hc, if_neg hc⟩

/-- **The answer is a function of the value.** Two bodies that denote the same value, however each
is spelled, give the same text and stop reason, the same upstream message, and results that carry
them the same outcome. -/
theorem answer_by_value {body' : Bytes} {v : Json} (h : Json.decode body = some v)
    (h' : Json.decode body' = some v) (hnest : nesting v ≤ 65) :
    extractText body = extractText body' ∧
    (∀ cap, gwjErrorMessage body cap = gwjErrorMessage body' cap) ∧
    ∀ res : GwcResult,
      outcomeFrom { res with body := some body } = outcomeFrom { res with body := some body' } := by
  obtain ⟨hv, r, hread, -⟩ := decode_iff.1 h
  obtain ⟨hv', r', hread', -⟩ := decode_iff.1 h'
  have hsame : (∀ cap, gwjContentText body cap = gwjContentText body' cap) ∧
      (∀ key cap, gwjTopString body key cap = gwjTopString body' key cap) ∧
      ∀ cap, gwjErrorMessage body cap = gwjErrorMessage body' cap := by
    by_cases hobj : ∃ ms, v = .obj ms
    · obtain ⟨ms, rfl⟩ := hobj
      refine ⟨fun cap => ?_, fun key cap => ?_, fun cap => ?_⟩
      · rw [gwjContentText_eq h hnest, gwjContentText_eq h' hnest]
      · rw [gwjTopString_eq hv List.suffix_rfl hread hnest,
          gwjTopString_eq hv' List.suffix_rfl hread' hnest]
      · rw [gwjErrorMessage_eq hv hread hnest, gwjErrorMessage_eq hv' hread' hnest]
    · have hother : ∀ ms, v ≠ .obj ms := fun ms heq => hobj ⟨ms, heq⟩
      have hnone := scan_other hread hother
      have hnone' := scan_other hread' hother
      exact ⟨fun cap => (hnone [] cap).1.trans (hnone' [] cap).1.symm,
        fun key cap => (hnone key cap).2.1.trans (hnone' key cap).2.1.symm,
        fun cap => (hnone [] cap).2.2.trans (hnone' [] cap).2.2.symm⟩
  obtain ⟨htext, hstop, herror⟩ := hsame
  have hextract : extractText body = extractText body' := by
    unfold extractText
    rw [htext, hstop]
  refine ⟨hextract, herror, fun res => ?_⟩
  unfold outcomeFrom
  dsimp only [Option.getD_some]
  rw [hextract]

/-- A line in front of a body has no part in its value. -/
theorem decode_newline {v : Json} (h : Json.decode body = some v) :
    Json.decode (chr '\n' :: body) = some v := by
  obtain ⟨hv, r, hread, hend⟩ := decode_iff.1 h
  exact decode_iff.2 ⟨.append (.of_ascii (by decide) : Utf8.Valid [chr '\n']) hv, r,
    hread.congr rfl, hend⟩

theorem answer_by_value_sample :
    extractText (chr '\n' :: render (.obj helloMessage)) =
      extractText (render (.obj helloMessage)) := by
  have hdecode : Json.decode (render (.obj helloMessage)) = some (.obj helloMessage) :=
    oneBlock_decode (by decide)
  exact (answer_by_value (decode_newline hdecode) hdecode (by decide)).1

end AxiomaOracle
