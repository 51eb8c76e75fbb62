import AxiomaOracle.Verify.Extraction
import Mathlib.Data.List.Nodup

/-!
# Messages

`messageText` is what a Messages API response says: the text members of the blocks of type `text`,
in order. The extractor looks names up as `strcmp` does, in small buffers, so it computes `cutText`
of the bodies it can read (`Readable`). `message_text_iff` compares the two: to be readable is
necessary, and where no name passes for another at its first NUL (`Unaliased`) it is enough.
-/

namespace AxiomaOracle

open Lib Lib.Json

/-! ## The text of a message -/

/-- What a block of the content says. -/
def textOf : Json → Bytes
  | .obj fs =>
    match fs.lookup (ascii "type"), fs.lookup (ascii "text") with
    | some (.str t), some (.str u) => if t = ascii "text" then u else []
    | _, _ => []
  | _ => []

/-- **The text of a response.** -/
def messageText (ms : List (Bytes × Json)) : Bytes :=
  match ms.lookup (ascii "content") with
  | some (.arr bs) => bs.flatMap textOf
  | _ => []

/-- A response with the content `bs`: each block has a type, and a text block has a text. -/
structure Message (ms : List (Bytes × Json)) (bs : List Json) : Prop where
  distinct : (ms.map Prod.fst).Nodup
  content : (ascii "content", .arr bs) ∈ ms
  blocks : ∀ b ∈ bs, ∃ fs, b = .obj fs ∧ (fs.map Prod.fst).Nodup ∧
    ∃ t, (ascii "type", .str t) ∈ fs ∧
      (t = ascii "text" → ∃ u, (ascii "text", .str u) ∈ fs ∧ Utf8.Valid u)

/-! ## The text with names cut at their first NUL -/

/-- Does the member make its block a text? -/
def isTextType (f : Bytes × Json) : Bool :=
  cstr f.1 = ascii "type" && (stringOf f.2).map cstr = some (ascii "text")

def textField (f : Bytes × Json) : Option Bytes :=
  if cstr f.1 = ascii "text" then stringOf f.2 else none

/-- The last text of a block. -/
def lastText (fs : List (Bytes × Json)) : Option Bytes := (fs.filterMap textField).getLast?

def cutTextOf : Json → Bytes
  | .obj fs => if fs.any isTextType then (lastText fs).getD [] else []
  | _ => []

def cutContentOf (m : Bytes × Json) : Bytes :=
  if cstr m.1 = ascii "content" then ((arrayOf m.2).getD []).flatMap cutTextOf else []

def cutText (ms : List (Bytes × Json)) : Bytes := ms.flatMap cutContentOf

/-! ## Bodies that fit the buffers -/

/-- A member of a block: its key fits 31 bytes, a type is a string of at most 15 bytes, a text is a
string. -/
structure ReadableField (f : Bytes × Json) : Prop where
  key : Utf8.Valid f.1 ∧ f.1.length ≤ 31
  type : cstr f.1 = ascii "type" → ∃ t, f.2 = .str t ∧ Utf8.Valid t ∧ t.length ≤ 15
  text : cstr f.1 = ascii "text" → ∃ u, f.2 = .str u

/-- A block, and the text that is taken from it. -/
structure ReadableBlock (fs : List (Bytes × Json)) : Prop where
  fields : ∀ f ∈ fs, ReadableField f
  taken : fs.any isTextType = true → ∀ u ∈ lastText fs, Utf8.Valid u

/-- A member of the body: its key fits 63 bytes, and a content is an array of blocks. -/
structure ReadableMember (m : Bytes × Json) : Prop where
  key : Utf8.Valid m.1 ∧ m.1.length ≤ 63
  content : cstr m.1 = ascii "content" →
    ∃ bs, m.2 = .arr bs ∧ ∀ b ∈ bs, ∃ fs, b = .obj fs ∧ ReadableBlock fs

def Readable (ms : List (Bytes × Json)) : Prop := ∀ m ∈ ms, ReadableMember m

/-! ## Reading what is readable -/

theorem readName_iff {cap : Nat} {k name : Bytes} :
    readName cap k = some name ↔ (Utf8.Valid k ∧ k.length ≤ cap) ∧ cstr k = name := by
  simp only [readName, Utf8.check_iff, Option.ite_none_right_eq_some, Option.some.injEq]

section

variable {k : Bytes}

theorem isTextType_str (h : cstr k = ascii "type") (t : Bytes) :
    isTextType (k, .str t) = decide (cstr t = ascii "text") := by
  simp [isTextType, stringOf, h]

theorem isTextType_other (h : cstr k ≠ ascii "type") (v : Json) : isTextType (k, v) = false := by
  simp [isTextType, h]

theorem textField_str (h : cstr k = ascii "text") (u : Bytes) : textField (k, .str u) = some u := by
  simp [textField, stringOf, h]

theorem textField_other (h : cstr k ≠ ascii "text") (v : Json) : textField (k, v) = none := by
  simp [textField, h]

end

theorem type_ne_text : ascii "type" ≠ ascii "text" := by decide

theorem readField_iff {isText : Bool} {text : Option Bytes} {k : Bytes} {v : Json}
    {res : Bool × Option Bytes} :
    ((readName 31 k).bind fun name => readField isText text name v) = some res ↔
      ReadableField (k, v) ∧
        (isText || isTextType (k, v), (textField (k, v)).or text) = res := by
  rw [Option.bind_eq_some_iff]
  constructor
  · rintro ⟨name, hname, h⟩
    obtain ⟨hkey, rfl⟩ := readName_iff.1 hname
    unfold readField at h
    by_cases htype : cstr k = ascii "type"
    · have htext : cstr k ≠ ascii "text" := htype ▸ type_ne_text
      rw [if_pos htype] at h
      obtain ⟨t, ht, rfl⟩ := Option.map_eq_some_iff.1 h
      obtain ⟨t', hstr, ht⟩ := Option.bind_eq_some_iff.1 ht
      obtain ⟨hfits, rfl⟩ := readName_iff.1 ht
      cases v with
      | str u =>
        obtain rfl := Option.some.inj hstr
        refine ⟨⟨hkey, fun _ => ⟨u, rfl, hfits⟩, fun h => absurd h htext⟩, ?_⟩
        rw [isTextType_str htype, textField_other htext, Option.none_or]
      | _ => cases hstr
    rw [if_neg htype] at h
    by_cases htext : cstr k = ascii "text"
    · rw [if_pos htext] at h
      obtain ⟨u, hstr, rfl⟩ := Option.map_eq_some_iff.1 h
      cases v with
      | str u' =>
        obtain rfl := Option.some.inj hstr
        refine ⟨⟨hkey, fun h => absurd h htype, fun _ => ⟨_, rfl⟩⟩, ?_⟩
        rw [isTextType_other htype, textField_str htext, Bool.or_false, Option.some_or]
      | _ => cases hstr
    · rw [if_neg htext] at h
      cases h
      refine ⟨⟨hkey, fun h => absurd h htype, fun h => absurd h htext⟩, ?_⟩
      rw [isTextType_other htype, textField_other htext, Bool.or_false, Option.none_or]
  · rintro ⟨hfield, rfl⟩
    refine ⟨cstr k, readName_iff.2 ⟨hfield.key, rfl⟩, ?_⟩
    unfold readField
    by_cases htype : cstr k = ascii "type"
    · have htext : cstr k ≠ ascii "text" := htype ▸ type_ne_text
      obtain ⟨t, rfl, ht⟩ := hfield.type htype
      rw [if_pos htype, stringOf, Option.bind_some, readName_iff.2 ⟨ht, rfl⟩, Option.map_some,
        isTextType_str htype, textField_other htext, Option.none_or]
    rw [if_neg htype, isTextType_other htype, Bool.or_false]
    by_cases htext : cstr k = ascii "text"
    · obtain ⟨u, rfl⟩ := hfield.text htext
      rw [if_pos htext, stringOf, Option.map_some, textField_str htext, Option.some_or]
    · rw [if_neg htext, textField_other htext, Option.none_or]

theorem lastText_cons (f : Bytes × Json) (fs : List (Bytes × Json)) :
    lastText (f :: fs) = (lastText fs).or (textField f) := by
  unfold lastText
  rw [List.filterMap_cons]
  cases textField f with
  | none => rw [Option.or_none]
  | some u =>
    dsimp only
    rw [List.getLast?_cons]
    cases (fs.filterMap textField).getLast? with
    | none => rfl
    | some u' => rfl

theorem readBlock_iff {fs : List (Bytes × Json)} {isText : Bool} {text : Option Bytes}
    {res : Bool × Option Bytes} :
    readBlock isText text fs = some res ↔
      (∀ f ∈ fs, ReadableField f) ∧ (isText || fs.any isTextType, (lastText fs).or text) = res := by
  induction fs generalizing isText text with
  | nil => simp [readBlock, lastText]
  | cons f fs ih =>
    obtain ⟨k, v⟩ := f
    rw [readBlock, ← Option.bind_assoc, Option.bind_eq_some_iff, List.forall_mem_cons,
      List.any_cons, lastText_cons, Option.or_assoc, ← Bool.or_assoc]
    constructor
    · rintro ⟨res1, hfield, h⟩
      obtain ⟨hreadable, rfl⟩ := readField_iff.1 hfield
      obtain ⟨hrest, rfl⟩ := ih.1 h
      exact ⟨⟨hreadable, hrest⟩, rfl⟩
    · rintro ⟨⟨hreadable, hrest⟩, rfl⟩
      exact ⟨_, readField_iff.2 ⟨hreadable, rfl⟩, ih.2 ⟨hrest, rfl⟩⟩

theorem addText_iff {cap : Nat} {isText : Bool} {text : Option Bytes} {acc acc' : Bytes}
    (hacc : acc.length ≤ cap) :
    addText cap isText text acc = some acc' ↔
      (isText = true → ∀ u ∈ text, Utf8.Valid u) ∧
        acc.length + (if isText then text.getD [] else []).length ≤ cap ∧
        acc ++ (if isText then text.getD [] else []) = acc' := by
  cases isText with
  | false =>
    cases text <;> simp [addText, hacc]
  | true =>
    cases text with
    | none => simp [addText, hacc]
    | some u =>
      simp only [addText, Utf8.check_iff, Option.ite_none_right_eq_some, Option.some.injEq,
        Option.mem_def, forall_eq', forall_const, if_true, Option.getD_some, and_assoc]

theorem readBlocks_iff {cap : Nat} {bs : List Json} {acc acc' : Bytes} (hacc : acc.length ≤ cap) :
    readBlocks cap acc bs = some acc' ↔
      (∀ b ∈ bs, ∃ fs, b = .obj fs ∧ ReadableBlock fs) ∧
        acc.length + (bs.flatMap cutTextOf).length ≤ cap ∧ acc ++ bs.flatMap cutTextOf = acc' := by
  induction bs generalizing acc with
  | nil => simp [readBlocks, hacc]
  | cons b bs ih =>
    rw [List.forall_mem_cons, List.flatMap_cons, List.length_append]
    by_cases hobj : ∃ fs, b = .obj fs
    swap
    · have hnone : readBlocks cap acc (b :: bs) = none := by
        cases b with
        | obj fs => exact absurd ⟨fs, rfl⟩ hobj
        | _ => rfl
      rw [hnone]
      constructor
      · intro h
        cases h
      · rintro ⟨⟨⟨fs, rfl, -⟩, -⟩, -⟩
        exact absurd ⟨fs, rfl⟩ hobj
    obtain ⟨fs, rfl⟩ := hobj
    rw [readBlocks, Option.bind_eq_some_iff]
    constructor
    · rintro ⟨res, hblock, h⟩
      obtain ⟨hfields, rfl⟩ := readBlock_iff.1 hblock
      obtain ⟨acc1, htext, h⟩ := Option.bind_eq_some_iff.1 h
      have hacc1 := addText_length hacc htext
      rw [Bool.false_or, Option.or_none] at htext
      obtain ⟨htaken, -, rfl⟩ := (addText_iff hacc).1 htext
      obtain ⟨hrest, hfits, rfl⟩ := (ih hacc1).1 h
      rw [List.length_append] at hfits
      refine ⟨⟨⟨fs, rfl, hfields, htaken⟩, hrest⟩, ?_, (List.append_assoc _ _ _).symm⟩
      rw [← Nat.add_assoc]
      exact hfits
    · rintro ⟨⟨⟨fs', hfs, hblock⟩, hrest⟩, hfits, rfl⟩
      cases hfs
      have hadd : addText cap (fs.any isTextType) (lastText fs) acc =
          some (acc ++ cutTextOf (.obj fs)) :=
        (addText_iff hacc).2 ⟨hblock.taken, (show acc.length + (cutTextOf (.obj fs)).length ≤ cap by
          omega), rfl⟩
      refine ⟨_, readBlock_iff.2 ⟨hblock.fields, rfl⟩, ?_⟩
      rw [Bool.false_or, Option.or_none, hadd, Option.bind_some, ih (by
        rw [List.length_append]
        omega)]
      refine ⟨hrest, ?_, List.append_assoc _ _ _⟩
      rw [List.length_append]
      omega

theorem readMember_iff {cap : Nat} {found : Bool} {acc k : Bytes} {v : Json} {res : Bool × Bytes}
    (hacc : acc.length ≤ cap) :
    ((readName 63 k).bind fun name => readMember cap found acc name v) = some res ↔
      ReadableMember (k, v) ∧ acc.length + (cutContentOf (k, v)).length ≤ cap ∧
        (found || cstr k = ascii "content", acc ++ cutContentOf (k, v)) = res := by
  rw [Option.bind_eq_some_iff]
  constructor
  · rintro ⟨name, hname, h⟩
    obtain ⟨hkey, rfl⟩ := readName_iff.1 hname
    unfold readMember at h
    by_cases hcontent : cstr k = ascii "content"
    · rw [if_pos hcontent] at h
      obtain ⟨acc', hblocks, rfl⟩ := Option.map_eq_some_iff.1 h
      obtain ⟨bs, harr, hblocks⟩ := Option.bind_eq_some_iff.1 hblocks
      cases v with
      | arr bs' =>
        obtain rfl := Option.some.inj harr
        obtain ⟨hreadable, hfits, rfl⟩ := (readBlocks_iff hacc).1 hblocks
        have hcut : cutContentOf (k, .arr bs') = bs'.flatMap cutTextOf := if_pos hcontent
        rw [hcut, decide_eq_true hcontent, Bool.or_true]
        exact ⟨⟨hkey, fun _ => ⟨_, rfl, hreadable⟩⟩, hfits, rfl⟩
      | _ => cases harr
    · rw [if_neg hcontent] at h
      cases h
      have hcut : cutContentOf (k, v) = [] := if_neg hcontent
      rw [hcut, decide_eq_false hcontent, Bool.or_false, List.append_nil]
      exact ⟨⟨hkey, fun h => absurd h hcontent⟩, hacc, rfl⟩
  · rintro ⟨hmember, hfits, rfl⟩
    refine ⟨cstr k, readName_iff.2 ⟨hmember.key, rfl⟩, ?_⟩
    unfold readMember
    by_cases hcontent : cstr k = ascii "content"
    · obtain ⟨bs, rfl, hreadable⟩ := hmember.content hcontent
      have hcut : cutContentOf (k, .arr bs) = bs.flatMap cutTextOf := if_pos hcontent
      rw [hcut] at hfits ⊢
      rw [if_pos hcontent, arrayOf, Option.bind_some,
        (readBlocks_iff hacc).2 ⟨hreadable, hfits, rfl⟩, decide_eq_true hcontent, Bool.or_true]
      rfl
    · have hcut : cutContentOf (k, v) = [] := if_neg hcontent
      rw [if_neg hcontent, hcut, decide_eq_false hcontent, Bool.or_false, List.append_nil]

theorem readMembers_iff {cap : Nat} {ms : List (Bytes × Json)} {found : Bool} {acc : Bytes}
    {res : Bool × Bytes} (hacc : acc.length ≤ cap) :
    readMembers cap found acc ms = some res ↔
      Readable ms ∧ acc.length + (cutText ms).length ≤ cap ∧
        (found || ms.any (fun m => cstr m.1 = ascii "content"), acc ++ cutText ms) = res := by
  unfold Readable cutText
  induction ms generalizing found acc with
  | nil => simp [readMembers, hacc]
  | cons m ms ih =>
    obtain ⟨k, v⟩ := m
    rw [readMembers, ← Option.bind_assoc, Option.bind_eq_some_iff, List.forall_mem_cons,
      List.any_cons, List.flatMap_cons, List.length_append, ← Bool.or_assoc]
    constructor
    · rintro ⟨res1, hmember, h⟩
      obtain ⟨hreadable, hfits1, rfl⟩ := (readMember_iff hacc).1 hmember
      obtain ⟨hrest, hfits, rfl⟩ := (ih (by rwa [List.length_append])).1 h
      rw [List.length_append] at hfits
      refine ⟨⟨hreadable, hrest⟩, ?_, ?_⟩
      · omega
      · rw [List.append_assoc]
    · rintro ⟨⟨hreadable, hrest⟩, hfits, rfl⟩
      refine ⟨_, (readMember_iff hacc).2 ⟨hreadable, by omega, rfl⟩, (ih ?_).2 ⟨hrest, ?_, ?_⟩⟩
      · rw [List.length_append]
        omega
      · rw [List.length_append]
        omega
      · rw [List.append_assoc]

/-- What the extractor computes: the cut text of a readable body with a content. -/
theorem readContent_iff {cap : Nat} {ms : List (Bytes × Json)} {text : Bytes} :
    readContent cap ms = some text ↔
      Readable ms ∧ (∃ m ∈ ms, cstr m.1 = ascii "content") ∧ (cutText ms).length ≤ cap ∧
        cutText ms = text := by
  unfold readContent
  rw [Option.bind_eq_some_iff]
  constructor
  · rintro ⟨res, hmembers, h⟩
    obtain ⟨hreadable, hfits, rfl⟩ := (readMembers_iff (Nat.zero_le cap)).1 hmembers
    split at h
    · next hfound =>
      obtain ⟨m, hm, hname⟩ := List.any_eq_true.1 hfound
      rw [List.length_nil, Nat.zero_add] at hfits
      exact ⟨hreadable, ⟨m, hm, of_decide_eq_true hname⟩, hfits, Option.some.inj h⟩
    · cases h
  · rintro ⟨hreadable, ⟨m, hm, hname⟩, hfits, rfl⟩
    have hfound : (ms.any fun m => cstr m.1 = ascii "content") = true :=
      List.any_eq_true.2 ⟨m, hm, decide_eq_true hname⟩
    refine ⟨_, (readMembers_iff (Nat.zero_le cap)).2 ⟨hreadable, ?_, rfl⟩, ?_⟩
    · rw [List.length_nil, Nat.zero_add]
      exact hfits
    · rw [hfound]
      rfl

/-! ## Names that pass for no other -/

theorem cstr_of_nulFree {k : Bytes} (h : (0 : UInt8) ∉ k) : cstr k = k := CStr.ofBytes_of_nulFree h

/-- Only the name itself reads as `name` up to its first NUL. -/
def Own (name k : Bytes) : Prop := cstr k = name → k = name

theorem own_of_nulFree {name k : Bytes} (h : (0 : UInt8) ∉ k) : Own name k := by
  intro hname
  rwa [cstr_of_nulFree h] at hname

/-- No other key passes for `content`, and in the blocks none for `type` or `text`, and no other
type for `text`. -/
structure Unaliased (ms : List (Bytes × Json)) (bs : List Json) : Prop where
  content : ∀ m ∈ ms, Own (ascii "content") m.1
  blocks : ∀ b ∈ bs, ∀ fs, b = .obj fs → ∀ f ∈ fs,
    Own (ascii "type") f.1 ∧ Own (ascii "text") f.1 ∧
      ∀ t, f = (ascii "type", .str t) → Own (ascii "text") t

/-- No NUL in a name: in the keys, and in the types of the blocks. -/
structure NulFree (ms : List (Bytes × Json)) (bs : List Json) : Prop where
  keys : ∀ m ∈ ms, (0 : UInt8) ∉ m.1
  blocks : ∀ b ∈ bs, ∀ fs, b = .obj fs → ∀ f ∈ fs, (0 : UInt8) ∉ f.1 ∧
    ∀ t, f = (ascii "type", .str t) → (0 : UInt8) ∉ t

theorem NulFree.unaliased {ms : List (Bytes × Json)} {bs : List Json} (h : NulFree ms bs) :
    Unaliased ms bs where
  content m hm := own_of_nulFree (h.keys m hm)
  blocks b hb fs hfs f hf := by
    obtain ⟨hkey, htype⟩ := h.blocks b hb fs hfs f hf
    exact ⟨own_of_nulFree hkey, own_of_nulFree hkey, fun t ht => own_of_nulFree (htype t ht)⟩

theorem lookup_of_mem {ms : List (Bytes × Json)} {k : Bytes} {v : Json}
    (hd : (ms.map Prod.fst).Nodup) (hm : (k, v) ∈ ms) : ms.lookup k = some v := by
  induction ms with
  | nil => cases hm
  | cons m ms ih =>
    rw [List.map_cons, List.nodup_cons] at hd
    rcases List.mem_cons.1 hm with rfl | hm
    · rw [List.lookup_cons_self]
    · have hne : (k == m.1) = false :=
        beq_false_of_ne fun h => hd.1 (h ▸ List.mem_map_of_mem (f := Prod.fst) hm)
      rw [List.lookup_cons, hne]
      exact ih hd.2 hm

/-- Where keys are distinct, only the member with the key counts. -/
theorem flatMap_of_mem {α : Type} {ms : List (Bytes × Json)} {k : Bytes} {v : Json}
    {g : Bytes × Json → List α} (hd : (ms.map Prod.fst).Nodup) (hm : (k, v) ∈ ms)
    (hg : ∀ m ∈ ms, m.1 ≠ k → g m = []) : ms.flatMap g = g (k, v) := by
  induction ms with
  | nil => cases hm
  | cons m ms ih =>
    rw [List.map_cons, List.nodup_cons] at hd
    obtain ⟨hhead, hrest⟩ := List.forall_mem_cons.1 hg
    rw [List.flatMap_cons]
    rcases List.mem_cons.1 hm with rfl | hm
    · have hnil : ms.flatMap g = [] := by
        refine List.flatMap_eq_nil_iff.2 fun m hmem => hrest m hmem fun h => hd.1 ?_
        have hkey : m.1 ∈ ms.map Prod.fst := List.mem_map_of_mem hmem
        rw [h] at hkey
        exact hkey
      rw [hnil, List.append_nil]
    · have hne : m.1 ≠ k := by
        intro h
        have hkey : k ∈ ms.map Prod.fst := List.mem_map_of_mem hm
        rw [← h] at hkey
        exact hd.1 hkey
      rw [hhead hne, List.nil_append]
      exact ih hd.2 hm hrest

theorem lastText_of_mem {fs : List (Bytes × Json)} {u : Bytes} (hd : (fs.map Prod.fst).Nodup)
    (hown : ∀ f ∈ fs, Own (ascii "text") f.1) (hm : (ascii "text", .str u) ∈ fs) :
    lastText fs = some u := by
  have hname : cstr (ascii "text") = ascii "text" := cstr_of_nulFree (by decide)
  have honly : fs.filterMap textField = [u] := by
    rw [List.filterMap_eq_flatMap_toList, flatMap_of_mem hd hm, textField_str hname]
    · rfl
    · intro f hf hne
      rw [textField_other (k := f.1) (fun h => hne (hown f hf h)) f.2]
      rfl
  rw [lastText, honly, List.getLast?_singleton]

/-- A block in which no name passes for another says what it says. -/
theorem cutTextOf_eq {fs : List (Bytes × Json)} {t : Bytes} (hd : (fs.map Prod.fst).Nodup)
    (hown : ∀ f ∈ fs, Own (ascii "type") f.1 ∧ Own (ascii "text") f.1 ∧
      ∀ t, f = (ascii "type", .str t) → Own (ascii "text") t)
    (htype : (ascii "type", .str t) ∈ fs)
    (htext : t = ascii "text" → ∃ u, (ascii "text", .str u) ∈ fs ∧ Utf8.Valid u) :
    cutTextOf (.obj fs) = textOf (.obj fs) := by
  have hname : cstr (ascii "type") = ascii "type" := cstr_of_nulFree (by decide)
  have hany : fs.any isTextType = decide (t = ascii "text") := by
    rw [Bool.eq_iff_iff, List.any_eq_true, decide_eq_true_iff]
    constructor
    · rintro ⟨⟨k, v⟩, hf, his⟩
      by_cases hk : cstr k = ascii "type"
      · have hkey : k = ascii "type" := (hown _ hf).1 hk
        obtain rfl : v = .str t := congrArg Prod.snd (List.inj_on_of_nodup_map hd hf htype hkey)
        rw [isTextType_str hk] at his
        exact (hown _ htype).2.2 t rfl (of_decide_eq_true his)
      · rw [isTextType_other hk] at his
        cases his
    · rintro rfl
      refine ⟨_, htype, ?_⟩
      rw [isTextType_str hname]
      exact decide_eq_true (cstr_of_nulFree (by decide))
  unfold cutTextOf textOf
  dsimp only
  rw [hany, lookup_of_mem hd htype]
  by_cases h : t = ascii "text"
  · obtain ⟨u, hu, -⟩ := htext h
    rw [lastText_of_mem hd (fun f hf => (hown f hf).2.1) hu, lookup_of_mem hd hu,
      if_pos (decide_eq_true h)]
    exact (if_pos h).symm
  · rw [if_neg (by simpa using h)]
    split
    · next t' u' ht' _ =>
      obtain rfl : t = t' := by
        have := Option.some.inj ht'
        injection this
      rw [if_neg h]
    · rfl

theorem cutText_eq {ms : List (Bytes × Json)} {bs : List Json} (hm : Message ms bs)
    (hown : Unaliased ms bs) : cutText ms = messageText ms := by
  have hname : cstr (ascii "content") = ascii "content" := cstr_of_nulFree (by decide)
  have hcut : cutText ms = bs.flatMap cutTextOf := by
    refine (flatMap_of_mem hm.distinct hm.content fun m hmem hne => ?_).trans (if_pos hname)
    exact if_neg fun h => hne (hown.content m hmem h)
  rw [hcut, messageText, lookup_of_mem hm.distinct hm.content]
  refine List.flatMap_congr fun b hb => ?_
  obtain ⟨fs, rfl, hd, t, htype, htext⟩ := hm.blocks b hb
  exact cutTextOf_eq hd (hown.blocks _ hb fs rfl) htype htext

/-! ## Extraction -/

/-- **The text of a message is extracted only when the message is readable**, and exactly then when
none of its names passes for another. -/
theorem message_text_iff {body : Bytes} {ms : List (Bytes × Json)} {bs : List Json} {cap : Nat}
    (hdecode : Json.decode body = some (.obj ms)) (hnest : nesting (.obj ms) ≤ 60)
    (hm : Message ms bs) (hfits : (messageText ms).length ≤ cap) :
    (gwjContentText body cap = some (messageText ms) → Readable ms) ∧
    (Unaliased ms bs → (gwjContentText body cap = some (messageText ms) ↔ Readable ms)) := by
  have hname : cstr (ascii "content") = ascii "content" := cstr_of_nulFree (by decide)
  rw [gwjContentText_eq hdecode (by omega), readContent_iff]
  refine ⟨And.left, fun hown => ⟨And.left, fun hreadable => ?_⟩⟩
  have htext := cutText_eq hm hown
  exact ⟨hreadable, ⟨_, hm.content, hname⟩, htext ▸ hfits, htext⟩

/-- A body of one block, with the type `t` and one other member. -/
def oneBlock (t k u : Bytes) : List (Bytes × Json) :=
  [(ascii "content", .arr [.obj [(ascii "type", .str t), (k, .str u)]])]

theorem oneBlock_message (t k u : Bytes) (hk : k ≠ ascii "type")
    (htext : t = ascii "text" → k = ascii "text" ∧ Utf8.Valid u) :
    Message (oneBlock t k u) [.obj [(ascii "type", .str t), (k, .str u)]] where
  distinct := List.nodup_singleton _
  content := List.mem_cons_self
  blocks b hb := by
    obtain rfl := List.mem_singleton.1 hb
    refine ⟨_, rfl, by simpa using Ne.symm hk, t, List.mem_cons_self, fun h => ?_⟩
    obtain ⟨rfl, hvalid⟩ := htext h
    exact ⟨u, by simp, hvalid⟩

theorem oneBlock_decode {t k u : Bytes} (h : ∀ b ∈ t ++ (k ++ u), b.toNat < 0x80) :
    Json.decode (render (.obj (oneBlock t k u))) = some (.obj (oneBlock t k u)) := by
  obtain ⟨ht, hku⟩ := List.forall_mem_append.1 h
  obtain ⟨hk, hu⟩ := List.forall_mem_append.1 hku
  have hblock : Plain (.obj [(ascii "type", .str t), (k, .str u)]) :=
    ⟨.of_ascii (by decide), .of_ascii ht, .of_ascii hk, .of_ascii hu, trivial⟩
  exact decode_render ⟨.of_ascii (by decide), ⟨hblock, trivial⟩, trivial⟩

theorem oneBlock_nulFree {t k u : Bytes} (ht : (0 : UInt8) ∉ t) (hk : (0 : UInt8) ∉ k)
    (hne : k ≠ ascii "type") :
    NulFree (oneBlock t k u) [.obj [(ascii "type", .str t), (k, .str u)]] where
  keys m hm := by
    obtain rfl := List.mem_singleton.1 hm
    exact (by decide : (0 : UInt8) ∉ ascii "content")
  blocks b hb fs hfs f hf := by
    obtain rfl := List.mem_singleton.1 hb
    cases hfs
    rcases List.mem_pair.1 hf with rfl | rfl
    · refine ⟨(by decide : (0 : UInt8) ∉ ascii "type"), fun t' ht' => ?_⟩
      cases ht'
      exact ht
    · exact ⟨hk, fun t' ht' => absurd (congrArg Prod.fst ht') hne⟩

/-- A block the extractor has to skip, with a type of 17 bytes. -/
def thinkingMessage : List (Bytes × Json) :=
  oneBlock (ascii "redacted_thinking") (ascii "data") (ascii "eA==")

/-- The type does not fit its buffer. -/
theorem thinkingMessage_rejected : gwjContentText (render (.obj thinkingMessage)) 64 = none := by
  decide +kernel

theorem thinkingMessage_message :
    Json.decode (render (.obj thinkingMessage)) = some (.obj thinkingMessage) ∧
      ∃ bs, Message thinkingMessage bs ∧ NulFree thinkingMessage bs :=
  ⟨oneBlock_decode (by decide), _, oneBlock_message (ascii "redacted_thinking") (ascii "data")
    (ascii "eA==") (by decide) fun h => absurd h (by decide),
    oneBlock_nulFree (by decide) (by decide) (by decide)⟩

/-- A body that has to be skipped over is rejected. -/
theorem long_type_rejected :
    ¬ ∀ body ms bs cap, Json.decode body = some (.obj ms) → nesting (.obj ms) ≤ 60 →
      Message ms bs → (messageText ms).length ≤ cap →
      gwjContentText body cap = some (messageText ms) := by
  intro hall
  obtain ⟨hdecode, bs, hm, -⟩ := thinkingMessage_message
  have htext := hall _ _ bs 64 hdecode (by decide) hm (by decide)
  rw [thinkingMessage_rejected] at htext
  cases htext

/-- A block of text. -/
def helloMessage : List (Bytes × Json) := oneBlock (ascii "text") (ascii "text") (ascii "hello")

theorem message_text_iff_samples : Readable helloMessage ∧ ¬ Readable thinkingMessage := by
  constructor
  · have hdecode : Json.decode (render (.obj helloMessage)) = some (.obj helloMessage) :=
      oneBlock_decode (by decide)
    have hm := oneBlock_message (ascii "text") (ascii "text") (ascii "hello") (by decide)
      fun _ => ⟨rfl, .of_ascii (by decide)⟩
    have htext : gwjContentText (render (.obj helloMessage)) 64 =
        some (messageText helloMessage) := by
      decide +kernel
    exact (message_text_iff hdecode (by decide) hm
      (by decide : (messageText helloMessage).length ≤ 64)).1 htext
  · obtain ⟨hdecode, bs, hm, hnul⟩ := thinkingMessage_message
    intro h
    have htext := ((message_text_iff hdecode (by decide) hm
      (by decide : (messageText thinkingMessage).length ≤ 64)).2 hnul.unaliased).2 h
    rw [thinkingMessage_rejected] at htext
    cases htext

end AxiomaOracle
