import AxiomaOracle.Gateway.Ledger

/-!
# Frames of the ledger file

A `Frame` carries the bounds the reader checks, so its encoding is always readable. `frames` are the
complete frames at the start of a byte string, whatever their commits; `frames_append`,
`nextFrame_take` and `readFrame_take` say what is read back from whole frames and from a cut one.
The reader of `gw_ledger.c`, under any results of its read calls, either reads the next frame of the
bytes or meets a read error (`readFrame_cases`).
-/

namespace AxiomaOracle

open Lib

/-! ## Frames -/

/-- A frame the reader accepts structurally. -/
structure Frame where
  tag : Bytes
  payload : Bytes
  commit : Bytes
  tagLen : 0 < tag.length ∧ tag.length ≤ gwlTagMax
  payloadLen : 0 < payload.length ∧ payload.length ≤ gwlPayloadMax
  commitLen : commit.length = 32
  deriving DecidableEq

namespace Frame

theorem ext {f g : Frame} (ht : f.tag = g.tag) (hp : f.payload = g.payload)
    (hc : f.commit = g.commit) : f = g := by
  cases f
  cases g
  cases ht
  cases hp
  cases hc
  rfl

/-- The bytes of a frame. -/
def encode (f : Frame) : Bytes := (frameChunks f.tag f.payload f.commit).flatten

theorem encode_eq (f : Frame) : f.encode = wrU32le f.tag.length ++ (f.tag ++
    (wrU64le f.payload.length ++ (f.payload ++ f.commit))) := by
  simp [encode, frameChunks]

theorem wrU32le_length (n : Nat) : (wrU32le n).length = 4 := leEncode_length 4 n

theorem wrU64le_length (n : Nat) : (wrU64le n).length = 8 := leEncode_length 8 n

theorem encode_length (f : Frame) :
    f.encode.length = 4 + f.tag.length + 8 + f.payload.length + 32 := by
  simp only [encode_eq, List.length_append, wrU32le_length, wrU64le_length, f.commitLen]
  omega

theorem encode_length_ge (f : Frame) : 46 ≤ f.encode.length := by
  have h1 := f.tagLen
  have h2 := f.payloadLen
  rw [encode_length]
  omega

theorem rdU32le_tag (f : Frame) : rdU32le (wrU32le f.tag.length) = f.tag.length := by
  have h := f.tagLen
  refine leDecode_leEncode ?_
  have : gwlTagMax < 256 ^ 4 := by decide
  omega

theorem rdU64le_payload (f : Frame) : rdU64le (wrU64le f.payload.length) = f.payload.length := by
  have h := f.payloadLen
  refine leDecode_leEncode ?_
  have : gwlPayloadMax < 256 ^ 8 := by decide
  omega

end Frame

def encodeAll (fs : List Frame) : Bytes := fs.flatMap Frame.encode

@[simp] theorem encodeAll_nil : encodeAll [] = [] := rfl

@[simp] theorem encodeAll_cons (f : Frame) (fs : List Frame) :
    encodeAll (f :: fs) = f.encode ++ encodeAll fs := List.flatMap_cons

@[simp] theorem encodeAll_append (fs gs : List Frame) :
    encodeAll (fs ++ gs) = encodeAll fs ++ encodeAll gs := List.flatMap_append

/-- The last payload of a file of frames, as replay leaves it. -/
def lastPayload (fs : List Frame) : Bytes := (fs.getLast?.map Frame.payload).getD []

/-! ## Read calls -/

/-- Reading in two pieces. -/
theorem take_piece (rest : Bytes) {m n : Nat} (h : m ≤ n) :
    rest.take m ++ (rest.drop (rest.take m).length).take (n - (rest.take m).length) = rest.take n ∧
      (rest.drop (rest.take m).length).drop (n - (rest.take m).length) = rest.drop n := by
  have hlen : (rest.take m).length = min m rest.length := List.length_take
  have htake : rest.take m = rest.take (min m rest.length) :=
    List.take_eq_take_iff.2 (by omega)
  rw [hlen, htake, ← List.take_add, List.drop_drop]
  have he : min m rest.length + (n - min m rest.length) = n := by omega
  rw [he]
  exact ⟨rfl, rfl⟩

/-- A read either delivers all there is, up to `n` bytes, or meets an error. -/
theorem readExact_cases (n : Nat) (rest : Bytes) (script : ReadScript) :
    (∃ script', readExact n rest script = (some (rest.take n), rest.drop n, script') ∧
      script' <:+ script) ∨
    ∃ rest' script', readExact n rest script = (none, rest', script') ∧ none ∈ script := by
  induction script generalizing n rest with
  | nil => exact .inl ⟨[], by simp [readExact]⟩
  | cons r script ih =>
    cases n with
    | zero => exact .inl ⟨r :: script, by simp [readExact], List.suffix_rfl⟩
    | succ n =>
      cases r with
      | none => exact .inr ⟨rest, script, by simp [readExact], List.mem_cons_self⟩
      | some k =>
        have hle : min (n + 1) (k + 1) ≤ n + 1 := Nat.min_le_left _ _
        unfold readExact
        by_cases hc : rest.take (min (n + 1) (k + 1)) = []
        · have hr : rest = [] := by
            cases rest with
            | nil => rfl
            | cons b rest => simp [Nat.add_min_add_right] at hc
          subst hr
          exact .inl ⟨script, by simp, List.suffix_cons _ _⟩
        · simp only [hc, if_false]
          rcases ih (n + 1 - (rest.take (min (n + 1) (k + 1))).length)
            (rest.drop (rest.take (min (n + 1) (k + 1))).length) with
            ⟨script', h, hs⟩ | ⟨rest', script', h, hs⟩
          · obtain ⟨htake, hdrop⟩ := take_piece rest hle
            refine .inl ⟨script', ?_, hs.trans (List.suffix_cons _ _)⟩
            rw [h, Option.map_some, htake, hdrop]
          · refine .inr ⟨rest', script', ?_, List.mem_cons_of_mem _ hs⟩
            rw [h]
            rfl

theorem readExact_nil (n : Nat) (rest : Bytes) :
    readExact n rest [] = (some (rest.take n), rest.drop n, []) := by
  unfold readExact
  rfl

/-! ## One frame -/

/-- The reads of a frame with no error: the fields are the next bytes. -/
theorem readFrame_encode (f : Frame) (rest : Bytes) :
    readFrame (f.encode ++ rest) [] = (.frame f.tag f.payload f.commit, rest, []) := by
  have h1 := f.tagLen
  have h2 := f.payloadLen
  have h4 : (wrU32le f.tag.length).length = 4 := Frame.wrU32le_length _
  have h8 : (wrU64le f.payload.length).length = 8 := Frame.wrU64le_length _
  have hc := f.commitLen
  rw [f.encode_eq]
  simp only [readFrame, readExact_nil, List.append_assoc]
  rw [List.take_left' h4, List.drop_left' h4, h4, f.rdU32le_tag]
  rw [if_neg (by omega), if_neg (by omega), if_neg (by omega)]
  rw [List.take_left' rfl, List.drop_left' rfl]
  rw [if_neg (by simp [shortRead]), List.take_left' h8, List.drop_left' h8]
  rw [if_neg (by simp [shortRead, h8]), Option.getD_some, f.rdU64le_payload]
  rw [if_neg (by omega), List.take_left' rfl, List.drop_left' rfl]
  rw [if_neg (by simp [shortRead]), List.take_left' hc, List.drop_left' hc]
  rw [if_neg (by simp [shortRead, hc])]
  rfl

/-- The read of `tag_len` fails. -/
def headerReadFails (rest : Bytes) (script : ReadScript) : Bool :=
  (readExact 4 rest script).1.isNone

/-- A read of the tag, of `payload_len`, of the payload or of the commit fails. -/
def bodyReadFails (rest : Bytes) (script : ReadScript) : Bool :=
  match readExact 4 rest script with
  | (none, _, _) => false
  | (some h4, rest, script) =>
    let tagLen := rdU32le h4
    if h4.length < 4 ∨ tagLen = 0 ∨ tagLen > gwlTagMax then false
    else match readExact tagLen rest script with
      | (none, _, _) => true
      | (some tag, rest, script) =>
        if tag.length < tagLen then false
        else match readExact 8 rest script with
          | (none, _, _) => true
          | (some h8, rest, script) =>
            let plen := rdU64le h8
            if h8.length < 8 ∨ plen = 0 ∨ plen > gwlPayloadMax then false
            else match readExact plen rest script with
              | (none, _, _) => true
              | (some payload, rest, script) =>
                if payload.length < plen then false else (readExact 32 rest script).1.isNone

/-- How the reader differs from one that meets no error: not at all, or it fails at the header, or
it takes the error inside a frame for the end of the file. -/
theorem readFrame_cases (rest : Bytes) (script : ReadScript) :
    (headerReadFails rest script = false ∧ bodyReadFails rest script = false ∧
      ∃ script', readFrame rest script = ((readFrame rest []).1, (readFrame rest []).2.1, script') ∧
        script' <:+ script) ∨
    (headerReadFails rest script = true ∧ bodyReadFails rest script = false ∧
      (readFrame rest script).1 = .fail ∧ none ∈ script) ∨
    (headerReadFails rest script = false ∧ bodyReadFails rest script = true ∧
      (readFrame rest script).1 = .torn ∧ none ∈ script) := by
  unfold headerReadFails bodyReadFails readFrame
  simp only [readExact_nil]
  -- the header
  rcases readExact_cases 4 rest script with ⟨s1, e1, h1⟩ | ⟨r1, s1, e1, h1⟩
  rotate_left
  · exact .inr (.inl (by simp [e1, h1]))
  simp only [e1, Option.isNone_some]
  by_cases c0 : (rest.take 4).length = 0
  · exact .inl ⟨trivial, by rw [if_pos (by omega)], s1, by rw [if_pos c0, if_pos c0], h1⟩
  by_cases c1 : (rest.take 4).length < 4
  · refine .inl ⟨trivial, by rw [if_pos (.inl c1)], s1, ?_, h1⟩
    rw [if_neg c0, if_neg c0, if_pos c1, if_pos c1]
  by_cases c2 : rdU32le (rest.take 4) = 0 ∨ rdU32le (rest.take 4) > gwlTagMax
  · refine .inl ⟨trivial, by rw [if_pos (.inr c2)], s1, ?_, h1⟩
    rw [if_neg c0, if_neg c0, if_neg c1, if_neg c1, if_pos c2, if_pos c2]
  simp only [if_neg c0, if_neg c1, if_neg c2,
    if_neg (show ¬ ((rest.take 4).length < 4 ∨ rdU32le (rest.take 4) = 0 ∨
      rdU32le (rest.take 4) > gwlTagMax) from fun h => h.elim c1 c2)]
  -- the tag
  generalize rdU32le (rest.take 4) = tagLen
  generalize rest.drop 4 = rest2
  rcases readExact_cases tagLen rest2 s1 with ⟨s2, e2, h2⟩ | ⟨r2, s2, e2, h2⟩
  rotate_left
  · exact .inr (.inr (by simp [e2, shortRead, h1.mem h2]))
  have h2 := h2.trans h1
  simp only [e2, shortRead, decide_eq_true_eq]
  by_cases c3 : (rest2.take tagLen).length < tagLen
  · exact .inl ⟨trivial, by rw [if_pos c3], s2, by rw [if_pos c3, if_pos c3], h2⟩
  simp only [if_neg c3]
  -- the payload length
  generalize rest2.drop tagLen = rest3
  rcases readExact_cases 8 rest3 s2 with ⟨s3, e3, h3⟩ | ⟨r3, s3, e3, h3⟩
  rotate_left
  · exact .inr (.inr (by simp [e3, h2.mem h3]))
  have h3 := h3.trans h2
  simp only [e3, decide_eq_true_eq, Option.getD_some]
  by_cases c4 : (rest3.take 8).length < 8
  · exact .inl ⟨trivial, by rw [if_pos (.inl c4)], s3, by rw [if_pos c4, if_pos c4], h3⟩
  by_cases c5 : rdU64le (rest3.take 8) = 0 ∨ rdU64le (rest3.take 8) > gwlPayloadMax
  · refine .inl ⟨trivial, by rw [if_pos (.inr c5)], s3, ?_, h3⟩
    rw [if_neg c4, if_neg c4, if_pos c5, if_pos c5]
  simp only [if_neg c4, if_neg c5,
    if_neg (show ¬ ((rest3.take 8).length < 8 ∨ rdU64le (rest3.take 8) = 0 ∨
      rdU64le (rest3.take 8) > gwlPayloadMax) from fun h => h.elim c4 c5)]
  -- the payload
  generalize rdU64le (rest3.take 8) = plen
  generalize rest3.drop 8 = rest4
  rcases readExact_cases plen rest4 s3 with ⟨s4, e4, h4⟩ | ⟨r4, s4, e4, h4⟩
  rotate_left
  · exact .inr (.inr (by simp [e4, h3.mem h4]))
  have h4 := h4.trans h3
  simp only [e4, decide_eq_true_eq, Option.getD_some]
  by_cases c6 : (rest4.take plen).length < plen
  · exact .inl ⟨trivial, by rw [if_pos c6], s4, by rw [if_pos c6, if_pos c6], h4⟩
  simp only [if_neg c6]
  -- the commit
  generalize rest4.drop plen = rest5
  rcases readExact_cases 32 rest5 s4 with ⟨s5, e5, h5⟩ | ⟨r5, s5, e5, h5⟩
  rotate_left
  · exact .inr (.inr (by simp [e5, h4.mem h5]))
  refine .inl ⟨trivial, by simp [e5], s5, ?_, h5.trans h4⟩
  simp only [e5, decide_eq_true_eq, Option.getD_some]
  split <;> rfl

theorem wrU32le_rdU32le {bs : Bytes} (h : bs.length = 4) : wrU32le (rdU32le bs) = bs := by
  have := leEncode_leDecode bs
  rwa [h] at this

theorem wrU64le_rdU64le {bs : Bytes} (h : bs.length = 8) : wrU64le (rdU64le bs) = bs := by
  have := leEncode_leDecode bs
  rwa [h] at this

theorem take_length_of_not_short {bs : Bytes} {n : Nat} (h : ¬ (bs.take n).length < n) :
    (bs.take n).length = n := by
  have := List.length_take_le n bs
  omega

/-- What is read as a frame is the encoding of one. -/
theorem readFrame_sound {rest tag payload commit rest' : Bytes} {script' : ReadScript}
    (h : readFrame rest [] = (.frame tag payload commit, rest', script')) :
    ∃ f : Frame, f.tag = tag ∧ f.payload = payload ∧ f.commit = commit ∧
      rest = f.encode ++ rest' := by
  unfold readFrame at h
  simp only [readExact_nil, shortRead, decide_eq_true_eq, Option.getD_some] at h
  split at h
  · cases h
  split at h
  · cases h
  split at h
  · cases h
  split at h
  · cases h
  split at h
  · cases h
  split at h
  · cases h
  split at h
  · cases h
  split at h
  · cases h
  next c0 c1 c2 c3 c4 c5 c6 c7 =>
  simp only [Prod.mk.injEq, FrameRead.frame.injEq] at h
  obtain ⟨⟨rfl, rfl, rfl⟩, rfl, -⟩ := h
  have l1 := take_length_of_not_short c1
  have l2 := take_length_of_not_short c3
  have l3 := take_length_of_not_short c4
  have l4 := take_length_of_not_short c6
  have l5 := take_length_of_not_short c7
  refine ⟨⟨_, _, _, ⟨?_, ?_⟩, ⟨?_, ?_⟩, l5⟩, rfl, rfl, rfl, ?_⟩
  · omega
  · omega
  · omega
  · omega
  · simp only [Frame.encode_eq, l2, l4, wrU32le_rdU32le l1, wrU64le_rdU64le l3, List.append_assoc,
      List.take_append_drop]

theorem readFrame_eof {rest : Bytes} : (readFrame rest []).1 = .eof ↔ rest = [] := by
  constructor
  · intro h
    unfold readFrame at h
    simp only [readExact_nil] at h
    split at h
    · next c0 => simpa using c0
    · grind
  · rintro rfl
    rfl

/-! ## The complete frames of a byte string -/

/-- The first frame and what follows it. -/
def nextFrame (bs : Bytes) : Option (Frame × Bytes) :=
  match h : readFrame bs [] with
  | (.frame tag payload commit, rest, _) =>
    some (⟨tag, payload, commit, by obtain ⟨f, rfl, -⟩ := readFrame_sound h; exact f.tagLen,
      by obtain ⟨f, -, rfl, -⟩ := readFrame_sound h; exact f.payloadLen,
      by obtain ⟨f, -, -, rfl, -⟩ := readFrame_sound h; exact f.commitLen⟩, rest)
  | _ => none

theorem nextFrame_encode (f : Frame) (rest : Bytes) :
    nextFrame (f.encode ++ rest) = some (f, rest) := by
  unfold nextFrame
  split
  · next h =>
    rw [readFrame_encode] at h
    simp only [Prod.mk.injEq, FrameRead.frame.injEq] at h
    obtain ⟨⟨rfl, rfl, rfl⟩, rfl, -⟩ := h
    rfl
  · next h =>
    rw [readFrame_encode] at h
    exact absurd rfl (h _ _ _ _ _)

theorem nextFrame_some {bs rest : Bytes} {f : Frame} (h : nextFrame bs = some (f, rest)) :
    bs = f.encode ++ rest := by
  unfold nextFrame at h
  split at h
  · next hr =>
    obtain ⟨f', h1, h2, h3, hrest⟩ := readFrame_sound hr
    subst h1 h2 h3
    cases h
    exact hrest
  · cases h

/-- A byte string that ends inside a frame starts with none. -/
theorem nextFrame_of_torn {bs : Bytes} (h : (readFrame bs []).1 = .torn) : nextFrame bs = none := by
  cases hn : nextFrame bs with
  | none => rfl
  | some fr =>
    rw [nextFrame_some hn, readFrame_encode] at h
    cases h

/-- The complete frames at the start; the first argument bounds their number. -/
def framesLoop : Nat → Bytes → List Frame
  | 0, _ => []
  | fuel + 1, bs =>
    match nextFrame bs with
    | none => []
    | some (f, rest) => f :: framesLoop fuel rest

/-- The complete frames at the start of a byte string. -/
def frames (bs : Bytes) : List Frame := framesLoop bs.length bs

theorem framesLoop_encodeAll (fs : List Frame) {tail : Bytes} (ht : nextFrame tail = none)
    {fuel : Nat} (hf : fs.length ≤ fuel) : framesLoop fuel (encodeAll fs ++ tail) = fs := by
  induction fs generalizing fuel with
  | nil =>
    cases fuel with
    | zero => rfl
    | succ fuel => simp [framesLoop, ht]
  | cons f fs ih =>
    cases fuel with
    | zero => simp at hf
    | succ fuel =>
      simp only [List.length_cons] at hf
      rw [encodeAll_cons, List.append_assoc, framesLoop, nextFrame_encode]
      simp only [ih (by omega : fs.length ≤ fuel)]

theorem encodeAll_length_ge (fs : List Frame) : 46 * fs.length ≤ (encodeAll fs).length := by
  induction fs with
  | nil => simp
  | cons f fs ih =>
    have := f.encode_length_ge
    simp only [encodeAll_cons, List.length_append, List.length_cons]
    omega

/-- **Whole frames are read back**, up to bytes that are not a frame. -/
theorem frames_encodeAll (fs : List Frame) {tail : Bytes} (ht : nextFrame tail = none) :
    frames (encodeAll fs ++ tail) = fs := by
  refine framesLoop_encodeAll fs ht ?_
  have := encodeAll_length_ge fs
  rw [List.length_append]
  omega

/-- Every byte string is its frames and a rest that does not start with one. -/
theorem frames_split (bs : Bytes) :
    ∃ tail, bs = encodeAll (frames bs) ++ tail ∧ nextFrame tail = none := by
  have key : ∀ n, ∀ bs : Bytes, bs.length ≤ n →
      ∃ fs tail, bs = encodeAll fs ++ tail ∧ nextFrame tail = none := by
    intro n
    induction n with
    | zero =>
      intro bs hbs
      have : bs = [] := List.length_eq_zero_iff.1 (Nat.le_zero.1 hbs)
      subst this
      exact ⟨[], [], rfl, rfl⟩
    | succ n ih =>
      intro bs hbs
      cases hn : nextFrame bs with
      | none => exact ⟨[], bs, rfl, hn⟩
      | some fr =>
        obtain ⟨f, rest⟩ := fr
        have hrest := nextFrame_some hn
        have hlen : rest.length ≤ n := by
          have := f.encode_length_ge
          rw [hrest, List.length_append] at hbs
          omega
        obtain ⟨fs, tail, rfl, ht⟩ := ih rest hlen
        exact ⟨f :: fs, tail, by rw [hrest, encodeAll_cons, List.append_assoc], ht⟩
  obtain ⟨fs, tail, rfl, ht⟩ := key bs.length bs (Nat.le_refl _)
  exact ⟨tail, by rw [frames_encodeAll fs ht], ht⟩

theorem frames_append (fs : List Frame) (bs : Bytes) :
    frames (encodeAll fs ++ bs) = fs ++ frames bs := by
  obtain ⟨tail, hbs, ht⟩ := frames_split bs
  conv_lhs => rw [hbs, ← List.append_assoc, ← encodeAll_append]
  exact frames_encodeAll _ ht

@[simp] theorem frames_nil : frames [] = [] := rfl

theorem frames_of_nextFrame_none {bs : Bytes} (h : nextFrame bs = none) : frames bs = [] := by
  have := frames_encodeAll [] h
  rwa [encodeAll_nil, List.nil_append] at this

@[simp] theorem frames_encodeAll' (fs : List Frame) : frames (encodeAll fs) = fs := by
  have := frames_append fs []
  rwa [List.append_nil, frames_nil, List.append_nil] at this

/-- A cut frame is not a frame. -/
theorem nextFrame_take {f : Frame} {k : Nat} (h : k < f.encode.length) :
    nextFrame (f.encode.take k) = none := by
  cases hn : nextFrame (f.encode.take k) with
  | none => rfl
  | some gr =>
    obtain ⟨g, rest⟩ := gr
    have hg := nextFrame_some hn
    have hwhole : f.encode = g.encode ++ (rest ++ f.encode.drop k) := by
      rw [← List.append_assoc, ← hg, List.take_append_drop]
    have hf := nextFrame_encode g (rest ++ f.encode.drop k)
    rw [← hwhole] at hf
    have hf' := nextFrame_encode f []
    rw [List.append_nil, hf] at hf'
    simp only [Option.some.injEq, Prod.mk.injEq] at hf'
    have hlen := congrArg List.length hg
    rw [hf'.1, List.length_take, List.length_append] at hlen
    omega

/-! ## Cut frames -/

/-- Taking from the front of two parts. -/
theorem take_append_ge {a b : Bytes} {k : Nat} (h : a.length ≤ k) :
    (a ++ b).take k = a ++ b.take (k - a.length) := by
  rw [List.take_append, List.take_of_length_le h]

/-- **A frame that is cut anywhere inside is torn**, whichever of its fields the cut falls into. -/
theorem readFrame_take {f : Frame} {k : Nat} (h0 : 0 < k) (hk : k < f.encode.length) :
    (readFrame (f.encode.take k) []).1 = .torn := by
  have h1 := f.tagLen
  have h2 := f.payloadLen
  have h4 : (wrU32le f.tag.length).length = 4 := Frame.wrU32le_length _
  have h8 : (wrU64le f.payload.length).length = 8 := Frame.wrU64le_length _
  have hlen := f.encode_length
  rw [f.encode_eq]
  simp only [readFrame, readExact_nil]
  -- the header
  by_cases c1 : k < 4
  · have hl : (((wrU32le f.tag.length ++ (f.tag ++ (wrU64le f.payload.length ++
        (f.payload ++ f.commit)))).take k).take 4).length = k := by
      simp only [List.length_take, List.length_append, h4, h8]
      omega
    rw [if_neg (by omega), if_pos (by omega)]
  rw [take_append_ge (by omega), List.take_left' h4, List.drop_left' h4, h4, f.rdU32le_tag,
    if_neg (by omega), if_neg (by omega), if_neg (by omega)]
  -- the tag
  by_cases c2 : k - 4 < f.tag.length
  · rw [if_pos]
    simp only [shortRead, decide_eq_true_eq, List.length_take]
    omega
  rw [take_append_ge (by omega), List.take_left' rfl, List.drop_left' rfl,
    if_neg (by simp [shortRead])]
  -- the payload length
  by_cases c3 : k - 4 - f.tag.length < 8
  · rw [if_pos]
    simp only [shortRead, decide_eq_true_eq, List.length_take]
    omega
  rw [take_append_ge (by omega), List.take_left' h8, List.drop_left' h8,
    if_neg (by simp [shortRead, h8]), Option.getD_some, f.rdU64le_payload, if_neg (by omega), h8]
  -- the payload
  by_cases c4 : k - 4 - f.tag.length - 8 < f.payload.length
  · rw [if_pos]
    simp only [shortRead, decide_eq_true_eq, List.length_take]
    omega
  rw [take_append_ge (by omega), List.take_left' rfl, List.drop_left' rfl,
    if_neg (by simp [shortRead])]
  -- the commit
  rw [if_pos]
  simp only [shortRead, decide_eq_true_eq, List.length_take]
  have := f.commitLen
  omega

/-- A prefix of whole frames is some of them and a cut one. -/
theorem prefix_encodeAll {fs : List Frame} {p : Bytes} (h : p <+: encodeAll fs) :
    ∃ gs rest tail, fs = gs ++ rest ∧ p = encodeAll gs ++ tail ∧
      (tail = [] ∨ ∃ f k, rest.head? = some f ∧ 0 < k ∧ k < f.encode.length ∧
        tail = f.encode.take k) := by
  induction fs generalizing p with
  | nil =>
    obtain rfl : p = [] := List.prefix_nil.1 h
    exact ⟨[], [], [], rfl, rfl, .inl rfl⟩
  | cons f fs ih =>
    rw [encodeAll_cons] at h
    by_cases hlen : f.encode.length ≤ p.length
    · -- the first frame is whole
      obtain ⟨q, rfl⟩ : f.encode <+: p :=
        List.prefix_of_prefix_length_le (List.prefix_append _ _) h hlen
      rw [List.prefix_append_right_inj] at h
      obtain ⟨gs, rest, tail, rfl, rfl, htail⟩ := ih h
      exact ⟨f :: gs, rest, tail, rfl, by rw [encodeAll_cons, List.append_assoc], htail⟩
    · refine ⟨[], f :: fs, p, rfl, rfl, ?_⟩
      by_cases hp : p = []
      · exact .inl hp
      · have hpre : p <+: f.encode :=
          List.prefix_of_prefix_length_le h (List.prefix_append _ _) (by omega)
        exact .inr ⟨f, p.length, rfl, List.length_pos_iff.2 hp, by omega,
          List.prefix_iff_eq_take.1 hpre⟩

end AxiomaOracle
