import AxiomaOracle.Gateway.Main
import AxiomaOracle.Verify.Limits

/-!
# The extracted text

What `gw_json.c` makes of a response body fits the buffer it is given, and what `handle_request`
makes of an oracle result: either the text of a well-formed 200 body, or a failure without output.
-/

namespace AxiomaOracle

open Lib

/-! ## The extractor keeps within its buffer -/

theorem putBytes_length {cap o : Nat} {bs t rest : Bytes} {k : Nat → Option (Bytes × Bytes)}
    (hk : ∀ o t rest, k o = some (t, rest) → o ≤ cap → o + t.length ≤ cap)
    (h : putBytes cap o bs k = some (t, rest)) : o + t.length ≤ cap := by
  unfold putBytes at h
  split at h
  · cases h
  · obtain ⟨⟨t', rest'⟩, hkt, heq⟩ := Option.map_eq_some_iff.1 h
    cases heq
    have := hk _ _ _ hkt (by omega)
    rw [List.length_append]
    omega

theorem decodeBody_length {cap o : Nat} {s t rest : Bytes} (h : decodeBody cap o s = some (t, rest))
    (ho : o ≤ cap) : o + t.length ≤ cap := by
  -- every branch fails, ends the string, or puts bytes and goes on behind them
  fun_induction decodeBody cap o s generalizing t rest
  case case2 =>
    cases h
    exact ho
  all_goals first
    | cases h
    | next ih => exact putBytes_length (fun o _ _ => ih o) h

theorem sDecodeString_length {cap o : Nat} {s t rest : Bytes}
    (h : sDecodeString cap o s = some (t, rest)) (ho : o ≤ cap) : o + t.length ≤ cap := by
  cases s with
  | nil => cases h
  | cons c s =>
    simp only [sDecodeString] at h
    split at h
    · exact decodeBody_length h ho
    · cases h

/-- Behind a member or an element: a comma and the rest of the loop, or the closing bracket. -/
theorem separated_iff {α : Type} {close : UInt8} {s : Bytes} {next : Bytes → Option α}
    {done : Bytes → α} {r : α} :
    (match sWs s with
      | [] => none
      | c :: s => if c = chr ',' then next s else if c = close then some (done s) else none) =
          some r ↔
    ∃ c s', sWs s = c :: s' ∧
      (c = chr ',' ∧ next s' = some r ∨ c ≠ chr ',' ∧ c = close ∧ done s' = r) := by
  cases hs : sWs s with
  | nil => simp
  | cons c s' =>
    by_cases hc : c = chr ','
    · simp [hc]
    · simp [hc]

theorem contentLoop_length {cap fuel : Nat} {text s t rest : Bytes}
    (h : contentLoop cap fuel text s = some (t, rest)) (ho : text.length ≤ cap) :
    t.length ≤ cap := by
  induction fuel generalizing text s with
  | zero => cases h
  | succ fuel ih =>
    unfold contentLoop at h
    split at h
    · cases h
    split at h
    · cases h
    obtain ⟨⟨isText, textAt, s1⟩, -, h⟩ := Option.bind_eq_some_iff.1 h
    -- behind the block: the next one, or the end of the array
    have hrest : ∀ text1 : Bytes, text1.length ≤ cap →
        (match sWs s1 with
          | [] => none
          | c :: s =>
            if c = chr ',' then contentLoop cap fuel text1 s
            else if c = chr ']' then some (text1, s)
            else none) = some (t, rest) → t.length ≤ cap := by
      intro text1 hlen hnext
      obtain ⟨c, s2, -, ⟨-, hmore⟩ | ⟨-, -, hdone⟩⟩ := separated_iff.1 hnext
      · exact ih hmore hlen
      · cases hdone
        exact hlen
    dsimp only at h
    split at h
    · -- a text block adds what the decoder gives behind what is there
      obtain ⟨text1, htext, h⟩ := Option.bind_eq_some_iff.1 h
      obtain ⟨⟨t1, rest1⟩, hdec, rfl⟩ := Option.map_eq_some_iff.1 htext
      refine hrest _ ?_ h
      rw [List.length_append]
      exact sDecodeString_length hdec ho
    · exact hrest text ho h

theorem contentTextLoop_length {cap fuel : Nat} {found found' : Bool} {text s t : Bytes}
    (h : contentTextLoop cap fuel found text s = some (found', t)) (ho : text.length ≤ cap) :
    t.length ≤ cap := by
  induction fuel generalizing found text s with
  | zero => cases h
  | succ fuel ih =>
    unfold contentTextLoop at h
    dsimp only at h
    split at h
    · cases h
      exact ho
    obtain ⟨⟨key, s1⟩, -, h⟩ := Option.bind_eq_some_iff.1 h
    -- behind the member: the next one, or the end of the object
    have hrest : ∀ (found1 : Bool) (text1 s2 : Bytes), text1.length ≤ cap →
        (match sWs s2 with
          | [] => none
          | c :: s =>
            if c = chr ',' then contentTextLoop cap fuel found1 text1 s
            else if c = chr '}' then some (found1, text1)
            else none) = some (found', t) → t.length ≤ cap := by
      intro found1 text1 s2 hlen hnext
      obtain ⟨c, s3, -, ⟨-, hmore⟩ | ⟨-, -, hdone⟩⟩ := separated_iff.1 hnext
      · exact ih hmore hlen
      · cases hdone
        exact hlen
    dsimp only at h
    split at h
    · split at h
      · cases h
      split at h
      · cases h
      split at h
      · exact hrest true text _ ho h
      · obtain ⟨⟨found1, text1, s2⟩, harray, h⟩ := Option.bind_eq_some_iff.1 h
        obtain ⟨⟨t1, s3⟩, hloop, heq⟩ := Option.map_eq_some_iff.1 harray
        cases heq
        exact hrest true t1 _ (contentLoop_length hloop ho) h
    · obtain ⟨⟨found1, text1, s2⟩, hskip, h⟩ := Option.bind_eq_some_iff.1 h
      obtain ⟨s3, -, heq⟩ := Option.map_eq_some_iff.1 hskip
      cases heq
      exact hrest found text _ ho h

/-- **The extracted text fits the buffer.** -/
theorem gwjContentText_length {body text : Bytes} {cap : Nat}
    (h : gwjContentText body cap = some text) : text.length ≤ cap := by
  unfold gwjContentText at h
  split at h
  · cases h
  split at h
  · cases h
  split at h
  · next hloop =>
    cases h
    exact contentTextLoop_length hloop (Nat.zero_le _)
  · cases h

theorem extractText_length {body text stop : Bytes} (h : extractText body = some (text, stop)) :
    text.length ≤ axMaxOutputBytes := by
  obtain ⟨text', htext, h⟩ := Option.bind_eq_some_iff.1 h
  obtain ⟨stop', -, h⟩ := Option.bind_eq_some_iff.1 h
  cases h
  exact gwjContentText_length htext

/-! ## The size of the buffer does not show in the text -/

theorem putBytes_resize {cap cap' o : Nat} {bs t rest : Bytes} {k k' : Nat → Option (Bytes × Bytes)}
    (hk : ∀ o t rest, k o = some (t, rest) → o + t.length ≤ cap' → k' o = some (t, rest))
    (h : putBytes cap o bs k = some (t, rest)) (hfits : o + t.length ≤ cap') :
    putBytes cap' o bs k' = some (t, rest) := by
  unfold putBytes at h ⊢
  split at h
  · cases h
  · obtain ⟨⟨t', rest'⟩, hkt, heq⟩ := Option.map_eq_some_iff.1 h
    cases heq
    rw [List.length_append] at hfits
    rw [if_neg (by omega), hk _ _ _ hkt (by omega)]
    rfl

theorem decodeBody_resize {cap cap' o : Nat} {s t rest : Bytes}
    (h : decodeBody cap o s = some (t, rest)) (hfits : o + t.length ≤ cap') :
    decodeBody cap' o s = some (t, rest) := by
  fun_induction decodeBody cap o s generalizing t rest
  case case2 =>
    cases h
    unfold decodeBody
    rfl
  all_goals first
    | cases h
    | next ih =>
      have hput := putBytes_resize (fun o _ _ => ih o) h hfits
      unfold decodeBody
      simp only [*, if_true, if_false, and_self]

theorem sDecodeString_resize {cap cap' o : Nat} {s t rest : Bytes}
    (h : sDecodeString cap o s = some (t, rest)) (hfits : o + t.length ≤ cap') :
    sDecodeString cap' o s = some (t, rest) := by
  cases s with
  | nil => cases h
  | cons c s =>
    simp only [sDecodeString] at h ⊢
    split at h
    · next hc =>
      rw [if_pos hc]
      exact decodeBody_resize h hfits
    · cases h

/-- The loop only adds to the text, and any buffer that holds the result gives it. -/
theorem contentLoop_resize {cap fuel : Nat} {text s t rest : Bytes}
    (h : contentLoop cap fuel text s = some (t, rest)) : text.length ≤ t.length ∧
      ∀ cap', t.length ≤ cap' → contentLoop cap' fuel text s = some (t, rest) := by
  induction fuel generalizing text s with
  | zero => cases h
  | succ fuel ih =>
    unfold contentLoop at h ⊢
    cases hs : sWs s with
    | nil =>
      rw [hs] at h
      cases h
    | cons c s0 =>
      simp only [hs] at h ⊢
      split at h
      · cases h
      next hc =>
      obtain ⟨⟨isText, textAt, s1⟩, hblock, h⟩ := Option.bind_eq_some_iff.1 h
      have hrest : ∀ text1 : Bytes,
          (match sWs s1 with
            | [] => none
            | c :: s =>
              if c = chr ',' then contentLoop cap fuel text1 s
              else if c = chr ']' then some (text1, s)
              else none) = some (t, rest) → text1.length ≤ t.length ∧ ∀ cap', t.length ≤ cap' →
          (match sWs s1 with
            | [] => none
            | c :: s =>
              if c = chr ',' then contentLoop cap' fuel text1 s
              else if c = chr ']' then some (text1, s)
              else none) = some (t, rest) := by
        intro text1 hnext
        obtain ⟨c, s2, hs2, ⟨hcomma, hmore⟩ | hdone⟩ := separated_iff.1 hnext
        · obtain ⟨hle, hsame⟩ := ih hmore
          exact ⟨hle, fun cap' hcap => separated_iff.2 ⟨c, s2, hs2, .inl ⟨hcomma, hsame cap' hcap⟩⟩⟩
        · obtain ⟨hne, hclose, heq⟩ := hdone
          cases heq
          exact ⟨Nat.le_refl _, fun cap' _ =>
            separated_iff.2 ⟨c, rest, hs2, .inr ⟨hne, hclose, rfl⟩⟩⟩
      simp only [hblock, Option.bind_eq_bind, Option.bind_some, if_neg hc] at h ⊢
      split at h
      · obtain ⟨text1, htext, h⟩ := Option.bind_eq_some_iff.1 h
        obtain ⟨⟨t1, rest1⟩, hdec, rfl⟩ := Option.map_eq_some_iff.1 htext
        dsimp only at h
        obtain ⟨hle, hsame⟩ := hrest _ h
        rw [List.length_append] at hle
        refine ⟨by omega, fun cap' hcap => ?_⟩
        rw [sDecodeString_resize hdec (by omega)]
        exact hsame cap' hcap
      · exact hrest text h

theorem contentTextLoop_resize {cap fuel : Nat} {found found' : Bool} {text s t : Bytes}
    (h : contentTextLoop cap fuel found text s = some (found', t)) : text.length ≤ t.length ∧
      ∀ cap', t.length ≤ cap' → contentTextLoop cap' fuel found text s = some (found', t) := by
  induction fuel generalizing found text s with
  | zero => cases h
  | succ fuel ih =>
    unfold contentTextLoop at h ⊢
    dsimp only at h ⊢
    by_cases hend : (sWs s).head? = some (chr '}')
    · rw [if_pos hend] at h
      cases h
      exact ⟨Nat.le_refl _, fun _ _ => by rw [if_pos hend]⟩
    rw [if_neg hend] at h
    obtain ⟨⟨key, s1⟩, hkey, h⟩ := Option.bind_eq_some_iff.1 h
    have hrest : ∀ (found1 : Bool) (text1 s2 : Bytes),
        (match sWs s2 with
          | [] => none
          | c :: s =>
            if c = chr ',' then contentTextLoop cap fuel found1 text1 s
            else if c = chr '}' then some (found1, text1)
            else none) = some (found', t) → text1.length ≤ t.length ∧ ∀ cap', t.length ≤ cap' →
        (match sWs s2 with
          | [] => none
          | c :: s =>
            if c = chr ',' then contentTextLoop cap' fuel found1 text1 s
            else if c = chr '}' then some (found1, text1)
            else none) = some (found', t) := by
      intro found1 text1 s2 hnext
      obtain ⟨c, s3, hs3, ⟨hcomma, hmore⟩ | hdone⟩ := separated_iff.1 hnext
      · obtain ⟨hle, hsame⟩ := ih hmore
        exact ⟨hle, fun cap' hcap => separated_iff.2 ⟨c, s3, hs3, .inl ⟨hcomma, hsame cap' hcap⟩⟩⟩
      · obtain ⟨hne, hclose, heq⟩ := hdone
        cases heq
        exact ⟨Nat.le_refl _, fun cap' _ =>
          separated_iff.2 ⟨c, s3, hs3, .inr ⟨hne, hclose, rfl⟩⟩⟩
    simp only [if_neg hend, hkey, Option.bind_eq_bind, Option.bind_some] at h ⊢
    split at h
    · next hcontent =>
      split at h
      · cases h
      next c s2 =>
      split at h
      · cases h
      next hbracket =>
      simp only [if_pos hcontent, if_neg hbracket]
      by_cases hempty : (sWs s2).head? = some (chr ']')
      · simp only [if_pos hempty] at h ⊢
        exact hrest true text _ h
      · simp only [if_neg hempty] at h ⊢
        obtain ⟨⟨found1, text1, s3⟩, harray, h⟩ := Option.bind_eq_some_iff.1 h
        obtain ⟨⟨t1, s4⟩, hloop, heq⟩ := Option.map_eq_some_iff.1 harray
        cases heq
        obtain ⟨hle, hsame⟩ := contentLoop_resize hloop
        obtain ⟨hle', hsame'⟩ := hrest true t1 _ h
        refine ⟨Nat.le_trans hle hle', fun cap' hcap => ?_⟩
        rw [hsame cap' (Nat.le_trans hle' hcap)]
        exact hsame' cap' hcap
    · next hother =>
      obtain ⟨⟨found1, text1, s2⟩, hskip, h⟩ := Option.bind_eq_some_iff.1 h
      obtain ⟨s3, hs3, heq⟩ := Option.map_eq_some_iff.1 hskip
      cases heq
      simp only [if_neg hother, hs3, Option.map_some, Option.bind_some]
      exact hrest found text _ h

theorem gwjContentText_of_fits {body text : Bytes} {cap cap' : Nat}
    (h : gwjContentText body cap = some text) (hfits : text.length ≤ cap') :
    gwjContentText body cap' = some text := by
  unfold gwjContentText at h ⊢
  split at h
  · cases h
  split at h
  · cases h
  next hbrace =>
  rw [if_neg hbrace]
  split at h
  · next hloop =>
    cases h
    rw [(contentTextLoop_resize hloop).2 cap' hfits]
  · cases h

/-- **The buffer of the extractor** decides whether there is a text, never which. -/
theorem gwjContentText_resize {body text : Bytes} {cap : Nat}
    (h : gwjContentText body cap = some text) (cap' : Nat) :
    gwjContentText body cap' = if text.length ≤ cap' then some text else none := by
  split
  · next hfits => exact gwjContentText_of_fits h hfits
  · next hlong =>
    cases hshort : gwjContentText body cap' with
    | none => rfl
    | some text' =>
      have hfits' := gwjContentText_length hshort
      have hall : gwjContentText body (cap' + text.length) = some text :=
        gwjContentText_of_fits h (by omega)
      rw [gwjContentText_of_fits hshort (by omega), Option.some.injEq] at hall
      rw [hall] at hfits'
      exact absurd hfits' hlong

/-! ## Strings without escapes -/

/-- A string in its quotes, and what follows it. -/
def quoted (t rest : Bytes) : Bytes := chr '"' :: (t ++ chr '"' :: rest)

theorem skipStringBody_unescaped {t : Bytes} (ht : Unescaped t) (rest : Bytes) :
    skipStringBody (t ++ chr '"' :: rest) = some rest := by
  induction t with
  | nil =>
    rw [List.nil_append, skipStringBody.eq_def]
    exact if_pos rfl
  | cons c t ih =>
    obtain ⟨hquote, hback⟩ := ht c List.mem_cons_self
    rw [List.cons_append, skipStringBody.eq_def]
    dsimp only
    rw [if_neg hquote, if_neg hback]
    exact ih fun b hb => ht b (List.mem_cons_of_mem c hb)

theorem decodeBody_unescaped {t : Bytes} (ht : Unescaped t) {cap o : Nat}
    (hfits : o + t.length ≤ cap)
    (rest : Bytes) : decodeBody cap o (t ++ chr '"' :: rest) = some (t, rest) := by
  induction t generalizing o with
  | nil =>
    rw [List.nil_append, decodeBody.eq_def]
    exact if_pos rfl
  | cons c t ih =>
    obtain ⟨hquote, hback⟩ := ht c List.mem_cons_self
    rw [List.length_cons] at hfits
    have hrest := ih (fun b hb => ht b (List.mem_cons_of_mem c hb)) (o := o + 1) (by omega)
    rw [List.cons_append, decodeBody.eq_def]
    dsimp only
    rw [if_neg hquote, if_neg hback, putBytes, if_neg (by rw [List.length_singleton]; omega),
      List.length_singleton, hrest]
    rfl

theorem sWs_cons {c : UInt8}
    (hc : (c == chr ' ' || c == chr '\t' || c == chr '\n' || c == chr '\r') = false) (s : Bytes) :
    sWs (c :: s) = c :: s := List.dropWhile_cons_of_neg (by simp [hc])

theorem sWs_quoted (t rest : Bytes) : sWs (quoted t rest) = quoted t rest := rfl

theorem quoted_head_ne (t rest : Bytes) : (quoted t rest).head? ≠ some (chr '}') := by
  intro h
  exact absurd (Option.some.inj h) (by decide)

theorem sSkipString_quoted {t : Bytes} (ht : Unescaped t) (rest : Bytes) :
    sSkipString (quoted t rest) = some rest := skipStringBody_unescaped ht rest

theorem sDecodeString_quoted {t : Bytes} (ht : Unescaped t) {cap o : Nat}
    (hfits : o + t.length ≤ cap) (rest : Bytes) :
    sDecodeString cap o (quoted t rest) = some (t, rest) := decodeBody_unescaped ht hfits rest

theorem sSkipValue_quoted {t : Bytes} (ht : Unescaped t) (rest : Bytes) :
    sSkipValue (quoted t rest) = some rest := by
  unfold sSkipValue skipFuel
  rw [skipValue, if_neg (Nat.not_lt_zero _), sWs_quoted]
  exact skipStringBody_unescaped ht rest

theorem memberKey_quoted {key : Bytes} (hkey : Unescaped key) {cap : Nat} (hfits : key.length ≤ cap)
    (rest : Bytes) : memberKey cap (quoted key (chr ':' :: rest)) = some (cstr key, sWs rest) := by
  unfold memberKey
  rw [sDecodeString_quoted hkey (by omega)]
  rfl

/-- The members of a text block behind its brace, and what follows it. -/
def textBlock (text rest : Bytes) : Bytes :=
  quoted (ascii "type") (chr ':' :: quoted (ascii "text") (chr ',' ::
    quoted (ascii "text") (chr ':' :: quoted text (chr '}' :: rest))))

/-- A 200 body with one text block, whose string is `text`. -/
def bodyWith (text : Bytes) : Bytes :=
  chr '{' :: quoted (ascii "stop_reason") (chr ':' :: quoted (ascii "end_turn") (chr ',' ::
    quoted (ascii "content") (chr ':' :: chr '[' :: chr '{' :: textBlock text (ascii "]\x7d"))))

theorem bodyWith_stop (text : Bytes) :
    gwjTopString (bodyWith text) (ascii "stop_reason") 64 = some (ascii "end_turn") := by
  unfold gwjTopString bodyWith
  rw [sWs_cons (by decide)]
  dsimp only
  rw [if_pos rfl, List.length_cons, topStringLoop, sWs_quoted, if_neg (quoted_head_ne _ _),
    memberKey_quoted (by decide) (by decide)]
  dsimp only
  rw [if_pos (by decide), sWs_quoted, sDecodeString_quoted (by decide) (by decide)]
  rfl

theorem blockLoop_textBlock {text : Bytes} (htext : Unescaped text) (n : Nat) (rest : Bytes) :
    blockLoop (n + 2) false none (textBlock text rest) =
      some (true, some (quoted text (chr '}' :: rest)), rest) := by
  unfold textBlock
  rw [blockLoop]
  dsimp only
  rw [sWs_quoted, if_neg (quoted_head_ne _ _), memberKey_quoted (by decide) (by decide)]
  simp only [Option.bind_eq_bind, Option.bind_some]
  rw [if_pos (by decide), sWs_quoted, sDecodeString_quoted (by decide) (by decide)]
  simp only [Option.bind_some]
  rw [sWs_cons (by decide)]
  dsimp only
  -- the second member is the text
  rw [if_pos rfl, blockLoop]
  dsimp only
  rw [sWs_quoted, if_neg (quoted_head_ne _ _), memberKey_quoted (by decide) (by decide)]
  simp only [Option.bind_eq_bind, Option.bind_some]
  rw [if_neg (by decide), if_pos (by decide), sWs_quoted, sSkipString_quoted htext]
  simp only [Option.bind_some]
  rw [sWs_cons (by decide)]
  dsimp only
  rw [if_neg (by decide), if_pos rfl]
  rfl

theorem contentLoop_textBlock {text : Bytes} (htext : Unescaped text) {cap : Nat}
    (hfits : text.length ≤ cap) (n : Nat) (rest : Bytes) :
    contentLoop cap (n + 1) [] (chr '{' :: textBlock text (chr ']' :: rest)) =
      some (text, rest) := by
  rw [contentLoop, sWs_cons (by decide)]
  dsimp only
  obtain ⟨m, hm⟩ : ∃ m, (textBlock text (chr ']' :: rest)).length + 1 = m + 2 := ⟨_, rfl⟩
  rw [if_neg (by decide), hm, blockLoop_textBlock htext]
  simp only [Option.bind_eq_bind, Option.bind_some]
  rw [sDecodeString_quoted htext (by rw [List.length_nil]; omega)]
  rfl

/-- **The text of a plain body is extracted as it is.** -/
theorem bodyWith_text {text : Bytes} (htext : Unescaped text) {cap : Nat}
    (hfits : text.length ≤ cap) : gwjContentText (bodyWith text) cap = some text := by
  unfold gwjContentText bodyWith
  rw [sWs_cons (by decide)]
  dsimp only
  rw [if_neg (by decide), List.length_cons, contentTextLoop]
  dsimp only
  rw [sWs_quoted, if_neg (quoted_head_ne _ _), memberKey_quoted (by decide) (by decide)]
  simp only [Option.bind_eq_bind, Option.bind_some]
  rw [if_neg (by decide), sWs_quoted, sSkipValue_quoted (by decide)]
  simp only [Option.bind_some, Option.map_some]
  rw [sWs_cons (by decide)]
  dsimp only
  -- the second member is the content
  rw [if_pos rfl, contentTextLoop]
  dsimp only
  rw [sWs_quoted, if_neg (quoted_head_ne _ _), memberKey_quoted (by decide) (by decide)]
  simp only [Option.bind_eq_bind, Option.bind_some]
  rw [if_pos (by decide), sWs_cons (by decide)]
  dsimp only
  rw [if_neg (by decide), sWs_cons (by decide), if_neg (by simp [chr])]
  rw [show ascii "]\x7d" = chr ']' :: ascii "\x7d" from rfl, contentLoop_textBlock htext hfits]
  rfl

/-! ## What an oracle result is recorded as -/

/-- The outcome of a result: the text of a 200 body, or a failure without output. -/
def outcomeFrom (res : GwcResult) : Outcome :=
  match res.outcome with
  | .ok =>
    match extractText (res.body.getD []) with
    | some (text, stop) =>
      ⟨if stop = ascii "max_tokens" then .truncated else .complete, .null, text, true⟩
    | none => .failed .invalidOutput
  | .timeout => .failed .timeout
  | .overcap => .failed .invalidOutput
  | .httpFail => .failed .transportError
  | .transport => .failed .transportError

theorem outcomeOf_yields (cfg : GwConfig) (secret : Bytes) (res : GwcResult) :
    (outcomeOf cfg secret res).Yields (· = outcomeFrom res) := by
  unfold outcomeOf outcomeFrom
  cases res.outcome with
  | ok =>
    refine .seq _ fun _ => ?_
    unfold outcomeOfBody
    cases extractText (res.body.getD []) with
    | none => exact .seq _ fun _ => .ret rfl
    | some x => exact .seq _ fun _ => .ret rfl
  | timeout => exact .seq _ fun _ => .ret rfl
  | overcap => exact .seq _ fun _ => .ret rfl
  | httpFail =>
    dsimp only
    split
    · exact .seq _ fun _ => .ret rfl
    · exact .seq _ fun _ => .ret rfl
  | transport => exact .seq _ fun _ => .ret rfl

/-- The two kinds of outcome. -/
theorem outcomeFrom_cases (res : GwcResult) :
    (∃ text stop state, res.outcome = .ok ∧ extractText (res.body.getD []) = some (text, stop) ∧
      (state = .complete ∨ state = .truncated) ∧ outcomeFrom res = ⟨state, .null, text, true⟩) ∨
    ∃ ftype, (ftype = .timeout ∨ ftype = .invalidOutput ∨ ftype = .transportError) ∧
      outcomeFrom res = .failed ftype := by
  unfold outcomeFrom
  cases hres : res.outcome with
  | ok =>
    cases htext : extractText (res.body.getD []) with
    | none => exact .inr ⟨.invalidOutput, .inr (.inl rfl), rfl⟩
    | some x =>
      obtain ⟨text, stop⟩ := x
      refine .inl ⟨text, stop, _, rfl, rfl, ?_, rfl⟩
      split
      · exact .inr rfl
      · exact .inl rfl
  | timeout => exact .inr ⟨.timeout, .inl rfl, rfl⟩
  | overcap => exact .inr ⟨.invalidOutput, .inr (.inl rfl), rfl⟩
  | httpFail => exact .inr ⟨.transportError, .inr (.inr rfl), rfl⟩
  | transport => exact .inr ⟨.transportError, .inr (.inr rfl), rfl⟩

theorem outcomeFrom_length_le (res : GwcResult) :
    (outcomeFrom res).output.length ≤ axMaxOutputBytes := by
  rcases outcomeFrom_cases res with ⟨text, stop, state, -, htext, -, heq⟩ | ⟨ftype, -, heq⟩
  · rw [heq]
    exact extractText_length htext
  · rw [heq]
    exact Nat.zero_le _

end AxiomaOracle
