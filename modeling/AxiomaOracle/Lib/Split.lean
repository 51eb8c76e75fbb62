import Mathlib.Data.List.Infix

/-!
# Splitting at the first occurrence

`cutFirst sep s` splits `s` in front of and behind the leftmost occurrence of `sep`, and
`replaceAll` replaces the occurrences from left to right, each search starting behind the one
before. `Pieces sep s ps` says what the replaced text is made of: `ps` are the stretches between the
occurrences, and no stretch has an occurrence that starts in it. The replaced text can have new
occurrences only where the replacement itself makes them (`forall_not_infix_replaceAll_iff`).
-/

namespace Lib

section Cut

variable {α : Type} [DecidableEq α] {sep s l r : List α}

/-- What is in front of the first occurrence of `sep`, and what is behind it. -/
def cutFirst (sep : List α) : List α → Option (List α × List α)
  | [] => if sep = [] then some ([], []) else none
  | a :: s =>
    if sep <+: a :: s then some ([], (a :: s).drop sep.length)
    else (cutFirst sep s).map fun lr => (a :: lr.1, lr.2)

theorem cutFirst_at_start (h : sep <+: s) : cutFirst sep s = some ([], s.drop sep.length) := by
  cases s with
  | nil => rw [cutFirst, if_pos (List.prefix_nil.1 h), List.drop_nil]
  | cons a s => rw [cutFirst, if_pos h]

theorem cutFirst_append (sep r : List α) : cutFirst sep (sep ++ r) = some ([], r) := by
  rw [cutFirst_at_start (List.prefix_append sep r), List.drop_left]

theorem cutFirst_cons {a : α} (h : ¬ sep <+: a :: s) :
    cutFirst sep (a :: s) = (cutFirst sep s).map fun lr => (a :: lr.1, lr.2) := by
  rw [cutFirst, if_neg h]

/-- The text is what is in front, the separator, and what is behind. -/
theorem cutFirst_eq (h : cutFirst sep s = some (l, r)) : s = l ++ (sep ++ r) := by
  induction s generalizing l with
  | nil =>
    rw [cutFirst] at h
    split at h
    · next hsep =>
      cases h
      rw [hsep]
      rfl
    · cases h
  | cons a s ih =>
    by_cases hpre : sep <+: a :: s
    · rw [cutFirst_at_start hpre] at h
      cases h
      exact (List.prefix_iff_eq_append.1 hpre).symm
    · rw [cutFirst_cons hpre, Option.map_eq_some_iff] at h
      obtain ⟨⟨l', r'⟩, hcut, heq⟩ := h
      cases heq
      rw [ih hcut, List.cons_append]

theorem cutFirst_none_iff : cutFirst sep s = none ↔ ¬ sep <:+: s := by
  induction s with
  | nil =>
    rw [cutFirst, List.infix_nil]
    by_cases hsep : sep = []
    · simp [hsep]
    · simp [hsep]
  | cons a s ih =>
    rw [List.infix_cons_iff, not_or]
    by_cases hpre : sep <+: a :: s
    · simp [cutFirst_at_start hpre, hpre]
    · rw [cutFirst_cons hpre, Option.map_eq_none_iff, ih, and_iff_right hpre]

/-- No occurrence starts further left. -/
theorem cutFirst_least (h : cutFirst sep s = some (l, r)) {l' r' : List α}
    (hs : s = l' ++ (sep ++ r')) : l.length ≤ l'.length := by
  induction s generalizing l l' with
  | nil =>
    have hl := (List.append_eq_nil_iff.1 (cutFirst_eq h).symm).1
    rw [hl]
    exact Nat.zero_le _
  | cons a s ih =>
    by_cases hpre : sep <+: a :: s
    · rw [cutFirst_at_start hpre] at h
      cases h
      exact Nat.zero_le _
    · rw [cutFirst_cons hpre, Option.map_eq_some_iff] at h
      obtain ⟨⟨l0, r0⟩, hcut, heq⟩ := h
      cases heq
      cases l' with
      | nil => exact absurd ⟨r', hs.symm⟩ hpre
      | cons b l' =>
        rw [List.cons_append, List.cons.injEq] at hs
        exact Nat.succ_le_succ (ih hcut hs.2)

/-- A stretch with no element a separator could start with is skipped. -/
theorem cutFirst_skip {b : α} {sep' : List α} (h : b ∉ l) (s : List α) :
    cutFirst (b :: sep') (l ++ s) = (cutFirst (b :: sep') s).map fun lr => (l ++ lr.1, lr.2) := by
  induction l with
  | nil => simp
  | cons a l ih =>
    rw [List.mem_cons, not_or] at h
    have hpre : ¬ b :: sep' <+: a :: (l ++ s) := fun hp => h.1 (List.cons_prefix_cons.1 hp).1
    rw [List.cons_append, cutFirst_cons hpre, ih h.2, Option.map_map]
    rfl

theorem cutFirst_key {b : α} {sep' : List α} (h : b ∉ l) (r : List α) :
    cutFirst (b :: sep') (l ++ (b :: sep' ++ r)) = some (l, r) := by
  rw [cutFirst_skip h, cutFirst_append, Option.map_some, List.append_nil]

/-! ## Keyed lines in front of a body -/

/-- Lines that are not empty, a blank line, and a body: the blank line is the first one. -/
theorem cutFirst_blank {n : α} {ls : List (List α)} (hne : ls ≠ [])
    (h : ∀ l ∈ ls, l ≠ [] ∧ n ∉ l) (body : List α) :
    cutFirst [n, n] ([n].intercalate ls ++ ([n, n] ++ body)) = some ([n].intercalate ls, body) := by
  induction ls with
  | nil => exact absurd rfl hne
  | cons l ls ih =>
    obtain ⟨⟨-, hl⟩, hls⟩ := List.forall_mem_cons.1 h
    cases ls with
    | nil =>
      rw [List.intercalate_singleton]
      exact cutFirst_key hl body
    | cons l' ls =>
      obtain ⟨hl', hmem⟩ := hls l' List.mem_cons_self
      have hrest := ih (List.cons_ne_nil _ _) hls
      rw [List.intercalate_cons_cons, List.append_assoc, List.append_assoc, cutFirst_skip hl]
      -- the next line is not empty, so its line feed is not followed by another
      have hpre : ¬ [n, n] <+: n :: ([n].intercalate (l' :: ls) ++ ([n, n] ++ body)) := by
        intro hp
        have hhead := (List.cons_prefix_cons.1 hp).2
        obtain ⟨a, t, rfl⟩ := List.exists_cons_of_ne_nil hl'
        rw [List.intercalate_cons_cons_left, List.cons_append] at hhead
        exact hmem ((List.cons_prefix_cons.1 hhead).1 ▸ List.mem_cons_self)
      rw [List.singleton_append, cutFirst_cons hpre, hrest, Option.map_some, Option.map_some,
        List.append_assoc, List.singleton_append]

/-- Keyed lines up to a blank line, and what is behind it: the text is split at the first blank
line, the lines at `n`, and each line behind the first `colon`. -/
def readFields (n : α) (colon s : List α) : Option (List (List α × List α) × List α) := do
  let (head, body) ← cutFirst [n, n] s
  let fields ← (head.splitOn n).mapM (cutFirst colon)
  some (fields, body)

/-- A line for a key and its value. -/
def fieldLine (colon : List α) (f : List α × List α) : List α := f.1 ++ (colon ++ f.2)

theorem mapM_cutFirst {b : α} {colon : List α} {fs : List (List α × List α)}
    (h : ∀ f ∈ fs, b ∉ f.1) :
    (fs.map (fieldLine (b :: colon))).mapM (cutFirst (b :: colon)) = some fs := by
  induction fs with
  | nil => rfl
  | cons f fs ih =>
    obtain ⟨hf, hfs⟩ := List.forall_mem_cons.1 h
    rw [List.map_cons, List.mapM_cons, ih hfs, fieldLine, cutFirst_key hf]
    rfl

/-- **Keyed lines read back**: keys without the first character of the colon, and no line end in any
key or value. -/
theorem readFields_lines {n b : α} {colon : List α} {fs : List (List α × List α)} (hne : fs ≠ [])
    (hkey : ∀ f ∈ fs, b ∉ f.1) (hline : ∀ f ∈ fs, n ∉ fieldLine (b :: colon) f) (body : List α) :
    readFields n (b :: colon)
        ([n].intercalate (fs.map (fieldLine (b :: colon))) ++ ([n, n] ++ body)) =
          some (fs, body) := by
  have hlines : ∀ l ∈ fs.map (fieldLine (b :: colon)), l ≠ [] ∧ n ∉ l := by
    intro l hl
    obtain ⟨f, hf, rfl⟩ := List.mem_map.1 hl
    exact ⟨List.append_ne_nil_of_right_ne_nil _ (List.cons_ne_nil _ _), hline f hf⟩
  have hne' : fs.map (fieldLine (b :: colon)) ≠ [] := fun h => hne (List.map_eq_nil_iff.1 h)
  rw [readFields, cutFirst_blank hne' hlines]
  simp only [Option.bind_eq_bind, Option.bind_some]
  rw [List.splitOn_intercalate n (fun l hl => (hlines l hl).2) hne', mapM_cutFirst hkey]
  rfl

end Cut

/-! ## Stretches between occurrences -/

section Stretches

variable {α : Type} {sep s l r : List α}

/-- The stretches of `s` between the occurrences of `sep`: an occurrence starts only where one is
cut. -/
inductive Pieces (sep : List α) : List α → List (List α) → Prop where
  | last {s : List α} (h : ¬ sep <:+: s) : Pieces sep s [s]
  | cut {l r : List α} {ps : List (List α)}
      (hleast : ∀ l' r', l ++ (sep ++ r) = l' ++ (sep ++ r') → l.length ≤ l'.length)
      (h : Pieces sep r ps) : Pieces sep (l ++ (sep ++ r)) (l :: ps)

theorem Pieces.ne_nil {ps : List (List α)} (h : Pieces sep s ps) : ps ≠ [] := by
  cases h <;> exact List.cons_ne_nil _ _

theorem Pieces.join {ps : List (List α)} (h : Pieces sep s ps) : sep.intercalate ps = s := by
  induction h with
  | last _ => exact List.intercalate_singleton
  | cut _ h ih => rw [List.intercalate_cons_of_ne_nil h.ne_nil, ih, List.append_assoc]

/-- There is something to replace exactly when there is more than one stretch. -/
theorem Pieces.length {ps : List (List α)} (h : Pieces sep s ps) : 2 ≤ ps.length ↔ sep <:+: s := by
  cases h with
  | last h => simp [h]
  | @cut l r ps _ h =>
    have hpos := List.length_pos_iff.2 h.ne_nil
    have hinfix : sep <:+: l ++ (sep ++ r) := ⟨l, r, List.append_assoc l sep r⟩
    simp only [List.length_cons, hinfix, iff_true]
    omega

theorem length_intercalate (k : List α) {ps : List (List α)} (h : ps ≠ []) :
    (k.intercalate ps).length + k.length = ps.flatten.length + ps.length * k.length := by
  induction ps with
  | nil => exact absurd rfl h
  | cons p ps ih =>
    cases ps with
    | nil => simp
    | cons q ps =>
      have hrest := ih (List.cons_ne_nil q ps)
      rw [List.intercalate_cons_cons, List.flatten_cons, List.length_cons, Nat.add_mul, Nat.one_mul,
        List.length_append, List.length_append, List.length_append]
      omega

/-- Two stretches or more say what they are joined with. -/
theorem eq_of_intercalate_eq {k k' : List α} {ps : List (List α)} (h : 2 ≤ ps.length)
    (heq : k.intercalate ps = k'.intercalate ps) : k = k' := by
  have hne : ps ≠ [] := List.ne_nil_of_length_pos (by omega)
  have hlen : k.length = k'.length := by
    have h1 := length_intercalate k hne
    have h2 := length_intercalate k' hne
    rw [heq] at h1
    obtain ⟨n, hn⟩ : ∃ n, ps.length = n + 2 := ⟨ps.length - 2, by omega⟩
    rw [hn] at h1 h2
    have hmul : (n + 1) * k.length = (n + 1) * k'.length := by
      rw [Nat.add_mul] at h1 h2 ⊢
      rw [Nat.add_mul]
      omega
    exact Nat.eq_of_mul_eq_mul_left (Nat.succ_pos n) hmul
  obtain ⟨p, ps, rfl⟩ := List.exists_cons_of_ne_nil hne
  obtain ⟨q, ps, rfl⟩ := List.exists_cons_of_ne_nil (l := ps) (by
    rintro rfl
    exact absurd h (by simp))
  rw [List.intercalate_cons_cons, List.intercalate_cons_cons, List.append_assoc, List.append_assoc]
    at heq
  exact (List.append_inj (List.append_cancel_left heq) hlen).1

/-- An occurrence of a joined text's part is in the one or the other, or over the seam. -/
theorem infix_append_cases {x a b : List α} (h : x <:+: a ++ b) :
    x <:+: a ∨ x <:+: b ∨ ∃ q r, x = q ++ r ∧ q ≠ [] ∧ r ≠ [] ∧ q <:+ a ∧ r <+: b := by
  obtain ⟨u, v, huv⟩ := h
  rw [List.append_assoc] at huv
  rcases List.append_eq_append_iff.1 huv with ⟨a', rfl, hb⟩ | ⟨c', rfl, hb⟩
  · -- it starts in the first text
    rcases List.append_eq_append_iff.1 hb with ⟨c, rfl, rfl⟩ | ⟨c, rfl, hc⟩
    · exact .inl ⟨u, c, List.append_assoc u x c⟩
    · by_cases ha' : a' = []
      · subst ha'
        exact .inr (.inl ⟨[], v, by rw [hc]; rfl⟩)
      · by_cases hc' : c = []
        · subst hc'
          exact .inl ⟨u, [], by simp⟩
        · exact .inr (.inr ⟨a', c, rfl, ha', hc', ⟨u, rfl⟩, ⟨v, hc.symm⟩⟩)
  · exact .inr (.inl ⟨c', v, by rw [hb, List.append_assoc]⟩)

/-- An occurrence of `sep` can start inside `new`. -/
def StartsIn (sep new : List α) : Prop :=
  ∃ s, s ≠ [] ∧ s <:+ new ∧ (s <+: sep ∨ sep <+: s)

/-- An occurrence of `sep` can start in front of a `new` that stands for the leftmost one, and reach
into it. -/
def ReachesInto (sep new : List α) : Prop :=
  ∃ q r, sep = q ++ r ∧ q ≠ [] ∧ r ≠ [] ∧ (r <+: new ∨ new <+: r) ∧
    ∀ l' r', q ++ sep = l' ++ (sep ++ r') → q.length ≤ l'.length

/-- A separator whose first element the replacement does not have starts nowhere in it. -/
theorem not_startsIn {b : α} {sep' new : List α} (h : b ∉ new) : ¬ StartsIn (b :: sep') new := by
  rintro ⟨s, hs, hsuf, hpre⟩
  obtain ⟨a, t, rfl⟩ := List.exists_cons_of_ne_nil hs
  have hab : a = b := by
    rcases hpre with hpre | hpre
    · exact (List.cons_prefix_cons.1 hpre).1
    · exact (List.cons_prefix_cons.1 hpre).1.symm
  exact h (hab ▸ hsuf.subset List.mem_cons_self)

/-- A separator without the first element of the replacement reaches into none. -/
theorem not_reachesInto {c : α} {new' : List α} (h : c ∉ sep) : ¬ ReachesInto sep (c :: new') := by
  rintro ⟨q, r, rfl, -, hr, hnew, -⟩
  obtain ⟨a, t, rfl⟩ := List.exists_cons_of_ne_nil hr
  have hac : a = c := by
    rcases hnew with hnew | hnew
    · exact (List.cons_prefix_cons.1 hnew).1
    · exact (List.cons_prefix_cons.1 hnew).1.symm
  exact h (hac ▸ List.mem_append_right q List.mem_cons_self)

/-- **Replacing leaves no occurrence** unless one starts in the replacement or reaches into it. -/
theorem Pieces.not_infix {new : List α} {ps : List (List α)} (hsep : sep ≠ [])
    (h : Pieces sep s ps) (hstart : ¬ StartsIn sep new) (hreach : ¬ ReachesInto sep new) :
    ¬ sep <:+: new.intercalate ps := by
  induction h with
  | last h => rwa [List.intercalate_singleton]
  | @cut l r ps hleast h ih =>
    rw [List.intercalate_cons_of_ne_nil h.ne_nil, List.append_assoc]
    have hleft : ¬ sep <:+: l := by
      rintro ⟨u, v, rfl⟩
      have hle := hleast u (v ++ (sep ++ r)) (by simp)
      have hpos := List.length_pos_iff.2 hsep
      simp only [List.length_append] at hle
      omega
    have hright : ¬ sep <:+: new ++ new.intercalate ps := by
      intro hin
      rcases infix_append_cases hin with ⟨u, v, rfl⟩ | hin | ⟨q, r', rfl, hq, -, hqnew, -⟩
      · exact hstart ⟨sep ++ v, List.append_ne_nil_of_left_ne_nil hsep v,
          ⟨u, (List.append_assoc u sep v).symm⟩, .inr (List.prefix_append sep v)⟩
      · exact ih hin
      · exact hstart ⟨q, hq, hqnew, .inl (List.prefix_append q r')⟩
    intro hin
    rcases infix_append_cases hin with hin | hin | ⟨q, r', hqr, hq, hr', ⟨l0, rfl⟩, hpre⟩
    · exact hleft hin
    · exact hright hin
    · refine hreach ⟨q, r', hqr, hq, hr',
        List.prefix_or_prefix_of_prefix hpre (List.prefix_append _ _), ?_⟩
      intro l' r'' heq
      have hle := hleast (l0 ++ l') (r'' ++ r) (by
        rw [List.append_assoc, ← List.append_assoc q, heq]
        simp)
      simp only [List.length_append] at hle
      omega

/-- Nothing shows an occurrence further left when more text follows. -/
theorem least_append {q t : List α}
    (h : ∀ l' r', q ++ sep = l' ++ (sep ++ r') → q.length ≤ l'.length) :
    ∀ l' r', q ++ (sep ++ t) = l' ++ (sep ++ r') → q.length ≤ l'.length := by
  intro l' r' heq
  by_contra hlt
  have htake := congrArg (List.take (q.length + sep.length)) heq
  rw [← List.append_assoc, List.take_left' (by simp), ← List.append_assoc, List.take_append,
    List.take_of_length_le (by simp; omega)] at htake
  rw [List.append_assoc] at htake
  exact hlt (h l' _ htake)

end Stretches

/-! ## Replacing every occurrence -/

section Replace

variable {α : Type} [DecidableEq α] {sep s l r : List α}

theorem cutFirst_length (hsep : sep ≠ []) (h : cutFirst sep s = some (l, r)) :
    r.length < s.length := by
  have hpos := List.length_pos_iff.2 hsep
  rw [cutFirst_eq h, List.length_append, List.length_append]
  omega

/-- Every occurrence of `sep` replaced by `new`, from left to right. -/
def replaceAll (sep new s : List α) : List α :=
  if _hsep : sep = [] then s
  else match _h : cutFirst sep s with
    | none => s
    | some (l, r) => l ++ (new ++ replaceAll sep new r)
termination_by s.length
decreasing_by exact cutFirst_length _hsep _h

theorem replaceAll_of_none (new : List α) (h : cutFirst sep s = none) :
    replaceAll sep new s = s := by
  unfold replaceAll
  split
  · rfl
  · split
    · rfl
    · next hcut => exact absurd (h.symm.trans hcut) (by simp)

theorem replaceAll_of_some (new : List α) (hsep : sep ≠ []) (h : cutFirst sep s = some (l, r)) :
    replaceAll sep new s = l ++ (new ++ replaceAll sep new r) := by
  rw [replaceAll, dif_neg hsep]
  split
  · next hcut => exact absurd (h.symm.trans hcut) (by simp)
  · next l' r' hcut =>
    obtain ⟨rfl, rfl⟩ := Prod.mk.inj (Option.some.inj (h.symm.trans hcut))
    rfl

theorem replaceAll_nil_sep (new s : List α) : replaceAll [] new s = s := by
  rw [replaceAll, dif_pos rfl]

theorem cutFirst_of_least
    (hleast : ∀ l' r', l ++ (sep ++ r) = l' ++ (sep ++ r') → l.length ≤ l'.length) :
    cutFirst sep (l ++ (sep ++ r)) = some (l, r) := by
  cases hcut : cutFirst sep (l ++ (sep ++ r)) with
  | none =>
    have hinfix : sep <:+: l ++ (sep ++ r) := ⟨l, r, List.append_assoc l sep r⟩
    exact absurd hinfix (cutFirst_none_iff.1 hcut)
  | some lr =>
    obtain ⟨l', r'⟩ := lr
    have heq := cutFirst_eq hcut
    have hle := hleast l' r' heq
    have hge := cutFirst_least hcut rfl
    obtain ⟨rfl, hrest⟩ := List.append_inj heq (Nat.le_antisymm hle hge)
    rw [List.append_cancel_left hrest]

/-- **Replacing is joining the stretches again**, around the replacement. -/
theorem Pieces.replaceAll {ps : List (List α)} (hsep : sep ≠ []) (h : Pieces sep s ps)
    (new : List α) : replaceAll sep new s = new.intercalate ps := by
  induction h with
  | last h => rw [replaceAll_of_none new (cutFirst_none_iff.2 h), List.intercalate_singleton]
  | cut hleast h ih =>
    rw [replaceAll_of_some new hsep (cutFirst_of_least hleast), ih,
      List.intercalate_cons_of_ne_nil h.ne_nil, List.append_assoc]

theorem exists_pieces (hsep : sep ≠ []) (s : List α) : ∃ ps, Pieces sep s ps := by
  induction hn : s.length using Nat.strong_induction_on generalizing s with
  | _ n ih =>
  cases hcut : cutFirst sep s with
  | none => exact ⟨[s], .last (cutFirst_none_iff.1 hcut)⟩
  | some lr =>
    obtain ⟨l, r⟩ := lr
    obtain ⟨ps, hps⟩ := ih r.length (hn ▸ cutFirst_length hsep hcut) r rfl
    have hs := cutFirst_eq hcut
    refine ⟨l :: ps, ?_⟩
    rw [hs]
    exact .cut (fun l' r' heq => cutFirst_least hcut (hs.trans heq)) hps

theorem replaceAll_cons {a : α} (new : List α) (hsep : sep ≠ []) (h : ¬ sep <+: a :: s) :
    replaceAll sep new (a :: s) = a :: replaceAll sep new s := by
  cases hcut : cutFirst sep s with
  | none =>
    rw [replaceAll_of_none new hcut, replaceAll_of_none new (by rw [cutFirst_cons h, hcut]; rfl)]
  | some lr =>
    rw [replaceAll_of_some new hsep hcut,
      replaceAll_of_some (l := a :: lr.1) (r := lr.2) new hsep (by rw [cutFirst_cons h, hcut]; rfl),
      List.cons_append]

theorem replaceAll_append (new : List α) (hsep : sep ≠ []) (r : List α) :
    replaceAll sep new (sep ++ r) = new ++ replaceAll sep new r := by
  rw [replaceAll_of_some new hsep (cutFirst_append sep r), List.nil_append]

/-- Nothing to replace. -/
theorem replaceAll_of_absent (new : List α) (h : ¬ sep <:+: s) : replaceAll sep new s = s :=
  replaceAll_of_none new (cutFirst_none_iff.2 h)

/-! ## Occurrences in the replaced text -/

theorem replaceAll_of_length_lt {t : List α} (new : List α) (h : t.length < sep.length) :
    replaceAll sep new t = t :=
  replaceAll_of_absent new fun hin => absurd hin.length_le (Nat.not_le.2 h)

/-- An occurrence that starts in the replacement shows, in a text with `sep` in it. -/
theorem StartsIn.shows {new : List α} (hsep : sep ≠ []) (h : StartsIn sep new) :
    ∃ s, sep <:+: s ∧ sep <:+: replaceAll sep new s := by
  obtain ⟨s, hs, ⟨u, rfl⟩, ⟨t, rfl⟩ | ⟨t, rfl⟩⟩ := h
  · -- the rest of it behind the replaced one
    refine ⟨(s ++ t) ++ t, ⟨[], t, rfl⟩, ?_⟩
    have hpos := List.length_pos_iff.2 hs
    rw [replaceAll_append _ hsep, replaceAll_of_length_lt _ (by rw [List.length_append]; omega)]
    exact ⟨u, [], by simp⟩
  · refine ⟨sep, List.infix_rfl, ?_⟩
    have hone := replaceAll_append (u ++ (sep ++ t)) hsep []
    have hnil : replaceAll sep (u ++ (sep ++ t)) [] = [] :=
      replaceAll_of_length_lt _ (List.length_pos_iff.2 hsep)
    rw [List.append_nil, hnil, List.append_nil] at hone
    rw [hone]
    exact ⟨u, t, List.append_assoc u sep t⟩

theorem ReachesInto.shows {new : List α} (hsep : sep ≠ []) (h : ReachesInto sep new) :
    ∃ s, sep <:+: s ∧ sep <:+: replaceAll sep new s := by
  obtain ⟨q, r, hqr, hq, hr, hnew, hleast⟩ := h
  have hpos := List.length_pos_iff.2 hq
  have hrep : ∀ t : List α, t.length < sep.length →
      replaceAll sep new (q ++ (sep ++ t)) = q ++ (new ++ t) := by
    intro t ht
    rw [replaceAll_of_some new hsep (cutFirst_of_least (least_append hleast)),
      replaceAll_of_length_lt new ht]
  rcases hnew with ⟨u, hu⟩ | ⟨t, ht⟩
  · refine ⟨q ++ (sep ++ []), ⟨q, [], by simp⟩, ?_⟩
    rw [hrep [] (List.length_pos_iff.2 hsep), ← hu, hqr]
    exact ⟨[], u, by simp⟩
  · refine ⟨q ++ (sep ++ t), ⟨q, t, by simp⟩, ?_⟩
    rw [hrep t (by rw [hqr, ← ht]; simp only [List.length_append]; omega), ht, ← hqr]

/-- **Replacing removes a separator from every text** exactly when no occurrence can start in the
replacement or reach into it. -/
theorem forall_not_infix_replaceAll_iff {new : List α} (hsep : sep ≠ []) :
    (∀ s, sep <:+: s → ¬ sep <:+: replaceAll sep new s) ↔
      ¬ StartsIn sep new ∧ ¬ ReachesInto sep new := by
  constructor
  · intro hall
    constructor
    · intro h
      obtain ⟨s, hin, hshows⟩ := h.shows hsep
      exact hall s hin hshows
    · intro h
      obtain ⟨s, hin, hshows⟩ := h.shows hsep
      exact hall s hin hshows
  · rintro ⟨hstart, hreach⟩ s -
    obtain ⟨ps, hps⟩ := exists_pieces hsep s
    rw [hps.replaceAll hsep]
    exact hps.not_infix hsep hstart hreach

end Replace

end Lib
