import AxiomaOracle.Lib.CLib

/-!
# Physical lines

A text ends its lines with a line feed, and a reader with a bounded buffer takes them one by one as
long as they fit. `lines` splits a text behind every line feed; `lines_induction` is its induction
principle. A loop of `fgets` sees the lines cut to its buffer (`fgetsAll_eq_chunks`).
-/

namespace Lib

/-- The lines of a text, each with its line feed; the last may lack it. -/
def lines : Bytes → List Bytes
  | [] => []
  | b :: s =>
    if b = chr '\n' then [b] :: lines s
    else match lines s with
      | [] => [[b]]
      | l :: ls => (b :: l) :: ls

theorem lines_last {l : Bytes} (hne : l ≠ []) (hl : chr '\n' ∉ l) : lines l = [l] := by
  induction l with
  | nil => exact absurd rfl hne
  | cons b l ih =>
    rw [List.mem_cons, not_or] at hl
    rw [lines, if_neg (Ne.symm hl.1)]
    cases l with
    | nil => rfl
    | cons c l => rw [ih (List.cons_ne_nil _ _) hl.2]

theorem lines_line {l : Bytes} (hl : chr '\n' ∉ l) (rest : Bytes) :
    lines (l ++ chr '\n' :: rest) = (l ++ [chr '\n']) :: lines rest := by
  induction l with
  | nil => rw [List.nil_append, lines, if_pos rfl, List.nil_append]
  | cons b l ih =>
    rw [List.mem_cons, not_or] at hl
    rw [List.cons_append, lines, if_neg (Ne.symm hl.1), ih hl.2]
    rfl

/-- A text is empty, one last line, or a line and a text. -/
theorem lines_induction {P : Bytes → Prop} (nil : P [])
    (last : ∀ l, l ≠ [] → chr '\n' ∉ l → P l)
    (line : ∀ l rest, chr '\n' ∉ l → P rest → P (l ++ chr '\n' :: rest)) (s : Bytes) : P s := by
  induction hn : s.length using Nat.strong_induction_on generalizing s with
  | _ n ih =>
  by_cases hmem : chr '\n' ∈ s
  · obtain ⟨l, rest, rfl, hl⟩ := List.eq_append_cons_of_mem hmem
    refine line l rest hl (ih rest.length ?_ rest rfl)
    rw [← hn, List.length_append, List.length_cons]
    omega
  · by_cases hne : s = []
    · rw [hne]
      exact nil
    · exact last s hne hmem

theorem lines_flatten (s : Bytes) : (lines s).flatten = s := by
  induction s using lines_induction with
  | nil => rfl
  | last l hne hl => rw [lines_last hne hl, List.flatten_singleton]
  | line l rest hl ih => rw [lines_line hl, List.flatten_cons, ih, List.append_assoc,
      List.singleton_append]

theorem ne_nil_of_mem_lines {s l : Bytes} (h : l ∈ lines s) : l ≠ [] := by
  induction s using lines_induction with
  | nil => cases h
  | last t hne ht =>
    rw [lines_last hne ht, List.mem_singleton] at h
    rw [h]
    exact hne
  | line t rest ht ih =>
    rw [lines_line ht, List.mem_cons] at h
    rcases h with rfl | h
    · exact List.append_ne_nil_of_right_ne_nil _ (List.cons_ne_nil _ _)
    · exact ih h

/-- Lines of a text in front, when its last line is complete. -/
theorem lines_append {pre : Bytes} (hpre : pre = [] ∨ pre.getLast? = some (chr '\n')) (s : Bytes) :
    lines (pre ++ s) = lines pre ++ lines s := by
  induction pre using lines_induction with
  | nil => rfl
  | last l hne hl =>
    rcases hpre with rfl | hpre
    · exact absurd rfl hne
    · exact absurd (List.mem_of_getLast? hpre) hl
  | line l rest hl ih =>
    have hrest : rest = [] ∨ rest.getLast? = some (chr '\n') := by
      rcases hpre with hpre | hpre
      · exact absurd hpre (List.append_ne_nil_of_right_ne_nil _ (List.cons_ne_nil _ _))
      · cases rest with
        | nil => exact .inl rfl
        | cons b rest =>
          simp only [List.getLast?_append, List.getLast?_cons, Option.getD_some, Option.some_or]
            at hpre
          exact .inr (by rw [List.getLast?_cons, hpre])
    rw [List.append_assoc, List.cons_append, lines_line hl, lines_line hl, ih hrest,
      List.cons_append]

/-- A text put together from lines. -/
theorem lines_flatMap {ls : List Bytes} (hls : ∀ l ∈ ls, chr '\n' ∉ l) (rest : Bytes) :
    lines (ls.flatMap (· ++ [chr '\n']) ++ rest) = ls.map (· ++ [chr '\n']) ++ lines rest := by
  induction ls with
  | nil => rfl
  | cons l ls ih =>
    rw [List.flatMap_cons, List.append_assoc, List.append_assoc, List.singleton_append,
      lines_line (hls l List.mem_cons_self), ih fun l' h => hls l' (List.mem_cons_of_mem _ h),
      List.map_cons, List.cons_append]

/-- The lines of a cut text are beginnings of lines. -/
theorem prefix_of_mem_lines_take {s l : Bytes} {k : Nat} (h : l ∈ lines (s.take k)) :
    ∃ l' ∈ lines s, l <+: l' := by
  induction s using lines_induction generalizing k with
  | nil =>
    rw [List.take_nil] at h
    cases h
  | last t hne ht =>
    have hl : l = t.take k := by
      by_cases hk : t.take k = []
      · rw [hk] at h
        cases h
      · rw [lines_last hk fun hm => ht (List.mem_of_mem_take hm), List.mem_singleton] at h
        exact h
    rw [hl, lines_last hne ht]
    exact ⟨t, List.mem_singleton_self t, List.take_prefix k t⟩
  | line t rest ht ih =>
    rw [lines_line ht]
    by_cases hk : k ≤ t.length
    · have htake : (t ++ chr '\n' :: rest).take k = t.take k := List.take_append_of_le_length hk
      have hl : l = t.take k := by
        rw [htake] at h
        by_cases hnil : t.take k = []
        · rw [hnil] at h
          cases h
        · rw [lines_last hnil fun hm => ht (List.mem_of_mem_take hm), List.mem_singleton] at h
          exact h
      rw [hl]
      exact ⟨_, List.mem_cons_self, (List.take_prefix k t).trans (List.prefix_append _ _)⟩
    · obtain ⟨j, rfl⟩ : ∃ j, k = t.length + (j + 1) := ⟨k - t.length - 1, by omega⟩
      rw [List.take_length_add_append, List.take_succ_cons, lines_line ht, List.mem_cons] at h
      rcases h with rfl | h
      · exact ⟨_, List.mem_cons_self, List.prefix_refl _⟩
      · obtain ⟨l', hl', hpre⟩ := ih h
        exact ⟨l', List.mem_cons_of_mem _ hl', hpre⟩

/-- A text cut behind every `n` bytes. -/
def chunks (n : Nat) (l : Bytes) : List Bytes :=
  if l.length ≤ n ∨ n = 0 then (if l = [] then [] else [l])
  else l.take n :: chunks n (l.drop n)
termination_by l.length
decreasing_by
  rw [List.length_drop]
  omega

theorem chunks_nil (n : Nat) : chunks n [] = [] := by
  rw [chunks, if_pos (.inl (Nat.zero_le _)), if_pos rfl]

theorem chunks_short {n : Nat} {l : Bytes} (hne : l ≠ []) (hl : l.length ≤ n) :
    chunks n l = [l] := by
  rw [chunks, if_pos (.inl hl), if_neg hne]

theorem chunks_long {n : Nat} {l : Bytes} (hn : n ≠ 0) (hl : n < l.length) :
    chunks n l = l.take n :: chunks n (l.drop n) := by
  rw [chunks, if_neg (by omega)]

theorem mem_of_mem_chunks {n : Nat} {l c : Bytes} {b : UInt8} (hc : c ∈ chunks n l) (hb : b ∈ c) :
    b ∈ l := by
  induction l using chunks.induct n with
  | case1 => simp [chunks_nil] at hc
  | case2 l hl hne =>
    rw [chunks, if_pos hl, if_neg hne, List.mem_singleton] at hc
    exact hc ▸ hb
  | case3 l hl ih =>
    rw [chunks, if_neg hl, List.mem_cons] at hc
    rcases hc with rfl | hc
    · exact List.mem_of_mem_take hb
    · exact List.mem_of_mem_drop (ih hc)

/-- Cutting changes nothing when the lines are short. -/
theorem flatMap_chunks {n : Nat} {ls : List Bytes} (hls : ∀ l ∈ ls, l ≠ [] ∧ l.length ≤ n) :
    ls.flatMap (chunks n) = ls := by
  induction ls with
  | nil => rfl
  | cons l ls ih =>
    obtain ⟨hne, hl⟩ := hls l List.mem_cons_self
    rw [List.flatMap_cons, chunks_short hne hl, ih fun l' h => hls l' (List.mem_cons_of_mem _ h),
      List.singleton_append]

namespace C

theorem fgets_last {cap : Nat} {l : Bytes} (hl : chr '\n' ∉ l) (hlen : l.length < cap) :
    fgets cap l = (l, []) := by
  induction l generalizing cap with
  | nil =>
    rcases cap with _ | _ | cap
    · rfl
    · rfl
    · rfl
  | cons b l ih =>
    rw [List.length_cons] at hlen
    obtain ⟨n, rfl⟩ : ∃ n, cap = n + 2 := ⟨cap - 2, by omega⟩
    rw [List.mem_cons, not_or] at hl
    rw [fgets, if_neg (Ne.symm hl.1), ih hl.2 (by omega)]

/-- A line that does not fit is cut. -/
theorem fgets_cut {n : Nat} {s : Bytes} (hs : chr '\n' ∉ s.take n) (hlen : n ≤ s.length) :
    fgets (n + 1) s = (s.take n, s.drop n) := by
  induction n generalizing s with
  | zero => rfl
  | succ n ih =>
    cases s with
    | nil => exact absurd hlen (by simp)
    | cons b s =>
      rw [List.take_succ_cons, List.mem_cons, not_or] at hs
      rw [fgets, if_neg (Ne.symm hs.1), ih hs.2 (Nat.le_of_succ_le_succ hlen)]
      rfl

theorem fgetsAll_step {cap fuel : Nat} {s line rest : Bytes} (hs : s ≠ [])
    (hget : fgets cap s = (line, rest)) :
    fgetsAll cap (fuel + 1) s = line :: fgetsAll cap fuel rest := by
  obtain ⟨b, t, rfl⟩ := List.exists_cons_of_ne_nil hs
  rw [fgetsAll, hget]

/-- **What a loop of `fgets` sees**: the lines, each cut to the buffer. -/
theorem fgetsAll_eq_chunks {n fuel : Nat} {s : Bytes} (hn : n ≠ 0) (hfuel : s.length ≤ fuel) :
    fgetsAll (n + 1) fuel s = (lines s).flatMap (chunks n) := by
  induction fuel generalizing s with
  | zero =>
    rw [List.length_eq_zero_iff.1 (Nat.le_zero.1 hfuel)]
    rfl
  | succ fuel ih =>
    induction s using lines_induction with
    | nil => rfl
    | last l hne hl =>
      rw [lines_last hne hl, List.flatMap_singleton]
      by_cases hlen : l.length ≤ n
      · rw [fgetsAll_step hne (fgets_last hl (Nat.lt_succ_of_le hlen)), chunks_short hne hlen]
        cases fuel <;> rfl
      · have hcut : l.drop n ≠ [] := fun h => hlen (List.drop_eq_nil_iff.1 h)
        have hrest : fgetsAll (n + 1) fuel (l.drop n) = chunks n (l.drop n) := by
          have hmem : chr '\n' ∉ l.drop n := fun h => hl (List.mem_of_mem_drop h)
          rw [ih (by rw [List.length_drop]; omega), lines_last hcut hmem, List.flatMap_singleton]
        rw [fgetsAll_step hne (fgets_cut (fun h => hl (List.mem_of_mem_take h)) (by omega)), hrest,
          chunks_long (l := l) hn (by omega)]
    | line l rest hl _ =>
      have hne : l ++ chr '\n' :: rest ≠ [] := List.append_ne_nil_of_right_ne_nil _ (by simp)
      have hfull : (l ++ [chr '\n']).length = l.length + 1 := by rw [List.length_append]; rfl
      rw [List.length_append, List.length_cons] at hfuel
      rw [lines_line hl, List.flatMap_cons]
      by_cases hlen : l.length + 1 ≤ n
      · rw [fgetsAll_step hne (fgets_line hl (Nat.lt_succ_of_le hlen) rest), ih (by omega),
          chunks_short (List.append_ne_nil_of_right_ne_nil _ (by simp)) (by omega),
          List.singleton_append]
      · -- the rest of the line starts a new piece
        have hle : n ≤ l.length := by omega
        have htake : (l ++ chr '\n' :: rest).take n = l.take n := List.take_append_of_le_length hle
        have htake' : (l ++ [chr '\n']).take n = l.take n := List.take_append_of_le_length hle
        have hdrop : (l ++ chr '\n' :: rest).drop n = l.drop n ++ chr '\n' :: rest :=
          List.drop_append_of_le_length hle
        have hdrop' : (l ++ [chr '\n']).drop n = l.drop n ++ [chr '\n'] :=
          List.drop_append_of_le_length hle
        have hmem : chr '\n' ∉ l.drop n := fun h => hl (List.mem_of_mem_drop h)
        have hget := fgets_cut (n := n) (s := l ++ chr '\n' :: rest)
          (by rw [htake]; exact fun h => hl (List.mem_of_mem_take h)) (by simp; omega)
        have hless : (l.drop n ++ chr '\n' :: rest).length ≤ fuel := by
          rw [List.length_append, List.length_drop, List.length_cons]
          omega
        rw [fgetsAll_step hne hget, htake, hdrop, ih hless, lines_line hmem, List.flatMap_cons,
          chunks_long (l := l ++ [chr '\n']) hn (by omega), htake', hdrop', List.cons_append]

/-- **A loop of `fgets` sees the lines** when each fits the buffer. -/
theorem fgetsAll_eq_lines {n fuel : Nat} {s : Bytes} (hn : n ≠ 0)
    (hs : ∀ l ∈ lines s, l.length < n + 1) (hfuel : s.length ≤ fuel) :
    fgetsAll (n + 1) fuel s = lines s := by
  rw [fgetsAll_eq_chunks hn hfuel]
  exact flatMap_chunks fun l h => ⟨ne_nil_of_mem_lines h, Nat.le_of_lt_succ (hs l h)⟩

end C

end Lib
