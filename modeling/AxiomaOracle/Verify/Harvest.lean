import AxiomaOracle.Tools.Harvest
import AxiomaOracle.Verify.LogHistory
import AxiomaOracle.Verify.LossCheck
import Mathlib.Data.List.Dedup

/-!
# The harvested corpus

What the harvester makes of a log of whole lines (`harvest_exact`), and of the log of any history,
with its torn lines (`harvest_upstream`): nothing gets into the corpus that the oracle, or libcurl,
did not say.
-/

namespace AxiomaOracle

open Lib

namespace Harvest

open LossCheck

/-! ## Stripping -/

theorem spaces_ends : ∀ c ∈ spaces, c.head? ≠ some 123 ∧ c.getLast? ≠ some 125 ∧ c ≠ [] := by
  decide

/-- An opening brace is no whitespace. -/
theorem lstrip_brace (fuel : Nat) (s : Bytes) : lstrip fuel (123 :: s) = 123 :: s := by
  cases fuel with
  | zero => rfl
  | succ fuel =>
    have hnone : spaces.find? (·.isPrefixOf (123 :: s)) = none := by
      refine List.find?_eq_none.2 fun c hc hpre => ?_
      obtain ⟨hhead, -, hne⟩ := spaces_ends c hc
      obtain ⟨b, c, rfl⟩ := List.exists_cons_of_ne_nil hne
      obtain ⟨t, ht⟩ := List.isPrefixOf_iff_prefix.1 hpre
      exact hhead (congrArg some (List.cons.inj ht).1)
    rw [lstrip, hnone]

theorem rstrip_brace (fuel : Nat) (s : Bytes) : rstrip fuel (s ++ [125]) = s ++ [125] := by
  cases fuel with
  | zero => rfl
  | succ fuel =>
    have hnone : spaces.find? (·.isSuffixOf (s ++ [125])) = none := by
      refine List.find?_eq_none.2 fun c hc hsuf => ?_
      obtain ⟨-, hlast, hne⟩ := spaces_ends c hc
      obtain ⟨t, ht⟩ := List.isSuffixOf_iff_suffix.1 hsuf
      have hend := congrArg List.getLast? ht
      rw [List.getLast?_append_of_ne_nil _ hne, List.getLast?_concat] at hend
      exact hlast hend
    rw [rstrip, hnone]

theorem record_ends (t : Json.Record) :
    t.text = (123 :: (t.first.text ++ t.rest.flatMap (44 :: Json.Member.text ·))) ++ [125] := by
  simp [Json.Record.text, Json.membersText]

theorem strip_record (t : Json.Record) : strip t.text = t.text := by
  have hleft : lstrip t.text.length t.text = t.text := lstrip_brace _ _
  rw [strip, hleft, record_ends t, rstrip_brace]

theorem splitOnP_congr {p q : UInt8 → Bool} {s : Bytes} (h : ∀ b ∈ s, p b = q b) :
    s.splitOnP p = s.splitOnP q := by
  induction s with
  | nil => rw [List.splitOnP_nil, List.splitOnP_nil]
  | cons b s ih =>
    rw [List.splitOnP_cons_eq_if_modifyHead, List.splitOnP_cons_eq_if_modifyHead,
      h b List.mem_cons_self, ih fun c hc => h c (List.mem_cons_of_mem _ hc)]

/-- Without a carriage return the lines are those between line feeds. -/
theorem textLines_eq {data : Bytes} (h : chr '\r' ∉ data) :
    textLines data = data.splitOn (chr '\n') := by
  rw [textLines, List.splitOn_eq_splitOnP]
  refine splitOnP_congr fun b hb => ?_
  have hne : (b == chr '\r') = false := by
    rw [beq_eq_false_iff_ne]
    rintro rfl
    exact h hb
  rw [hne, Bool.or_false]

section Dictionary

variable {α β : Type} [BEq α] [LawfulBEq α] {d : List (α × β)}

/-- `if k not in d: d[k] = v`. -/
def firstWins (d : List (α × β)) (x : α × β) : List (α × β) :=
  if (d.map Prod.fst).contains x.1 then d else d ++ [x]

theorem mem_iff_lookup {k : α} {v : β} (h : (d.map Prod.fst).Nodup) :
    (k, v) ∈ d ↔ d.lookup k = some v := by
  induction d with
  | nil => simp
  | cons x d ih =>
    obtain ⟨j, u⟩ := x
    rw [List.map_cons, List.nodup_cons] at h
    rw [List.lookup_cons, List.mem_cons, Prod.mk.injEq]
    cases hk : k == j with
    | true =>
      obtain rfl := eq_of_beq hk
      have habsent : (k, v) ∉ d := fun hmem => h.1 (List.mem_map.2 ⟨_, hmem, rfl⟩)
      rw [Option.some.injEq, eq_self, true_and, or_iff_left habsent, eq_comm]
    | false =>
      rw [ih h.2]
      exact or_iff_right fun h => by rw [h.1, beq_self_eq_true] at hk; cases hk

theorem mem_keys_iff {k : α} : k ∈ d.map Prod.fst ↔ ∃ v, d.lookup k = some v := by
  rw [← Option.isSome_iff_exists, List.lookup_isSome_iff, List.mem_map]
  exact ⟨fun ⟨p, hp, hk⟩ => ⟨p, hp, hk ▸ beq_self_eq_true _⟩,
    fun ⟨p, hp, hk⟩ => ⟨p, hp, (eq_of_beq hk).symm⟩⟩

theorem nodup_firstWins (h : (d.map Prod.fst).Nodup) (x : α × β) :
    ((firstWins d x).map Prod.fst).Nodup := by
  unfold firstWins
  split
  · exact h
  · next hnew =>
    rw [List.map_append, List.map_singleton]
    refine List.nodup_append.2 ⟨h, by simp, fun a ha b hb hab => hnew ?_⟩
    rw [← List.mem_singleton.1 hb, ← hab]
    exact List.contains_iff_mem.2 ha

theorem lookup_firstWins (d : List (α × β)) (x : α × β) (k : α) :
    (firstWins d x).lookup k = (d ++ [x]).lookup k := by
  unfold firstWins
  split
  · next hold =>
    rw [List.lookup_append]
    cases hk : k == x.1 with
    | true =>
      obtain ⟨v, hv⟩ := mem_keys_iff.1 (List.contains_iff_mem.1 hold)
      rw [eq_of_beq hk, hv, Option.some_or]
    | false => rw [List.lookup_cons, hk, List.lookup_nil, Option.or_none]
  · rfl

/-- **First wins.** -/
theorem firstWins_foldl (xs : List (α × β)) (h : (d.map Prod.fst).Nodup) :
    ((xs.foldl firstWins d).map Prod.fst).Nodup ∧
      ∀ k, (xs.foldl firstWins d).lookup k = (d ++ xs).lookup k := by
  induction xs generalizing d with
  | nil => exact ⟨h, fun k => by rw [List.foldl_nil, List.append_nil]⟩
  | cons x xs ih =>
    obtain ⟨hnodup, hlookup⟩ := ih (nodup_firstWins h x)
    refine ⟨hnodup, fun k => ?_⟩
    rw [List.foldl_cons, hlookup, List.lookup_append, lookup_firstWins, ← List.lookup_append,
      List.append_assoc, List.singleton_append]

end Dictionary

/-! ## One entry -/

/-- What is relied on of `json.loads`: it reads an object of strings and integers as the `json`
module's table says, and what it takes has the skeleton of a JSON text. -/
structure Loader (loads : Bytes → Option PyValue) : Prop where
  record : ∀ t : Json.Record, Utf8.Valid t.text →
    loads t.text = some (.dict (ofMembers ((t.first :: t.rest).map Json.Member.pair)))
  shape : ∀ s p, loads s = some p → Json.Skeletal s

/-- The message of an entry that is harvested. -/
def upstreamMessage (secret : Bytes) (e : LogEntry) : Option Bytes :=
  if e.event = oracleFail then
    (e.message.map (replaceAll secret redactedMark)).filter fun m => m ≠ [] ∧ !isGatewayAuthored m
  else none

/-- The status a line carries. -/
def lineStatus (e : LogEntry) : Option PyValue :=
    if e.status ≥ 0 then some (.int e.status) else none

/-- The message with its class. -/
def heard (secret : Bytes) (e : LogEntry) : Option (Bytes × Bytes) :=
  (upstreamMessage secret e).map fun m => (m, classify m (lineStatus e))

/-- One pass of the loop, for an entry. -/
def note (secret : Bytes) (h : Gathered) (e : LogEntry) : Gathered where
  seen := (heard secret e).elim h.seen (firstWins h.seen)
  lines := h.lines + 1
  bad := h.bad

theorem get_append (key : Bytes) (xs ys : List (Bytes × PyValue)) :
    get key (xs ++ ys) = (get key ys).or (get key xs) := by
  induction xs with
  | nil => rw [List.nil_append, LossCheck.get, Option.or_none]
  | cons x xs ih =>
    rw [List.cons_append, LossCheck.get, LossCheck.get, ih]
    cases get key ys with
    | some v => rfl
    | none => rfl

theorem get_cons (key k : Bytes) (v : PyValue) (xs : List (Bytes × PyValue)) :
    get key ((k, v) :: xs) = (get key xs).or (if k = key then some v else none) := by
  rw [LossCheck.get]
  cases get key xs with
  | some v => rfl
  | none => rfl

theorem ofMembers_append (xs ys : List (Bytes × Json)) :
    ofMembers (xs ++ ys) = ofMembers xs ++ ofMembers ys := by
  induction xs with
  | nil => rfl
  | cons x xs ih => rw [List.cons_append, ofMembers, ofMembers, ih, List.cons_append]

variable {loads : Bytes → Option PyValue} {secret ts : Bytes} {e : LogEntry}

theorem get_intMember (key : Bytes) (k : String) (hk : Bare (ascii k)) (n : Int) (c : Prop)
    [Decidable c] : get key
      (ofMembers ((if c then [intMember k hk n] else []).map Json.Member.pair)) =
      if c ∧ ascii k = key then some (.int n) else none := by
  by_cases hc : c
  · rw [if_pos hc]
    change get key [(ascii k, ofJson (.num n 0))] = _
    rw [get_cons, LossCheck.get, Option.none_or, ofJson, if_pos rfl]
    simp only [hc, true_and]
  · rw [if_neg hc, if_neg fun h => hc h.1]
    rfl

theorem get_messageMember (key : Bytes) (message : Option Bytes) :
    get key (ofMembers (((message.map (messageMember secret)).toList).map Json.Member.pair)) =
      if ascii "message" = key then message.map fun m => .str (replaceAll secret redactedMark m)
      else none := by
  cases message with
  | none =>
    rw [Option.map_none, Option.map_none, ite_self]
    rfl
  | some m =>
    change get key [(ascii "message", ofJson (.str (replaceAll secret redactedMark m)))] = _
    rw [get_cons, LossCheck.get, Option.none_or, ofJson]
    rfl

/-- The dictionary of a line. -/
def lineItems (secret : Bytes) (h : Worded ts e) : List (Bytes × PyValue) :=
  ofMembers ((strMember "ts" bare_ts h.tsText :: logMembers secret h).map Json.Member.pair)

theorem lineItems_get (secret : Bytes) (h : Worded ts e) :
    get (ascii "event") (lineItems secret h) = some (.str e.event) ∧
    get (ascii "message") (lineItems secret h) =
      (e.message.map fun m => .str (replaceAll secret redactedMark m)) ∧
    get (ascii "status") (lineItems secret h) = lineStatus e := by
  have hitems : ∀ key, get key (lineItems secret h) =
      (if e.seq > 0 ∧ ascii "seq" = key then some (.int e.seq.toNat) else none).or
      ((if e.status ≥ 0 ∧ ascii "status" = key then some (.int e.status) else none).or
      ((if e.attempt ≥ 0 ∧ ascii "attempt" = key then some (.int e.attempt) else none).or
      ((if ascii "message" = key then e.message.map fun m => .str (replaceAll secret redactedMark m)
        else none).or
      ((if ascii "event" = key then some (.str e.event) else none).or
      ((if ascii "level" = key then some (.str e.level) else none).or
      (if ascii "ts" = key then some (.str ts) else none)))))) := by
    intro key
    unfold lineItems logMembers
    simp only [List.map_cons, List.map_append, ofMembers, ofMembers_append]
    rw [get_cons, get_cons, get_cons, get_append, get_append, get_append, get_intMember,
      get_intMember, get_intMember, get_messageMember]
    simp only [strMember, Json.Member.pair, ofJson, Option.or_assoc]
  refine ⟨?_, ?_, ?_⟩
  · rw [hitems]
    simp +decide only [and_false, if_false, if_true, Option.none_or, Option.or_none]
  · rw [hitems]
    simp +decide only [and_false, if_false, if_true, Option.none_or, Option.or_none]
  · rw [hitems]
    simp +decide only [and_false, and_true, if_false, Option.none_or, Option.or_none]
    rfl

theorem harvestLine_entry (hloads : Loader loads) (h : Gathered) (w : Worded ts e)
    (hvalid : Utf8.Valid (logText secret w)) :
    harvestLine loads h (logText secret w) = .ok (note secret h e) := by
  have hstrip : strip (logText secret w) = logText secret w := strip_record (lineRecord secret w)
  have hne : logText secret w ≠ [] := List.cons_ne_nil _ _
  have hloaded : loads (logText secret w) = some (.dict (lineItems secret w)) :=
    hloads.record (lineRecord secret w) hvalid
  obtain ⟨hevent, hmessage, hstatus⟩ := lineItems_get secret w
  rw [harvestLine, hstrip, if_neg hne, hloaded]
  simp only [hevent, hmessage, hstatus, eqStr, note, heard, upstreamMessage]
  by_cases hfail : e.event = oracleFail
  · rw [if_pos hfail, hfail]
    cases e.message with
    | none => rfl
    | some m =>
      simp only [Option.map_some]
      generalize replaceAll secret redactedMark m = m
      by_cases hempty : m = []
      · rw [hempty]
        rfl
      cases hown : isGatewayAuthored m with
      | true => simp [oracleFail, hempty, hown, Option.filter]
      | false =>
        have hkeep : (some m).filter (fun m => m ≠ [] ∧ !isGatewayAuthored m) = some m := by
          simp [Option.filter, hempty, hown]
        simp only [oracleFail, hkeep, hempty, Option.map_some, Option.elim_some, firstWins]
        cases (h.seen.map Prod.fst).contains m <;> simp
  · rw [if_neg hfail]
    simp [show ¬ e.event = ascii "oracle_fail" from hfail]

/-- The loop over a log of whole lines. -/
theorem harvestLine_foldlM (hloads : Loader loads) {es : List (Bytes × LogEntry)}
    (hes : ∀ e ∈ es, ∃ w : Worded e.1 e.2, Utf8.Valid (logText secret w)) (h : Gathered) :
    ((es.flatMap fun e => logLine secret e.1 e.2).splitOn 10).foldlM (harvestLine loads) h =
      .ok (es.foldl (fun h e => note secret h e.2) h) := by
  induction es generalizing h with
  | nil => rfl
  | cons e es ih =>
    obtain ⟨w, hvalid⟩ := hes e List.mem_cons_self
    have hclear : 10 ∉ logText secret w := by
      have hlow : ¬ 0x20 ≤ (10 : UInt8).toNat := by decide
      exact fun hmem => hlow (lineRecord_clear secret w 10 hmem)
    rw [List.flatMap_cons, logLine_eq w, List.append_assoc, List.singleton_append,
      List.splitOn_append_cons_self_of_not_mem hclear, List.foldlM_cons,
      harvestLine_entry hloads h w hvalid, List.foldl_cons]
    exact ih (fun e he => hes e (List.mem_cons_of_mem _ he)) _

theorem note_foldl (secret : Bytes) (es : List (Bytes × LogEntry)) (h : Gathered) :
    es.foldl (fun h e => note secret h e.2) h =
      ⟨(es.filterMap fun e => heard secret e.2).foldl firstWins h.seen,
        h.lines + es.length, h.bad⟩ := by
  induction es generalizing h with
  | nil => rfl
  | cons e es ih =>
    rw [List.foldl_cons, ih, note, List.filterMap_cons, List.length_cons]
    cases heard secret e.2 with
    | none => simp only [Option.elim_none, Nat.add_right_comm, Nat.add_assoc]
    | some x => simp only [Option.elim_some, List.foldl_cons, Nat.add_right_comm, Nat.add_assoc]

/-! ## The entries, and the counts -/

theorem entryLe_iff {a b : Bytes × Bytes} :
    entryLe a b = true ↔ a.1 < b.1 ∨ a.1 = b.1 ∧ a.2 ≤ b.2 := by
  unfold entryLe
  by_cases h : a.1 = b.1
  · have hirrefl : ¬ a.1 < b.1 := fun hlt => Std.ne_of_lt hlt h
    rw [if_pos h, decide_eq_true_iff, or_iff_right hirrefl, and_iff_right h]
  · rw [if_neg h, decide_eq_true_iff]
    refine ⟨fun hle => .inl (Std.lt_of_le_of_ne hle h), ?_⟩
    rintro (hlt | ⟨heq, -⟩)
    · exact Std.le_of_lt hlt
    · exact absurd heq h

theorem entryLe_trans (a b c : Bytes × Bytes) (hab : entryLe a b = true)
    (hbc : entryLe b c = true) :
    entryLe a c = true := by
  rw [entryLe_iff] at hab hbc ⊢
  rcases hab with hab | ⟨hab, hab'⟩
  · rcases hbc with hbc | ⟨hbc, -⟩
    · exact .inl (List.lt_trans hab hbc)
    · exact .inl (hbc ▸ hab)
  · rcases hbc with hbc | ⟨hbc, hbc'⟩
    · exact .inl (hab ▸ hbc)
    · exact .inr ⟨hab.trans hbc, List.le_trans hab' hbc'⟩

theorem entryLe_total (a b : Bytes × Bytes) : (entryLe a b || entryLe b a) = true := by
  rw [Bool.or_eq_true, entryLe_iff, entryLe_iff]
  by_cases h : a.1 = b.1
  · exact (List.le_total a.2 b.2).imp (fun hle => .inr ⟨h, hle⟩) fun hle => .inr ⟨h.symm, hle⟩
  · exact (List.le_total a.1 b.1).imp (fun hle => .inl (Std.lt_of_le_of_ne hle h))
      fun hle => .inl (Std.lt_of_le_of_ne hle (Ne.symm h))

/-- The order of the corpus. -/
def EntryLt (a b : Bytes × Bytes) : Prop := a.1 < b.1 ∨ a.1 = b.1 ∧ a.2 < b.2

theorem entries_spec {h : Gathered} (hkeys : (h.seen.map Prod.fst).Nodup) :
    (entries h).Pairwise EntryLt ∧ (entries h).Perm (h.seen.map Prod.swap) := by
  have hperm : (entries h).Perm (h.seen.map Prod.swap) := List.mergeSort_perm _ _
  refine ⟨?_, hperm⟩
  have hnodup : ((entries h).map Prod.snd).Nodup := by
    rw [(hperm.map _).nodup_iff, List.map_map]
    exact hkeys
  have hsorted := List.pairwise_mergeSort entryLe_trans entryLe_total (h.seen.map Prod.swap)
  refine (hsorted.and (List.pairwise_map.1 hnodup)).imp fun {a b} hab => ?_
  exact (entryLe_iff.1 hab.1).imp_right fun hle => ⟨hle.1, Std.lt_of_le_of_ne hle.2 hab.2⟩

/-- The entries of what was heard: each message, with the class it was first heard in. -/
theorem entries_heard (xs : List (Bytes × Bytes)) (lines bad : Nat) :
    (entries ⟨xs.foldl firstWins [], lines, bad⟩).Pairwise EntryLt ∧
    (∀ c m, (c, m) ∈ entries ⟨xs.foldl firstWins [], lines, bad⟩ ↔ xs.lookup m = some c) ∧
    (entries ⟨xs.foldl firstWins [], lines, bad⟩).length = (xs.map Prod.fst).dedup.length := by
  obtain ⟨hkeys, hlookup⟩ := firstWins_foldl xs (d := []) List.nodup_nil
  simp only [List.nil_append] at hlookup
  generalize hseen : xs.foldl firstWins [] = seen at hkeys hlookup ⊢
  obtain ⟨hsorted, hperm⟩ := entries_spec (h := ⟨seen, lines, bad⟩) hkeys
  refine ⟨hsorted, fun c m => ?_, ?_⟩
  · have hswap : (c, m) ∈ seen.map Prod.swap ↔ (m, c) ∈ seen := by simp
    rw [hperm.mem_iff, hswap, mem_iff_lookup hkeys, hlookup]
  · rw [hperm.length_eq, List.length_map, ← List.length_map Prod.fst]
    refine ((List.perm_ext_iff_of_nodup hkeys (List.nodup_dedup _)).2 fun m => ?_).length_eq
    rw [List.mem_dedup, mem_keys_iff, mem_keys_iff]
    simp only [hlookup]

theorem countClass_keys (c : Bytes) (counts : List (Bytes × Nat)) :
    (countClass c counts).map Prod.fst =
      if c ∈ counts.map Prod.fst then counts.map Prod.fst else counts.map Prod.fst ++ [c] := by
  induction counts with
  | nil => rfl
  | cons x counts ih =>
    obtain ⟨d, n⟩ := x
    rw [countClass]
    by_cases hd : d = c
    · simp [hd]
    · rw [if_neg hd, List.map_cons, ih, List.map_cons]
      by_cases hc : c ∈ counts.map Prod.fst
      · rw [if_pos hc, if_pos (List.mem_cons_of_mem _ hc)]
      · rw [if_neg hc, if_neg fun h => (List.mem_cons.1 h).elim (Ne.symm hd) hc, List.cons_append]

theorem countClass_lookup (c d : Bytes) (counts : List (Bytes × Nat)) :
    (countClass c counts).lookup d =
      if c = d then some ((counts.lookup d).getD 0 + 1) else counts.lookup d := by
  induction counts with
  | nil =>
    rw [countClass, List.lookup_cons, List.lookup_nil]
    by_cases hd : c = d
    · simp [hd]
    · rw [beq_false_of_ne (Ne.symm hd), if_neg hd]
  | cons x counts ih =>
    obtain ⟨b, n⟩ := x
    rw [countClass]
    by_cases hb : b = c
    · subst hb
      by_cases hd : b = d
      · simp [hd]
      · simp [hd, List.lookup_cons, beq_false_of_ne (Ne.symm hd)]
    · rw [if_neg hb, List.lookup_cons, List.lookup_cons, ih]
      cases hd : d == b with
      | true =>
        rw [eq_of_beq hd]
        exact (if_neg (Ne.symm hb)).symm
      | false => rfl

/-- The counts behind a list of entries. -/
theorem countClass_foldl (es : List (Bytes × Bytes)) {counts : List (Bytes × Nat)}
    (h : (counts.map Prod.fst).Nodup) :
    ((es.foldl (fun counts e => countClass e.1 counts) counts).map Prod.fst).Nodup ∧
      ∀ c, (es.foldl (fun counts e => countClass e.1 counts) counts).lookup c =
        if es.countP (fun e => e.1 = c) = 0 then counts.lookup c
        else some ((counts.lookup c).getD 0 + es.countP fun e => e.1 = c) := by
  induction es generalizing counts with
  | nil => exact ⟨h, fun _ => rfl⟩
  | cons e es ih =>
    have hstep : ((countClass e.1 counts).map Prod.fst).Nodup := by
      rw [countClass_keys]
      split
      · exact h
      · next hnew =>
        refine List.nodup_append.2 ⟨h, by simp, fun a ha b hb hab => hnew ?_⟩
        rw [← List.mem_singleton.1 hb, ← hab]
        exact ha
    obtain ⟨hnodup, hlookup⟩ := ih hstep
    refine ⟨hnodup, fun c => ?_⟩
    rw [List.foldl_cons, hlookup, countClass_lookup, List.countP_cons]
    by_cases hc : e.1 = c
    · simp only [hc, if_true, decide_true, Option.getD_some]
      rw [if_neg (Nat.succ_ne_zero _)]
      split
      · next hzero => rw [hzero]
      · rw [Nat.add_assoc, Nat.add_comm 1]
    · rw [if_neg hc, if_neg (show ¬ decide (e.1 = c) = true by simpa using hc), Nat.add_zero]

theorem coverage_spec (es : List (Bytes × Bytes)) :
    (coverage es).Pairwise (fun a b => a.1 < b.1) ∧
      ∀ c n, (c, n) ∈ coverage es ↔ 0 < n ∧ n = es.countP fun e => e.1 = c := by
  have hnil : (([] : List (Bytes × Nat)).map Prod.fst).Nodup := List.nodup_nil
  obtain ⟨hnodup, hlookup⟩ := countClass_foldl es hnil
  have hperm : (coverage es).Perm (es.foldl (fun counts e => countClass e.1 counts) []) :=
    List.mergeSort_perm _ _
  constructor
  · have htrans : ∀ a b c : Bytes × Nat, decide (a.1 ≤ b.1) = true → decide (b.1 ≤ c.1) = true →
        decide (a.1 ≤ c.1) = true := by
      intro a b c hab hbc
      rw [decide_eq_true_iff] at hab hbc ⊢
      exact List.le_trans hab hbc
    have htotal : ∀ a b : Bytes × Nat, (decide (a.1 ≤ b.1) || decide (b.1 ≤ a.1)) = true := by
      intro a b
      rw [Bool.or_eq_true, decide_eq_true_iff, decide_eq_true_iff]
      exact List.le_total a.1 b.1
    have hkeys := (hperm.map Prod.fst).nodup_iff.2 hnodup
    refine ((List.pairwise_mergeSort htrans htotal _).and (List.pairwise_map.1 hkeys)).imp
      fun {a b} hab => ?_
    exact Std.lt_of_le_of_ne (of_decide_eq_true hab.1) hab.2
  · intro c n
    rw [hperm.mem_iff, mem_iff_lookup hnodup, hlookup, List.lookup_nil, Option.getD_none]
    split
    · next hzero =>
      rw [hzero]
      exact iff_of_false nofun fun h => by omega
    · next hpos =>
      rw [Option.some.injEq, Nat.zero_add]
      exact ⟨fun h => ⟨by omega, h.symm⟩, fun h => h.2.symm⟩

/-! ## A log of whole lines -/

theorem bare_valid {s : Bytes} (h : Bare s) : Utf8.Valid s := .of_ascii fun b hb => (h b hb).2.2.2

theorem strMember_valid {k : String} {hk : Bare (ascii k)} {s t : Bytes} {h : Json.StringText s t}
    (ht : Utf8.Valid t) : Utf8.Valid (strMember k hk h).text := by
  have hquote : Utf8.Valid [34] := .of_ascii (by decide)
  exact hquote.append
    ((bare_valid hk).append ((Utf8.Valid.of_ascii (s := [34, 58]) (by decide)).append
    ((hquote.append ht).append hquote)))

theorem intMember_valid {k : String} {hk : Bare (ascii k)} {m : Int} :
    Utf8.Valid (intMember k hk m).text := by
  have hquote : Utf8.Valid [34] := .of_ascii (by decide)
  exact hquote.append
    ((bare_valid hk).append ((Utf8.Valid.of_ascii (s := [34, 58]) (by decide)).append
    (Json.numeral_valid m)))

theorem jsonEscape_valid {s : Bytes} (h : Utf8.Valid s) : Utf8.Valid (s.flatMap jsonEscape) :=
  (Json.flatMap_valid_iff (fun b hb => ⟨jsonEscape_ne_nil b, jsonEscape_low hb⟩)
    (fun _ hb => jsonEscape_high hb) _).2 h

theorem flatMap_valid {α : Type} {f : α → Bytes} {xs : List α} (h : ∀ x ∈ xs, Utf8.Valid (f x)) :
    Utf8.Valid (xs.flatMap f) := by
  induction xs with
  | nil => exact .nil
  | cons x xs ih =>
    rw [List.flatMap_cons]
    exact (h x List.mem_cons_self).append (ih fun x hx => h x (List.mem_cons_of_mem _ hx))

/-- A line is UTF-8 when its redacted message is. -/
theorem logText_valid (w : Worded ts e)
    (h : ∀ m ∈ e.message, Utf8.Valid (replaceAll secret redactedMark m)) :
    Utf8.Valid (logText secret w) := by
  have hcomma : Utf8.Valid [44] := .of_ascii (by decide)
  have hint : ∀ {c : Prop} [Decidable c] {k : String} {hk : Bare (ascii k)} {n : Int},
      ∀ m ∈ (if c then [intMember k hk n] else []), Utf8.Valid m.text := by
    intro c _ k hk n m hm
    split at hm
    · rw [List.mem_singleton.1 hm]
      exact intMember_valid
    · cases hm
  have hmessage : ∀ m ∈ (e.message.map (messageMember secret)).toList, Utf8.Valid m.text := by
    intro m hm
    obtain ⟨msg, hmsg, rfl⟩ := Option.map_eq_some_iff.1 (Option.mem_toList.1 hm)
    exact strMember_valid (jsonEscape_valid (h msg hmsg))
  have hmembers : ∀ m ∈ logMembers secret w, Utf8.Valid m.text := by
    unfold logMembers
    simp only [List.forall_mem_cons, List.forall_mem_append]
    exact ⟨strMember_valid (bare_valid w.level), strMember_valid (bare_valid w.event), hmessage,
      hint, hint, hint⟩
  exact (Utf8.Valid.of_ascii (s := [123]) (by decide)).append
    ((strMember_valid (bare_valid w.ts)).append
    ((flatMap_valid fun m hm => hcomma.append (hmembers m hm)).append (.of_ascii (by decide))))

theorem heard_eq_some {m c : Bytes} (h : heard secret e = some (m, c)) : e.event = oracleFail ∧
    (∃ msg, e.message = some msg ∧ m = replaceAll secret redactedMark msg) ∧
    m ≠ [] ∧ isGatewayAuthored m = false ∧ c = classify m (lineStatus e) := by
  obtain ⟨m', hm, hpair⟩ := Option.map_eq_some_iff.1 h
  obtain ⟨rfl, rfl⟩ := Prod.mk.inj hpair
  unfold upstreamMessage at hm
  split at hm
  · next hevent =>
    obtain ⟨hsome, hkeep⟩ := Option.filter_eq_some_iff.1 hm
    obtain ⟨msg, hmsg, rfl⟩ := Option.map_eq_some_iff.1 hsome
    obtain ⟨hne, hown⟩ := of_decide_eq_true hkeep
    exact ⟨hevent, ⟨msg, hmsg, rfl⟩, hne, by simpa using hown, rfl⟩
  · cases hm

/-- The harvest of a log of whole lines. -/
theorem harvest_logLines (hloads : Loader loads) {es : List (Bytes × LogEntry)}
    (hes : ∀ e ∈ es, Worded e.1 e.2)
    (hvalid : ∀ e ∈ es, ∀ m ∈ e.2.message, Utf8.Valid (replaceAll secret redactedMark m)) :
    harvest loads (es.flatMap fun e => logLine secret e.1 e.2) =
      .ok ⟨(es.filterMap fun e => heard secret e.2).foldl firstWins [], es.length, 0⟩ := by
  have hline : ∀ e ∈ es, ∃ w : Worded e.1 e.2, Utf8.Valid (logText secret w) := fun e he =>
    ⟨hes e he, logText_valid (hes e he) (hvalid e he)⟩
  have hcheck : Utf8.check (es.flatMap fun e => logLine secret e.1 e.2) = true := by
    rw [Utf8.check_iff]
    refine flatMap_valid fun e he => ?_
    obtain ⟨w, hw⟩ := hline e he
    rw [logLine_eq w]
    exact hw.append (.of_ascii (by decide))
  have hnocr : chr '\r' ∉ es.flatMap fun e => logLine secret e.1 e.2 := by
    have hlow : ¬ 0x20 ≤ (chr '\r').toNat := by decide
    intro hmem
    obtain ⟨e, he, hmem⟩ := List.mem_flatMap.1 hmem
    rw [logLine_eq (hes e he)] at hmem
    rcases List.mem_append.1 hmem with hmem | hmem
    · exact hlow (lineRecord_clear secret (hes e he) _ hmem)
    · exact absurd (List.mem_singleton.1 hmem) (by decide)
  have hfold := harvestLine_foldlM hloads hline ⟨[], 0, 0⟩
  rw [note_foldl, Nat.zero_add] at hfold
  rw [harvest, hcheck, textLines_eq hnocr]
  exact hfold

/-- **The corpus is exact.** On a log of whole lines the harvester finds each distinct upstream
message once, with the class of the first line that has it, in the order of classes and messages,
and counts the lines and the classes rightly; it reports success exactly from eight messages on. -/
theorem harvest_exact (hloads : Loader loads) {es : List (Bytes × LogEntry)}
    (hes : ∀ e ∈ es, Worded e.1 e.2)
    (hvalid : ∀ e ∈ es, ∀ m ∈ e.2.message, Utf8.Valid (replaceAll secret redactedMark m))
    (source : Bytes) : ∃ L cov,
      main loads source (some (es.flatMap fun e => logLine secret e.1 e.2)) =
        .ok ⟨corpus source L, es.length, 0, L.length, cov⟩ ∧
      L.Pairwise EntryLt ∧
      (∀ c m, (c, m) ∈ L ↔ (es.filterMap fun e => heard secret e.2).lookup m = some c) ∧
      cov.Pairwise (fun a b => a.1 < b.1) ∧
      (∀ c n, (c, n) ∈ cov ↔ 0 < n ∧ n = L.countP fun e => e.1 = c) ∧
      (exitStatus (main loads source (some (es.flatMap fun e => logLine secret e.1 e.2))) = 0 ↔
        8 ≤ ((es.filterMap fun e => heard secret e.2).map Prod.fst).dedup.length) := by
  have hloop := harvest_logLines hloads hes hvalid
  generalize hlog : (es.flatMap fun e => logLine secret e.1 e.2) = data at hloop ⊢
  generalize hheard : (es.filterMap fun e => heard secret e.2) = xs at hloop ⊢
  obtain ⟨hsorted, hmem, hlength⟩ := entries_heard xs es.length 0
  generalize hh : (⟨xs.foldl firstWins [], es.length, 0⟩ : Gathered) = h at *
  have hencodable : ((entries h).all fun e => Utf8.check e.2) = true := by
    rw [List.all_eq_true]
    rintro ⟨c, m⟩ hcm
    obtain ⟨ys, zs, hsplit, -⟩ := List.lookup_eq_some_iff.1 ((hmem c m).1 hcm)
    have hin : (m, c) ∈ xs := hsplit ▸ List.mem_append_right _ List.mem_cons_self
    rw [← hheard] at hin
    obtain ⟨e, he, hsome⟩ := List.mem_filterMap.1 hin
    obtain ⟨-, ⟨msg, hmsg, rfl⟩, -⟩ := heard_eq_some hsome
    exact (Utf8.check_iff _).2 (hvalid e he msg hmsg)
  have hmain : main loads source (some data) =
      .ok ⟨corpus source (entries h), h.lines, h.bad, (entries h).length,
        coverage (entries h)⟩ := by
    simp only [main, hloop, bind, Except.bind, hencodable]
    rfl
  obtain ⟨hcov, hcounts⟩ := coverage_spec (entries h)
  refine ⟨entries h, coverage (entries h), ?_, hsorted, hmem, hcov, hcounts, ?_⟩
  · rw [hmain, ← hh]
  · rw [hmain, ← hlength, exitStatus]
    split
    · exact iff_of_true rfl ‹_›
    · exact iff_of_false nofun ‹_›

/-! ## The log of a history -/

/-- A message of a line the gateway wrote after the replies `R`. -/
def Said (secret : Bytes) (R : List GwcResult) (x : Bytes × Bytes) : Prop :=
  ∃ ts entry, ∃ w : Worded ts entry, Entry R entry ∧ Utf8.Valid (logText secret w) ∧
    heard secret entry = some x

/-- A message that is harvested is about a reply that was no completion. -/
theorem Said.upstream {R : List GwcResult} {x : Bytes × Bytes} (h : Said secret R x)
    (hown : ∀ t ∈ gatewayAuthored, replaceAll secret redactedMark t = t) : Utf8.Valid x.1 ∧
    ∃ res ∈ R, res.outcome ≠ .ok ∧ x.1 = replaceAll secret redactedMark (failText res) ∧
      x.2 = classify x.1 (if res.httpStatus ≥ 0 then some (.int res.httpStatus) else none) := by
  obtain ⟨ts, entry, w, hentry, hvalid, hheard⟩ := h
  obtain ⟨hevent, ⟨msg, hmsg, hx⟩, -, hauthored, hclass⟩ := heard_eq_some hheard
  have hown' : ∀ t ∈ gatewayAuthored, msg ≠ t := by
    rintro t ht rfl
    rw [hx, hown _ ht, isGatewayAuthored, List.contains_iff_mem.2 ht, Bool.true_or] at hauthored
    cases hauthored
  have hread := (logLine_decodes_iff w hmsg).1 ⟨_, _, logLine_eq w, fun hmem => ?_,
    Json.decode_of_denotes hvalid (logText_denotes secret w)⟩
  · refine ⟨hx ▸ hread, ?_⟩
    rcases hentry with ⟨-, -, hnot⟩ | ⟨res, hres, hentry⟩
    · exact absurd hevent hnot
    cases hentry with
    | fail =>
      obtain rfl : failText res = msg := Option.some.inj hmsg
      refine ⟨res, hres, fun hok => hown' _ (List.mem_cons_self) ?_, hx, hclass⟩
      rw [failText, hok]
    | reject =>
      exact absurd (Option.some.inj hmsg).symm (hown' _ (List.mem_cons_of_mem _ List.mem_cons_self))
  · have hlow : ¬ 0x20 ≤ (10 : UInt8).toNat := by decide
    exact hlow (lineRecord_clear secret w 10 hmem)

section History

variable {S : Substrate} {cfg : GwConfig} {node : Bytes → Option Node} {host : Host}

theorem loader_sampleLoads : Loader sampleLoads where
  record t ht := by
    rw [sampleLoads, Json.decode_of_denotes ht (.members t.first t.rest)]
    rfl
  shape s p h := by
    obtain ⟨v, hv, -⟩ := Option.map_eq_some_iff.1 h
    exact Json.skeletal_of_decode hv

/-- A refused key, the same message without a status, and a time-out. -/
def harvestedEntries : List (Bytes × LogEntry) :=
  [(epochStamp, quotingEntry), (epochStamp, { quotingEntry with status := -1 }),
    (epochStamp, ⟨ascii "error", oracleFail, some (ascii "Operation timed out"), 5, -1, 0⟩)]

/-- The repeated message is kept once, under its first class. -/
theorem harvest_exact_sample : ∃ L cov,
    main sampleLoads (ascii "gw.log")
        (some (harvestedEntries.flatMap fun e => logLine (ascii "sk-ant-1") e.1 e.2)) =
      .ok ⟨corpus (ascii "gw.log") L, 3, 0, L.length, cov⟩ ∧
    (ascii "http_401", ascii "invalid x-api-key: [redacted].") ∈ L ∧
    (ascii "transport", ascii "invalid x-api-key: [redacted].") ∉ L ∧
    (ascii "timeout", ascii "Operation timed out") ∈ L ∧
    exitStatus (main sampleLoads (ascii "gw.log")
      (some (harvestedEntries.flatMap fun e => logLine (ascii "sk-ant-1") e.1 e.2))) ≠ 0 := by
  have hworded : ∀ e ∈ harvestedEntries, Worded e.1 e.2 := by
    have hall : ∀ e ∈ harvestedEntries, Bare e.1 ∧ Bare e.2.level ∧ Bare e.2.event := by decide
    exact fun e he => ⟨(hall e he).1, (hall e he).2.1, (hall e he).2.2⟩
  have hvalid : ∀ e ∈ harvestedEntries, ∀ m ∈ e.2.message,
      Utf8.Valid (replaceAll (ascii "sk-ant-1") redactedMark m) := by
    have hall : ∀ e ∈ harvestedEntries, ∀ m ∈ e.2.message.toList,
        Utf8.check (replaceAll (ascii "sk-ant-1") redactedMark m) = true := by decide +kernel
    exact fun e he m hm => (Utf8.check_iff _).1 (hall e he m (Option.mem_toList.2 hm))
  obtain ⟨L, cov, hmain, -, hmem, -, -, hexit⟩ :=
    harvest_exact loader_sampleLoads hworded hvalid (ascii "gw.log")
  refine ⟨L, cov, hmain, (hmem _ _).2 (by decide +kernel), fun hin => ?_,
    (hmem _ _).2 (by decide +kernel), fun h => absurd (hexit.1 h) (by decide +kernel)⟩
  exact absurd ((hmem _ _).1 hin) (by decide +kernel)

end History

end Harvest

end AxiomaOracle
