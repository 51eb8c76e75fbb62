import AxiomaOracle.Gateway.JsonScan
import AxiomaOracle.Verify.Scan

/-!
# The JSON scanners stay in the body

Each scanner of `Gateway.JsonScan` tracks the one of `Gateway.Json` from any position of any body.
A string is over after as many steps as there are bytes left; the loops over members and elements,
and `s_skip_value`, which takes two calls a byte, are followed with a bound on the fuel.
-/

namespace AxiomaOracle

open Lib Lib.Access

variable {mem s r : Bytes} {p : Nat}

/-! ## Strings -/

theorem sWsAt_eq (h : At mem s p) : ∃ q, sWsAt mem p = .ok q ∧ At mem (sWs s) q := by
  induction s generalizing p with
  | nil =>
    rw [sWsAt, if_neg h.not_lt]
    exact ⟨p, rfl, h⟩
  | cons c s ih =>
    rw [sWsAt, if_pos h.lt, h.byteAt, ok_bind, h.next.moveTo, ok_bind]
    by_cases hc : (c == chr ' ' || c == chr '\t' || c == chr '\n' || c == chr '\r') = true
    · rw [if_pos hc, show sWs (c :: s) = sWs s from List.dropWhile_cons_of_pos hc]
      exact ih h.next
    · rw [if_neg hc, show sWs (c :: s) = c :: s from List.dropWhile_cons_of_neg hc]
      exact ⟨p, rfl, h⟩

theorem sNeedAt_nil {c : UInt8} (h : At mem [] p) : sNeedAt mem p c = reject := if_neg h.not_lt

theorem sNeedAt_cons {b c : UInt8} (h : At mem (b :: s) p) :
    sNeedAt mem p c = if b = c then .ok () else reject := by
  rw [sNeedAt, if_pos h.lt, h.byteAt, ok_bind]

theorem sSeesAt_eq {c : UInt8} (h : At mem s p) :
    sSeesAt mem p c = .ok (decide (s.head? = some c)) := by
  cases s with
  | nil => exact if_neg h.not_lt
  | cons b s =>
    rw [sSeesAt, if_pos h.lt, h.byteAt, ok_bind, List.head?_cons]
    simp only [Option.some.injEq]

theorem sByteAt_nil (h : At mem [] p) : sByteAt mem p = reject := if_neg h.not_lt

theorem sByteAt_cons {c : UInt8} (h : At mem (c :: s) p) : sByteAt mem p = .ok c := by
  rw [sByteAt, if_pos h.lt, h.byteAt]

theorem length_lt_four (hs : ∀ a b c d s', s = a :: b :: c :: d :: s' → False) : s.length < 4 := by
  rcases s with _ | ⟨a, _ | ⟨b, _ | ⟨c, _ | ⟨d, s⟩⟩⟩⟩
  case cons.cons.cons.cons => exact absurd rfl (hs a b c d s)
  all_goals simp

theorem skipStringBodyAt_tracks (h : At mem s p) :
    Tracks (fun q r => At mem r q) (skipStringBodyAt mem p) (skipStringBody s) := by
  fun_induction skipStringBody s generalizing p with
  | case1 =>
    rw [skipStringBodyAt, if_neg h.not_lt]
    exact .reject
  | case2 s =>
    rw [skipStringBodyAt, if_pos h.lt, h.byteAt, ok_bind, h.next.moveTo, ok_bind, if_pos rfl]
    exact .ok h.next
  | case3 =>
    have hend := h.next.not_lt
    rw [skipStringBodyAt, if_pos h.lt, h.byteAt, ok_bind, h.next.moveTo, ok_bind,
      if_neg (by decide), if_pos rfl, if_pos (Nat.le_of_not_lt hend)]
    exact .reject
  | case4 a b c d s _ ih =>
    have h2 : At mem (a :: b :: c :: d :: s) (p + 2) := h.next.next
    have h6 : At mem s (p + 6) := h2.next.next.next.next
    have hlen : ¬ mem.length - (p + 2) < 4 := by
      rw [h2.length]
      simp
    rw [skipStringBodyAt, if_pos h.lt, h.byteAt, ok_bind, h.next.moveTo, ok_bind,
      if_neg (by decide), if_pos rfl, if_neg (Nat.not_le_of_lt h.next.lt), h2.moveTo, ok_bind,
      show p + 2 - 1 = p + 1 from rfl, h.next.byteAt, ok_bind, if_pos rfl, if_neg hlen, h6.moveTo,
      ok_bind]
    exact ih h6
  | case5 s hs =>
    have h2 : At mem s (p + 2) := h.next.next
    have hlen : mem.length - (p + 2) < 4 := by
      rw [h2.length]
      exact length_lt_four hs
    rw [skipStringBodyAt, if_pos h.lt, h.byteAt, ok_bind, h.next.moveTo, ok_bind,
      if_neg (by decide), if_pos rfl, if_neg (Nat.not_le_of_lt h.next.lt), h2.moveTo, ok_bind,
      show p + 2 - 1 = p + 1 from rfl, h.next.byteAt, ok_bind, if_pos rfl, if_pos hlen]
    exact .reject
  | case6 e s hu _ ih =>
    have h2 : At mem s (p + 2) := h.next.next
    rw [skipStringBodyAt, if_pos h.lt, h.byteAt, ok_bind, h.next.moveTo, ok_bind,
      if_neg (by decide), if_pos rfl, if_neg (Nat.not_le_of_lt h.next.lt), h2.moveTo, ok_bind,
      show p + 2 - 1 = p + 1 from rfl, h.next.byteAt, ok_bind, if_neg hu]
    exact ih h2
  | case7 c s hq hb ih =>
    rw [skipStringBodyAt, if_pos h.lt, h.byteAt, ok_bind, h.next.moveTo, ok_bind, if_neg hq,
      if_neg hb]
    exact ih h.next

theorem sSkipStringAt_tracks (h : At mem s p) :
    Tracks (fun q r => At mem r q) (sSkipStringAt mem p) (sSkipString s) := by
  cases s with
  | nil =>
    rw [sSkipStringAt, sNeedAt_nil h, reject_bind]
    exact .reject
  | cons c s =>
    rw [sSkipStringAt, sNeedAt_cons h, sSkipString]
    split
    · rw [ok_bind, h.next.moveTo, ok_bind]
      exact skipStringBodyAt_tracks h.next
    · exact .reject

theorem hexvalAt_eq {c : UInt8} (h : At mem (c :: s) p) : hexvalAt mem p = ofOption (hexval c) := by
  rw [hexvalAt, h.byteAt, ok_bind]

theorem sReadU4At_eq {a b c d : UInt8} (h : At mem (a :: b :: c :: d :: s) p) :
    sReadU4At mem p = ofOption (readU4 a b c d) := by
  have h1 := h.next
  have h2 : At mem (c :: d :: s) (p + 2) := h1.next
  have h3 : At mem (d :: s) (p + 3) := h2.next
  have h4 : At mem s (p + 4) := h3.next
  have hlen : ¬ mem.length - p < 4 := by
    rw [h.length]
    simp
  rw [sReadU4At, if_neg hlen, hexvalAt_eq h, hexvalAt_eq h1, hexvalAt_eq h2, hexvalAt_eq h3,
    h4.moveTo, readU4]
  cases hexval a with
  | none => rfl
  | some a =>
    cases hexval b with
    | none => rfl
    | some b =>
      cases hexval c with
      | none => rfl
      | some c =>
        cases hexval d with
        | none => rfl
        | some d => rfl

theorem sReadU4At_short (h : At mem s p) (hs : s.length < 4) : sReadU4At mem p = reject := by
  rw [sReadU4At, if_pos (h.length ▸ hs)]

/-- The code point of a `\u` escape and what is left behind it. -/
def codePoint : Bytes → Option (Nat × Bytes)
  | a :: b :: c :: d :: s =>
    (readU4 a b c d).bind fun u1 =>
      if 0xD800 ≤ u1 ∧ u1 ≤ 0xDBFF then
        match s with
        | p :: q :: a :: b :: c :: d :: s =>
          if p ≠ chr '\\' ∨ q ≠ chr 'u' then none
          else (readU4 a b c d).bind fun u2 =>
            if u2 < 0xDC00 ∨ u2 > 0xDFFF then none
            else some (0x10000 + ((u1 - 0xD800) <<< 10 ||| (u2 - 0xDC00)), s)
        | _ => none
      else if 0xDC00 ≤ u1 ∧ u1 ≤ 0xDFFF then none
      else some (u1, s)
  | _ => none

theorem decodeBody_unicode (cap o : Nat) (s : Bytes) :
    decodeBody cap o (chr '\\' :: chr 'u' :: s) = (codePoint s).bind fun x =>
      (utf8Bytes x.1).bind fun bs => putBytes cap o bs fun o => decodeBody cap o x.2 := by
  rw [decodeBody.eq_def]
  simp only [show chr '\\' ≠ chr '"' by decide, if_false, if_true]
  rcases s with _ | ⟨a, _ | ⟨b, _ | ⟨c, _ | ⟨d, s⟩⟩⟩⟩
  case cons.cons.cons.cons =>
    simp only [codePoint]
    cases readU4 a b c d with
    | none => rfl
    | some u1 =>
      simp only [Option.bind_some]
      by_cases hhigh : 0xD800 ≤ u1 ∧ u1 ≤ 0xDBFF
      · rw [if_pos hhigh, if_pos hhigh]
        rcases s with _ | ⟨p, _ | ⟨q, _ | ⟨a, _ | ⟨b, _ | ⟨c, _ | ⟨d, s⟩⟩⟩⟩⟩⟩
        case cons.cons.cons.cons.cons.cons =>
          dsimp only
          by_cases hpq : p ≠ chr '\\' ∨ q ≠ chr 'u'
          · rw [if_pos hpq, if_pos hpq]
            rfl
          rw [if_neg hpq, if_neg hpq]
          cases readU4 a b c d with
          | none => rfl
          | some u2 =>
            simp only [Option.bind_some]
            by_cases hlow : u2 < 0xDC00 ∨ u2 > 0xDFFF
            · rw [if_pos hlow, if_pos hlow]
              rfl
            · rw [if_neg hlow, if_neg hlow, Option.bind_some]
              cases utf8Bytes (0x10000 + ((u1 - 0xD800) <<< 10 ||| (u2 - 0xDC00))) <;> rfl
        all_goals rfl
      rw [if_neg hhigh, if_neg hhigh]
      by_cases hlow : 0xDC00 ≤ u1 ∧ u1 ≤ 0xDFFF
      · rw [if_pos hlow, if_pos hlow]
        rfl
      · rw [if_neg hlow, if_neg hlow, Option.bind_some]
        cases utf8Bytes u1 <;> rfl
  all_goals rfl

theorem codePointAt_tracks (h : At mem s p) :
    Tracks (fun x y => x.1 = y.1 ∧ At mem y.2 (p + x.2)) (codePointAt mem p) (codePoint s) := by
  rcases s with _ | ⟨a, _ | ⟨b, _ | ⟨c, _ | ⟨d, s⟩⟩⟩⟩
  case cons.cons.cons.cons =>
    have h4 : At mem s (p + 4) := h.next.next.next.next
    rw [codePointAt, sReadU4At_eq h, codePoint]
    cases readU4 a b c d with
    | none => exact .reject
    | some u1 =>
      rw [Option.bind_some, ofOption, ok_bind]
      refine .ite Iff.rfl (fun _ => ?_) fun _ => ?_
      · rcases s with _ | ⟨p1, _ | ⟨q1, _ | ⟨a, _ | ⟨b, _ | ⟨c, _ | ⟨d, s⟩⟩⟩⟩⟩⟩
        case cons.cons.cons.cons.cons.cons =>
          have h6 : At mem (a :: b :: c :: d :: s) (p + 6) := h4.next.next
          have h10 : At mem s (p + 10) := h6.next.next.next.next
          have hlen : ¬ mem.length - (p + 4) < 6 := by
            rw [h4.length]
            simp
          rw [if_neg hlen, h4.byteAt, ok_bind, h4.next.byteAt, h6.moveTo, ok_bind, ok_bind,
            sReadU4At_eq h6]
          dsimp only
          by_cases hp : p1 = chr '\\'
          · by_cases hq : q1 = chr 'u'
            · rw [if_neg (not_not.2 hp), if_neg (not_not.2 hq),
                if_neg (not_or.2 ⟨not_not.2 hp, not_not.2 hq⟩)]
              cases readU4 a b c d with
              | none => exact .reject
              | some u2 => exact .ite Iff.rfl (fun _ => .reject) fun _ => .ok ⟨rfl, h10⟩
            · rw [if_neg (not_not.2 hp), if_pos hq, if_pos (.inr hq)]
              exact .reject
          · rw [if_pos hp, if_pos (.inl hp)]
            exact .reject
        all_goals
          rw [if_pos (by rw [h4.length]; simp)]
          exact .reject
      · refine .ite Iff.rfl (fun _ => .reject) fun _ => .ok ⟨rfl, h4⟩
  all_goals
    rw [codePointAt, sReadU4At_short h (by simp), reject_bind]
    exact .reject

/-- What the decoder returns: the text behind `dst`, and the position. -/
def Decoded (mem dst : Bytes) (x : Bytes × Nat) (y : Bytes × Bytes) : Prop :=
  x.1 = dst ++ y.1 ∧ At mem y.2 x.2

theorem putAt_tracks {size cap : Nat} {dst bs : Bytes} {f : Bytes → Access (Bytes × Nat)}
    {k : Nat → Option (Bytes × Bytes)} (hcap : cap ≤ size)
    (hk : Tracks (Decoded mem (dst ++ bs)) (f (dst ++ bs)) (k (dst ++ bs).length)) :
    Tracks (Decoded mem dst) (putAt size cap dst bs >>= f) (putBytes cap dst.length bs k) := by
  unfold putAt putBytes
  split
  · exact .reject
  rw [put_of_le (by omega), ok_bind]
  rw [List.length_append] at hk
  generalize f (dst ++ bs) = x at hk
  generalize k (dst.length + bs.length) = y at hk
  cases hk with
  | ok h => exact .ok ⟨by rw [h.1, List.append_assoc], h.2⟩
  | reject => exact .reject

theorem decodeBodyAt_tracks {size cap : Nat} {dst : Bytes} (hcap : cap ≤ size) (h : At mem s p) :
    Tracks (Decoded mem dst) (decodeBodyAt size cap mem dst p) (decodeBody cap dst.length s) := by
  induction hn : s.length using Nat.strong_induction_on generalizing s p dst with
  | _ n ih =>
  subst hn
  cases s with
  | nil =>
    rw [decodeBodyAt, if_neg h.not_lt]
    exact .reject
  | cons c s =>
    rw [decodeBodyAt, if_pos h.lt, h.byteAt, ok_bind, h.next.moveTo, ok_bind]
    by_cases hq : c = chr '"'
    · subst hq
      rw [if_pos rfl, decodeBody.eq_def]
      exact .ok ⟨(List.append_nil dst).symm, h.next⟩
    rw [if_neg hq]
    by_cases hb : c = chr '\\'
    · subst hb
      rw [if_pos rfl]
      cases s with
      | nil =>
        rw [if_pos (Nat.le_of_not_lt h.next.not_lt)]
        exact .reject
      | cons e s =>
        have h2 : At mem s (p + 2) := h.next.next
        rw [if_neg (Nat.not_le_of_lt h.next.lt), h.next.byteAt, ok_bind, h2.moveTo, ok_bind]
        by_cases hu : e = chr 'u'
        · subst hu
          rw [if_pos rfl, decodeBody_unicode]
          refine (codePointAt_tracks h2).bind fun x y _ _ hxy => ?_
          obtain ⟨cp, n⟩ := x
          obtain ⟨cp', s'⟩ := y
          obtain ⟨rfl, hbehind⟩ := hxy
          have hs' : At mem s' (p + 2 + n) := hbehind
          have hless : s'.length < (chr '\\' :: chr 'u' :: s).length := by
            have h1 := h2.length
            have h3 := hs'.length
            simp only [List.length_cons]
            omega
          dsimp only
          rw [putUtf8At]
          cases utf8Bytes cp with
          | none => exact .reject
          | some bs =>
            change Tracks _ (putAt size cap dst bs >>= fun dst =>
              decodeBodyAt size cap mem dst (p + 2 + n))
              (putBytes cap dst.length bs fun o => decodeBody cap o s')
            exact putAt_tracks hcap (ih s'.length hless hs' rfl)
        · rw [if_neg hu, decodeBody.eq_def]
          simp only [show chr '\\' ≠ chr '"' by decide, hu, if_false, if_true]
          cases shortEscape e with
          | none => exact .reject
          | some b =>
            exact putAt_tracks hcap (ih s.length (Nat.lt_succ_of_lt (Nat.lt_succ_self _)) h2 rfl)
    · rw [if_neg hb, decodeBody.eq_def]
      simp only [hq, hb, if_false]
      exact putAt_tracks hcap (ih s.length (by simp) h.next rfl)

theorem sDecodeStringAt_tracks {size cap : Nat} (dst : Bytes) (hcap : cap ≤ size)
    (h : At mem s p) : Tracks (Decoded mem dst) (sDecodeStringAt size cap mem dst p)
      (sDecodeString cap dst.length s) := by
  cases s with
  | nil =>
    rw [sDecodeStringAt, sNeedAt_nil h, reject_bind]
    exact .reject
  | cons c s =>
    rw [sDecodeStringAt, sNeedAt_cons h, sDecodeString]
    split
    · rw [ok_bind, h.next.moveTo, ok_bind]
      exact decodeBodyAt_tracks hcap h.next
    · exact .reject

/-! ## Values -/

theorem tokenAt_eq (h : At mem s p) :
    ∃ q, tokenAt mem p = .ok q ∧ At mem (s.dropWhile isTokenChar) q := by
  induction s generalizing p with
  | nil =>
    rw [tokenAt, if_neg h.not_lt]
    exact ⟨p, rfl, h⟩
  | cons c s ih =>
    rw [tokenAt, if_pos h.lt, h.byteAt, ok_bind, h.next.moveTo, ok_bind]
    by_cases hc : isTokenChar c = true
    · rw [if_pos hc, List.dropWhile_cons_of_pos hc]
      exact ih h.next
    · rw [if_neg hc, List.dropWhile_cons_of_neg hc]
      exact ⟨p, rfl, h⟩

section

variable {α β : Type} {R : α → β → Prop}

/-- A look at `c`. -/
theorem look_tracks {c : UInt8} {x : Access α} {y : Option β} (h : At mem s p)
    (hno : s.head? ≠ some c → y = none) (hx : ∀ s', s = c :: s' → Tracks R x y) :
    Tracks R (sNeedAt mem p c >>= fun _ => x) y := by
  cases s with
  | nil =>
    rw [sNeedAt_nil h, hno nofun]
    exact .reject
  | cons b s =>
    rw [sNeedAt_cons h]
    by_cases hb : b = c
    · subst hb
      rw [if_pos rfl, ok_bind]
      exact hx s rfl
    · rw [if_neg hb, hno fun heq => hb (Option.some.inj heq)]
      exact .reject

/-- A step over `c`. -/
theorem need_tracks {c : UInt8} {x : Access α} {y : Option β} (h : At mem s p)
    (hno : s.head? ≠ some c → y = none)
    (hx : ∀ s', s = c :: s' → At mem s' (p + 1) → Tracks R x y) :
    Tracks R (do sNeedAt mem p c; moveTo mem (p + 1); x) y := by
  refine look_tracks h hno fun s' hs => ?_
  rw [hs] at h
  rw [h.next.moveTo, ok_bind]
  exact hx s' hs h.next

/-- The byte behind whitespace. -/
theorem byte_tracks {f : Nat → UInt8 → Access α} {y : Option β} (h : At mem s p)
    (hnil : sWs s = [] → y = none)
    (hcons : ∀ c s' q, sWs s = c :: s' → At mem (c :: s') q → Tracks R (f q c) y) :
    Tracks R (do let q ← sWsAt mem p; let c ← sByteAt mem q; f q c) y := by
  obtain ⟨q, hq, hat⟩ := sWsAt_eq h
  rw [hq, ok_bind]
  cases hws : sWs s with
  | nil =>
    rw [hws] at hat
    rw [sByteAt_nil hat, reject_bind, hnil hws]
    exact .reject
  | cons c s' =>
    rw [hws] at hat
    rw [sByteAt_cons hat, ok_bind]
    exact hcons c s' q hws hat

end

def itemKey (isObject : Bool) (s : Bytes) : Option Bytes :=
  if isObject then
    (sSkipString (sWs s)).bind fun s =>
      if (sWs s).head? = some (chr ':') then some (sWs s).tail else none
  else some s

theorem skipItems_succ (fuel depth : Nat) (isObject : Bool) (close : UInt8) (s : Bytes) :
    skipItems (fuel + 1) depth isObject close s =
      (itemKey isObject s).bind fun s => (skipValue fuel (depth + 1) s).bind fun s =>
        match sWs s with
        | [] => none
        | c :: s =>
          if c = chr ',' then skipItems fuel depth isObject close s
          else if c = close then some s
          else none := by
  rw [skipItems]
  cases isObject with
  | false => rfl
  | true =>
    simp only [itemKey, if_true]
    cases sSkipString (sWs s) with
    | none => rfl
    | some s0 =>
      simp only [Option.bind_eq_bind, Option.bind_some]
      split
      · rfl
      · rfl

theorem itemKeyAt_tracks {isObject : Bool} (h : At mem s p) :
    Tracks (fun q r => At mem r q) (itemKeyAt isObject mem p) (itemKey isObject s) := by
  cases isObject with
  | false => exact .ok h
  | true =>
    simp only [itemKeyAt, itemKey, if_true]
    obtain ⟨q, hq, hat⟩ := sWsAt_eq h
    rw [hq, ok_bind]
    refine (sSkipStringAt_tracks hat).bind fun q' s' _ _ hat' => ?_
    obtain ⟨q'', hq'', hat''⟩ := sWsAt_eq hat'
    rw [hq'', ok_bind]
    refine need_tracks hat'' (fun hno => if_neg hno) fun s2 hs2 hat2 => ?_
    rw [hs2, List.head?_cons, if_pos rfl, List.tail_cons]
    exact .ok hat2

theorem itemKey_suffix {isObject : Bool} (h : itemKey isObject s = some r) : r <:+ s := by
  cases isObject with
  | false =>
    cases h
    exact List.suffix_rfl
  | true =>
    obtain ⟨s1, hskip, h⟩ := Option.bind_eq_some_iff.1 h
    split at h
    · next hcolon =>
      obtain ⟨s0, hquote, hbody⟩ := sSkipString_cases hskip
      cases h
      exact suffix_of_ws ((skipStringBody_suffix hbody).trans
        (suffix_of_ws List.suffix_rfl hquote)) (head?_eq_cons hcolon)
    · cases h

theorem skip_tracks (fuel : Nat) :
    (∀ depth s p, depth ≤ 65 → 2 * s.length + 1 ≤ fuel → At mem s p →
      Tracks (fun q r => At mem r q) (skipValueAt fuel depth mem p) (skipValue fuel depth s)) ∧
    ∀ depth isObject close s p, depth ≤ 64 → 2 * s.length + 2 ≤ fuel → At mem s p →
      Tracks (fun q r => At mem r q) (skipItemsAt fuel depth isObject close mem p)
        (skipItems fuel depth isObject close s) := by
  induction fuel with
  | zero =>
    constructor
    · intro depth s p _ hfuel
      omega
    · intro depth isObject close s p _ hfuel
      omega
  | succ fuel ih =>
    constructor
    · intro depth s p hdepth hfuel h
      rw [skipValueAt, skipValue, if_neg (by omega)]
      refine .ite Iff.rfl (fun _ => .reject) fun hdeep => ?_
      refine byte_tracks h (fun hnil => by rw [hnil]) fun c s' q hws hat => ?_
      rw [hws]
      have hlen := (sWs_suffix s).length_le
      rw [hws, List.length_cons] at hlen
      dsimp only
      refine .ite Iff.rfl (fun hq => ?_) fun _ => ?_
      · have hskip := sSkipStringAt_tracks hat
        rwa [sSkipString, if_pos hq] at hskip
      refine .ite Iff.rfl (fun _ => ?_) fun _ => ?_
      · rw [hat.next.moveTo, ok_bind]
        obtain ⟨q', hq', hat'⟩ := sWsAt_eq hat.next
        rw [hq', ok_bind, sSeesAt_eq hat', ok_bind]
        refine .ite (decide_eq_true_iff) (fun hclose => ?_) fun _ => ?_
        · have hnext : At mem (sWs s').tail (q' + 1) := (head?_eq_cons hclose ▸ hat').next
          rw [hnext.moveTo, ok_bind]
          exact .ok hnext
        · have hlen' := (sWs_suffix s').length_le
          exact ih.2 _ _ _ _ _ (by omega) (by omega) hat'
      refine .ite Iff.rfl (fun htoken => ?_) fun _ => .reject
      obtain ⟨q', hq', hat'⟩ := tokenAt_eq hat
      rw [hq']
      rw [List.dropWhile_cons_of_pos htoken] at hat'
      exact .ok hat'
    · intro depth isObject close s p hdepth hfuel h
      rw [skipItemsAt, skipItems_succ]
      refine (itemKeyAt_tracks h).bind fun q1 s1 _ hkey hat1 => ?_
      have hlen1 := (itemKey_suffix hkey).length_le
      refine (ih.1 _ _ _ (by omega) (by omega) hat1).bind fun q2 s2 _ hvalue hat2 => ?_
      have hlen2 := ((skip_suffix fuel).1 _ _ _ hvalue).length_le
      refine byte_tracks hat2 (fun hnil => by rw [hnil]) fun c s3 q hws hat3 => ?_
      rw [hws]
      have hlen3 := (sWs_suffix s2).length_le
      rw [hws, List.length_cons] at hlen3
      dsimp only
      rw [hat3.next.moveTo, ok_bind, ok_bind]
      refine .ite Iff.rfl (fun _ => ?_) fun _ =>
        .ite Iff.rfl (fun _ => .ok hat3.next) fun _ => .reject
      exact ih.2 _ _ _ _ _ hdepth (by omega) hat3.next

theorem sSkipValueAt_tracks (h : At mem s p) :
    Tracks (fun q r => At mem r q) (sSkipValueAt mem p) (sSkipValue s) := by
  rw [sSkipValueAt, h.length]
  exact (skip_tracks _).1 0 s p (by decide) (Nat.le_succ _) h

/-! ## Extraction -/

theorem memberKeyAt_tracks (size : Nat) (hsize : 1 ≤ size) (h : At mem s p) :
    Tracks (fun x y => x.1 = y.1 ∧ At mem y.2 x.2) (memberKeyAt size mem p)
      (memberKey (size - 1) s) := by
  refine (sDecodeStringAt_tracks [] (Nat.sub_le size 1) h).bind fun x y _ hdec hxy => ?_
  obtain ⟨kbuf, q⟩ := x
  obtain ⟨key, s1⟩ := y
  obtain ⟨hkey, hat⟩ := hxy
  obtain rfl : kbuf = key := hkey
  have hfits : kbuf.length + [(0 : UInt8)].length ≤ size := by
    have hlen := sDecodeString_length hdec (Nat.zero_le _)
    rw [List.length_singleton]
    omega
  dsimp only
  rw [put_of_le hfits, ok_bind]
  obtain ⟨q1, hq1, hat1⟩ := sWsAt_eq hat
  rw [hq1, ok_bind]
  refine need_tracks hat1 (fun hno => if_neg hno) fun s2 hs2 hat2 => ?_
  obtain ⟨q2, hq2, hat3⟩ := sWsAt_eq hat2
  rw [hs2, List.head?_cons, if_pos rfl, List.tail_cons, hq2, ok_bind]
  exact .ok ⟨rfl, hat3⟩

/-- A pass over a member takes at least the comma. -/
theorem pass_lt {cap : Nat} {k s1 s2 s3 : Bytes} {c : UInt8}
    (hkey : memberKey cap (sWs s) = some (k, s1)) (hs2 : s2 <:+ s1) (hws : sWs s2 = c :: s3) :
    s3.length < s.length := by
  have h1 := (memberKey_suffix (sWs_suffix s) hkey).length_le
  have h2 := hs2.length_le
  have h3 := (sWs_suffix s2).length_le
  rw [hws, List.length_cons] at h3
  omega

theorem sDecodeString_quote {cap o : Nat} (h : s.head? ≠ some (chr '"')) :
    sDecodeString cap o s = none := by
  cases s with
  | nil => rfl
  | cons c s => exact if_neg fun hc => h (congrArg some hc)

theorem sSkipString_quote (h : s.head? ≠ some (chr '"')) : sSkipString s = none := by
  cases s with
  | nil => rfl
  | cons c s => exact if_neg fun hc => h (congrArg some hc)

theorem topStringLoopAt_tracks {key : Bytes} {cap fuel : Nat} (hcap : 1 ≤ cap) (h : At mem s p)
    (hfuel : s.length < fuel) :
    Tracks (· = ·) (topStringLoopAt key cap fuel mem p) (topStringLoop key cap fuel s) := by
  induction fuel generalizing s p with
  | zero => omega
  | succ fuel ih =>
    obtain ⟨q, hq, hat⟩ := sWsAt_eq h
    rw [topStringLoopAt, topStringLoop, hq, ok_bind, sSeesAt_eq hat, ok_bind]
    refine .ite decide_eq_true_iff (fun _ => .reject) fun _ => ?_
    have hkey := memberKeyAt_tracks 64 (by decide) hat
    obtain ⟨hx, hy⟩ | ⟨⟨k, q1⟩, ⟨k', s1⟩, hx, hy, heq, hat1⟩ := hkey.cases
    · rw [hx, reject_bind, hy]
      exact .reject
    obtain rfl : k = k' := heq
    rw [hx, ok_bind, hy]
    refine .ite Iff.rfl (fun _ => ?_) fun _ => ?_
    · -- the value of the key
      refine look_tracks hat1 (fun hno => by rw [sDecodeString_quote hno]; rfl) fun _ _ => ?_
      have hdec := sDecodeStringAt_tracks [] (Nat.sub_le cap 1) hat1
      obtain ⟨hx, hy⟩ | ⟨⟨dst, q2⟩, ⟨t, s2⟩, hx, hy, heq, -⟩ := hdec.cases
      · rw [hx, reject_bind, show sDecodeString (cap - 1) 0 s1 = none from hy]
        exact .reject
      obtain rfl : dst = t := heq
      have hfits : dst.length + [(0 : UInt8)].length ≤ cap := by
        have hlen := sDecodeString_length hy (Nat.zero_le _)
        rw [List.length_singleton]
        omega
      rw [hx, ok_bind, show sDecodeString (cap - 1) 0 s1 = some (dst, s2) from hy]
      dsimp only
      rw [put_of_le hfits, ok_bind]
      exact .ok rfl
    · obtain ⟨hx, hy⟩ | ⟨q2, s2, hx, hskip, hat2⟩ := (sSkipValueAt_tracks hat1).cases
      · rw [hx, reject_bind, hy]
        exact .reject
      rw [hx, ok_bind, hskip]
      dsimp only
      refine byte_tracks hat2 (fun hnil => by rw [hnil]) fun c s3 q3 hws hat3 => ?_
      rw [hws, hat3.next.moveTo, ok_bind]
      refine .ite Iff.rfl (fun _ => ih hat3.next ?_) fun _ => .reject
      have hlt := pass_lt hy (sSkipValue_suffix hskip) hws
      omega

theorem gwjTopStringAt_tracks {key : Bytes} {cap : Nat} (hcap : 1 ≤ cap) (h : At mem s p) :
    Tracks (· = ·) (gwjTopStringAt mem p key cap) (gwjTopString s key cap) := by
  obtain ⟨q, hq, hat⟩ := sWsAt_eq h
  rw [gwjTopStringAt, gwjTopString, hq, ok_bind, h.length]
  have hlen := (sWs_suffix s).length_le
  cases hws : sWs s with
  | nil =>
    rw [hws] at hat
    rw [sNeedAt_nil hat, reject_bind]
    exact .reject
  | cons c s' =>
    rw [hws] at hat hlen
    rw [sNeedAt_cons hat]
    dsimp only
    split
    · rw [ok_bind, hat.next.moveTo, ok_bind]
      exact topStringLoopAt_tracks hcap hat.next hlen
    · exact .reject

theorem blockMemberAt_tracks {isText : Bool} {place : Option Nat} {textAt : Option Bytes}
    {key : Bytes} (hplace : Option.Rel (fun q s => At mem s q) place textAt) (h : At mem s p) :
    Tracks (fun x y => x.1 = y.1 ∧ Option.Rel (fun q s => At mem s q) x.2.1 y.2.1 ∧
        At mem y.2.2 x.2.2)
      (blockMemberAt isText place key mem p) (blockMember isText textAt key s) := by
  unfold blockMemberAt blockMember
  refine .ite Iff.rfl (fun _ => ?_) fun _ => .ite Iff.rfl (fun _ => ?_) fun _ => ?_
  · refine look_tracks h (fun hno => by rw [sDecodeString_quote hno]; rfl) fun _ _ => ?_
    have hdec := sDecodeStringAt_tracks [] (show 15 ≤ 16 by decide) h
    obtain ⟨hx, hy⟩ | ⟨⟨tv, q⟩, ⟨t, s1⟩, hx, hy, heq, hat⟩ := hdec.cases
    · rw [hx, reject_bind, show sDecodeString 15 0 s = none from hy]
      exact .reject
    obtain rfl : tv = t := heq
    have hfits : tv.length + [(0 : UInt8)].length ≤ 16 := by
      have hlen := sDecodeString_length hy (Nat.zero_le _)
      rw [List.length_singleton]
      omega
    rw [hx, ok_bind, show sDecodeString 15 0 s = some (tv, s1) from hy]
    dsimp only
    rw [put_of_le hfits, ok_bind]
    exact .ok ⟨rfl, hplace, hat⟩
  · refine look_tracks h (fun hno => by rw [sSkipString_quote hno]; rfl) fun _ _ => ?_
    exact (sSkipStringAt_tracks h).map fun q s1 hat => ⟨rfl, .some h, hat⟩
  · exact (sSkipValueAt_tracks h).map fun q s1 hat => ⟨rfl, hplace, hat⟩

theorem blockLoopAt_tracks {fuel : Nat} {isText : Bool} {place : Option Nat} {textAt : Option Bytes}
    (hplace : Option.Rel (fun q s => At mem s q) place textAt) (h : At mem s p)
    (hfuel : s.length < fuel) :
    Tracks (fun x y => x.1 = y.1 ∧ Option.Rel (fun q s => At mem s q) x.2.1 y.2.1 ∧
        At mem y.2.2 x.2.2)
      (blockLoopAt fuel isText place mem p) (blockLoop fuel isText textAt s) := by
  induction fuel generalizing isText place textAt s p with
  | zero => omega
  | succ fuel ih =>
    obtain ⟨q, hq, hat⟩ := sWsAt_eq h
    rw [blockLoopAt, blockLoop_succ, hq, ok_bind, sSeesAt_eq hat, ok_bind]
    refine .ite decide_eq_true_iff (fun hclose => ?_) fun _ => ?_
    · have hnext : At mem (sWs s).tail (q + 1) := (head?_eq_cons hclose ▸ hat).next
      rw [hnext.moveTo, ok_bind]
      exact .ok ⟨rfl, hplace, hnext⟩
    refine (memberKeyAt_tracks 32 (by decide) hat).bind fun x key _ hkey hxy => ?_
    obtain ⟨ek, q1⟩ := x
    obtain ⟨heq, hat1⟩ := hxy
    obtain rfl : ek = key.1 := heq
    refine (blockMemberAt_tracks hplace hat1).bind fun x res _ hmember hxy => ?_
    obtain ⟨isText1, place1, q2⟩ := x
    obtain ⟨heq, hplace1, hat2⟩ := hxy
    obtain rfl : isText1 = res.1 := heq
    refine byte_tracks hat2 (fun hnil => by rw [hnil]) fun c s3 q3 hws hat3 => ?_
    rw [hws]
    dsimp only
    rw [hat3.next.moveTo, ok_bind, ok_bind]
    refine .ite Iff.rfl (fun _ => ih hplace1 hat3.next ?_) fun _ =>
      .ite Iff.rfl (fun _ => .ok ⟨rfl, hplace1, hat3.next⟩) fun _ => .reject
    have hlt := pass_lt hkey (blockMember_rest hmember) hws
    omega

theorem blockTextAt_tracks {cap : Nat} {isText : Bool} {place : Option Nat} {textAt : Option Bytes}
    {dst : Bytes} (hplace : Option.Rel (fun q s => At mem s q) place textAt) :
    Tracks (· = ·) (blockTextAt cap isText place mem dst) (blockText cap isText textAt dst) := by
  cases isText with
  | false => exact .ok rfl
  | true =>
    cases hplace with
    | none => exact .ok rfl
    | some hat => exact (sDecodeStringAt_tracks dst Nat.le.refl hat).map fun x y hxy => hxy.1

theorem blockLoop_rest {fuel : Nat} {isText isText' : Bool} {textAt textAt' : Option Bytes}
    (h : blockLoop fuel isText textAt s = some (isText', textAt', r)) : r <:+ s := by
  induction fuel generalizing isText textAt s with
  | zero => cases h
  | succ fuel ih =>
    obtain ⟨s1, hclose, heq⟩ |
      ⟨key, s1, isText1, textAt1, s2, c, s3, -, hkey, hmember, hws, hnext⟩ :=
      blockLoop_cases h
    · cases heq
      exact suffix_of_ws List.suffix_rfl hclose
    · have hs3 : s3 <:+ s := suffix_of_ws
        ((blockMember_rest hmember).trans (memberKey_suffix (sWs_suffix s) hkey)) hws
      obtain ⟨-, hmore⟩ | ⟨-, -, heq⟩ := hnext
      · exact (ih hmore).trans hs3
      · cases heq
        exact hs3

theorem contentLoopAt_tracks {cap fuel : Nat} {dst : Bytes} (h : At mem s p)
    (hfuel : s.length < fuel) :
    Tracks (fun x y => x.1 = y.1 ∧ At mem y.2 x.2) (contentLoopAt cap fuel mem dst p)
      (contentLoop cap fuel dst s) := by
  induction fuel generalizing dst s p with
  | zero => omega
  | succ fuel ih =>
    obtain ⟨q, hq, hat⟩ := sWsAt_eq h
    rw [contentLoopAt, contentLoop_succ, hq, ok_bind]
    have hlen0 := (sWs_suffix s).length_le
    cases hws0 : sWs s with
    | nil =>
      rw [hws0] at hat
      rw [sNeedAt_nil hat, reject_bind]
      exact .reject
    | cons b s0 =>
      rw [hws0] at hat
      rw [hws0, List.length_cons] at hlen0
      rw [sNeedAt_cons hat]
      dsimp only
      by_cases hb : b = chr '{'
      swap
      · rw [if_neg hb, if_pos hb]
        exact .reject
      rw [if_pos hb, if_neg (not_not.2 hb), ok_bind, hat.next.moveTo, ok_bind, hat.next.length]
      refine (blockLoopAt_tracks .none hat.next (Nat.lt_succ_self _)).bind
        fun x res _ hblock hxy => ?_
      obtain ⟨isText, place, q1⟩ := x
      obtain ⟨heq, hplace, hat1⟩ := hxy
      obtain rfl : isText = res.1 := heq
      refine (blockTextAt_tracks hplace).bind fun dst1 text _ _ heq => ?_
      subst heq
      refine byte_tracks hat1 (fun hnil => by rw [hnil]) fun c s2 q2 hws hat2 => ?_
      rw [hws]
      dsimp only
      rw [hat2.next.moveTo, ok_bind, ok_bind]
      refine .ite Iff.rfl (fun _ => ih hat2.next ?_) fun _ =>
        .ite Iff.rfl (fun _ => .ok ⟨rfl, hat2.next⟩) fun _ => .reject
      have hs2 : s2 <:+ s0 := suffix_of_ws (blockLoop_rest hblock) hws
      have hlen2 := hs2.length_le
      omega

theorem contentLoop_rest {cap fuel : Nat} {text t : Bytes}
    (h : contentLoop cap fuel text s = some (t, r)) : r <:+ s := by
  induction fuel generalizing text s with
  | zero => cases h
  | succ fuel ih =>
    obtain ⟨s0, isText, textAt, s1, text1, c, s2, hopen, hblock, -, hws, hnext⟩ :=
      contentLoop_cases h
    have hs2 :=
      suffix_of_ws ((blockLoop_rest hblock).trans (suffix_of_ws List.suffix_rfl hopen)) hws
    obtain ⟨-, hmore⟩ | ⟨-, -, heq⟩ := hnext
    · exact (ih hmore).trans hs2
    · cases heq
      exact hs2

theorem topMember_rest {cap : Nat} {found found' : Bool} {text t key : Bytes}
    (h : topMember cap found text key s = some (found', t, r)) : r <:+ s := by
  unfold topMember at h
  split at h
  · split at h
    · cases h
    next c s0 =>
    have hs0 := (sWs_suffix s0).trans (List.suffix_cons c s0)
    split at h
    · cases h
    split at h
    · cases h
      exact (tail_suffix _).trans hs0
    · obtain ⟨⟨t1, s1⟩, hloop, heq⟩ := Option.map_eq_some_iff.1 h
      cases heq
      exact (contentLoop_rest hloop).trans hs0
  · obtain ⟨s1, hskip, heq⟩ := Option.map_eq_some_iff.1 h
    cases heq
    exact sSkipValue_suffix hskip

theorem topMemberAt_tracks {cap : Nat} {found : Bool} {dst key : Bytes} (h : At mem s p) :
    Tracks (fun x y => x.1 = y.1 ∧ x.2.1 = y.2.1 ∧ At mem y.2.2 x.2.2)
      (topMemberAt cap found dst key mem p) (topMember cap found dst key s) := by
  unfold topMemberAt topMember
  refine .ite Iff.rfl (fun _ => ?_) fun _ =>
    (sSkipValueAt_tracks h).map fun q s1 hat => ⟨rfl, rfl, hat⟩
  cases s with
  | nil =>
    rw [sNeedAt_nil h, reject_bind]
    exact .reject
  | cons c s =>
    rw [sNeedAt_cons h]
    dsimp only
    by_cases hc : c = chr '['
    swap
    · rw [if_neg hc, if_pos hc]
      exact .reject
    obtain ⟨q, hq, hat⟩ := sWsAt_eq h.next
    rw [if_pos hc, if_neg (not_not.2 hc), ok_bind, h.next.moveTo, ok_bind, hq, ok_bind,
      sSeesAt_eq hat, ok_bind]
    refine .ite decide_eq_true_iff (fun hclose => ?_) fun _ => ?_
    · have hnext : At mem (sWs s).tail (q + 1) := (head?_eq_cons hclose ▸ hat).next
      rw [hnext.moveTo, ok_bind]
      exact .ok ⟨rfl, rfl, hnext⟩
    · rw [hat.length]
      exact (contentLoopAt_tracks hat (Nat.lt_succ_self _)).map fun x y hxy => ⟨rfl, hxy⟩

theorem contentTextLoopAt_tracks {cap fuel : Nat} {found : Bool} {dst : Bytes} (h : At mem s p)
    (hfuel : s.length < fuel) :
    Tracks (· = ·) (contentTextLoopAt cap fuel found mem dst p)
      (contentTextLoop cap fuel found dst s) := by
  induction fuel generalizing found dst s p with
  | zero => omega
  | succ fuel ih =>
    obtain ⟨q, hq, hat⟩ := sWsAt_eq h
    rw [contentTextLoopAt, contentTextLoop_succ, hq, ok_bind, sSeesAt_eq hat, ok_bind]
    refine .ite decide_eq_true_iff (fun _ => .ok rfl) fun _ => ?_
    refine (memberKeyAt_tracks 64 (by decide) hat).bind fun x key _ hkey hxy => ?_
    obtain ⟨k, q1⟩ := x
    obtain ⟨heq, hat1⟩ := hxy
    obtain rfl : k = key.1 := heq
    refine (topMemberAt_tracks hat1).bind fun x res _ hmember hxy => ?_
    obtain ⟨found1, dst1, q2⟩ := x
    obtain ⟨heq, heq', hat2⟩ := hxy
    obtain rfl : found1 = res.1 := heq
    obtain rfl : dst1 = res.2.1 := heq'
    refine byte_tracks hat2 (fun hnil => by rw [hnil]) fun c s3 q3 hws hat3 => ?_
    rw [hws]
    dsimp only
    rw [hat3.next.moveTo, ok_bind]
    refine .ite Iff.rfl (fun _ => ih hat3.next ?_) fun _ =>
      .ite Iff.rfl (fun _ => .ok rfl) fun _ => .reject
    have hlt := pass_lt hkey (topMember_rest hmember) hws
    omega

theorem gwjContentTextAt_tracks (body : Bytes) (cap : Nat) :
    Tracks (· = ·) (gwjContentTextAt body cap) (gwjContentText body cap) := by
  obtain ⟨q, hq, hat⟩ := sWsAt_eq (at_zero body)
  have hlen := (sWs_suffix body).length_le
  rw [gwjContentTextAt, gwjContentText, hq, ok_bind]
  cases hws : sWs body with
  | nil =>
    rw [hws] at hat
    rw [sNeedAt_nil hat, reject_bind]
    exact .reject
  | cons c s =>
    rw [hws] at hat
    rw [hws, List.length_cons] at hlen
    rw [sNeedAt_cons hat]
    dsimp only
    by_cases hc : c = chr '{'
    swap
    · rw [if_neg hc, if_pos hc]
      exact .reject
    rw [if_pos hc, if_neg (not_not.2 hc), ok_bind, hat.next.moveTo, ok_bind]
    have hloop : Tracks (· = ·)
        (contentTextLoopAt cap (body.length + 1) false body [] (q + 1))
        (contentTextLoop cap (body.length + 1) false [] s) :=
      contentTextLoopAt_tracks hat.next (by omega)
    obtain ⟨hx, hy⟩ | ⟨⟨found, dst⟩, y, hx, hy, rfl⟩ := hloop.cases
    · rw [hx, reject_bind, hy]
      exact .reject
    · rw [hx, ok_bind, hy]
      cases found with
      | false => exact .reject
      | true => exact .ok rfl

theorem errorMessageLoopAt_tracks {cap fuel : Nat} (hcap : 1 ≤ cap) (h : At mem s p)
    (hfuel : s.length < fuel) :
    Tracks (· = ·) (errorMessageLoopAt cap fuel mem p) (errorMessageLoop cap fuel s) := by
  induction fuel generalizing s p with
  | zero => omega
  | succ fuel ih =>
    obtain ⟨q, hq, hat⟩ := sWsAt_eq h
    rw [errorMessageLoopAt, errorMessageLoop, hq, ok_bind, sSeesAt_eq hat, ok_bind]
    refine .ite decide_eq_true_iff (fun _ => .reject) fun _ => ?_
    have hkey := memberKeyAt_tracks 32 (by decide) hat
    obtain ⟨hx, hy⟩ | ⟨⟨k, q1⟩, ⟨k', s1⟩, hx, hy, heq, hat1⟩ := hkey.cases
    · rw [hx, reject_bind, hy]
      exact .reject
    obtain rfl : k = k' := heq
    rw [hx, ok_bind, hy]
    refine .ite Iff.rfl (fun _ => ?_) fun _ => ?_
    · refine look_tracks hat1 (fun hno => if_neg hno) fun s' hs' => ?_
      have hs1 : s1.head? = some (chr '{') := congrArg List.head? hs'
      rw [if_pos hs1]
      exact gwjTopStringAt_tracks hcap hat1
    · obtain ⟨hx, hy⟩ | ⟨q2, s2, hx, hskip, hat2⟩ := (sSkipValueAt_tracks hat1).cases
      · rw [hx, reject_bind, hy]
        exact .reject
      rw [hx, ok_bind, hskip]
      dsimp only
      refine byte_tracks hat2 (fun hnil => by rw [hnil]) fun c s3 q3 hws hat3 => ?_
      rw [hws, hat3.next.moveTo, ok_bind]
      refine .ite Iff.rfl (fun _ => ih hat3.next ?_) fun _ => .reject
      have hlt := pass_lt hy (sSkipValue_suffix hskip) hws
      omega

theorem gwjErrorMessageAt_tracks (body : Bytes) {cap : Nat} (hcap : 1 ≤ cap) :
    Tracks (· = ·) (gwjErrorMessageAt body cap) (gwjErrorMessage body cap) := by
  obtain ⟨q, hq, hat⟩ := sWsAt_eq (at_zero body)
  have hlen := (sWs_suffix body).length_le
  rw [gwjErrorMessageAt, gwjErrorMessage, hq, ok_bind]
  cases hws : sWs body with
  | nil =>
    rw [hws] at hat
    rw [sNeedAt_nil hat, reject_bind]
    exact .reject
  | cons c s =>
    rw [hws] at hat hlen
    rw [sNeedAt_cons hat]
    dsimp only
    split
    · rw [ok_bind, hat.next.moveTo, ok_bind]
      exact errorMessageLoopAt_tracks hcap hat.next hlen
    · exact .reject

/-! ## The whole -/

/-- A scan that rejects, or ends at a position of the body. -/
def Stays (body : Bytes) (x : Access Nat) : Prop :=
  Total x ∧ ∀ q, x = .ok q → q ≤ body.length

theorem stays_of_tracks {x : Access Nat} {y : Option Bytes}
    (h : Tracks (fun q r => At mem r q) x y) : Stays mem x := by
  refine ⟨h.total, fun q hq => ?_⟩
  subst hq
  cases h with
  | ok hat => exact hat.le

/-- **The scanners come to an answer** without an access outside the body or a buffer, and the
extractors to the one of the functions on lists. -/
theorem json_scanners_in_bounds (body : Bytes) (cap : Nat) (hcap : 1 ≤ cap) :
    (∀ p ≤ body.length, Stays body (sWsAt body p) ∧ Stays body (sSkipStringAt body p) ∧
      (∀ size c dst, c ≤ size → Total (sDecodeStringAt size c body dst p) ∧
        ∀ t q, sDecodeStringAt size c body dst p = .ok (t, q) → q ≤ body.length) ∧
      Stays body (sSkipValueAt body p)) ∧
    (∀ key, gwjTopStringAt body 0 key cap = ofOption (gwjTopString body key cap)) ∧
    gwjContentTextAt body cap = ofOption (gwjContentText body cap) ∧
    gwjErrorMessageAt body cap = ofOption (gwjErrorMessage body cap) := by
  refine ⟨fun p hp => ?_, fun key => (gwjTopStringAt_tracks hcap (at_zero body)).eq,
    (gwjContentTextAt_tracks body cap).eq, (gwjErrorMessageAt_tracks body hcap).eq⟩
  have hat := at_drop hp
  refine ⟨?_, stays_of_tracks (sSkipStringAt_tracks hat), fun size c dst hc => ?_,
    stays_of_tracks (sSkipValueAt_tracks hat)⟩
  · obtain ⟨q, hq, hat'⟩ := sWsAt_eq hat
    rw [hq]
    exact stays_of_tracks (.ok hat')
  · have hdec := sDecodeStringAt_tracks dst hc hat
    refine ⟨hdec.total, fun t q hq => ?_⟩
    obtain ⟨hx, -⟩ | ⟨x, y, hx, -, hxy⟩ := hdec.cases
    · rw [hx] at hq
      cases hq
    · rw [hx] at hq
      cases hq
      exact hxy.2.le

/-- An error body, and the same body cut off within an escape. -/
theorem json_scanners_in_bounds_samples :
    gwjErrorMessageAt (ascii "\x7b\"error\":\x7b\"message\":\"\\u0041\"\x7d\x7d") 2 =
      .ok (ascii "A") ∧
    gwjErrorMessageAt (ascii "\x7b\"error\":\x7b\"message\":\"\\u00") 2 = reject := by
  have hwhole : gwjErrorMessage
      (ascii "\x7b\"error\":\x7b\"message\":\"\\u0041\"\x7d\x7d") 2 = some (ascii "A") := by
    decide +kernel
  have hcut : gwjErrorMessage (ascii "\x7b\"error\":\x7b\"message\":\"\\u00") 2 = none := by
    decide +kernel
  refine ⟨?_, ?_⟩
  · rw [(json_scanners_in_bounds _ 2 (by decide)).2.2.2, hwhole]
    rfl
  · rw [(json_scanners_in_bounds _ 2 (by decide)).2.2.2, hcut]
    rfl

end AxiomaOracle
