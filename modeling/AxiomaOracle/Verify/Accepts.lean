import AxiomaOracle.Lib.JsonTokens
import AxiomaOracle.Verify.Scan

/-!
# Accepted bodies

`gwj_content_text` scans with four loops. They check the structure of a body, so an accepted body is
a JSON object as soon as its tokens are in order: strings and atoms are what the RFC says, no comma
stands in front of a closing brace and nothing stands behind the last one. The proof follows the
loops: each leaves a derivation of what it went over, and the tokens that are still to come.
-/

namespace AxiomaOracle

open Lib Lib.Json

variable {body s r : Bytes} {ts : List Token}

/-! ## Strings and atoms -/

theorem skipStringBody_plain {c : UInt8} (hq : c ≠ chr '"') (hb : c ≠ chr '\\') (s : Bytes) :
    skipStringBody (c :: s) = skipStringBody s := by
  rw [skipStringBody.eq_def]
  simp only [hq, hb, if_false]

theorem skipStringBody_short {e : UInt8} (hu : e ≠ chr 'u') (s : Bytes) :
    skipStringBody (chr '\\' :: e :: s) = skipStringBody s := by
  rw [skipStringBody.eq_def]
  simp only [show chr '\\' ≠ chr '"' by decide, hu, if_false, if_true]

theorem skipStringBody_unit (a b c d : UInt8) (s : Bytes) :
    skipStringBody (chr '\\' :: chr 'u' :: a :: b :: c :: d :: s) = skipStringBody s := by
  rw [skipStringBody.eq_def]
  simp only [show chr '\\' ≠ chr '"' by decide, if_false, if_true]

theorem skipStringBody_close (s : Bytes) : skipStringBody (chr '"' :: s) = some s := by
  rw [skipStringBody.eq_def]
  simp only [if_true]

/-- The scanner ends a string where the RFC does. -/
theorem skipStringBody_of_units {us : List (UInt8 ⊕ Nat)} (h : units s = some (us, r)) :
    skipStringBody s = some r := by
  induction hn : s.length using Nat.strong_induction_on generalizing s us with
  | _ n ih =>
  rcases units_cases h with ⟨rfl, -⟩ | ⟨raw, u, s', us', rfl, hraw, hrest, -⟩
  · exact skipStringBody_close r
  have hpos := hraw.length_pos
  rw [List.length_append] at hn
  have hskip := ih s'.length (by omega) hrest rfl
  cases hraw with
  | plain hq hb _ => exact (skipStringBody_plain hq hb s').trans hskip
  | simple hu _ => exact (skipStringBody_short hu s').trans hskip
  | hex _ => exact (skipStringBody_unit _ _ _ _ s').trans hskip

/-- The scanner ends a string where the decoder does. -/
theorem skipStringBody_of_decode {cap o : Nat} {t : Bytes} (h : decodeBody cap o s = some (t, r)) :
    skipStringBody s = some r := by
  induction hn : s.length using Nat.strong_induction_on generalizing s o t with
  | _ n ih =>
  rcases decodeBody_cases h with ⟨rfl, -⟩ | ⟨raw, bs, s', t', rfl, hraw, -, hrest, -⟩
  · exact skipStringBody_close r
  have hpos := hraw.length_pos
  rw [List.length_append] at hn
  have hskip := ih s'.length (by omega) hrest rfl
  cases hraw with
  | plain hq hb => exact (skipStringBody_plain hq hb s').trans hskip
  | short hu _ => exact (skipStringBody_short hu s').trans hskip
  | unit => exact (skipStringBody_unit _ _ _ _ s').trans hskip
  | pair =>
    exact (skipStringBody_unit _ _ _ _ _).trans ((skipStringBody_unit _ _ _ _ s').trans hskip)

theorem isTokenChar_of_isAtomByte {b : UInt8} (h : isAtomByte b = true) : isTokenChar b = true := by
  have hall : ∀ c ∈ ascii "0123456789+-.eEtrufalsn", isTokenChar c = true := by decide
  exact hall b (mem_atomBytes h)

theorem isTokenChar_other {c : UInt8} (h : isTokenChar c = true) : isMark c = false ∧ c ≠ 34 := by
  have hall : ∀ b ∈ ascii "0123456789+-.eEtruefalsn" ++ [0], isMark b = false ∧ b ≠ 34 := by decide
  refine hall c (List.mem_append.2 ?_)
  rw [isTokenChar, Bool.or_eq_true] at h
  rcases h with h | h
  · exact .inl (List.contains_iff_mem.1 h)
  · exact .inr (List.mem_singleton.2 (eq_of_beq h))

theorem isTokenChar_eq_false {c : UInt8} (h : isWs c = true ∨ isMark c = true) :
    isTokenChar c = false := by
  rcases h with h | h
  · have hws : c = 0x20 ∨ c = 0x09 ∨ c = 0x0A ∨ c = 0x0D := by simpa [isWs, or_assoc] using h
    rcases hws with rfl | rfl | rfl | rfl <;> decide
  · rcases isMark_cases h with rfl | rfl | rfl | rfl | rfl | rfl <;> decide

/-- A run of token characters in front of a bracket, a comma or the like is one atom. -/
theorem dropWhile_atom {b : UInt8} {v : Json} (h : Json.atom (b :: s) = some (v, r))
    (hr : Bounded r) : s.dropWhile isTokenChar = r := by
  obtain ⟨-, p, rfl, hp⟩ := atom_head h
  have hstop : r.dropWhile isTokenChar = r := by
    cases r with
    | nil => rfl
    | cons c r =>
      exact List.dropWhile_cons_of_neg (by simp [isTokenChar_eq_false (hr c rfl)])
  rw [List.dropWhile_append_of_pos fun b hb => isTokenChar_of_isAtomByte (hp b hb), hstop]

/-! ## Tokens the scanner goes over -/

theorem mark_taken {b : UInt8} (ht : Lexes s ts) (hs : sWs s = b :: r) (hb : b = 44 ∨ b = 58) :
    ∃ us, ts = .mark b :: us ∧ Leaves false ts r us := by
  obtain ⟨us, rfl, hus⟩ := ht.of_mark hs (by rcases hb with rfl | rfl <;> decide)
  refine ⟨us, rfl, leaves_flat ?_ hus⟩
  rcases hb with rfl | rfl
  · exact .inr (.inr (.inl rfl))
  · exact .inr (.inr (.inr rfl))

theorem close_taken (isObject : Bool) (ht : Lexes s ts) (hs : sWs s = closing isObject :: r) :
    ∃ us, ts = .mark (closing isObject) :: us ∧ Leaves true ts r us := by
  have hclose : closing isObject = 93 ∨ closing isObject = 125 := by cases isObject <;> decide
  obtain ⟨us, rfl, hus⟩ := ht.of_mark hs (by cases isObject <;> decide)
  exact ⟨us, rfl, leaves_close hclose hus⟩

theorem string_taken {s' : Bytes} (ht : Lexes s ts) (hs : sWs s = chr '"' :: s')
    (hskip : skipStringBody s' = some r) :
    ∃ t us, Json.string s' = some (t, r) ∧ Leaves false ts r us := by
  obtain ⟨t, r', us, rfl, hstring, hus⟩ := ht.of_text hs
  obtain ⟨us', hunits, -⟩ := string_eq_some hstring
  obtain rfl : r' = r := Option.some.inj ((skipStringBody_of_units hunits).symm.trans hskip)
  exact ⟨t, us, hstring, leaves_flat (.inl rfl) hus⟩

theorem string_value {s' : Bytes} (ht : Lexes s ts) (hs : sWs s = chr '"' :: s')
    (hskip : skipStringBody s' = some r) :
    ∃ v us, Json.Reads (.value v) s r ∧ Leaves false ts r us := by
  obtain ⟨t, us, hstring, hus⟩ := string_taken ht hs hskip
  exact ⟨.str t, us, .str hs hstring, hus⟩

/-- The entries of an object or an array up to the closing bracket. -/
def Entries (isObject : Bool) (s r : Bytes) : Prop :=
  if isObject then ∃ ms, Json.Reads (.members ms) s r else ∃ vs, Json.Reads (.elements vs) s r

theorem skip_reads (fuel : Nat) :
    (∀ depth s r ts, skipValue fuel depth s = some r → Lexes s ts →
      ∃ v us, Json.Reads (.value v) s r ∧ Leaves false ts r us) ∧
    ∀ depth isObject s r ts, skipItems fuel depth isObject (closing isObject) s = some r →
      Lexes s ts → ∃ us, Entries isObject s r ∧ Leaves true ts r us := by
  induction fuel with
  | zero =>
    constructor
    · intro depth s r ts h
      cases h
    · intro depth isObject s r ts h
      cases h
  | succ fuel ih =>
    constructor
    · intro depth s r ts h ht
      obtain ⟨-, c, s', hws, ⟨rfl, hstr⟩ | ⟨isObject, rfl, hbody⟩ | ⟨htoken, rfl⟩⟩ :=
        skipValue_cases h
      · exact string_value ht hws hstr
      · -- an object or an array
        have hopen : opening isObject = 91 ∨ opening isObject = 123 := by cases isObject <;> decide
        obtain ⟨us, rfl, hus⟩ := ht.of_mark hws (by cases isObject <;> decide)
        rcases hbody with hempty | hitems
        · obtain ⟨vs, -, hleaves⟩ := close_taken _ hus hempty
          cases isObject with
          | false => exact ⟨_, vs, .arrNil hws hempty, hleaves.opened hopen⟩
          | true => exact ⟨_, vs, .objNil hws hempty, hleaves.opened hopen⟩
        · obtain ⟨vs, hentries, hleaves⟩ := ih.2 _ _ _ _ _ hitems hus.skip
          cases isObject with
          | false =>
            obtain ⟨xs, hxs⟩ := hentries
            exact ⟨.arr xs, vs, .arr hws (hxs.congr (skipWs_skipWs s').symm), hleaves.opened hopen⟩
          | true =>
            obtain ⟨ms, hms⟩ := hentries
            exact ⟨.obj ms, vs, .obj hws (hms.congr (skipWs_skipWs s').symm), hleaves.opened hopen⟩
      · -- a token
        obtain ⟨hmark, hquote⟩ := isTokenChar_other htoken
        obtain ⟨v, r', us, rfl, hv, hr, hus⟩ := ht.of_atom hws hmark hquote
        rw [dropWhile_atom hv hr]
        exact ⟨v, us, .atom hws hv, leaves_flat (.inr (.inl rfl)) hus⟩
    · intro depth isObject s r ts h ht
      obtain ⟨s1, s2, c, s3, hkey, hvalue, hws, hnext⟩ := skipItems_cases h
      cases isObject with
      | false =>
        obtain rfl : s1 = s := hkey
        obtain ⟨v, us, hv, hleaves⟩ := ih.1 _ _ _ _ hvalue ht
        obtain ⟨rfl, hmore⟩ | ⟨-, rfl, rfl⟩ := hnext
        · obtain ⟨vs, -, hcomma⟩ := mark_taken hleaves.lexes hws (.inl rfl)
          obtain ⟨ws, ⟨xs, hxs⟩, hrest⟩ := ih.2 _ _ _ _ _ hmore hcomma.lexes
          exact ⟨ws, ⟨v :: xs, .more hv hws hxs⟩, hleaves.trans (hcomma.trans hrest)⟩
        · obtain ⟨vs, -, hclose⟩ := close_taken _ hleaves.lexes hws
          exact ⟨vs, ⟨[v], .last hv hws⟩, hleaves.trans hclose⟩
      | true =>
        obtain ⟨s0, hskip, hcolon⟩ := hkey
        obtain ⟨s', hquote, hbody⟩ := sSkipString_cases hskip
        obtain ⟨k, us0, hk, hleaves0⟩ := string_taken ht hquote hbody
        obtain ⟨us1, -, hleaves1⟩ := mark_taken hleaves0.lexes hcolon (.inr rfl)
        obtain ⟨v, us, hv, hleaves⟩ := ih.1 _ _ _ _ hvalue hleaves1.lexes
        have hleaves := hleaves0.trans (hleaves1.trans hleaves)
        obtain ⟨rfl, hmore⟩ | ⟨-, rfl, rfl⟩ := hnext
        · obtain ⟨vs, -, hcomma⟩ := mark_taken hleaves.lexes hws (.inl rfl)
          obtain ⟨ws, ⟨ms, hms⟩, hrest⟩ := ih.2 _ _ _ _ _ hmore hcomma.lexes
          exact ⟨ws, ⟨(k, v) :: ms, .moreMembers hquote hk hcolon hv hws hms⟩,
            hleaves.trans (hcomma.trans hrest)⟩
        · obtain ⟨vs, -, hclose⟩ := close_taken _ hleaves.lexes hws
          exact ⟨vs, ⟨[(k, v)], .lastMember hquote hk hcolon hv hws⟩, hleaves.trans hclose⟩

theorem sSkipValue_reads (h : sSkipValue s = some r) (ht : Lexes s ts) :
    ∃ v us, Json.Reads (.value v) s r ∧ Leaves false ts r us := (skip_reads _).1 _ _ _ _ h ht

/-! ## The loops of the extractor -/

/-- A key and its colon. -/
theorem memberKey_taken {cap : Nat} {key : Bytes} (ht : Lexes s ts)
    (h : memberKey cap (sWs s) = some (key, r)) :
    ∃ s0 s1 s2 k us, skipWs s = 34 :: s0 ∧ Json.string s0 = some (k, s1) ∧ skipWs s1 = 58 :: s2 ∧
      r = skipWs s2 ∧ Leaves false ts r us := by
  obtain ⟨k', s0, s1, s2, hws, hdec, hcolon, -, rfl⟩ := memberKey_cases h
  obtain ⟨k, us0, hk, hleaves0⟩ := string_taken ht hws (skipStringBody_of_decode hdec)
  obtain ⟨us, -, hleaves⟩ := mark_taken hleaves0.lexes hcolon (.inr rfl)
  exact ⟨s0, s1, s2, k, us, hws, hk, hcolon, rfl, (hleaves0.trans hleaves).skip⟩

/-- The members of an object up to its brace; the scanner takes none, too. -/
def MembersTo (s r : Bytes) : Prop := skipWs s = 125 :: r ∨ ∃ ms, Json.Reads (.members ms) s r

theorem MembersTo.value {s0 : Bytes} (h : MembersTo s r) (hs : skipWs s0 = 123 :: s) :
    ∃ ms, Json.Reads (.value (.obj ms)) s0 r := by
  obtain hclose | ⟨ms, hms⟩ := h
  · exact ⟨[], .objNil hs hclose⟩
  · exact ⟨ms, .obj hs hms⟩

/-- A member, a comma and the members behind it. A brace behind the comma is what the scanner lets
through and the tokens exclude. -/
theorem MembersTo.more {s0 s1 s2 s3 s4 s5 k : Bytes} {v : Json} {us : List Token}
    (h : MembersTo s5 r) (hs : skipWs s0 = 34 :: s1) (hk : Json.string s1 = some (k, s2))
    (hcolon : skipWs s2 = 58 :: s3) (hv : Json.Reads (.value v) s3 s4) (hc : skipWs s4 = 44 :: s5)
    (ht : Lexes s5 us) (hchain : (Token.mark 44 :: us).IsChain MayFollow) : MembersTo s0 r := by
  obtain hclose | ⟨ms, hms⟩ := h
  · obtain ⟨vs, rfl, -⟩ := ht.of_mark hclose (by decide)
    exact absurd ⟨rfl, rfl⟩ (List.isChain_cons_cons.1 hchain).1
  · exact .inr ⟨(k, v) :: ms, .moreMembers hs hk hcolon hv hc hms⟩

theorem blockMember_reads {isText isText' : Bool} {textAt textAt' : Option Bytes} {key : Bytes}
    (ht : Lexes (sWs s) ts)
      (h : blockMember isText textAt key (sWs s) = some (isText', textAt', r)) :
    ∃ v us, Json.Reads (.value v) s r ∧ Leaves false ts r us := by
  have hcongr : ∀ {v us}, Json.Reads (.value v) (sWs s) r ∧ Leaves false ts r us →
      Json.Reads (.value v) s r ∧ Leaves false ts r us := fun h =>
    ⟨h.1.congr (skipWs_skipWs s).symm, h.2⟩
  have hquote : ∀ {s'}, sWs s = chr '"' :: s' → sWs (sWs s) = chr '"' :: s' := fun h =>
    (skipWs_skipWs s).trans h
  unfold blockMember at h
  split at h
  · obtain ⟨⟨tv, s1⟩, hdec, heq⟩ := Option.map_eq_some_iff.1 h
    cases heq
    obtain ⟨s0, hs0, hbody⟩ := sDecodeString_cases hdec
    obtain ⟨v, us, hv⟩ := string_value ht (hquote hs0) (skipStringBody_of_decode hbody)
    exact ⟨v, us, hcongr hv⟩
  split at h
  · obtain ⟨s1, hskip, heq⟩ := Option.map_eq_some_iff.1 h
    cases heq
    obtain ⟨s0, hs0, hbody⟩ := sSkipString_cases hskip
    obtain ⟨v, us, hv⟩ := string_value ht (hquote hs0) hbody
    exact ⟨v, us, hcongr hv⟩
  · obtain ⟨s1, hskip, heq⟩ := Option.map_eq_some_iff.1 h
    cases heq
    obtain ⟨v, us, hv⟩ := sSkipValue_reads hskip ht
    exact ⟨v, us, hcongr hv⟩

theorem blockLoop_reads {fuel : Nat} {isText isText' : Bool} {textAt textAt' : Option Bytes}
    (ht : Lexes s ts) (hchain : ts.IsChain MayFollow)
    (h : blockLoop fuel isText textAt s = some (isText', textAt', r)) :
    MembersTo s r ∧ ∃ us, Leaves true ts r us := by
  induction fuel generalizing isText textAt s ts with
  | zero => cases h
  | succ fuel ih =>
    obtain ⟨s1, hclose, heq⟩ |
      ⟨key, s1, isText1, textAt1, s2, c, s3, -, hkey, hmember, hws, hnext⟩ :=
      blockLoop_cases h
    · cases heq
      obtain ⟨us, -, hus⟩ := close_taken true ht hclose
      exact ⟨.inl hclose, us, hus⟩
    · obtain ⟨a, b, p, k, us1, hquote, hk, hcolon, rfl, hleaves1⟩ := memberKey_taken ht hkey
      obtain ⟨v, us2, hv, hleaves2⟩ := blockMember_reads hleaves1.lexes hmember
      have hleaves := hleaves1.trans hleaves2
      obtain ⟨rfl, hmore⟩ | ⟨-, rfl, heq⟩ := hnext
      · obtain ⟨us3, rfl, hcomma⟩ := mark_taken hleaves.lexes hws (.inl rfl)
        obtain ⟨hms, us, hus⟩ := ih hcomma.lexes ((hleaves.trans hcomma).chain hchain) hmore
        exact ⟨hms.more hquote hk hcolon hv hws hcomma.lexes (hleaves.chain hchain), us,
          hleaves.trans (hcomma.trans hus)⟩
      · cases heq
        obtain ⟨us, -, hus⟩ := close_taken true hleaves.lexes hws
        exact ⟨.inr ⟨[(k, v)], .lastMember hquote hk hcolon hv hws⟩, us, hleaves.trans hus⟩

theorem contentLoop_reads {cap fuel : Nat} {text t : Bytes} (ht : Lexes s ts)
    (hchain : ts.IsChain MayFollow) (h : contentLoop cap fuel text s = some (t, r)) :
    (∃ vs, Json.Reads (.elements vs) s r) ∧ ∃ us, Leaves true ts r us := by
  induction fuel generalizing text s ts with
  | zero => cases h
  | succ fuel ih =>
    obtain ⟨s0, isText, textAt, s1, text1, c, s2, hopen, hblock, -, hws, hnext⟩ :=
      contentLoop_cases h
    obtain ⟨us0, rfl, hus0⟩ := ht.of_mark hopen (by decide)
    obtain ⟨hms, us1, hleaves1⟩ := blockLoop_reads hus0 hchain.tail hblock
    obtain ⟨ms, hv⟩ := hms.value hopen
    have hleaves := hleaves1.opened (b := chr '{') (.inr rfl)
    obtain ⟨rfl, hmore⟩ | ⟨-, rfl, heq⟩ := hnext
    · obtain ⟨us2, -, hcomma⟩ := mark_taken hleaves.lexes hws (.inl rfl)
      have hbehind := hleaves.trans hcomma
      obtain ⟨⟨vs, hvs⟩, us, hus⟩ := ih hcomma.lexes (hbehind.chain hchain) hmore
      exact ⟨⟨.obj ms :: vs, .more hv hws hvs⟩, us, hbehind.trans hus⟩
    · cases heq
      obtain ⟨us, -, hus⟩ := close_taken false hleaves.lexes hws
      exact ⟨⟨[.obj ms], .last hv hws⟩, us, hleaves.trans hus⟩

theorem topMember_reads {cap : Nat} {found found' : Bool} {text t key : Bytes}
    (ht : Lexes (sWs s) ts) (hchain : ts.IsChain MayFollow)
    (h : topMember cap found text key (sWs s) = some (found', t, r)) :
    ∃ v us, Json.Reads (.value v) s r ∧ Leaves false ts r us := by
  unfold topMember at h
  split at h
  · split at h
    · cases h
    next c s0 hs0 =>
    split at h
    · cases h
    next hopen =>
    rw [ne_eq, not_not] at hopen
    subst hopen
    obtain ⟨us0, rfl, hus0⟩ := ht.of_mark ((skipWs_skipWs s).trans hs0) (by decide)
    split at h
    · next hclose =>
      cases h
      have hclose := head?_eq_cons hclose
      obtain ⟨us, -, hus⟩ := close_taken false hus0 hclose
      exact ⟨.arr [], us, .arrNil hs0 hclose, hus.opened (.inl rfl)⟩
    · obtain ⟨⟨t1, s1⟩, hloop, heq⟩ := Option.map_eq_some_iff.1 h
      cases heq
      obtain ⟨⟨vs, hvs⟩, us, hus⟩ := contentLoop_reads hus0.skip hchain.tail hloop
      exact ⟨.arr vs, us, .arr hs0 (hvs.congr (skipWs_skipWs s0).symm), hus.opened (.inl rfl)⟩
  · obtain ⟨s1, hskip, heq⟩ := Option.map_eq_some_iff.1 h
    cases heq
    obtain ⟨v, us, hv, hus⟩ := sSkipValue_reads hskip ht
    exact ⟨v, us, hv.congr (skipWs_skipWs s).symm, hus⟩

theorem contentTextLoop_reads {cap fuel : Nat} {found : Bool} {text : Bytes} {res : Bool × Bytes}
    (ht : Lexes s ts) (hchain : ts.IsChain MayFollow) (hend : afterClose 1 ts = [])
    (h : contentTextLoop cap fuel found text s = some res) :
    ∃ r, MembersTo s r ∧ skipWs r = [] := by
  -- nothing stands behind the brace that closes the body
  have hlast : ∀ {s r ts}, Lexes s ts → afterClose 1 ts = [] → sWs s = chr '}' :: r →
      skipWs r = [] := by
    intro s r ts ht hend hclose
    obtain ⟨us, rfl, hus⟩ := ht.of_mark hclose (by decide)
    obtain rfl : us = [] := ((afterClose_close (.inr rfl) us).1.symm).trans hend
    exact hus.end_of_nil
  induction fuel generalizing found text s ts with
  | zero => cases h
  | succ fuel ih =>
    obtain ⟨s1, hclose, -⟩ | ⟨key, s1, found1, text1, s2, c, s3, -, hkey, hmember, hws, hnext⟩ :=
      contentTextLoop_cases h
    · exact ⟨s1, .inl hclose, hlast ht hend hclose⟩
    · obtain ⟨a, b, p, k, us1, hquote, hk, hcolon, rfl, hleaves1⟩ := memberKey_taken ht hkey
      obtain ⟨v, us2, hv, hleaves2⟩ :=
        topMember_reads hleaves1.lexes (hleaves1.chain hchain) hmember
      have hleaves := hleaves1.trans hleaves2
      have hdepth := (hleaves.depth 1 (Nat.le_refl 1)).symm.trans hend
      obtain ⟨rfl, hmore⟩ | ⟨-, rfl, -⟩ := hnext
      · obtain ⟨us3, rfl, hcomma⟩ := mark_taken hleaves.lexes hws (.inl rfl)
        have hchain2 := hleaves.chain hchain
        obtain ⟨r, hms, hr⟩ := ih hcomma.lexes hchain2.tail hdepth hmore
        exact ⟨r, hms.more hquote hk hcolon hv hws hcomma.lexes hchain2, hr⟩
      · exact ⟨s3, .inr ⟨[(k, v)], .lastMember hquote hk hcolon hv hws⟩,
          hlast hleaves.lexes hdepth hws⟩

/-- **An accepted body is a JSON object exactly when its tokens are in order.** -/
theorem accepted_iff {cap : Nat} {text : Bytes} (h : gwjContentText body cap = some text) :
    (∃ ms, Json.decode body = some (.obj ms)) ↔ Tidy body := by
  constructor
  · rintro ⟨ms, hms⟩
    exact tidy_of_decode hms
  · rintro ⟨hutf8, ts, ht, hchain, hend⟩
    obtain ⟨s, hopen, hloop⟩ := gwjContentText_cases h
    obtain ⟨us, rfl, hus⟩ := ht.of_mark hopen (by decide)
    rw [afterClose_open (b := chr '{') (.inr rfl)] at hend
    obtain ⟨r, hms, hr⟩ := contentTextLoop_reads hus hchain.tail hend hloop
    obtain ⟨ms, hread⟩ := hms.value hopen
    exact ⟨ms, decode_iff.2 ⟨hutf8, r, hread, hr⟩⟩

/-! ## Completions -/

/-- **A completion is read from a JSON object exactly when the tokens of the body are in order**:
its strings, numbers and literals are those of the RFC, no comma stands in front of a closing brace
and nothing stands behind the object. A 200 body that is not accepted is `INVALID_OUTPUT`. -/
theorem completion_iff_tidy (body : Bytes) :
    (∀ cap text, gwjContentText body cap = some text →
      ((∃ ms, Json.decode body = some (.obj ms)) ↔ Tidy body)) ∧
    ∀ cfg secret res, res.outcome = .ok → res.body.getD [] = body →
      (outcomeOf cfg secret res).Yields fun o =>
        o = .failed .invalidOutput ∨ (o.state = .complete ∨ o.state = .truncated) ∧
          ((∃ ms, Json.decode body = some (.obj ms)) ↔ Tidy body) := by
  refine ⟨fun cap text => accepted_iff, fun cfg secret res hres hbody => ?_⟩
  subst hbody
  refine (outcomeOf_yields cfg secret res).mono fun o ho => ?_
  rw [ho]
  unfold outcomeFrom
  rw [hres]
  dsimp only
  cases htext : extractText (res.body.getD []) with
  | none => exact .inl rfl
  | some x =>
    obtain ⟨text, hcontent, -⟩ := Option.bind_eq_some_iff.1 htext
    refine .inr ⟨?_, accepted_iff hcontent⟩
    dsimp only
    split
    · exact .inr rfl
    · exact .inl rfl

/-- A comma in front of the last brace. -/
def trailingBody : Bytes := ascii "\x7b\"content\":[],\"stop_reason\":\"end_turn\",\x7d"

def trailingResult : GwcResult := ⟨.ok, 200, 1, some trailingBody, .ofBytes []⟩

/-- The body with a comma too many is no JSON, and its completion is `COMPLETE`. -/
theorem trailing_comma_accepted :
    (¬ ∀ body cap text, gwjContentText body cap = some text →
      ∃ ms, Json.decode body = some (.obj ms)) ∧
    ¬ ∀ res, res.outcome = .ok → (∀ ms, Json.decode (res.body.getD []) ≠ some (.obj ms)) →
      outcomeFrom res = .failed .invalidOutput := by
  have hnone : Json.decode trailingBody = none := by decide +kernel
  constructor
  · intro hall
    have htext : gwjContentText trailingBody 64 = some [] := by decide +kernel
    obtain ⟨ms, hms⟩ := hall trailingBody 64 [] htext
    rw [hnone] at hms
    cases hms
  · intro hall
    have hfailed := hall trailingResult rfl fun ms hms => by
      rw [show trailingResult.body.getD [] = trailingBody from rfl, hnone] at hms
      cases hms
    have hstate : (outcomeFrom trailingResult).state = .complete := by decide +kernel
    rw [hfailed] at hstate
    cases hstate

/-- A response without blocks. -/
def emptyBody : Bytes :=
    Json.render (.obj [(ascii "content", .arr []), (ascii "stop_reason", .str [])])

theorem completion_iff_tidy_samples :
    (gwjContentText emptyBody 64 = some [] ∧ Tidy emptyBody) ∧
    (gwjContentText trailingBody 64 = some [] ∧ ¬ Tidy trailingBody) ∧
    (outcomeOf (gwConfigDefaults []) [] trailingResult).Yields fun o =>
      o = .failed .invalidOutput ∨ (o.state = .complete ∨ o.state = .truncated) ∧
        ((∃ ms, Json.decode trailingBody = some (.obj ms)) ↔ Tidy trailingBody) := by
  have hempty : gwjContentText emptyBody 64 = some [] := by decide +kernel
  have htrailing : gwjContentText trailingBody 64 = some [] := by decide +kernel
  have hplain : Plain (.obj [(ascii "content", .arr []), (ascii "stop_reason", .str [])]) :=
    ⟨.of_ascii (by decide), trivial, .of_ascii (by decide), .nil, trivial⟩
  have hnone : Json.decode trailingBody = none := by decide +kernel
  refine ⟨⟨hempty, ((completion_iff_tidy emptyBody).1 _ _ hempty).1 ⟨_, decode_render hplain⟩⟩,
    ⟨htrailing, fun htidy => ?_⟩, (completion_iff_tidy trailingBody).2 _ _ trailingResult rfl rfl⟩
  obtain ⟨ms, hms⟩ := ((completion_iff_tidy trailingBody).1 _ _ htrailing).2 htidy
  rw [hnone] at hms
  cases hms

end AxiomaOracle
