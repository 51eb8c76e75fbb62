import AxiomaOracle.Verify.ConfigLines

/-!
# Configured identifiers

The loader checks `model_id` and `oracle_id` with the check of admission, and keeps them a byte
shorter. So a file with an identifier loads exactly when the identifier is admitted and has 255
bytes at most, as long as its line fits the buffer of the loader (`identifier_loads_iff`). A longer
line loads when each of its pieces passes for a line.
-/

namespace AxiomaOracle

open Lib

variable {k : ConfigKey} {v pre post : Bytes}

/-! ## A line of a key -/

theorem chomp_append {b : UInt8} (hb : b ≠ chr '\n' ∧ b ≠ chr '\r') (s t : Bytes) :
    C.chomp (s ++ b :: t) = s ++ b :: C.chomp t := by
  have hstop : (b == chr '\n' || b == chr '\r') = false := by simp [hb.1, hb.2]
  unfold C.chomp
  rw [List.reverse_append, List.reverse_cons, List.append_assoc, List.dropWhile_append]
  split
  · next hnil =>
    rw [List.isEmpty_iff.1 hnil, List.singleton_append,
      List.dropWhile_cons_of_neg (by simp [hstop])]
    simp
  · simp

theorem name_head (k : ConfigKey) : ∃ b s, k.name = b :: s ∧ isBlank b = false ∧ b ≠ chr '#' := by
  cases k <;> exact ⟨_, _, rfl, by decide, by decide⟩

theorem name_no_eq (k : ConfigKey) : ∀ b ∈ k.name, (b != chr '=') = true := by
  cases k <;> decide

theorem name_trimmed (k : ConfigKey) : (k.name.reverse.dropWhile isBlank).reverse = k.name := by
  cases k <;> decide

theorem name_length_le (k : ConfigKey) : k.name.length ≤ 20 := by
  cases k <;> decide

theorem lineText_key (k : ConfigKey) (w : Bytes) :
    lineText (k.name ++ chr '=' :: w) = k.name ++ chr '=' :: C.chomp w := by
  obtain ⟨b, s, hname, hb, -⟩ := name_head k
  rw [lineText, chomp_append (by decide), hname, List.cons_append,
    List.dropWhile_cons_of_neg (by simp [hb])]

theorem not_silent_key (k : ConfigKey) (w : Bytes) : ¬ Silent (k.name ++ chr '=' :: w) := by
  obtain ⟨b, s, hname, -, hhash⟩ := name_head k
  rw [Silent, lineText_key, hname]
  rintro (h | h)
  · cases h
  · exact hhash (Option.some.inj h)

/-- A line that starts with a key sets that key, if any. -/
theorem setting_line (k : ConfigKey) (w : Bytes) :
    setting k (k.name ++ chr '=' :: w) = k.parse ((C.chomp w).dropWhile isBlank) ∧
    ∀ k', k' ≠ k → setting k' (k.name ++ chr '=' :: w) = none := by
  have htext := lineText_key k w
  have hkey : lineKey (k.name ++ chr '=' :: w) = k.name := by
    rw [lineKey, htext, List.takeWhile_append_of_pos (name_no_eq k),
      List.takeWhile_cons_of_neg (by simp), List.append_nil, name_trimmed]
  have hvalue : lineValue (k.name ++ chr '=' :: w) = (C.chomp w).dropWhile isBlank := by
    rw [lineValue, htext, List.dropWhile_append_of_pos (name_no_eq k),
      List.dropWhile_cons_of_neg (by simp), List.drop_one, List.tail_cons]
  have hmem : chr '=' ∈ lineText (k.name ++ chr '=' :: w) := by
    rw [htext]
    exact List.mem_append_right _ List.mem_cons_self
  refine ⟨?_, fun k' hk => if_pos (.inr (.inr fun h => hk ?_))⟩
  · rw [setting, if_neg, hvalue]
    rw [not_or, not_or, not_not, not_not]
    exact ⟨not_silent_key k w, hmem, hkey⟩
  · exact ConfigKey.name_injective (h.symm.trans hkey)

/-- Such a line is acceptable when it sets its key. -/
theorem acceptable_key_iff (k : ConfigKey) (w : Bytes) :
    Acceptable (k.name ++ chr '=' :: w) ↔ (setting k (k.name ++ chr '=' :: w)).isSome := by
  constructor
  · rintro (hs | ⟨k', hk'⟩)
    · exact absurd hs (not_silent_key k w)
    · by_cases hkk : k' = k
      · exact hkk ▸ hk'
      · rw [(setting_line k w).2 k' hkk] at hk'
        cases hk'
  · exact fun h => .inr ⟨k, h⟩

/-- A value as it can stand on a line: the loader strips nothing of it. -/
structure LineValue (v : Bytes) : Prop where
  nul : (0 : UInt8) ∉ v
  newline : chr '\n' ∉ v
  last : v.getLast? ≠ some (chr '\r')
  head : ∀ b ∈ v.head?, isBlank b = false

theorem LineValue.stripped (h : LineValue v) {e : Bytes} (he : e = [] ∨ e = [chr '\n']) :
    (C.chomp (v ++ e)).dropWhile isBlank = v := by
  have hlast : ∀ b ∈ v.getLast?, b ≠ chr '\n' ∧ b ≠ chr '\r' := by
    intro b hb
    refine ⟨fun hn => h.newline (hn ▸ List.mem_of_getLast? hb), fun hr => h.last (hr ▸ hb)⟩
  have hchomp : C.chomp (v ++ e) = v := by
    rcases he with rfl | rfl
    · rw [List.append_nil, C.chomp_eq_self hlast]
    · exact C.chomp_newline hlast
  rw [hchomp]
  cases hv : v with
  | nil => rfl
  | cons b s =>
    rw [List.dropWhile_cons_of_neg]
    rw [h.head b (by rw [hv]; rfl)]
    exact Bool.false_ne_true

/-! ## A line among others -/

/-- The line `k=v`, with its line feed unless it ends the file. -/
def keyLine (k : ConfigKey) (v post : Bytes) : Bytes := k.name ++ chr '=' :: (v ++ post.take 1)

/-- A file with the line `k=v`. -/
def withLine (k : ConfigKey) (pre v post : Bytes) : Bytes :=
  pre ++ (k.name ++ chr '=' :: v) ++ post

/-- The pieces in which the loader reads lines. -/
def pieces (s : Bytes) : List Bytes := (lines s).flatMap (chunks 1023)

/-- What stands around the line of a key: complete lines, among them the required ones, and none
that sets the key again. -/
structure Around (k : ConfigKey) (pre post : Bytes) : Prop where
  nulFree : (0 : UInt8) ∉ pre ∧ (0 : UInt8) ∉ post
  before : pre = [] ∨ pre.getLast? = some (chr '\n')
  after : post = [] ∨ post.head? = some (chr '\n')
  acceptable : ∀ l ∈ pieces pre ++ pieces (post.drop 1), Acceptable l
  required : ∀ r ∈ ConfigKey.required, r ≠ k →
    ∃ l ∈ pieces pre ++ pieces (post.drop 1), (setting r l).isSome
  last : ∀ l ∈ pieces (post.drop 1), setting k l = none

theorem withLine_nulFree (hv : LineValue v) (h : Around k pre post) :
    (0 : UInt8) ∉ withLine k pre v post := by
  unfold withLine
  simp only [List.mem_append, List.mem_cons, not_or]
  exact ⟨⟨h.nulFree.1, by cases k <;> decide, by decide, hv.nul⟩, h.nulFree.2⟩

theorem pieces_withLine (hv : LineValue v) (h : Around k pre post) :
    pieces (withLine k pre v post) =
      pieces pre ++ (chunks 1023 (keyLine k v post) ++ pieces (post.drop 1)) := by
  have hname : chr '\n' ∉ k.name ++ chr '=' :: v := by
    rw [List.mem_append, List.mem_cons, not_or, not_or]
    exact ⟨by cases k <;> decide, by decide, hv.newline⟩
  have hlines : lines (withLine k pre v post) =
      lines pre ++ (keyLine k v post :: lines (post.drop 1)) := by
    rw [withLine, List.append_assoc, lines_append h.before]
    rcases h.after with rfl | hlf
    · rw [List.append_nil, lines_last (by simp) hname]
      simp [keyLine, lines]
    · obtain ⟨rest, rfl⟩ : ∃ rest, post = chr '\n' :: rest := by
        cases post with
        | nil => cases hlf
        | cons b rest => exact ⟨rest, by rw [Option.some.inj hlf]⟩
      rw [lines_line hname]
      simp [keyLine]
  rw [pieces, hlines, List.flatMap_append, List.flatMap_cons]
  rfl

/-- The first piece of the line starts with the key. -/
theorem chunks_keyLine (k : ConfigKey) (v post : Bytes) :
    ∃ cs, chunks 1023 (keyLine k v post) =
      (k.name ++ chr '=' :: (v ++ post.take 1).take (1022 - k.name.length)) :: cs := by
  have hname := name_length_le k
  by_cases hlen : (keyLine k v post).length ≤ 1023
  · have hwhole : (v ++ post.take 1).take (1022 - k.name.length) = v ++ post.take 1 := by
      apply List.take_of_length_le
      rw [keyLine, List.length_append, List.length_cons] at hlen
      omega
    rw [hwhole]
    exact ⟨[], chunks_short (List.append_ne_nil_of_right_ne_nil _ (by simp)) hlen⟩
  · obtain ⟨n, hn⟩ : ∃ n, 1023 = k.name.length + (n + 1) :=
      ⟨1022 - k.name.length, by omega⟩
    have htake : (keyLine k v post).take 1023 =
        k.name ++ chr '=' :: (v ++ post.take 1).take n := by
      rw [hn, keyLine, List.take_length_add_append, List.take_succ_cons]
    rw [chunks_long (by decide) (Nat.lt_of_not_le hlen), htake,
      show 1022 - k.name.length = n by omega]
    exact ⟨_, rfl⟩

/-- **A file with the line loads** when the pieces of the line are acceptable. -/
theorem withLine_loads_iff (hv : LineValue v) (h : Around k pre post)
    (hsize : (withLine k pre v post).length ≤ gwConfigMax) :
    (∃ cfg, gwConfigLoad (withLine k pre v post) = .ok cfg) ↔
      ∀ c ∈ chunks 1023 (keyLine k v post), Acceptable c := by
  have hnul := withLine_nulFree hv h
  rw [(gwConfigLoad_iff hnul hsize).1]
  change Complete (pieces _) ↔ _
  rw [pieces_withLine hv h]
  constructor
  · exact fun hall c hc => hall.1 c (List.mem_append_right _ (List.mem_append_left _ hc))
  · intro hchunks
    refine ⟨fun l hl => ?_, fun r hr => ?_⟩
    · rcases List.mem_append.1 hl with hl | hl
      · exact h.acceptable l (List.mem_append_left _ hl)
      · rcases List.mem_append.1 hl with hl | hl
        · exact hchunks l hl
        · exact h.acceptable l (List.mem_append_right _ hl)
    · by_cases hk : r = k
      · obtain ⟨cs, hcs⟩ := chunks_keyLine k v post
        rw [hcs] at hchunks ⊢
        refine ⟨_, List.mem_append_right _ (List.mem_append_left _ List.mem_cons_self), ?_⟩
        rw [hk]
        exact (acceptable_key_iff k _).1 (hchunks _ List.mem_cons_self)
      · obtain ⟨l, hl, hset⟩ := h.required r hr hk
        refine ⟨l, ?_, hset⟩
        rcases List.mem_append.1 hl with hl | hl
        · exact List.mem_append_left _ hl
        · exact List.mem_append_right _ (List.mem_append_right _ hl)

/-- **A line that fits** is read as it stands. -/
theorem withLine_whole (hv : LineValue v) (h : Around k pre post)
    (hsize : (withLine k pre v post).length ≤ gwConfigMax)
    (hlen : (keyLine k v post).length ≤ 1023) :
    ((∃ cfg, gwConfigLoad (withLine k pre v post) = .ok cfg) ↔ (k.parse v).isSome) ∧
    ∀ cfg, gwConfigLoad (withLine k pre v post) = .ok cfg → k.parse v = some (k.get cfg) := by
  have hset : setting k (keyLine k v post) = k.parse v := by
    have he : post.take 1 = [] ∨ post.take 1 = [chr '\n'] := by
      rcases h.after with rfl | hlf
      · exact .inl rfl
      · cases post with
        | nil => exact .inl rfl
        | cons b rest => exact .inr (by rw [← Option.some.inj hlf]; rfl)
    rw [keyLine, (setting_line k _).1, hv.stripped he]
  have hone : chunks 1023 (keyLine k v post) = [keyLine k v post] :=
    chunks_short (List.append_ne_nil_of_right_ne_nil _ (by simp)) hlen
  have hloads : (∃ cfg, gwConfigLoad (withLine k pre v post) = .ok cfg) ↔ (k.parse v).isSome := by
    rw [withLine_loads_iff hv h hsize, hone, List.forall_mem_singleton, ← hset]
    exact acceptable_key_iff k _
  refine ⟨hloads, fun cfg hcfg => ?_⟩
  have hnul := withLine_nulFree hv h
  obtain ⟨u, hu⟩ := Option.isSome_iff_exists.1 (hloads.1 ⟨cfg, hcfg⟩)
  have hlast : lastValue k (pieces (withLine k pre v post)) = some u := by
    have hrest : (pieces (post.drop 1)).filterMap (setting k) = [] :=
      List.filterMap_eq_nil_iff.2 h.last
    rw [pieces_withLine hv h, hone, lastValue, List.filterMap_append, List.filterMap_append, hrest,
      List.append_nil, List.filterMap_cons_some (hset.trans hu), List.filterMap_nil,
      List.getLast?_concat]
  have hget := ((gwConfigLoad_iff hnul hsize).2 cfg hcfg).2 k
  rw [show (lines (withLine k pre v post)).flatMap (chunks 1023) = pieces _ from rfl, hlast,
    Option.getD_some] at hget
  rw [hu, hget]

/-! ## Identifiers -/

/-- The check of the loader is the check of admission and a bound of 255 bytes. -/
theorem setId_eq (axMax : Nat) (key v : Bytes) (n : Nat) :
    (setId gwIdMax axMax key v n).toOption =
      if v.length ≤ 255 ∧ axObsIdentifierCheck (some (.ofBytes v)) axMax = .ok ()
      then some (.ofBytes v) else none := by
  unfold setId
  cases hcheck : axObsIdentifierCheck (some (.ofBytes v)) axMax with
  | error e =>
    have hno : ¬ (v.length ≤ 255 ∧ (Except.error e : Except AxError Unit) = .ok ()) := by simp
    rw [if_neg hno]
    cases e <;> rfl
  | ok u =>
    have hne : v ≠ [] := by
      rintro rfl
      unfold axObsIdentifierCheck at hcheck
      rw [show idIsWellFormed (some (.ofBytes [])) = false by decide] at hcheck
      split at hcheck <;> cases hcheck
    have hpos := List.length_pos_iff.2 hne
    dsimp only
    by_cases hlen : v.length ≤ 255
    · have hstr : setStr gwIdMax v = some (.ofBytes v) :=
        if_neg (by unfold gwIdMax; omega)
      have hroom : ¬ v.length ≥ gwIdMax := by unfold gwIdMax; omega
      rw [if_neg hroom, if_pos ⟨hlen, rfl⟩, hstr]
      rfl
    · have hroom : v.length ≥ gwIdMax := by unfold gwIdMax; omega
      have hno : ¬ (v.length ≤ 255 ∧ (Except.ok u : Except AxError Unit) = .ok ()) :=
        fun h => hlen h.1
      rw [if_pos hroom, if_neg hno]
      rfl

theorem identifierCheck_iff (s : Option CStr) (m : Nat) :
    axObsIdentifierCheck s m = .ok () ↔ IdAdmitted s m := by
  rw [← idIsWellFormed_iff]
  unfold axObsIdentifierCheck
  cases idTooLong s m <;> cases idIsWellFormed s <;> simp

/-- An input whose identifier, once it passes its check, is all that admission asks for. -/
def OtherwiseValid (S : Substrate) (size : Nat) (inp : AxObsInput) (ctx : AxAdmissionCtx)
    (f : AxL3FaultFlags) (id : Option CStr) : Prop :=
  axObsIdentifierCheck id 256 = .ok () → (axObsAdmit S size inp ctx f).ret = none

/-- A configured identifier loads as admission takes it. -/
structure LoadsAsAdmitted (file v : Bytes) (field : GwConfig → CStr)
    (id : AxObsInput → Option CStr) : Prop where
  loads : ∀ S size inp ctx f, id inp = some (.ofBytes v) →
    OtherwiseValid S size inp ctx f (id inp) →
    ((∃ cfg, gwConfigLoad file = .ok cfg) ↔
      v.length ≤ 255 ∧ (axObsAdmit S size inp ctx f).ret = none)
  value : ∀ cfg, gwConfigLoad file = .ok cfg → (field cfg).bytes = v

/-- The line fits the buffer of the loader, or one of its pieces does not pass for a line. -/
def KeptWhole (k : ConfigKey) (v post : Bytes) : Prop :=
  (keyLine k v post).length ≤ 1023 ∨ ∃ c ∈ chunks 1023 (keyLine k v post), ¬ Acceptable c

/-- The two identifiers at once: the key, its field and its place in an input. -/
theorem loadsAsAdmitted_iff {field : GwConfig → CStr} {id : AxObsInput → Option CStr}
    (hv : LineValue v) (h : Around k pre post)
    (hsize : (withLine k pre v post).length ≤ gwConfigMax)
    (hparse : (k.parse v).isSome ↔
      v.length ≤ 255 ∧ axObsIdentifierCheck (some (.ofBytes v)) 256 = .ok ())
    (hfield : ∀ cfg, k.parse v = some (k.get cfg) → field cfg = .ofBytes v)
    (hbound : ∀ file cfg, gwConfigLoad file = .ok cfg → (field cfg).bytes.length ≤ 255)
    (haccepts : ∀ S size inp ctx f, (axObsAdmit S size inp ctx f).ret = none →
      axObsIdentifierCheck (id inp) 256 = .ok ()) :
    LoadsAsAdmitted (withLine k pre v post) v field id ↔ KeptWhole k v post := by
  have hlong : 1023 < (keyLine k v post).length → 255 < v.length := by
    intro hlen
    have hname := name_length_le k
    have hlf : (post.take 1).length ≤ 1 := List.length_take_le 1 post
    rw [keyLine, List.length_append, List.length_cons, List.length_append] at hlen
    omega
  constructor
  · intro hloads
    by_contra hno
    rw [KeptWhole, not_or, Nat.not_le] at hno
    obtain ⟨cfg, hcfg⟩ := (withLine_loads_iff hv h hsize).2 fun c hc =>
      not_not.1 fun hbad => hno.2 ⟨c, hc, hbad⟩
    have hle := hbound _ cfg hcfg
    rw [hloads.value cfg hcfg] at hle
    have := hlong hno.1
    omega
  · intro hwhole
    by_cases hlen : (keyLine k v post).length ≤ 1023
    · obtain ⟨hiff, hget⟩ := withLine_whole hv h hsize hlen
      refine ⟨fun S size inp ctx f hid hvalid => ?_, fun cfg hcfg => ?_⟩
      · rw [hiff, hparse, ← hid]
        exact and_congr_right' ⟨hvalid, haccepts S size inp ctx f⟩
      · rw [hfield cfg (hget cfg hcfg), CStr.ofBytes_of_nulFree hv.nul]
    · -- a line that is cut never loads
      have hno : ¬ ∃ cfg, gwConfigLoad (withLine k pre v post) = .ok cfg := by
        rw [withLine_loads_iff hv h hsize]
        obtain ⟨c, hc, hbad⟩ := hwhole.resolve_left hlen
        exact fun hall => hbad (hall c hc)
      have hlt := hlong (Nat.lt_of_not_le hlen)
      refine ⟨fun S size inp ctx f _ _ => iff_of_false hno fun hle => ?_, fun cfg hcfg =>
        absurd ⟨cfg, hcfg⟩ hno⟩
      exact absurd hle.1 (by omega)

theorem identifierCheck_of_admitted {S : Substrate} {size : Nat} {inp : AxObsInput}
    {ctx : AxAdmissionCtx} {f : AxL3FaultFlags} (h : (axObsAdmit S size inp ctx f).ret = none) :
    axObsIdentifierCheck inp.modelId 256 = .ok () ∧
    axObsIdentifierCheck inp.oracleId 256 = .ok () := by
  obtain ⟨-, hlong, hvalid, -⟩ := axObsAdmit_checks h
  obtain ⟨hm, ho, -⟩ := (inputIsSchemaValid_iff inp).1 hvalid
  simp only [axMaxModelIdBytes, axMaxOracleIdBytes, Bool.or_eq_true, not_or,
    Bool.not_eq_true] at hlong
  exact ⟨by rw [axObsIdentifierCheck, hlong.1, hm]; rfl,
    by rw [axObsIdentifierCheck, hlong.2, ho]; rfl⟩

/-- **A configured identifier loads exactly when admission accepts it**, unless its line is cut into
pieces that all pass for lines; and no loaded identifier fails a check of admission. -/
theorem identifier_loads_iff {v : Bytes} (hv : LineValue v) :
    (∀ pre post, Around .modelId pre post → (withLine .modelId pre v post).length ≤ gwConfigMax →
      (LoadsAsAdmitted (withLine .modelId pre v post) v GwConfig.modelId AxObsInput.modelId ↔
        KeptWhole .modelId v post)) ∧
    (∀ pre post, Around .oracleId pre post →
      (withLine .oracleId pre v post).length ≤ gwConfigMax →
      (LoadsAsAdmitted (withLine .oracleId pre v post) v GwConfig.oracleId AxObsInput.oracleId ↔
        KeptWhole .oracleId v post)) ∧
    ∀ file cfg, gwConfigLoad file = .ok cfg →
      axObsIdentifierCheck (some cfg.modelId) axMaxModelIdBytes = .ok () ∧
      axObsIdentifierCheck (some cfg.oracleId) axMaxOracleIdBytes = .ok () := by
  have hmodel := setId_eq axMaxModelIdBytes (ConfigKey.name .modelId) v 0
  have horacle := setId_eq axMaxOracleIdBytes (ConfigKey.name .oracleId) v 0
  refine ⟨fun pre post h hsize => ?_, fun pre post h hsize => ?_, fun file cfg h => ?_⟩
  · refine loadsAsAdmitted_iff hv h hsize ?_ ?_ ?_ fun S size inp ctx f hret =>
      (identifierCheck_of_admitted hret).1
    · rw [ConfigKey.parse, hmodel, Option.isSome_ite]
      rfl
    · intro cfg hcfg
      rw [ConfigKey.parse, hmodel] at hcfg
      exact (Option.some_inj.1 (Option.ite_none_right_eq_some.1 hcfg).2).symm
    · intro file cfg hcfg
      obtain ⟨c, hc, -, hle, -⟩ := (gwConfigLoad_ok hcfg).named
      rwa [Option.some.inj hc]
  · refine loadsAsAdmitted_iff hv h hsize ?_ ?_ ?_ fun S size inp ctx f hret =>
      (identifierCheck_of_admitted hret).2
    · rw [ConfigKey.parse, horacle, Option.isSome_ite]
      rfl
    · intro cfg hcfg
      rw [ConfigKey.parse, horacle] at hcfg
      exact (Option.some_inj.1 (Option.ite_none_right_eq_some.1 hcfg).2).symm
    · intro file cfg hcfg
      obtain ⟨c, hc, -, hle, -⟩ := (gwConfigLoad_ok hcfg).oracleId
      rwa [Option.some.inj hc]
  · have hload := gwConfigLoad_ok h
    exact ⟨(identifierCheck_iff _ _).2 (hload.named.mono (by decide)),
      (identifierCheck_iff _ _).2 (hload.oracleId.mono (by decide))⟩

/-- Only a value with a carriage return can be cut so that all its pieces pass. -/
theorem keptWhole_of_no_return (hk : k = .modelId ∨ k = .oracleId) (hv : LineValue v)
    (hcr : chr '\r' ∉ v) (post : Bytes) : KeptWhole k v post := by
  by_contra hno
  rw [KeptWhole, not_or, Nat.not_le] at hno
  obtain ⟨hlen, hall⟩ := hno
  have hname := name_length_le k
  obtain ⟨cs, hcs⟩ := chunks_keyLine k v post
  have hfirst :
      Acceptable (k.name ++ chr '=' :: (v ++ post.take 1).take (1022 - k.name.length)) := by
    by_contra hbad
    exact hall ⟨_, by rw [hcs]; exact List.mem_cons_self, hbad⟩
  have hlong : 1022 - k.name.length ≤ v.length := by
    have hlf : (post.take 1).length ≤ 1 := List.length_take_le 1 post
    rw [keyLine, List.length_append, List.length_cons, List.length_append] at hlen
    omega
  rw [List.take_append_of_le_length hlong, acceptable_key_iff, (setting_line k _).1] at hfirst
  generalize hw : v.take (1022 - k.name.length) = w at hfirst
  have hsub : ∀ b ∈ w, b ∈ v := by
    rw [← hw]
    exact fun b hb => List.mem_of_mem_take hb
  have hvalue : LineValue w := by
    refine ⟨fun h => hv.nul (hsub _ h), fun h => hv.newline (hsub _ h),
      fun h => hcr (hsub _ (List.mem_of_getLast? h)), fun b hb => hv.head b ?_⟩
    rw [← hw, List.head?_take] at hb
    split at hb
    · cases hb
    · exact hb
  have hstrip := hvalue.stripped (.inl rfl)
  rw [List.append_nil] at hstrip
  rw [hstrip] at hfirst
  have hbound : w.length ≤ 255 := by
    rcases hk with rfl | rfl
    · rw [ConfigKey.parse, setId_eq, Option.isSome_ite] at hfirst
      exact hfirst.1
    · rw [ConfigKey.parse, setId_eq, Option.isSome_ite] at hfirst
      exact hfirst.1
  rw [← hw, List.length_take] at hbound
  omega

/-! ## Concrete files -/

/-- The required keys but the model. -/
def otherKeys : Bytes := ascii "socket_path=/s\nledger_path=/l\nwal_path=/w\nlog_path=/g\n"

theorem around_otherKeys : Around .modelId otherKeys [] := by
  have hshort : ∀ l ∈ lines otherKeys, l ≠ [] ∧ l.length ≤ 1023 := by decide +kernel
  have hlines : pieces otherKeys ++ pieces (List.drop 1 []) = lines otherKeys :=
    (List.append_nil _).trans (flatMap_chunks hshort)
  have hload : (configLines (gwConfigDefaults []) 0 (lines otherKeys)).toOption.isSome := by
    decide +kernel
  refine ⟨by decide +kernel, .inr (by decide +kernel), .inl rfl, ?_, ?_,
    fun l hl => absurd hl List.not_mem_nil⟩
  · rw [hlines]
    refine (configLines_iff _ (gwConfigDefaults []) 0).1.1 ?_
    cases hrun : configLines (gwConfigDefaults []) 0 (lines otherKeys) with
    | ok c => exact ⟨c, rfl⟩
    | error e =>
      rw [hrun] at hload
      cases hload
  · rw [hlines]
    decide +kernel

theorem identifier_loads_iff_sample :
    LoadsAsAdmitted (withLine .modelId otherKeys (ascii "m-1") []) (ascii "m-1") GwConfig.modelId
      AxObsInput.modelId ∧
    (∃ cfg, gwConfigLoad (withLine .modelId otherKeys (ascii "m-1") []) = .ok cfg) ∧
    OtherwiseValid sampleSubstrate 64 sampleInput axAdmissionCtxInit {} sampleInput.modelId := by
  have hv : LineValue (ascii "m-1") :=
    ⟨by decide, by decide, by decide, by decide +kernel⟩
  have hloads := ((identifier_loads_iff hv).1 otherKeys [] around_otherKeys (by decide +kernel)).2
    (.inl (by decide +kernel))
  have hvalid : OtherwiseValid sampleSubstrate 64 sampleInput axAdmissionCtxInit {}
      sampleInput.modelId := fun _ => sampleInput_accepted
  refine ⟨hloads, ?_, hvalid⟩
  exact (hloads.loads sampleSubstrate 64 sampleInput axAdmissionCtxInit {} rfl hvalid).2
    ⟨by decide, sampleInput_accepted⟩

/-- A model with carriage returns up to the end of the buffer, and a comment behind it. -/
def cutModel : Bytes := chr 'm' :: List.replicate 1013 (chr '\r') ++ [chr '#']

/-- A value no admission takes loads as its first byte. -/
theorem identifier_cut_loads : ¬ ∀ v pre post, LineValue v → Around .modelId pre post →
    (withLine .modelId pre v post).length ≤ gwConfigMax →
    LoadsAsAdmitted (withLine .modelId pre v post) v GwConfig.modelId AxObsInput.modelId := by
  intro h
  have hv : LineValue cutModel :=
    ⟨by decide +kernel, by decide +kernel, by decide +kernel, by decide +kernel⟩
  have hloads := h cutModel otherKeys [] hv around_otherKeys (by decide +kernel)
  have hrun : (gwConfigLoad (withLine .modelId otherKeys cutModel [])).toOption.map
      (fun cfg => cfg.modelId.bytes) = some (ascii "m") := by decide +kernel
  cases hload : gwConfigLoad (withLine .modelId otherKeys cutModel []) with
  | error e =>
    rw [hload] at hrun
    cases hrun
  | ok cfg =>
    rw [hload] at hrun
    have hbytes : cfg.modelId.bytes = ascii "m" := Option.some.inj hrun
    exact absurd ((hloads.value cfg hload).symm.trans hbytes) (by decide +kernel)

end AxiomaOracle
