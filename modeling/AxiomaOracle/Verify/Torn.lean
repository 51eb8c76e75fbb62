import AxiomaOracle.Lib.Lines
import AxiomaOracle.Verify.Config
import AxiomaOracle.Verify.Escapes
import AxiomaOracle.Verify.Intent
import AxiomaOracle.Verify.Ledger
import AxiomaOracle.Verify.StartUp

/-!
# The WAL file, whole and cut

What recovery makes of the file a request writes, and of every beginning of it that a crash can
leave. A whole file gives back the intent with every field (`wal_round_trip`). A cut one is refused
only while the value of `model_id` has not begun; behind that any cut is taken for an intent
(`recover_torn_iff`).
-/

namespace AxiomaOracle

open Lib

/-! ## A whole file -/

/-- The lines of an intent hold no newline and fit the buffer of `fgets`. -/
theorem GwIntent.Plain.short {i : GwIntent} (hi : i.Plain) :
    ∀ l ∈ intentLines i, chr '\n' ∉ l ∧ l.length + 1 < 600 :=
  intentLines_short hi.hashLen (fun hmem => (hi.hashClean _ hmem).1 rfl)
    (fun hmem => (hi.modelEnds _ hmem).1 rfl) hi.modelLen

theorem lines_intentText {i : GwIntent} (hi : i.Plain) :
    lines (intentText i) = (intentLines i).map (· ++ [chr '\n']) := by
  have hlines := lines_flatMap (fun l hl => (hi.short l hl).1) []
  rwa [List.append_nil, ← intentText_eq, lines, List.append_nil] at hlines

/-- What recovery makes of lines that are seen as those of an intent. -/
theorem parseIntent_of_lines {i : GwIntent} (hi : i.Plain) (hmodel : i.modelId.bytes ≠ [])
    {file : Bytes} (hshort : ∀ l ∈ lines file, l.length < 600)
    (hseen : (lines file).map seenLine = intentLines i) : parseIntent file = .intent i := by
  have hlen := hi.hashLen
  unfold parseIntent
  dsimp only
  rw [C.fgetsAll_eq_lines (by decide) hshort (Nat.le_refl _), foldl_intentLines hi hmodel hseen]
  exact if_neg (by simp [hlen])

/-- An intent as a loaded configuration gives it: the hash in hexadecimal, and 1 to 255 bytes of
UTF-8 without C0 controls or DEL for the model. -/
structure GwIntent.Configured (i : GwIntent) : Prop where
  hashLen : i.inputHashHex.bytes.length = 64
  hashHex : ∀ b ∈ i.inputHashHex.bytes, (hexval b).isSome
  modelPos : 1 ≤ i.modelId.bytes.length
  modelLen : i.modelId.bytes.length ≤ 255
  modelUtf8 : Utf8.Valid i.modelId.bytes
  modelClean : ∀ b ∈ i.modelId.bytes, 0x20 ≤ b.toNat ∧ b ≠ 0x7F

namespace GwIntent.Configured

variable {i : GwIntent}

theorem plain (hi : i.Configured) : i.Plain where
  hashLen := hi.hashLen
  hashHex b hb := by
    have hhex := hi.hashHex b hb
    unfold hexval at hhex
    split at hhex
    · omega
    split at hhex
    · omega
    split at hhex
    · omega
    · cases hhex
  modelClean b hb := (hi.modelClean b hb).1
  modelLen := hi.modelLen

theorem modelNe (hi : i.Configured) : i.modelId.bytes ≠ [] :=
  List.length_pos_iff.1 hi.modelPos

/-- The intent of a request is one. -/
theorem of_request {S : Substrate} {cfg : GwConfig} (hload : Loaded cfg) (norm : Bytes)
    (params : AxOracleParams) : (requestIntent (S := S) cfg norm params).Configured := by
  obtain ⟨c, hc, hpos, hle, hutf, hclean⟩ := hload.named
  obtain rfl := Option.some.inj hc
  have hself : (requestIntent (S := S) cfg norm params).modelId.bytes = cfg.modelId.bytes := by
    have htake : cfg.modelId.bytes.take 255 = cfg.modelId.bytes := List.take_of_length_le hle
    rw [requestIntent, htake]
    exact CStr.ofBytes_of_nulFree cfg.modelId.nulFree
  refine ⟨hex32_length _, ?_, ?_, ?_, ?_, ?_⟩
  · intro b hb
    have hb' : b ∈ hexOf (axComputeInputHash S norm).bytes := hex32_bytes _ ▸ hb
    obtain ⟨c, -, hc⟩ := List.mem_flatMap.1 hb'
    have hlt := byte_lt c
    simp only [List.mem_cons, List.not_mem_nil, or_false] at hc
    rcases hc with rfl | rfl
    · rw [hexval_hexDigit (by omega)]
      rfl
    · rw [hexval_hexDigit (by omega)]
      rfl
  all_goals rw [hself]
  · exact hpos
  · exact hle
  · exact hutf
  · exact hclean

end GwIntent.Configured

/-- **The text of an intent gives it back.** -/
theorem parseIntent_configured {i : GwIntent} (hi : i.Configured) :
    parseIntent (intentText i) = .intent i := by
  have hlines := lines_intentText hi.plain
  refine parseIntent_of_lines hi.plain hi.modelNe ?_ ?_
  · intro l hl
    rw [hlines] at hl
    obtain ⟨l', hl', rfl⟩ := List.mem_map.1 hl
    rw [List.length_append]
    exact (hi.plain.short l' hl').2
  · have hseen := seenLine_intentLines hi.plain hi.modelNe
    rw [hlines, List.map_map]
    calc (intentLines i).map (seenLine ∘ (· ++ [chr '\n']))
        = (intentLines i).map id := List.map_congr_left fun l hl => (hseen l hl).1
      _ = intentLines i := List.map_id _

/-! ## Writing and reading it back -/

section RoundTrip

variable {cfg : GwConfig} {w : World} {i : GwIntent}

/-- The created file: empty, and open at its start. -/
theorem exec_openExcl_wal {e : Env} (he : e.fails = false)
    (habsent : w.node (cfg.path .wal) = none) :
    ∃ w', exec cfg (.openExcl .wal) e w = (true, w') ∧
      w'.node (cfg.path .wal) = some (.file []) ∧ w'.fd .wal = some ⟨0, true, false⟩ := by
  have hans : (exec cfg (.openExcl .wal) e w).1 = true := by
    simp [exec, execOpenExcl, he, habsent]
  refine ⟨(exec cfg (.openExcl .wal) e w).2, ?_, ?_, ?_⟩
  · rw [← hans]
  · simp [exec, execOpenExcl, he, habsent]
  · simp [exec, execOpenExcl, he, habsent]

/-- A write that does not fail, into the empty file. -/
theorem exec_write_wal {e : Env} (he : e.fails = false)
    (hnode : w.node (cfg.path .wal) = some (.file [])) (hfd : w.fd .wal = some ⟨0, true, false⟩)
    {bs : Bytes} (hbs : bs.length < 768) :
    ∃ w', exec cfg (.write .wal bs) e w = (true, w') ∧
      w'.node (cfg.path .wal) = some (.file bs) := by
  have hall : written e 0 bs.length = bs.length := by
    unfold written offMax
    rw [he]
    simp only [Bool.false_eq_true, if_false]
    omega
  have hcontent : w.content cfg .wal = [] := by
    simp [World.content, World.file, World.fileAt, hnode]
  refine ⟨(w.setFile cfg .wal bs).setFd .wal (some ⟨bs.length, true, false⟩), ?_, ?_⟩
  · simp only [exec, execWrite, hfd, hall, hcontent, Bool.false_eq_true, if_false, if_true,
      List.take_length, beq_self_eq_true, Nat.zero_add, writeAt]
    simp
  · simp [World.setFile, World.setNode, World.setFd]

/-- The file behind a write of the intent in which no call fails. -/
theorem eval_gwWalWrite {envs : Nat → Env} (henvs : ∀ n, (envs n).fails = false)
    (habsent : w.node (cfg.path .wal) = none) (hfits : (intentText i).length < 768) :
    ∃ w', (machine cfg).eval (gwWalWrite cfg i) envs w =
        (decide ((cfg.path .wal).length < 512), w') ∧
      w'.file cfg .wal = some (intentText i) := by
  obtain ⟨w1, h1, hn1, hfd1⟩ := exec_openExcl_wal (henvs 0) habsent
  obtain ⟨w2, h2, hn2⟩ := exec_write_wal (henvs 1) hn1 hfd1 hfits
  have h3 : exec cfg (.fsync .wal) (envs 2) w2 = (true, w2) := by
    simp only [exec, henvs, Bool.not_false]
  have h4 : exec cfg (.close .wal) (envs 3) w2 = ((), w2.setFd .wal none) := rfl
  have hbuf : C.snprintf 768 (intentText i) = some (intentText i) := if_pos hfits
  have hfile : (w2.setFd .wal none).file cfg .wal = some (intentText i) := by
    simp [World.file, World.fileAt, World.setFd, hn2]
  refine ⟨w2.setFd .wal none, ?_, hfile⟩
  unfold gwWalWrite
  refine eval_call h1 ?_
  rw [hbuf]
  refine eval_call h2 (eval_call h3 (eval_call h4 ?_))
  unfold fsyncParentDir
  by_cases hlong : 512 ≤ (cfg.path .wal).length
  · rw [if_pos hlong, decide_eq_false (Nat.not_lt.2 hlong)]
    rfl
  · rw [if_neg hlong, decide_eq_true (Nat.not_le.1 hlong)]
    have h5 : exec cfg (.fsyncDir .wal) (envs 4) (w2.setFd .wal none) =
        (true, w2.setFd .wal none) := by
      simp only [exec, henvs, Bool.not_false]
    exact eval_call h5 rfl

/-- Recovery on a file whose reads meet no error. -/
theorem eval_gwWalRecover {envs : Nat → Env} (hread : none ∉ (envs 0).script) {file : Bytes}
    (hfile : w.file cfg .wal = some file) :
    (machine cfg).eval gwWalRecover envs w = (parseIntent file, w) := by
  have hslurp : exec cfg (.slurp .wal) (envs 0) w = (some file, w) := by
    have hans : (exec cfg (.slurp .wal) (envs 0) w).1 = w.file cfg .wal := exec_slurp hread
    rw [← hfile, ← hans]
    rfl
  unfold gwWalRecover
  exact eval_call hslurp rfl

/-- **The intent survives the WAL.** On an absent path, with no call failing, the file holds the
whole text, which always fits the buffer; the result is 0 unless the path is too long for the sync
of its directory. Recovery then returns the intent, every field as it was. -/
theorem wal_round_trip (hi : i.Configured) (habsent : w.node (cfg.path .wal) = none)
    {envs : Nat → Env} (henvs : ∀ n, (envs n).fails = false) :
    (intentText i).length < 768 ∧
    ∃ w', (machine cfg).eval (gwWalWrite cfg i) envs w =
        (decide ((cfg.path .wal).length < 512), w') ∧
      w'.file cfg .wal = some (intentText i) ∧
      ∀ envs' : Nat → Env, none ∉ (envs' 0).script →
        (machine cfg).eval gwWalRecover envs' w' = (.intent i, w') := by
  have hfits := intentText_length_lt hi.hashLen hi.modelLen
  obtain ⟨w', heval, hfile⟩ := eval_gwWalWrite (i := i) henvs habsent hfits
  exact ⟨hfits, w', heval, hfile, fun envs' hread =>
    (eval_gwWalRecover hread hfile).trans (by rw [parseIntent_configured hi])⟩

/-- A model name that looks like lines of the file, and the extremes of the numbers. -/
def intentSample : GwIntent where
  inputHashHex := .ofBytes (List.replicate 64 (chr 'a'))
  modelId := .ofBytes (ascii "seed=1#model_id=x")
  maxTokens := 1024
  seed := Int64.minValue
  temperatureQ16 := 0
  topPQ16 := Int32.minValue

theorem intentSample_configured : intentSample.Configured where
  hashLen := by decide
  hashHex := by decide
  modelPos := by decide
  modelLen := by decide
  modelUtf8 := .of_ascii (by decide)
  modelClean := by decide

def walConfigSample : GwConfig := { gwConfigDefaults [] with walPath := .ofBytes (ascii "w") }

theorem wal_round_trip_sample :
    ∃ w', (machine walConfigSample).eval (gwWalWrite walConfigSample intentSample) (fun _ => {})
        (World.initial fun _ => none) = (true, w') ∧
      (machine walConfigSample).eval gwWalRecover (fun _ => {}) w' =
        (.intent intentSample, w') := by
  have habsent : (World.initial fun _ => none).node (walConfigSample.path .wal) = none := rfl
  have henvs : ∀ n, ((fun _ => {} : Nat → Env) n).fails = false := fun _ => rfl
  obtain ⟨-, w', heval, -, hrec⟩ := wal_round_trip intentSample_configured habsent henvs
  have hok : decide ((walConfigSample.path .wal).length < 512) = true := by decide
  rw [hok] at heval
  exact ⟨w', heval, hrec (fun _ => {}) (by decide)⟩

end RoundTrip

/-! ## A cut file -/

section Torn

variable {i : GwIntent}

/-- The text, split where the value of `model_id` begins and where it ends. -/
theorem intentText_split (i : GwIntent) : ∃ r : Bytes,
    (∀ l ∈ lines r, l.head? ≠ some (chr 'i')) ∧
    intentText i = ascii "input_hash=" ++ i.inputHashHex.bytes ++ chr '\n' ::
      (ascii "model_id=" ++ (i.modelId.bytes ++ chr '\n' :: r)) := by
  refine ⟨ascii "max_tokens=" ++ C.ld i.maxTokens.toInt ++ chr '\n' ::
    (ascii "seed=" ++ C.ld i.seed.toInt ++ chr '\n' ::
    (ascii "temperature_q16=" ++ C.ld i.temperatureQ16.toInt ++ chr '\n' ::
    (ascii "top_p_q16=" ++ C.ld i.topPQ16.toInt ++ chr '\n' :: []))), ?_, ?_⟩
  · have hnl : ∀ {key : Bytes} (v : Int), chr '\n' ∉ key → chr '\n' ∉ key ++ C.ld v := by
      intro key v hkey
      rw [List.mem_append, not_or]
      exact ⟨hkey, newline_not_mem_ld v⟩
    intro l hl
    rw [lines_line (hnl _ (by decide)), lines_line (hnl _ (by decide)),
      lines_line (hnl _ (by decide)), lines_line (hnl _ (by decide))] at hl
    simp only [lines, List.mem_cons, List.not_mem_nil, or_false] at hl
    rcases hl with rfl | rfl | rfl | rfl
    all_goals
      rw [List.append_assoc]
      exact head?_append_ne (by decide)
  · rw [intentText_eq]
    simp only [intentLines, List.flatMap_cons, List.flatMap_nil, List.append_assoc,
      List.append_nil, List.cons_append, List.nil_append]

theorem lines_take_short (hi : i.Plain) (k : Nat) :
    ∀ l ∈ lines ((intentText i).take k), l.length < 600 := by
  intro l hl
  obtain ⟨l', hl', hpre⟩ := prefix_of_mem_lines_take hl
  rw [lines_intentText hi] at hl'
  obtain ⟨line, hline, rfl⟩ := List.mem_map.1 hl'
  have hle := hpre.length_le
  have hfits := (hi.short line hline).2
  rw [List.length_append, List.length_singleton] at hle
  omega

/-- Without a line that sets `model_id` there is no intent. -/
theorem parseIntent_noModel {file : Bytes} (hshort : ∀ l ∈ lines file, l.length < 600)
    (hno : ∀ l ∈ lines file, parseField (seenLine l) (ascii "model_id") 256 = none) :
    parseIntent file = .corrupt := by
  have hline : ∀ (p : IntentParse) raw, parseField (seenLine raw) (ascii "model_id") 256 = none →
      (parseIntentLine p raw).haveModel = p.haveModel := by
    intro p raw hraw
    unfold seenLine at hraw
    unfold parseIntentLine
    dsimp only
    rw [hraw]
    dsimp only
    repeat' split
    all_goals rfl
  have hfold : ∀ (raws : List Bytes) (p : IntentParse),
      (∀ l ∈ raws, parseField (seenLine l) (ascii "model_id") 256 = none) →
      (raws.foldl parseIntentLine p).haveModel = p.haveModel := by
    intro raws
    induction raws with
    | nil => exact fun p _ => rfl
    | cons raw raws ih =>
      intro p h
      rw [List.foldl_cons, ih _ fun l hl => h l (List.mem_cons_of_mem _ hl)]
      exact hline p raw (h raw List.mem_cons_self)
  unfold parseIntent
  dsimp only
  rw [C.fgetsAll_eq_lines (by decide) hshort (Nat.le_refl _), hfold _ _ hno]
  exact if_pos (by simp [intentParseInit])

/-- **A cut before the first byte of the model is refused.** -/
theorem parseIntent_cutBefore (hi : i.Plain) {k : Nat} (hk : k ≤ 85) :
    parseIntent ((intentText i).take k) = .corrupt := by
  refine parseIntent_noModel (lines_take_short hi k) fun l hl => ?_
  obtain ⟨r, -, htext⟩ := intentText_split i
  have hnl : chr '\n' ∉ ascii "input_hash=" ++ i.inputHashHex.bytes := by
    rw [List.mem_append, not_or]
    exact ⟨by decide, fun hmem => (hi.hashClean _ hmem).1 rfl⟩
  -- the cut text is a beginning of the first line and the key of the second
  have hcut : (intentText i).take k = (ascii "input_hash=" ++ i.inputHashHex.bytes ++
      chr '\n' :: ascii "model_id=").take k := by
    have hlen : (ascii "input_hash=" ++ i.inputHashHex.bytes ++
        chr '\n' :: ascii "model_id=").length = 85 := by
      rw [List.length_append, List.length_append, hi.hashLen]
      rfl
    have hsplit : intentText i = (ascii "input_hash=" ++ i.inputHashHex.bytes ++
        chr '\n' :: ascii "model_id=") ++ (i.modelId.bytes ++ chr '\n' :: r) := by
      rw [htext, List.append_assoc _ (chr '\n' :: ascii "model_id="), List.cons_append]
    rw [hsplit, List.take_append_of_le_length (by omega)]
  rw [hcut] at hl
  obtain ⟨l', hl', hpre⟩ := prefix_of_mem_lines_take hl
  rw [lines_line hnl, lines_last (by decide) (by decide)] at hl'
  have hseen : seenLine l <+: l' :=
    ((C.chomp_prefix _).trans (List.takeWhile_prefix _)).trans hpre
  rcases List.mem_cons.1 hl' with rfl | hl'
  · refine if_neg fun hkey => ?_
    obtain ⟨t, ht⟩ := hkey.trans hseen
    have hhead : some (chr 'm') = some (chr 'i') := congrArg List.head? ht
    exact absurd hhead (by decide)
  · rw [List.mem_singleton.1 hl'] at hseen
    have hle := hseen.length_le
    unfold parseField
    split
    · refine if_pos (.inl ?_)
      rw [List.length_drop]
      exact Nat.sub_eq_zero_of_le hle
    · rfl

/-- The line of the model, whole or cut behind its first byte, and what may follow it. -/
theorem lines_modelCut {m r : Bytes} (hm : m ≠ []) (hclean : ∀ b ∈ m, b ≠ chr '\n' ∧ b ≠ chr '\r')
    (hnul : (0 : UInt8) ∉ m) (j : Nat) :
    ∃ raw m' rest, lines (ascii "model_id=" ++ (m ++ chr '\n' :: r).take (j + 1)) = raw :: rest ∧
      seenLine raw = ascii "model_id=" ++ m' ∧ m' ≠ [] ∧ m'.length ≤ m.length ∧
      ∀ l ∈ rest, ∃ l' ∈ lines r, l <+: l' := by
  have hkeyNul : (0 : UInt8) ∉ ascii "model_id=" := by decide
  have hnl : ∀ {m' : Bytes}, (∀ b ∈ m', b ≠ chr '\n' ∧ b ≠ chr '\r') →
      chr '\n' ∉ ascii "model_id=" ++ m' := by
    intro m' h
    rw [List.mem_append, not_or]
    exact ⟨by decide, fun hmem => (h _ hmem).1 rfl⟩
  by_cases hj : j + 1 ≤ m.length
  · have hpart : m.take (j + 1) ≠ [] := by
      rw [Ne, List.take_eq_nil_iff, not_or]
      exact ⟨Nat.succ_ne_zero j, hm⟩
    have hpartClean : ∀ b ∈ m.take (j + 1), b ≠ chr '\n' ∧ b ≠ chr '\r' :=
      fun b hb => hclean b (List.mem_of_mem_take hb)
    refine ⟨ascii "model_id=" ++ m.take (j + 1), m.take (j + 1), [], ?_, ?_, hpart,
      List.length_take_le' _ _, by simp⟩
    · rw [List.take_append_of_le_length hj]
      exact lines_last (List.append_ne_nil_of_left_ne_nil (by decide) _) (hnl hpartClean)
    · exact (seenLine_keyLine hkeyNul hpart (fun h => hnul (List.mem_of_mem_take h)) hpartClean).2
  · obtain ⟨n, hn⟩ : ∃ n, j + 1 = m.length + (n + 1) := ⟨j - m.length, by omega⟩
    refine ⟨ascii "model_id=" ++ m ++ [chr '\n'], m, lines (r.take n), ?_, ?_, hm, Nat.le_refl _,
      fun l hl => prefix_of_mem_lines_take hl⟩
    · rw [hn, List.take_length_add_append, List.take_succ_cons, ← List.append_assoc]
      exact lines_line (hnl hclean) _
    · exact (seenLine_keyLine hkeyNul hm hnul hclean).1

/-- **A cut behind the first byte of the model is accepted.** -/
theorem parseIntent_cutBehind (hi : i.Plain) (hmodel : i.modelId.bytes ≠ []) {k : Nat}
    (hk : 85 < k) :
    ∃ j, parseIntent ((intentText i).take k) = .intent j := by
  obtain ⟨r, hr, htext⟩ := intentText_split i
  have hshort := lines_take_short hi k
  have hnl : chr '\n' ∉ ascii "input_hash=" ++ i.inputHashHex.bytes := by
    rw [List.mem_append, not_or]
    exact ⟨by decide, fun hmem => (hi.hashClean _ hmem).1 rfl⟩
  have hhead : (ascii "input_hash=" ++ i.inputHashHex.bytes).length = 75 := by
    rw [List.length_append, hi.hashLen]
    rfl
  obtain ⟨j, rfl⟩ : ∃ j, k = 75 + (9 + (j + 1) + 1) := ⟨k - 86, by omega⟩
  have hkey : (ascii "model_id=").length = 9 := by decide
  have hcut : (intentText i).take (75 + (9 + (j + 1) + 1)) =
      ascii "input_hash=" ++ i.inputHashHex.bytes ++ chr '\n' ::
        (ascii "model_id=" ++ (i.modelId.bytes ++ chr '\n' :: r).take (j + 1)) := by
    rw [htext, ← hhead, List.take_length_add_append, List.take_succ_cons, ← hkey,
      List.take_length_add_append]
  obtain ⟨raw, m', rest, hlines, hseen, hm', hle, hrest⟩ :=
    lines_modelCut (r := r) hmodel hi.modelEnds i.modelId.nulFree j
  rw [hcut, lines_line hnl, hlines] at hshort
  have hmlen := hi.modelLen
  have hlen := hi.hashLen
  -- the first two lines set both bits, and no later line touches the hash
  have hkey : (0 : UInt8) ∉ ascii "input_hash=" := by decide
  have hfirst := (seenLine_keyLine hkey hi.hash_ne_nil
    i.inputHashHex.nulFree hi.hashClean).1
  have hnoHash : ∀ l ∈ rest, l.head? ≠ some (chr 'i') := by
    intro l hl hc
    obtain ⟨l', hl', t, rfl⟩ := hrest l hl
    exact hr _ hl' (by rw [List.head?_append, hc]; rfl)
  unfold parseIntent
  dsimp only
  rw [hcut, C.fgetsAll_eq_lines (by decide) (by rwa [lines_line hnl, hlines]) (Nat.le_refl _),
    lines_line hnl, hlines, List.foldl_cons, List.foldl_cons,
    parseIntentLine_inputHash _ hfirst hi.hash_ne_nil (by omega),
    parseIntentLine_modelId _ hseen hm' (by omega)]
  generalize hp : (IntentParse.mk _ _ _) = p
  have hset : p.haveHash = true ∧ p.haveModel = true ∧
      p.intent.inputHashHex.bytes = i.inputHashHex.bytes := by
    rw [← hp]
    exact ⟨rfl, rfl, CStr.ofBytes_of_nulFree i.inputHashHex.nulFree⟩
  have hkept := foldl_parseIntentLine_have rest p
  refine ⟨(rest.foldl parseIntentLine p).intent, if_neg ?_⟩
  rw [hkept.1 hset.1, hkept.2 hset.2.1, foldl_parseIntentLine_hash hnoHash, hset.2.2, hlen]
  simp

/-- Without its last newline the text is read as before. -/
theorem parseIntent_noNewline (hi : i.Plain) (hmodel : i.modelId.bytes ≠ []) {k : Nat}
    (hk : k + 1 = (intentText i).length) : parseIntent ((intentText i).take k) = .intent i := by
  obtain ⟨ls, last, hsplit⟩ : ∃ ls last, intentLines i = ls ++ [last] :=
    ⟨(intentLines i).take 5, ascii "top_p_q16=" ++ C.ld i.topPQ16.toInt, rfl⟩
  have hmem : ∀ l ∈ ls ++ [last], chr '\n' ∉ l := fun l hl => (hi.short l (hsplit ▸ hl)).1
  have hseen := seenLine_intentLines hi hmodel
  rw [hsplit] at hseen
  have hne : last ≠ [] := by
    intro h
    have hlast := congrArg List.getLast? hsplit
    rw [List.getLast?_concat, h] at hlast
    revert hlast
    simp [intentLines, ascii]
  have hcut : (intentText i).take k = ls.flatMap (· ++ [chr '\n']) ++ last := by
    have htext : intentText i = ls.flatMap (· ++ [chr '\n']) ++ last ++ [chr '\n'] := by
      rw [intentText_eq, hsplit, List.flatMap_append, List.flatMap_singleton, List.append_assoc]
    rw [htext, List.length_append, List.length_singleton] at hk
    rw [htext]
    exact List.take_left' (by omega)
  have hlines : lines ((intentText i).take k) = ls.map (· ++ [chr '\n']) ++ [last] := by
    rw [hcut, lines_flatMap fun l hl => hmem l (List.mem_append_left _ hl),
      lines_last hne (hmem last (List.mem_append_right _ (List.mem_singleton_self _)))]
  refine parseIntent_of_lines hi hmodel (lines_take_short hi k) ?_
  rw [hlines, List.map_append, List.map_map, List.map_singleton,
    (hseen last (List.mem_append_right _ (List.mem_singleton_self _))).2, hsplit]
  congr 1
  calc ls.map (seenLine ∘ (· ++ [chr '\n']))
      = ls.map id := List.map_congr_left fun l hl => (hseen l (List.mem_append_left _ hl)).1
    _ = ls := List.map_id _

/-- **When a cut intent is taken for a whole one.** Recovery, on a file that holds a beginning of
what the write of an intent puts there, does what it should (refuse, or return the intent when only
the last newline is missing) exactly when the cut is no further than the first 85 bytes, before the
value of `model_id`, or just before the last newline. Behind any other cut it returns an intent. -/
theorem recover_torn_iff (hi : i.Configured) :
    ∀ k < (intentText i).length, ∀ (cfg : GwConfig) (w : World) (envs : Nat → Env),
      w.file cfg .wal = some ((intentText i).take k) → none ∉ (envs 0).script →
      ((∀ j, ((machine cfg).eval gwWalRecover envs w).1 = .intent j →
        k + 1 = (intentText i).length ∧ j = i) ↔ k ≤ 85 ∨ k + 1 = (intentText i).length) := by
  intro k hk cfg w envs hfile hread
  rw [eval_gwWalRecover hread hfile]
  constructor
  · intro h
    by_cases hshort : k ≤ 85
    · exact .inl hshort
    · obtain ⟨j, hj⟩ := parseIntent_cutBehind hi.plain hi.modelNe (Nat.not_le.1 hshort)
      exact .inr (h j hj).1
  · rintro (hshort | hlast) j hj
    · rw [parseIntent_cutBefore hi.plain hshort] at hj
      cases hj
    · rw [parseIntent_noNewline hi.plain hi.modelNe hlast] at hj
      cases hj
      exact ⟨hlast, rfl⟩

/-- A world in which every file is the first `k` bytes of the sample. -/
def tornSample (k : Nat) : World :=
  World.initial fun _ => some (.file ((intentText intentSample).take k))

/-- A file that ends with the key of the model is refused. -/
theorem recover_torn_iff_sample :
    ¬ ∃ j, ((machine walConfigSample).eval gwWalRecover (fun _ => {}) (tornSample 85)).1 =
      .intent j := by
  rintro ⟨j, h⟩
  have hiff := recover_torn_iff intentSample_configured 85 (by decide +kernel) walConfigSample
    (tornSample 85) (fun _ => {}) rfl (by decide)
  have hlast := (hiff.2 (.inl (Nat.le_refl _)) j h).1
  revert hlast
  decide +kernel

/-- Cut within the number of tokens, the intent of 1024 tokens comes back as one of 10, and that is
what the recovery observation records. -/
theorem recover_torn_misread :
    intentSample.Configured ∧ 116 + 1 < (intentText intentSample).length ∧
    ∃ j, ((machine walConfigSample).eval gwWalRecover (fun _ => {}) (tornSample 116)).1 =
      .intent j ∧
      intentSample.maxTokens = 1024 ∧ j.maxTokens = 10 ∧ (recoveryParams j).maxTokens = 10 := by
  refine ⟨intentSample_configured, by decide +kernel, { intentSample with
    maxTokens := 10, seed := -1, temperatureQ16 := Int32.minValue }, ?_, rfl, rfl, by decide⟩
  have hfile : (tornSample 116).file walConfigSample .wal =
      some ((intentText intentSample).take 116) := rfl
  rw [eval_gwWalRecover (by decide) hfile]
  decide +kernel

end Torn

end AxiomaOracle
