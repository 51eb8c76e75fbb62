import AxiomaOracle.Lib.Lines
import AxiomaOracle.Verify.Config
import Mathlib.Data.List.Basic

/-!
# What the lines of a configuration mean

A line is blank, a comment, or sets one of seventeen keys. `gwConfigLoad_iff` says what the loader
makes of the pieces its `fgets` returns: it accepts them when each is such a line and the required
keys are set, and every field is its default or the value of the last piece that sets it. The pieces
are the physical lines as long as these fit the buffer; `config_means_lines_iff` is about where that
ends, and `cutsAgree_of_harmless` about the lines that can be longer.
-/

namespace AxiomaOracle

open Lib

/-! ## Keys -/

inductive ConfigKey where
  | socketPath | ledgerPath | walPath | logPath | apiUrl | anthropicVersion | modelId | oracleId
  | fixtureCapturePath | exportPath | connectTimeoutS | responseTimeoutS | maxAttempts
  | maxResponseBytes | callBudget | defaultMaxTokens | maxPromptBytes
  deriving DecidableEq

namespace ConfigKey

def name : ConfigKey → Bytes
  | socketPath => ascii "socket_path"
  | ledgerPath => ascii "ledger_path"
  | walPath => ascii "wal_path"
  | logPath => ascii "log_path"
  | apiUrl => ascii "api_url"
  | anthropicVersion => ascii "anthropic_version"
  | modelId => ascii "model_id"
  | oracleId => ascii "oracle_id"
  | fixtureCapturePath => ascii "fixture_capture_path"
  | exportPath => ascii "export_path"
  | connectTimeoutS => ascii "connect_timeout_s"
  | responseTimeoutS => ascii "response_timeout_s"
  | maxAttempts => ascii "max_attempts"
  | maxResponseBytes => ascii "max_response_bytes"
  | callBudget => ascii "call_budget"
  | defaultMaxTokens => ascii "default_max_tokens"
  | maxPromptBytes => ascii "max_prompt_bytes"

/-- Numbers and texts. -/
@[reducible] def Value : ConfigKey → Type
  | connectTimeoutS | responseTimeoutS | maxAttempts | maxResponseBytes | callBudget
  | defaultMaxTokens | maxPromptBytes => Int
  | _ => CStr

/-- The value a text stands for, when it is in the range of the key. -/
def parse : (k : ConfigKey) → Bytes → Option k.Value
  | socketPath, v => setStr gwPathMax v
  | ledgerPath, v => setStr gwPathMax v
  | walPath, v => setStr gwPathMax v
  | logPath, v => setStr gwPathMax v
  | apiUrl, v => setStr gwPathMax v
  | anthropicVersion, v => (setHeaderValue anthropicVersionMax (name anthropicVersion) v 0).toOption
  | modelId, v => (setId gwIdMax axMaxModelIdBytes (name modelId) v 0).toOption
  | oracleId, v => (setId gwIdMax axMaxOracleIdBytes (name oracleId) v 0).toOption
  | fixtureCapturePath, v => setStr gwPathMax v
  | exportPath, v => setStr gwPathMax v
  | connectTimeoutS, v => setLong v 1 600
  | responseTimeoutS, v => setLong v 1 3600
  | maxAttempts, v => setLong v 1 10
  | maxResponseBytes, v => setLong v 1024 (64 * 1024 * 1024)
  | callBudget, v => setLong v 0 1000000
  | defaultMaxTokens, v => setLong v 1 200000
  | maxPromptBytes, v => setLong v 1 (1024 * 1024)

/-- The field of a key. -/
def get : (k : ConfigKey) → GwConfig → k.Value
  | socketPath, cfg => cfg.socketPath
  | ledgerPath, cfg => cfg.ledgerPath
  | walPath, cfg => cfg.walPath
  | logPath, cfg => cfg.logPath
  | apiUrl, cfg => cfg.apiUrl
  | anthropicVersion, cfg => cfg.anthropicVersion
  | modelId, cfg => cfg.modelId
  | oracleId, cfg => cfg.oracleId
  | fixtureCapturePath, cfg => cfg.fixtureCapturePath
  | exportPath, cfg => cfg.exportPath
  | connectTimeoutS, cfg => cfg.connectTimeoutS
  | responseTimeoutS, cfg => cfg.responseTimeoutS
  | maxAttempts, cfg => cfg.maxAttempts
  | maxResponseBytes, cfg => cfg.maxResponseBytes
  | callBudget, cfg => cfg.callBudget
  | defaultMaxTokens, cfg => cfg.defaultMaxTokens
  | maxPromptBytes, cfg => cfg.maxPromptBytes

/-- The field of a key, replaced. -/
def set : (k : ConfigKey) → GwConfig → k.Value → GwConfig
  | socketPath, cfg, v => { cfg with socketPath := v }
  | ledgerPath, cfg, v => { cfg with ledgerPath := v }
  | walPath, cfg, v => { cfg with walPath := v }
  | logPath, cfg, v => { cfg with logPath := v }
  | apiUrl, cfg, v => { cfg with apiUrl := v }
  | anthropicVersion, cfg, v => { cfg with anthropicVersion := v }
  | modelId, cfg, v => { cfg with modelId := v }
  | oracleId, cfg, v => { cfg with oracleId := v }
  | fixtureCapturePath, cfg, v => { cfg with fixtureCapturePath := v }
  | exportPath, cfg, v => { cfg with exportPath := v }
  | connectTimeoutS, cfg, v => { cfg with connectTimeoutS := v }
  | responseTimeoutS, cfg, v => { cfg with responseTimeoutS := v }
  | maxAttempts, cfg, v => { cfg with maxAttempts := v }
  | maxResponseBytes, cfg, v => { cfg with maxResponseBytes := v }
  | callBudget, cfg, v => { cfg with callBudget := v }
  | defaultMaxTokens, cfg, v => { cfg with defaultMaxTokens := v }
  | maxPromptBytes, cfg, v => { cfg with maxPromptBytes := v }

/-- The keys a file must set. -/
def required : List ConfigKey := [socketPath, ledgerPath, walPath, logPath, modelId]

@[simp] theorem get_set_self (k : ConfigKey) (cfg : GwConfig) (v : k.Value) :
    k.get (k.set cfg v) = v := by
  cases k <;> rfl

theorem get_set_ne {k k' : ConfigKey} (h : k' ≠ k) (cfg : GwConfig) (v : k.Value) :
    k'.get (k.set cfg v) = k'.get cfg := by
  cases k <;> cases k' <;> first
    | rfl
    | exact absurd rfl h

@[simp] theorem raw_set (k : ConfigKey) (cfg : GwConfig) (v : k.Value) :
    (k.set cfg v).raw = cfg.raw := by
  cases k <;> rfl

theorem name_injective {k k' : ConfigKey} (h : k.name = k'.name) : k = k' := by
  cases k <;> cases k' <;> first
    | rfl
    | exact absurd h (by decide)

end ConfigKey

/-! ## One line -/

/-- The message of a refusal does not matter to the value. -/
theorem setId_toOption (cap axMax : Nat) (key key' v : Bytes) (n n' : Nat) :
    (setId cap axMax key v n).toOption = (setId cap axMax key' v n').toOption := by
  unfold setId
  split
  · rfl
  · rfl
  · split
    · rfl
    · cases setStr cap v <;> rfl

theorem setHeaderValue_toOption (cap : Nat) (key key' v : Bytes) (n n' : Nat) :
    (setHeaderValue cap key v n).toOption = (setHeaderValue cap key' v n').toOption := by
  unfold setHeaderValue
  split
  · rfl
  · cases setStr cap v <;> rfl

theorem toOption_map {α : Type} (r : Except ConfigError α) (f : α → GwConfig) :
    (do return f (← r) : Except ConfigError GwConfig).toOption = r.toOption.map f := by
  cases r <;> rfl

/-- The chain of key comparisons, for a key of the table. -/
theorem setKey_name (k : ConfigKey) (cfg : GwConfig) (n : Nat) (val : Bytes) :
    (setKey cfg n k.name val).toOption = (k.parse val).map (k.set cfg) := by
  cases k
  all_goals
    simp +decide only [setKey, ConfigKey.name, if_true, if_false, toOption_map]
  case anthropicVersion => rw [setHeaderValue_toOption]; rfl
  case modelId => rw [setId_toOption]; rfl
  case oracleId => rw [setId_toOption]; rfl
  all_goals
    refine congrArg (Option.map _) ?_
    unfold ConfigKey.parse
    split <;> rename_i hval <;> exact hval.symm

/-- A key that is not in the table. -/
theorem setKey_unknown {key : Bytes} (h : ∀ k : ConfigKey, key ≠ k.name) (cfg : GwConfig) (n : Nat)
    (val : Bytes) : setKey cfg n key val = .error (.unknownKey n key) := by
  unfold setKey
  dsimp only
  rw [if_neg (show ¬ key = ascii "socket_path" from h .socketPath),
    if_neg (show ¬ key = ascii "ledger_path" from h .ledgerPath),
    if_neg (show ¬ key = ascii "wal_path" from h .walPath),
    if_neg (show ¬ key = ascii "log_path" from h .logPath),
    if_neg (show ¬ key = ascii "api_url" from h .apiUrl),
    if_neg (show ¬ key = ascii "anthropic_version" from h .anthropicVersion),
    if_neg (show ¬ key = ascii "model_id" from h .modelId),
    if_neg (show ¬ key = ascii "oracle_id" from h .oracleId),
    if_neg (show ¬ key = ascii "fixture_capture_path" from h .fixtureCapturePath),
    if_neg (show ¬ key = ascii "export_path" from h .exportPath),
    if_neg (show ¬ key = ascii "connect_timeout_s" from h .connectTimeoutS),
    if_neg (show ¬ key = ascii "response_timeout_s" from h .responseTimeoutS),
    if_neg (show ¬ key = ascii "max_attempts" from h .maxAttempts),
    if_neg (show ¬ key = ascii "max_response_bytes" from h .maxResponseBytes),
    if_neg (show ¬ key = ascii "call_budget" from h .callBudget),
    if_neg (show ¬ key = ascii "default_max_tokens" from h .defaultMaxTokens),
    if_neg (show ¬ key = ascii "max_prompt_bytes" from h .maxPromptBytes)]

/-- A line without its end and its leading blanks. -/
def lineText (l : Bytes) : Bytes := (C.chomp l).dropWhile isBlank

def lineKey (l : Bytes) : Bytes :=
  (((lineText l).takeWhile (· != chr '=')).reverse.dropWhile isBlank).reverse

def lineValue (l : Bytes) : Bytes :=
  (((lineText l).dropWhile (· != chr '=')).drop 1).dropWhile isBlank

/-- A blank line or a comment. -/
def Silent (l : Bytes) : Prop := lineText l = [] ∨ (lineText l).head? = some (chr '#')

instance (l : Bytes) : Decidable (Silent l) := inferInstanceAs (Decidable (_ ∨ _))

/-- The value a line sets a key to. -/
def setting (k : ConfigKey) (l : Bytes) : Option k.Value :=
  if Silent l ∨ chr '=' ∉ lineText l ∨ lineKey l ≠ k.name then none else k.parse (lineValue l)

/-- A blank line, a comment, or a key with a value in its range. -/
def Acceptable (l : Bytes) : Prop := Silent l ∨ ∃ k, (setting k l).isSome

theorem setting_silent {l : Bytes} (h : Silent l) (k : ConfigKey) : setting k l = none :=
  if_pos (.inl h)

/-- A line sets one key at most. -/
theorem setting_unique {k k' : ConfigKey} {l : Bytes} (h : (setting k l).isSome)
    (h' : (setting k' l).isSome) : k = k' := by
  unfold setting at h h'
  split at h
  · cases h
  split at h'
  · cases h'
  next hk hk' =>
  rw [not_or, not_or, not_not, not_not] at hk hk'
  exact ConfigKey.name_injective (hk.2.2.symm.trans hk'.2.2)

/-- **One line.** What an acceptable line does, and that no other is accepted. -/
theorem configLine_toOption (cfg : GwConfig) (n : Nat) (l : Bytes) :
    (Silent l → configLine cfg n l = .ok cfg) ∧
    (∀ k v, setting k l = some v → configLine cfg n l = .ok (k.set cfg v)) ∧
    (¬ Acceptable l → ∃ e, configLine cfg n l = .error e) := by
  have hline : configLine cfg n l = if Silent l then .ok cfg
      else if chr '=' ∉ lineText l then .error (.missingEq n)
      else setKey cfg n (lineKey l) (lineValue l) := rfl
  refine ⟨fun h => by rw [hline, if_pos h], ?_, ?_⟩
  · intro k v h
    unfold setting at h
    split at h
    · cases h
    next hk =>
    rw [not_or, not_or, not_not, not_not] at hk
    have hset := setKey_name k cfg n (lineValue l)
    rw [h, ← hk.2.2] at hset
    rw [hline, if_neg hk.1, if_neg (not_not.2 hk.2.1)]
    cases hr : setKey cfg n (lineKey l) (lineValue l) with
    | error e =>
      rw [hr] at hset
      cases hset
    | ok c =>
      rw [hr] at hset
      exact congrArg _ (Option.some.inj hset)
  · intro h
    unfold Acceptable at h
    rw [not_or, not_exists] at h
    rw [hline, if_neg h.1]
    by_cases heq : chr '=' ∈ lineText l
    · rw [if_neg (not_not.2 heq)]
      by_cases hkey : ∃ k : ConfigKey, lineKey l = k.name
      · obtain ⟨k, hk⟩ := hkey
        have hnone : setting k l = none := by
          have := h.2 k
          rwa [Option.not_isSome_iff_eq_none] at this
        unfold setting at hnone
        rw [if_neg (by rw [not_or, not_or, not_not, not_not]; exact ⟨h.1, heq, hk⟩)] at hnone
        have hset := setKey_name k cfg n (lineValue l)
        rw [hnone, ← hk] at hset
        cases hr : setKey cfg n (lineKey l) (lineValue l) with
        | error e => exact ⟨e, rfl⟩
        | ok c =>
          rw [hr] at hset
          cases hset
      · exact ⟨_, setKey_unknown (fun k hk => hkey ⟨k, hk⟩) cfg n _⟩
    · exact ⟨_, if_pos heq⟩

/-! ## Many lines -/

/-- The value of the last line that sets a key. -/
def lastValue (k : ConfigKey) (ls : List Bytes) : Option k.Value :=
  (ls.filterMap (setting k)).getLast?

/-- Lines a configuration can be made of. -/
def Complete (ls : List Bytes) : Prop :=
  (∀ l ∈ ls, Acceptable l) ∧ ∀ k ∈ ConfigKey.required, ∃ l ∈ ls, (setting k l).isSome

theorem lastValue_cons (k : ConfigKey) (l : Bytes) (ls : List Bytes) (v : k.Value) :
    (lastValue k (l :: ls)).getD v = (lastValue k ls).getD ((setting k l).getD v) := by
  unfold lastValue
  cases h : setting k l with
  | none => rw [List.filterMap_cons_none h, Option.getD_none]
  | some u =>
    rw [List.filterMap_cons_some h, List.getLast?_cons, Option.getD_some, Option.getD_some]

theorem lastValue_isSome {k : ConfigKey} {ls : List Bytes} :
    (lastValue k ls).isSome ↔ ∃ l ∈ ls, (setting k l).isSome := by
  rw [lastValue, List.getLast?_isSome, ne_eq, List.filterMap_eq_nil_iff]
  simp only [not_forall, exists_prop, Option.isSome_iff_ne_none, ne_eq]

/-- **The line loop**: it accepts acceptable lines, and a field holds the last value set. -/
theorem configLines_iff (ls : List Bytes) (cfg : GwConfig) (n : Nat) :
    ((∃ cfg', configLines cfg n ls = .ok cfg') ↔ ∀ l ∈ ls, Acceptable l) ∧
    ∀ cfg', configLines cfg n ls = .ok cfg' → cfg'.raw = cfg.raw ∧
      ∀ k : ConfigKey, k.get cfg' = (lastValue k ls).getD (k.get cfg) := by
  induction ls generalizing cfg n with
  | nil =>
    refine ⟨⟨fun _ l h => absurd h List.not_mem_nil, fun _ => ⟨cfg, rfl⟩⟩, ?_⟩
    intro cfg' h
    rw [← Except.ok.inj h]
    exact ⟨rfl, fun k => rfl⟩
  | cons l ls ih =>
    obtain ⟨hsilent, hset, hbad⟩ := configLine_toOption cfg (n + 1) l
    by_cases hl : Acceptable l
    · -- the configuration after the line
      obtain ⟨c, hc, hraw, hget⟩ : ∃ c, configLine cfg (n + 1) l = .ok c ∧ c.raw = cfg.raw ∧
          ∀ k : ConfigKey, k.get c = (setting k l).getD (k.get cfg) := by
        rcases hl with hs | ⟨k, hk⟩
        · exact ⟨cfg, hsilent hs, rfl, fun k => by rw [setting_silent hs, Option.getD_none]⟩
        · obtain ⟨v, hv⟩ := Option.isSome_iff_exists.1 hk
          refine ⟨k.set cfg v, hset k v hv, ConfigKey.raw_set k cfg v, fun k' => ?_⟩
          by_cases hkk : k' = k
          · subst hkk
            rw [hv, ConfigKey.get_set_self, Option.getD_some]
          · have hnone : setting k' l = none := by
              rw [← Option.not_isSome_iff_eq_none]
              exact fun h => hkk (setting_unique h hk)
            rw [hnone, ConfigKey.get_set_ne hkk, Option.getD_none]
      have hrun : configLines cfg n (l :: ls) = configLines c (n + 1) ls := by
        rw [configLines, hc]
        rfl
      obtain ⟨hiff, hfields⟩ := ih c (n + 1)
      rw [hrun]
      refine ⟨hiff.trans ⟨fun h => List.forall_mem_cons.2 ⟨hl, h⟩,
        fun h => (List.forall_mem_cons.1 h).2⟩, ?_⟩
      intro cfg' h
      obtain ⟨hr, hg⟩ := hfields cfg' h
      exact ⟨hr.trans hraw, fun k => by rw [hg, lastValue_cons, hget]⟩
    · obtain ⟨e, he⟩ := hbad hl
      have hrun : configLines cfg n (l :: ls) = .error e := by
        rw [configLines, he]
        rfl
      rw [hrun]
      refine ⟨⟨?_, fun h => absurd (h l List.mem_cons_self) hl⟩, ?_⟩
      · rintro ⟨c, hc⟩
        cases hc
      · intro c hc
        cases hc

/-! ## The file -/

theorem setting_parse {k : ConfigKey} {l : Bytes} {v : k.Value} (h : setting k l = some v) :
    k.parse (lineValue l) = some v := by
  unfold setting at h
  split at h
  · cases h
  · exact h

theorem lineValue_sublist (l : Bytes) : (lineValue l).Sublist l := by
  have htext : (lineText l).Sublist l :=
    (List.dropWhile_sublist _).trans (C.chomp_prefix l).sublist
  exact (List.dropWhile_sublist _).trans ((List.drop_sublist _ _).trans
    ((List.dropWhile_sublist _).trans htext))

theorem setStr_ne_nil {cap : Nat} {v : Bytes} {s : CStr} (hv : (0 : UInt8) ∉ v)
    (h : setStr cap v = some s) : s.bytes ≠ [] := by
  unfold setStr at h
  split at h
  · cases h
  next hlen =>
  rw [← Option.some.inj h, CStr.ofBytes_of_nulFree hv]
  exact fun hnil => hlen (.inl (List.length_eq_zero_iff.2 hnil))

theorem lastValue_mem {k : ConfigKey} {ls : List Bytes} {v : k.Value}
    (h : lastValue k ls = some v) : ∃ l ∈ ls, k.parse (lineValue l) = some v := by
  obtain ⟨l, hl, hv⟩ := List.mem_filterMap.1 (List.mem_of_getLast? h)
  exact ⟨l, hl, setting_parse hv⟩

theorem setId_ne_nil {axMax : Nat} {key v : Bytes} {s : CStr}
    (h : (setId gwIdMax axMax key v 0).toOption = some s) : s.bytes ≠ [] := by
  cases hs : setId gwIdMax axMax key v 0 with
  | error e =>
    rw [hs] at h
    cases h
  | ok u =>
    rw [hs] at h
    obtain ⟨c, hc, hpos, -⟩ := setId_ok hs
    rw [← Option.some.inj h, Option.some.inj hc]
    exact List.length_pos_iff.1 hpos

/-- A field with an empty default, of a key that is never set to an empty value. -/
theorem field_empty_iff {s : CStr} {o : Option CStr} (hs : s = o.getD (.ofBytes []))
    (ho : ∀ u, o = some u → u.bytes ≠ []) : s.bytes = [] ↔ ¬ o.isSome := by
  rw [hs]
  cases o with
  | none => exact iff_of_true (CStr.ofBytes_of_nulFree List.not_mem_nil) (by simp)
  | some u => exact iff_of_false (ho u rfl) (by simp)

/-- The final check asks whether the required keys were set. -/
theorem required_iff {cfg : GwConfig} {ls : List Bytes}
    (hls : ∀ l ∈ ls, (0 : UInt8) ∉ lineValue l)
    (hget : ∀ k : ConfigKey, k.get cfg = (lastValue k ls).getD (k.get (gwConfigDefaults cfg.raw))) :
    (cfg.socketPath.bytes = [] ∨ cfg.ledgerPath.bytes = [] ∨ cfg.walPath.bytes = [] ∨
      cfg.logPath.bytes = [] ∨ cfg.modelId.bytes = []) ↔
    ¬ ∀ k ∈ ConfigKey.required, ∃ l ∈ ls, (setting k l).isSome := by
  have hpath : ∀ s l, l ∈ ls → setStr gwPathMax (lineValue l) = some s → s.bytes ≠ [] :=
    fun s l hl h => setStr_ne_nil (hls l hl) h
  rw [field_empty_iff (s := cfg.socketPath) (hget .socketPath) fun u hu =>
      (lastValue_mem hu).elim fun l hl => hpath u l hl.1 hl.2,
    field_empty_iff (s := cfg.ledgerPath) (hget .ledgerPath) fun u hu =>
      (lastValue_mem hu).elim fun l hl => hpath u l hl.1 hl.2,
    field_empty_iff (s := cfg.walPath) (hget .walPath) fun u hu =>
      (lastValue_mem hu).elim fun l hl => hpath u l hl.1 hl.2,
    field_empty_iff (s := cfg.logPath) (hget .logPath) fun u hu =>
      (lastValue_mem hu).elim fun l hl => hpath u l hl.1 hl.2,
    field_empty_iff (s := cfg.modelId) (hget .modelId) fun u hu =>
      (lastValue_mem hu).elim fun l hl => setId_ne_nil hl.2]
  simp only [ConfigKey.required, List.forall_mem_cons, ← lastValue_isSome, List.not_mem_nil,
    false_imp_iff, implies_true, and_true, not_and_or]

/-- **The loader on the pieces it reads.** -/
theorem gwConfigLoad_iff {file : Bytes} (hnul : (0 : UInt8) ∉ file)
    (hsize : file.length ≤ gwConfigMax) :
    ((∃ cfg, gwConfigLoad file = .ok cfg) ↔ Complete ((lines file).flatMap (chunks 1023))) ∧
    ∀ cfg, gwConfigLoad file = .ok cfg → cfg.raw = file ∧ ∀ k : ConfigKey,
      k.get cfg = (lastValue k ((lines file).flatMap (chunks 1023))).getD
        (k.get (gwConfigDefaults file)) := by
  have hpieces : C.fgetsAll 1024 file.length file = (lines file).flatMap (chunks 1023) :=
    C.fgetsAll_eq_chunks (by decide) (Nat.le_refl _)
  have hfree : ∀ l ∈ (lines file).flatMap (chunks 1023), (0 : UInt8) ∉ lineValue l := by
    intro l hl h0
    obtain ⟨l', hl', hl⟩ := List.mem_flatMap.1 hl
    have hmem := (lineValue_sublist l).subset h0
    have hfile : (0 : UInt8) ∈ (lines file).flatten :=
      List.mem_flatten.2 ⟨l', hl', mem_of_mem_chunks hl hmem⟩
    rw [lines_flatten] at hfile
    exact hnul hfile
  unfold gwConfigLoad
  rw [if_neg (Nat.not_lt.2 hsize), if_neg hnul, hpieces]
  generalize (lines file).flatMap (chunks 1023) = ls at hfree
  obtain ⟨hiff, hfields⟩ := configLines_iff ls (gwConfigDefaults file) 0
  cases hrun : configLines (gwConfigDefaults file) 0 ls with
  | error e =>
    have hno : ¬ Complete ls := by
      intro h
      obtain ⟨c, hc⟩ := hiff.2 h.1
      rw [hrun] at hc
      cases hc
    refine ⟨⟨?_, fun h => absurd h hno⟩, ?_⟩
    · rintro ⟨c, hc⟩
      cases hc
    · intro c hc
      cases hc
  | ok c =>
    obtain ⟨hraw, hget⟩ := hfields c hrun
    have hlines := hiff.1 ⟨c, hrun⟩
    have hreq := required_iff hfree (fun k => by rw [hraw]; exact hget k)
    dsimp only [bind, Except.bind]
    by_cases hall : ∀ k ∈ ConfigKey.required, ∃ l ∈ ls, (setting k l).isSome
    · rw [if_neg fun h => hreq.1 h hall]
      refine ⟨⟨fun _ => ⟨hlines, hall⟩, fun _ => ⟨c, rfl⟩⟩, ?_⟩
      intro cfg hcfg
      rw [← Except.ok.inj hcfg]
      exact ⟨hraw, hget⟩
    · rw [if_pos (hreq.2 hall)]
      refine ⟨⟨?_, fun h => absurd h.2 hall⟩, ?_⟩
      · rintro ⟨cfg, hcfg⟩
        cases hcfg
      · intro cfg hcfg
        cases hcfg

/-! ## The lines of the file -/

/-- The meaning of a configuration by its physical lines. A comment sets nothing. -/
structure MeansItsLines (file : Bytes) : Prop where
  loads : (∃ cfg, gwConfigLoad file = .ok cfg) ↔ Complete (lines file)
  fields : ∀ cfg, gwConfigLoad file = .ok cfg → cfg.raw = file ∧ ∀ k : ConfigKey,
    k.get cfg = (lastValue k (lines file)).getD (k.get (gwConfigDefaults file))

/-- The lines that do not fit the buffer can be cut behind every 1023rd byte: this leaves the file
acceptable or not, as it was, and every key at its value. -/
structure CutsAgree (file : Bytes) : Prop where
  complete : Complete ((lines file).flatMap (chunks 1023)) ↔ Complete (lines file)
  values : Complete (lines file) → ∀ k : ConfigKey,
    (lastValue k ((lines file).flatMap (chunks 1023))).getD (k.get (gwConfigDefaults file)) =
      (lastValue k (lines file)).getD (k.get (gwConfigDefaults file))

theorem setting_congr {l p : Bytes} (h : lineText p = lineText l) (k : ConfigKey) :
    setting k p = setting k l := by
  have hcond : (Silent p ∨ chr '=' ∉ lineText p ∨ lineKey p ≠ k.name) ↔
      (Silent l ∨ chr '=' ∉ lineText l ∨ lineKey l ≠ k.name) := by
    unfold Silent lineKey
    rw [h]
  have hvalue : lineValue p = lineValue l := by
    unfold lineValue
    rw [h]
  unfold setting
  rw [hvalue]
  exact if_congr hcond rfl rfl

theorem acceptable_congr {l p : Bytes} (h : lineText p = lineText l) :
    Acceptable p ↔ Acceptable l := by
  unfold Acceptable Silent
  simp only [h, setting_congr h]

theorem filterMap_setting_silent {ls : List Bytes} (h : ∀ l ∈ ls, Silent l) (k : ConfigKey) :
    ls.filterMap (setting k) = [] :=
  List.filterMap_eq_nil_iff.2 fun l hl => setting_silent (h l hl) k

/-- The cuts do no harm: a blank line or a comment is cut into such lines, and one of the pieces of
any other line has all its text, with only blank lines and comments around it. -/
inductive Harmless (l : Bytes) : Prop where
  | silent (h : Silent l) (hcut : ∀ p ∈ chunks 1023 l, Silent p)
  | whole {pre post : List Bytes} {p : Bytes} (hcut : chunks 1023 l = pre ++ p :: post)
      (htext : lineText p = lineText l) (hpre : ∀ q ∈ pre, Silent q) (hpost : ∀ q ∈ post, Silent q)

namespace Harmless

variable {l : Bytes}

theorem setting_eq (h : Harmless l) (k : ConfigKey) :
    (chunks 1023 l).filterMap (setting k) = (setting k l).toList := by
  cases h with
  | silent h hcut => rw [filterMap_setting_silent hcut, setting_silent h, Option.toList_none]
  | whole hcut htext hpre hpost =>
    rw [hcut, List.filterMap_append, filterMap_setting_silent hpre, List.nil_append,
      List.filterMap_cons, filterMap_setting_silent hpost, setting_congr htext]
    cases setting k l <;> rfl

theorem acceptable_iff (h : Harmless l) :
    (∀ p ∈ chunks 1023 l, Acceptable p) ↔ Acceptable l := by
  cases h with
  | silent h hcut => exact iff_of_true (fun p hp => .inl (hcut p hp)) (.inl h)
  | whole hcut htext hpre hpost =>
    rw [hcut, List.forall_mem_append, List.forall_mem_cons, acceptable_congr htext]
    exact ⟨fun h => h.2.1, fun h =>
      ⟨fun q hq => .inl (hpre q hq), h, fun q hq => .inl (hpost q hq)⟩⟩

theorem of_short (hne : l ≠ []) (h : l.length ≤ 1023) : Harmless l := by
  have hcut : chunks 1023 l = [] ++ l :: [] := chunks_short hne h
  exact .whole hcut rfl (by simp) (by simp)

end Harmless

/-- Lines that the cuts do no harm, whatever other lines there are. -/
theorem cutsAgree_of_harmless {file : Bytes} (h : ∀ l ∈ lines file, Harmless l) :
    CutsAgree file := by
  have hset : ∀ k : ConfigKey, ((lines file).flatMap (chunks 1023)).filterMap (setting k) =
      (lines file).filterMap (setting k) := by
    intro k
    rw [List.filterMap_flatMap, List.filterMap_eq_flatMap_toList]
    exact List.flatMap_congr fun l hl => (h l hl).setting_eq k
  have hlast : ∀ k : ConfigKey, lastValue k ((lines file).flatMap (chunks 1023)) =
      lastValue k (lines file) := fun k => congrArg List.getLast? (hset k)
  refine ⟨and_congr ?_ ?_, fun _ k => by rw [hlast k]⟩
  · rw [List.forall_mem_flatMap]
    exact forall₂_congr fun l hl => (h l hl).acceptable_iff
  · exact forall₂_congr fun k _ => by rw [← lastValue_isSome, hlast k, lastValue_isSome]

theorem cutsAgree_of_short {file : Bytes} (h : ∀ l ∈ lines file, l.length ≤ 1023) :
    CutsAgree file :=
  cutsAgree_of_harmless fun l hl => .of_short (ne_nil_of_mem_lines hl) (h l hl)

/-- **A configuration means what its lines say**, unless a line is too long for the buffer and its
pieces mean something else. -/
theorem config_means_lines_iff {file : Bytes} (hnul : (0 : UInt8) ∉ file)
    (hsize : file.length ≤ gwConfigMax) :
    MeansItsLines file ↔ (∀ l ∈ lines file, l.length ≤ 1023) ∨ CutsAgree file := by
  obtain ⟨hloads, hfields⟩ := gwConfigLoad_iff hnul hsize
  constructor
  · intro h
    refine .inr ⟨hloads.symm.trans h.loads, fun hall k => ?_⟩
    obtain ⟨cfg, hcfg⟩ := h.loads.2 hall
    rw [← (hfields cfg hcfg).2 k, (h.fields cfg hcfg).2 k]
  · intro h
    have hcut : CutsAgree file := h.elim cutsAgree_of_short id
    refine ⟨hloads.trans hcut.complete, fun cfg hcfg => ?_⟩
    obtain ⟨hraw, hget⟩ := hfields cfg hcfg
    have hall := hcut.complete.1 (hloads.1 ⟨cfg, hcfg⟩)
    exact ⟨hraw, fun k => (hget k).trans (hcut.values hall k)⟩

/-- The required keys and a comment. -/
def shortComment : Bytes :=
  ascii "socket_path=/s\nledger_path=/l\nwal_path=/w\nlog_path=/g\nmodel_id=m\n" ++
    ascii "# call_budget=0\n"

theorem config_means_lines_sample : MeansItsLines shortComment :=
  (config_means_lines_iff (by decide +kernel) (by decide +kernel)).2 (.inl (by decide +kernel))

/-- The required keys and a comment that is cut inside. -/
def cutComment : Bytes :=
  ascii "socket_path=/s\nledger_path=/l\nwal_path=/w\nlog_path=/g\nmodel_id=m\n" ++
    chr '#' :: List.replicate 1022 (chr ' ') ++ ascii "call_budget=0\n"

/-- The end of a comment sets the budget. -/
theorem config_comment_takes_effect : ¬ ∀ file : Bytes, (0 : UInt8) ∉ file →
    file.length ≤ gwConfigMax → MeansItsLines file := by
  intro h
  have hmeans := h cutComment (by decide +kernel) (by decide +kernel)
  have hzero : (gwConfigLoad cutComment).toOption.map GwConfig.callBudget = some 0 := by
    decide +kernel
  have hlines : lastValue .callBudget (lines cutComment) = none := by decide +kernel
  obtain ⟨cfg, hcfg, hbudget⟩ := Option.map_eq_some_iff.1 hzero
  cases hload : gwConfigLoad cutComment with
  | error e =>
    rw [hload] at hcfg
    cases hcfg
  | ok c =>
    rw [hload] at hcfg
    have hfield := (hmeans.fields c hload).2 .callBudget
    rw [hlines, Option.some.inj hcfg] at hfield
    exact absurd (hbudget.symm.trans hfield) (by decide +kernel)

end AxiomaOracle
