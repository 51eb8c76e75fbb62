import AxiomaOracle.Gateway.Config
import AxiomaOracle.Verify.AdmissionRuns

/-!
# What a loaded configuration satisfies

The loader checks each value as it reads it, and a later line may set a key again: the bounds are an
invariant of the line loop, from the defaults to the last line. Only `model_id` has no default that
passes its own check, so it may be empty until the final check.
-/

namespace AxiomaOracle

open Lib

/-- The invariant of the line loop. -/
structure Loading (cfg : GwConfig) : Prop where
  modelId : cfg.modelId.bytes = [] ∨ IdAdmitted (some cfg.modelId) 255
  oracleId : IdAdmitted (some cfg.oracleId) 255
  callBudget : 0 ≤ cfg.callBudget
  defaultMaxTokens : 1 ≤ cfg.defaultMaxTokens ∧ cfg.defaultMaxTokens ≤ 200000
  maxPromptBytes : 1 ≤ cfg.maxPromptBytes ∧ cfg.maxPromptBytes ≤ 1048576
  walPath : cfg.walPath.bytes.length < gwPathMax

/-- A configuration as `gw_config_load` leaves it. -/
structure Loaded (cfg : GwConfig) : Prop extends Loading cfg where
  required : cfg.socketPath.bytes ≠ [] ∧ cfg.ledgerPath.bytes ≠ [] ∧ cfg.walPath.bytes ≠ [] ∧
    cfg.logPath.bytes ≠ []
  named : IdAdmitted (some cfg.modelId) 255

theorem except_bind_ok {ε α β : Type} {x : Except ε α} {f : α → β} {b : β}
    (h : (do return f (← x)) = Except.ok b) : ∃ a, x = .ok a ∧ b = f a := by
  cases x with
  | error e => simp [bind, Except.bind] at h
  | ok a => exact ⟨a, rfl, by simpa [bind, Except.bind, pure, Except.pure] using h.symm⟩

theorem ite_ok {ε α : Type} {c : Prop} [Decidable c] {x y : Except ε α} {a : α}
    (h : (if c then x else y) = .ok a) : x = .ok a ∨ y = .ok a := by
  split at h
  · exact .inl h
  · exact .inr h

/-! ## Value checks -/

theorem IdAdmitted.mono {s : Option CStr} {m n : Nat} (h : IdAdmitted s m) (hmn : m ≤ n) :
    IdAdmitted s n := by
  obtain ⟨c, hs, hpos, hle, hrest⟩ := h
  exact ⟨c, hs, hpos, Nat.le_trans hle hmn, hrest⟩

theorem setId_ok {axMax lineno : Nat} {key v : Bytes} {s : CStr}
    (h : setId gwIdMax axMax key v lineno = .ok s) : IdAdmitted (some s) 255 := by
  unfold setId at h
  split at h
  · exact absurd h (by simp)
  · exact absurd h (by simp)
  · rename_i hcheck
    have hid : IdAdmitted (some (.ofBytes v)) axMax := by
      apply (idIsWellFormed_iff _ _).1
      unfold axObsIdentifierCheck at hcheck
      split at hcheck
      · cases hcheck
      · split at hcheck
        · cases hcheck
        · rename_i hlong hform
          exact ⟨by simpa using hlong, by simpa using hform⟩
    split at h
    · exact absurd h (by simp)
    · rename_i hcap
      have hs : s = .ofBytes v := by
        unfold setStr at h
        split at h <;> simp_all
      obtain ⟨c, hc, hpos, -, hrest⟩ := hid
      have hlen := CStr.ofBytes_length_le v
      rw [← Option.some.inj hc] at hpos hrest
      rw [hs]
      exact ⟨_, rfl, hpos, by unfold gwIdMax at hcap; omega, hrest⟩

theorem setLong_ok {v : Bytes} {lo hi x : Int} (h : setLong v lo hi = some x) :
    lo ≤ x ∧ x ≤ hi := by
  unfold setLong at h
  split at h
  · cases h
  · split at h
    · cases h
    · rename_i hcond
      obtain rfl := Option.some.inj h
      rw [not_or, not_or] at hcond
      omega

theorem setStr_length {cap : Nat} {v : Bytes} {s : CStr} (h : setStr cap v = some s) :
    s.bytes.length < cap := by
  unfold setStr at h
  split at h
  · cases h
  · cases h
    have := CStr.ofBytes_length_le v
    omega

/-! ## The line loop -/

theorem loading_defaults (raw : Bytes) : Loading (gwConfigDefaults raw) where
  modelId := .inl rfl
  oracleId := by
    have hid : idTooLong (some (CStr.ofBytes (ascii "anthropic-messages-api"))) 255 = false ∧
        idIsWellFormed (some (CStr.ofBytes (ascii "anthropic-messages-api"))) = true := by
      decide +kernel
    exact (idIsWellFormed_iff _ _).1 hid
  callBudget := show (0 : Int) ≤ 25 by decide
  defaultMaxTokens := show (1 : Int) ≤ 1024 ∧ (1024 : Int) ≤ 200000 by decide
  maxPromptBytes := show (1 : Int) ≤ 32768 ∧ (32768 : Int) ≤ 1048576 by decide
  walPath := by
    have hnil : (gwConfigDefaults raw).walPath.bytes = [] := CStr.ofBytes_of_nulFree (by simp)
    rw [hnil]
    decide

/-- A value that may be missing, with the message for that. -/
theorem badValue_ok {α : Type} {r : Option α} {e : ConfigError} {a : α}
    (h : (match r with
      | some x => Except.ok x
      | none => .error e) = .ok a) : r = some a := by
  cases r with
  | none => cases h
  | some x => exact congrArg some (Except.ok.inj h)

/-- One key: the fields the invariant is about are set only through their own checks. -/
theorem setKey_loading {cfg cfg' : GwConfig} {lineno : Nat} {key val : Bytes} (h : Loading cfg)
    (hset : setKey cfg lineno key val = .ok cfg') : Loading cfg' := by
  unfold setKey at hset
  -- the socket and the ledger
  iterate 2
    obtain hset | hset := ite_ok hset
    · obtain ⟨x, -, rfl⟩ := except_bind_ok hset
      exact ⟨h.modelId, h.oracleId, h.callBudget, h.defaultMaxTokens, h.maxPromptBytes, h.walPath⟩
  obtain hset | hset := ite_ok hset
  · obtain ⟨x, hx, rfl⟩ := except_bind_ok hset
    exact ⟨h.modelId, h.oracleId, h.callBudget, h.defaultMaxTokens, h.maxPromptBytes,
      setStr_length (badValue_ok hx)⟩
  -- the log, the URL and the API version
  iterate 3
    obtain hset | hset := ite_ok hset
    · obtain ⟨x, -, rfl⟩ := except_bind_ok hset
      exact ⟨h.modelId, h.oracleId, h.callBudget, h.defaultMaxTokens, h.maxPromptBytes, h.walPath⟩
  obtain hset | hset := ite_ok hset
  · obtain ⟨x, hx, rfl⟩ := except_bind_ok hset
    exact ⟨.inr (setId_ok hx), h.oracleId, h.callBudget, h.defaultMaxTokens, h.maxPromptBytes,
      h.walPath⟩
  obtain hset | hset := ite_ok hset
  · obtain ⟨x, hx, rfl⟩ := except_bind_ok hset
    exact ⟨h.modelId, setId_ok hx, h.callBudget, h.defaultMaxTokens, h.maxPromptBytes, h.walPath⟩
  -- the optional paths, the timeouts, the attempts and the response size
  iterate 6
    obtain hset | hset := ite_ok hset
    · obtain ⟨x, -, rfl⟩ := except_bind_ok hset
      exact ⟨h.modelId, h.oracleId, h.callBudget, h.defaultMaxTokens, h.maxPromptBytes, h.walPath⟩
  obtain hset | hset := ite_ok hset
  · obtain ⟨x, hx, rfl⟩ := except_bind_ok hset
    exact ⟨h.modelId, h.oracleId, (setLong_ok (badValue_ok hx)).1, h.defaultMaxTokens,
      h.maxPromptBytes, h.walPath⟩
  obtain hset | hset := ite_ok hset
  · obtain ⟨x, hx, rfl⟩ := except_bind_ok hset
    exact ⟨h.modelId, h.oracleId, h.callBudget, setLong_ok (badValue_ok hx), h.maxPromptBytes,
      h.walPath⟩
  obtain hset | hset := ite_ok hset
  · obtain ⟨x, hx, rfl⟩ := except_bind_ok hset
    exact ⟨h.modelId, h.oracleId, h.callBudget, h.defaultMaxTokens, setLong_ok (badValue_ok hx),
      h.walPath⟩
  · cases hset

theorem configLine_loading {cfg cfg' : GwConfig} {lineno : Nat} {line : Bytes} (h : Loading cfg)
    (hline : configLine cfg lineno line = .ok cfg') : Loading cfg' := by
  unfold configLine at hline
  obtain hblank | hline := ite_ok hline
  · rw [← Except.ok.inj hblank]
    exact h
  · obtain hmissing | hline := ite_ok hline
    · cases hmissing
    · exact setKey_loading h hline

theorem configLines_loading {cfg cfg' : GwConfig} {lineno : Nat} {lines : List Bytes}
    (h : Loading cfg) (hlines : configLines cfg lineno lines = .ok cfg') : Loading cfg' := by
  induction lines generalizing cfg lineno with
  | nil =>
    rw [← Except.ok.inj hlines]
    exact h
  | cons line lines ih =>
    rw [configLines] at hlines
    cases hline : configLine cfg (lineno + 1) line with
    | error e =>
      rw [hline] at hlines
      cases hlines
    | ok c =>
      rw [hline] at hlines
      exact ih (configLine_loading h hline) hlines

/-- **A configuration that loads is usable.** -/
theorem gwConfigLoad_ok {file : Bytes} {cfg : GwConfig} (h : gwConfigLoad file = .ok cfg) :
    Loaded cfg := by
  unfold gwConfigLoad at h
  split at h
  · cases h
  split at h
  · cases h
  cases hlines : configLines (gwConfigDefaults file) 0 (C.fgetsAll 1024 file.length file) with
  | error e =>
    rw [hlines] at h
    cases h
  | ok c =>
    rw [hlines] at h
    have hload := configLines_loading (loading_defaults file) hlines
    change (if _ then _ else _) = _ at h
    split at h
    · cases h
    · rename_i hreq
      obtain rfl := Except.ok.inj h
      simp only [not_or] at hreq
      exact ⟨hload, ⟨hreq.1, hreq.2.1, hreq.2.2.1, hreq.2.2.2.1⟩,
        hload.modelId.resolve_left hreq.2.2.2.2⟩

end AxiomaOracle
