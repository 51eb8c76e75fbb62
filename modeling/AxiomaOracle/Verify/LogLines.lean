import AxiomaOracle.Lib.Split
import AxiomaOracle.Verify.Upstream

/-!
# Log lines read back

`gw_log` writes a line piece by piece, and `put_escaped` redacts and escapes in one pass. The pass
is `replaceAll` followed by the escape table, so a reader finds the message with the kept secret
replaced. What is kept is the API key only when it has fewer than 256 bytes, and a key that overlaps
the text `[redacted]` can come back with it: `log_redacts_iff` is the exact condition for the key to
be scrubbed.
-/

namespace AxiomaOracle

open Lib

/-! ## The pass over the message -/

/-- What stands for an occurrence of the secret. -/
def redactedMark : Bytes := ascii "[redacted]"

theorem putEscapedLoop_eq (secret : Bytes) {fuel : Nat} {src : Bytes} (h : src.length ≤ fuel) :
    putEscapedLoop secret fuel src = (replaceAll secret redactedMark src).flatMap jsonEscape := by
  induction fuel generalizing src with
  | zero =>
    obtain rfl := List.length_eq_zero_iff.1 (Nat.le_zero.1 h)
    by_cases hsecret : secret = []
    · rw [hsecret, replaceAll_nil_sep]
      rfl
    · rw [replaceAll_of_absent redactedMark fun hin => hsecret (List.infix_nil.1 hin)]
      rfl
  | succ fuel ih =>
    cases src with
    | nil =>
      by_cases hsecret : secret = []
      · rw [hsecret, replaceAll_nil_sep]
        rfl
      · rw [replaceAll_of_absent redactedMark fun hin => hsecret (List.infix_nil.1 hin)]
        rfl
    | cons c src =>
      rw [List.length_cons] at h
      rw [putEscapedLoop]
      split
      · next hpre =>
        obtain ⟨hsecret, r, hr⟩ := hpre
        have hpos := List.length_pos_iff.2 hsecret
        have hlen := congrArg List.length hr
        rw [List.length_append, List.length_cons] at hlen
        rw [← hr, List.drop_left, replaceAll_append redactedMark hsecret, List.flatMap_append,
          ih (by omega)]
        rfl
      · next hpre =>
        have hrest := ih (show src.length ≤ fuel by omega)
        by_cases hsecret : secret = []
        · rw [hsecret, replaceAll_nil_sep] at hrest ⊢
          rw [hrest, List.flatMap_cons]
        · rw [replaceAll_cons redactedMark hsecret fun hp => hpre ⟨hsecret, hp⟩, List.flatMap_cons,
            hrest]

/-- **One pass redacts and escapes.** -/
theorem putEscaped_eq (secret src : Bytes) :
    putEscaped secret src = (replaceAll secret redactedMark src).flatMap jsonEscape :=
  putEscapedLoop_eq secret (Nat.le_refl _)

/-! ## The members of a line -/

/-- Text that stands in quotes as it is: ASCII without controls, quote and backslash. -/
def Bare (s : Bytes) : Prop := ∀ b ∈ s, b ≠ 34 ∧ b ≠ 92 ∧ 0x20 ≤ b.toNat ∧ b.toNat < 0x80

instance (s : Bytes) : Decidable (Bare s) :=
  inferInstanceAs (Decidable (∀ b ∈ s, b ≠ 34 ∧ b ≠ 92 ∧ 0x20 ≤ b.toNat ∧ b.toNat < 0x80))

theorem Bare.stringText {s : Bytes} (h : Bare s) : Json.StringText s s :=
  Json.stringText_clean fun b hb => ⟨(h b hb).1, (h b hb).2.1, (h b hb).2.2.1⟩

/-- What a call of `gw_log` passes: words of the code, and a time stamp of `strftime`. -/
structure Worded (ts : Bytes) (e : LogEntry) : Prop where
  ts : Bare ts
  level : Bare e.level
  event : Bare e.event

def strMember (k : String) (hk : Bare (ascii k)) {s t : Bytes} (h : Json.StringText s t) :
    Json.Member :=
  ⟨ascii k, ascii k, .str s, 34 :: t ++ [34], hk.stringText, .str h⟩

def intMember (k : String) (hk : Bare (ascii k)) (m : Int) : Json.Member :=
  ⟨ascii k, ascii k, .num m 0, Json.numeral m, hk.stringText, .int m⟩

variable {secret ts : Bytes} {e : LogEntry}

def messageMember (secret m : Bytes) : Json.Member :=
  strMember "message" (by decide) (stringText_jsonEscape (replaceAll secret redactedMark m))

/-- The members behind the time stamp. -/
def logMembers (secret : Bytes) (h : Worded ts e) : List Json.Member :=
  strMember "level" (by decide) h.level.stringText ::
  strMember "event" (by decide) h.event.stringText ::
  ((e.message.map (messageMember secret)).toList ++
    ((if e.attempt ≥ 0 then [intMember "attempt" (by decide) e.attempt] else []) ++
      ((if e.status ≥ 0 then [intMember "status" (by decide) e.status] else []) ++
        if e.seq > 0 then [intMember "seq" (by decide) e.seq.toNat] else [])))

/-- The text of a line without its line feed. -/
def logText (secret : Bytes) (h : Worded ts e) : Bytes :=
  123 :: ((strMember "ts" (by decide) h.ts.stringText).text ++
    ((logMembers secret h).flatMap (44 :: Json.Member.text ·) ++ [125]))

theorem flatMap_ite {c : Prop} [Decidable c] {m : Json.Member} :
    (if c then [m] else []).flatMap (44 :: Json.Member.text ·) =
      if c then 44 :: m.text else [] := by
  split
  · rw [List.flatMap_singleton]
  · rfl

theorem flatMap_message (message : Option Bytes) :
    ((message.map (messageMember secret)).toList).flatMap (44 :: Json.Member.text ·) =
      message.elim [] fun m => ascii ",\"message\":\"" ++ putEscaped secret m ++ ascii "\"" := by
  cases message with
  | none => rfl
  | some m =>
    rw [Option.map_some, Option.toList_some, List.flatMap_singleton, Option.elim_some,
      putEscaped_eq, List.append_assoc]
    rfl

theorem logLine_elim (secret ts : Bytes) (e : LogEntry) :
    logLine secret ts e = ascii "\x7b\"ts\":\"" ++ ts ++ ascii "\",\"level\":\"" ++ e.level ++
      ascii "\",\"event\":\"" ++ e.event ++ ascii "\"" ++
      (e.message.elim [] fun m => ascii ",\"message\":\"" ++ putEscaped secret m ++ ascii "\"") ++
      (if e.attempt ≥ 0 then ascii ",\"attempt\":" ++ C.ld e.attempt else []) ++
      (if e.status ≥ 0 then ascii ",\"status\":" ++ C.ld e.status else []) ++
      (if e.seq > 0 then ascii ",\"seq\":" ++ decimal e.seq.toNat else []) ++ ascii "\x7d\n" := by
  obtain ⟨level, event, message, attempt, status, seq⟩ := e
  cases message <;> rfl

/-- A line is an object and a line feed. -/
theorem logLine_eq (h : Worded ts e) : logLine secret ts e = logText secret h ++ [10] := by
  rw [logLine_elim]
  unfold logText logMembers
  simp only [List.flatMap_cons, List.flatMap_append, flatMap_ite, flatMap_message]
  simp only [strMember, Json.Member.text, List.append_assoc, List.cons_append, List.nil_append]
  rfl

/-! ## The message a reader finds -/

/-- A reader of the log: the string member `message` of the object a line is. -/
def logMessage (line : Bytes) : Option Bytes :=
  match Json.value line.length line.dropLast with
  | some (.obj ms, []) =>
    match ms.lookup (ascii "message") with
    | some (.str m) => some m
    | _ => none
  | _ => none

theorem logText_denotes (secret : Bytes) (h : Worded ts e) :
    Json.Denotes (.obj ((strMember "ts" (by decide) h.ts.stringText :: logMembers secret h).map
      Json.Member.pair)) (logText secret h) := .members _ _

theorem logMessage_logLine {m : Bytes} (h : Worded ts e) (hm : e.message = some m) :
    logMessage (logLine secret ts e) = some (replaceAll secret redactedMark m) := by
  have hread := (logText_denotes secret h).read (logText secret h ++ [10]).length [] (by simp) nofun
  rw [List.append_nil] at hread
  rw [logLine_eq h, logMessage, List.dropLast_concat, hread]
  unfold logMembers
  rw [hm]
  rfl

/-! ## The key in what a reader finds -/

/-- The key and the mark meet: an occurrence of the key can start in a mark, or in front of one and
reach into it. -/
def MeetsMark (key : Bytes) : Prop := StartsIn key redactedMark ∨ ReachesInto key redactedMark

/-- A key that starts with a byte the mark does not have, and has no bracket. -/
theorem not_meetsMark {b : UInt8} {key : Bytes} (hb : b ∉ redactedMark)
    (hkey : chr '[' ∉ b :: key) : ¬ MeetsMark (b :: key) := by
  rintro (h | h)
  · exact not_startsIn hb h
  · exact not_reachesInto hkey h

/-- What redaction is for: a reader finds the message with the mark in the place of the leftmost
occurrences of the key, and no key in it. -/
def Scrubbed (key ts : Bytes) (e : LogEntry) : Prop :=
  ∀ m, e.message = some m → ∃ ps, Pieces key m ps ∧
    logMessage (logLine (logSecret key) ts e) = some (redactedMark.intercalate ps) ∧
    ¬ key <:+: redactedMark.intercalate ps

/-- What a reader finds for a key that is kept, and for one that is not. -/
theorem logMessage_kept {key m : Bytes} (h : Worded ts e) (hm : e.message = some m)
    (hlen : key.length < 256) :
    logMessage (logLine (logSecret key) ts e) = some (replaceAll key redactedMark m) := by
  rw [logMessage_logLine h hm, logSecret, if_pos hlen]

theorem logMessage_dropped {key m : Bytes} (h : Worded ts e) (hm : e.message = some m)
    (hlen : ¬ key.length < 256) : logMessage (logLine (logSecret key) ts e) = some m := by
  rw [logMessage_logLine h hm, logSecret, if_neg hlen, replaceAll_nil_sep]

/-- An entry with nothing but a message. -/
def messageEntry (m : Bytes) : LogEntry := ⟨[], [], some m, -1, -1, 0⟩

theorem worded_messageEntry (m : Bytes) : Worded [] (messageEntry m) := ⟨nofun, nofun, nofun⟩

/-- The replacement is made exactly when the key is kept, or there is nothing to replace. -/
theorem replaced_iff {key m : Bytes} {ps : List Bytes} (hkey : key ≠ []) (h : Worded ts e)
    (hm : e.message = some m) (hps : Pieces key m ps) :
    logMessage (logLine (logSecret key) ts e) = some (redactedMark.intercalate ps) ↔
      key.length < 256 ∨ ¬ key <:+: m := by
  have hnew := hps.replaceAll hkey redactedMark
  by_cases hlen : key.length < 256
  · rw [logMessage_kept h hm hlen, hnew]
    exact iff_of_true rfl (.inl hlen)
  · rw [logMessage_dropped h hm hlen]
    constructor
    · intro heq
      refine .inr fun hin => ?_
      have hmark := eq_of_intercalate_eq (hps.length.2 hin) (hps.join.trans (Option.some.inj heq))
      rw [hmark] at hlen
      exact hlen (by decide)
    · intro hno
      rw [← hnew, replaceAll_of_absent redactedMark (hno.resolve_left hlen)]

/-- A message with the key in it is logged as it is for a key that is not kept and for the mark. -/
theorem unchanged_iff {key m : Bytes} {ps : List Bytes} (hkey : key ≠ []) (h : Worded ts e)
    (hm : e.message = some m) (hps : Pieces key m ps) (hin : key <:+: m) :
    logMessage (logLine (logSecret key) ts e) = some m ↔
      256 ≤ key.length ∨ key = redactedMark := by
  by_cases hlen : key.length < 256
  · rw [logMessage_kept h hm hlen, hps.replaceAll hkey redactedMark]
    constructor
    · intro heq
      have hjoin := (Option.some.inj heq).trans hps.join.symm
      exact .inr (eq_of_intercalate_eq (hps.length.2 hin) hjoin).symm
    · intro heq
      obtain rfl : key = redactedMark := heq.resolve_left (by omega)
      rw [hps.join]
  · rw [logMessage_dropped h hm hlen]
    exact iff_of_true rfl (.inl (Nat.le_of_not_lt hlen))

/-- A key that is kept and does not meet the mark is in no message a reader finds. -/
theorem scrubbed_of_kept {key : Bytes} (hkey : key ≠ []) (h : Worded ts e)
    (hlen : key.length < 256) (hmeets : ¬ MeetsMark key) : Scrubbed key ts e := by
  intro m hm
  obtain ⟨ps, hps⟩ := exists_pieces hkey m
  refine ⟨ps, hps, (replaced_iff hkey h hm hps).2 (.inl hlen), ?_⟩
  exact hps.not_infix hkey (fun hs => hmeets (.inl hs)) fun hr => hmeets (.inr hr)

/-- **The key is scrubbed from every message exactly when it is kept and does not meet the mark.**
For each message, `ps` are the stretches between the leftmost occurrences of the key: they are
joined with the mark exactly when the key is kept or does not occur; unless the key meets the mark
it is gone then, too; and a message with the key in it is logged as it is for a key that is not kept
and for the mark itself. -/
theorem log_redacts_iff {key : Bytes} (hkey : key ≠ []) :
    ((∀ ts e, Worded ts e → Scrubbed key ts e) ↔ key.length < 256 ∧ ¬ MeetsMark key) ∧
    ∀ ts e m, Worded ts e → e.message = some m →
      ∃ ps, Pieces key m ps ∧ key.intercalate ps = m ∧
        (logMessage (logLine (logSecret key) ts e) = some (redactedMark.intercalate ps) ↔
          key.length < 256 ∨ ¬ key <:+: m) ∧
        (¬ MeetsMark key → (Scrubbed key ts e ↔ key.length < 256 ∨ ¬ key <:+: m)) ∧
        (key <:+: m → (logMessage (logLine (logSecret key) ts e) = some m ↔
          256 ≤ key.length ∨ key = redactedMark)) := by
  constructor
  · constructor
    · intro hall
      have hlen : key.length < 256 := by
        by_contra hlen
        obtain ⟨ps, -, hfound, hgone⟩ := hall [] _ (worded_messageEntry key) key rfl
        rw [logMessage_dropped (worded_messageEntry key) rfl hlen] at hfound
        rw [← Option.some.inj hfound] at hgone
        exact hgone List.infix_rfl
      have hnone : ∀ s, key <:+: s → ¬ key <:+: replaceAll key redactedMark s := by
        intro s _
        obtain ⟨ps, hps, -, hgone⟩ := hall [] _ (worded_messageEntry s) s rfl
        rwa [hps.replaceAll hkey]
      obtain ⟨hstart, hreach⟩ := (forall_not_infix_replaceAll_iff hkey).1 hnone
      exact ⟨hlen, fun h => h.elim hstart hreach⟩
    · rintro ⟨hlen, hmeets⟩ ts e h
      exact scrubbed_of_kept hkey h hlen hmeets
  · intro ts e m h hm
    obtain ⟨ps, hps⟩ := exists_pieces hkey m
    refine ⟨ps, hps, hps.join, replaced_iff hkey h hm hps, fun hmeets => ?_,
      unchanged_iff hkey h hm hps⟩
    constructor
    · intro hscrubbed
      obtain ⟨ps', hps', hfound, -⟩ := hscrubbed m hm
      exact (replaced_iff hkey h hm hps').1 hfound
    · rintro (hlen | hno)
      · exact scrubbed_of_kept hkey h hlen hmeets
      · intro m' hm'
        cases hm.symm.trans hm'
        refine ⟨ps, hps, (replaced_iff hkey h hm hps).2 (.inr hno), ?_⟩
        rwa [← hps.replaceAll hkey, replaceAll_of_absent redactedMark hno]

/-- The time stamp at the epoch. -/
def epochStamp : Bytes := ascii "1970-01-01T00:00:00Z"

/-- An upstream error that quotes the key. -/
def quotingEntry : LogEntry :=
  ⟨ascii "error", ascii "oracle_fail", some (ascii "invalid x-api-key: sk-ant-1."), 1, 401, 0⟩

theorem log_redacts_iff_sample :
    (∀ ts e, Worded ts e → Scrubbed (ascii "sk-ant-1") ts e) ∧
    ∃ ps, Pieces (ascii "sk-ant-1") (ascii "invalid x-api-key: sk-ant-1.") ps ∧
      logMessage (logLine (logSecret (ascii "sk-ant-1")) epochStamp quotingEntry) =
        some (redactedMark.intercalate ps) := by
  have hworded : Worded epochStamp quotingEntry := ⟨by decide, by decide, by decide⟩
  have hkey : ascii "sk-ant-1" ≠ [] := by decide
  have hmeets : ¬ MeetsMark (ascii "sk-ant-1") := not_meetsMark (by decide) (by decide)
  obtain ⟨hall, heach⟩ := log_redacts_iff hkey
  obtain ⟨ps, hps, -, hiff, -⟩ := heach _ _ _ hworded rfl
  exact ⟨hall.2 ⟨by decide, hmeets⟩, ps, hps, hiff.2 (.inl (by decide))⟩

/-- A key of 256 bytes, and a message that is the key. -/
def longKey : Bytes := List.replicate 256 (chr 'k')

def longKeyEntry : LogEntry := { quotingEntry with message := some longKey }

/-- **A key of 256 bytes is logged as it is.** -/
theorem long_key_logged : longKey ≠ [] ∧ apiKeyCheck longKey = true ∧
    logMessage (logLine (logSecret longKey) epochStamp longKeyEntry) = some longKey ∧
    replaceAll longKey redactedMark longKey = redactedMark := by
  have hkey : longKey ≠ [] := List.cons_ne_nil _ _
  have hworded : Worded epochStamp longKeyEntry := ⟨by decide, by decide, by decide⟩
  have hlen : longKey.length = 256 := List.length_replicate
  have hsecret : logSecret longKey = [] := if_neg (by omega)
  refine ⟨hkey, ?_, ?_, ?_⟩
  · simp only [apiKeyCheck, longKey, List.any_replicate]
    decide
  · rw [logMessage_logLine hworded rfl, hsecret, replaceAll_nil_sep]
  · have hone := replaceAll_append redactedMark hkey []
    have hnil : replaceAll longKey redactedMark [] = [] :=
      replaceAll_of_absent redactedMark fun hin => hkey (List.infix_nil.1 hin)
    rwa [List.append_nil, hnil, List.append_nil] at hone

end AxiomaOracle
