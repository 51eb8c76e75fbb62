import AxiomaOracle.Lib.JsonGrammar
import AxiomaOracle.Gateway.Client
import AxiomaOracle.Verify.Canonical
import AxiomaOracle.Verify.Escapes
import AxiomaOracle.Verify.LogLines
import AxiomaOracle.Verify.Scan

/-!
# The log line of a failed call

A response that is no success is logged with the message its body names, or with `errbuf`, which
quotes 400 bytes of the body. The extracted message is UTF-8 whenever the body is. The quoted one is
so exactly when a character starts at byte 400: `failure_line_decodes_iff`.
-/

namespace AxiomaOracle

open Lib

/-! ## What `gwc_call` leaves -/

section Call

variable {cfg : GwConfig} {net : Nat → Attempt} {res : GwcResult}

/-- The failure of a call is that of its last transfer. -/
theorem gwcCallFrom_httpFail {left : Nat} {res0 : GwcResult} (hpos : 0 < left)
    (h : gwcCallFrom cfg net left res0 = some res) (hfail : res.outcome = .httpFail) :
    ∃ n t, net n = .transfer t ∧ t.rc = .ok ∧ t.status ≠ 200 ∧ res.httpStatus = t.status.toInt ∧
      res.body = (deliver cfg.maxResponseBytes.toNat {} t.chunks).buf ∧
      res.errbuf = httpErrbuf t.status (res.body.getD []) := by
  induction left generalizing res0 with
  | zero => cases hpos
  | succ left ih =>
    rw [gwcCallFrom] at h
    dsimp only at h
    split at h
    · cases h
    · cases h
      cases hfail
    · next t hnet =>
      split at h
      · cases h
        cases hfail
      split at h
      · cases h
        cases hfail
      split at h
      · cases h
        cases hfail
      next hrc =>
      split at h
      · cases h
        cases hfail
      next hstatus =>
      split at h
      · next hretry =>
        -- a retry is made only while attempts are left
        exact ih (by omega) h
      · cases h
        exact ⟨_, t, hnet, not_not.1 hrc, hstatus, rfl, rfl, rfl⟩

/-- No attempt is made when none is configured. -/
theorem gwcCall_httpFail (h : gwcCall cfg net = some res) (hfail : res.outcome = .httpFail) :
    (∃ n t, net n = .transfer t ∧ t.rc = .ok ∧ t.status ≠ 200 ∧ res.httpStatus = t.status.toInt ∧
      res.body = (deliver cfg.maxResponseBytes.toNat {} t.chunks).buf ∧
      res.errbuf = httpErrbuf t.status (res.body.getD [])) ∨
    (res.body = none ∧ res.errbuf.bytes = []) := by
  unfold gwcCall at h
  rcases Nat.eq_zero_or_pos cfg.maxAttempts.toNat with hzero | hpos
  · rw [hzero, gwcCallFrom] at h
    cases h
    exact .inr ⟨rfl, rfl⟩
  · exact .inl (gwcCallFrom_httpFail hpos h hfail)

end Call

/-! ## The message -/

/-- The message of the `oracle_fail` line. -/
def failMessage (res : GwcResult) : Bytes :=
  match res.body.bind fun body => gwjErrorMessage body 400 with
  | some em => cstr em
  | none => res.errbuf.bytes

def failEntry (res : GwcResult) : LogEntry :=
  ⟨ascii "error", ascii "oracle_fail", some (failMessage res), res.attempts, res.httpStatus, 0⟩

theorem outcomeOf_httpFail (cfg : GwConfig) (secret : Bytes) {res : GwcResult}
    (h : res.outcome = .httpFail) : outcomeOf cfg secret res = (do
      gwLog secret (failEntry res)
      return .failed .transportError) := by
  unfold outcomeOf failEntry failMessage
  rw [h]
  cases res.body.bind fun body => gwjErrorMessage body 400 with
  | none => rfl
  | some em => rfl

/-- What is logged of the body is not cut inside a character: the body names its error, or none is
under way at byte 400. -/
def Whole (body : Bytes) : Prop :=
  (gwjErrorMessage body 400).isSome = true ∨ ∀ b, body[400]? = some b → Utf8.isTail b = false

theorem valid_cstr {s : Bytes} (h : Utf8.Valid s) : Utf8.Valid (cstr s) := by
  unfold cstr CStr.ofBytes
  have hcut := List.takeWhile_append_dropWhile (p := (· != (0 : UInt8))) (l := s)
  cases hrest : s.dropWhile (· != 0) with
  | nil =>
    rw [hrest, List.append_nil] at hcut
    dsimp only
    rwa [hcut]
  | cons b t =>
    have hzero : b = 0 := by
      have hb := List.head?_dropWhile_not (· != (0 : UInt8)) s
      rw [hrest] at hb
      simpa using hb
    rw [← hcut, hrest, hzero] at h
    exact (h.split (by decide)).1

theorem httpErrbuf_bytes (status : Int64) {body : Bytes} (h : (0 : UInt8) ∉ body) :
    (httpErrbuf status body).bytes = ascii "HTTP " ++ C.ld status.toInt ++
      (if body.length ≠ 0 then ascii ": " else []) ++ body.take 400 := by
  have hnumber : (0 : UInt8) ∉ C.ld status.toInt := by
    intro hmem
    exact absurd (C.ld_digits _ _ hmem) (by decide)
  have hcolon : (0 : UInt8) ∉ (if body.length ≠ 0 then ascii ": " else []) := by
    split <;> decide
  have hcut : (0 : UInt8) ∉ body.take 400 := fun hmem => h (List.mem_of_mem_take hmem)
  have hshort := numeral_length_le_20 status
  have hlen : (if body.length ≠ 0 then ascii ": " else []).length ≤ 2 := by
    split <;> decide
  have htake := List.length_take_le 400 body
  have hhttp : (ascii "HTTP ").length = 5 := rfl
  rw [httpErrbuf, errbufOf, CStr.ofBytes_of_nulFree hcut, List.take_of_length_le]
  · refine CStr.ofBytes_of_nulFree fun hmem => ?_
    rcases List.mem_append.1 hmem with hmem | hmem
    · rcases List.mem_append.1 hmem with hmem | hmem
      · rcases List.mem_append.1 hmem with hmem | hmem
        · exact absurd hmem (by decide)
        · exact hnumber hmem
      · exact hcolon hmem
    · exact hcut hmem
  · simp only [List.length_append, C.ld]
    omega

theorem httpErrbuf_valid_iff (status : Int64) {body : Bytes} (hv : Utf8.Valid body)
    (h : (0 : UInt8) ∉ body) : Utf8.Valid (httpErrbuf status body).bytes ↔
      ∀ b, body[400]? = some b → Utf8.isTail b = false := by
  have hfront : Utf8.Valid (ascii "HTTP " ++ C.ld status.toInt ++
      (if body.length ≠ 0 then ascii ": " else [])) := by
    refine (Utf8.Valid.append (.of_ascii (by decide)) (Json.numeral_valid _)).append (.of_ascii ?_)
    split <;> decide
  rw [httpErrbuf_bytes status h, Utf8.valid_append_iff hfront, hv.take_iff]

/-- **The message is UTF-8** exactly when it is not cut inside a character. -/
theorem failMessage_valid_iff {cfg : GwConfig} {net : Nat → Attempt} {res : GwcResult}
    (h : gwcCall cfg net = some res) (hfail : res.outcome = .httpFail)
    (hv : Utf8.Valid (res.body.getD [])) (hnul : (0 : UInt8) ∉ res.body.getD []) :
    Utf8.Valid (failMessage res) ↔ Whole (res.body.getD []) := by
  have herrbuf : Utf8.Valid res.errbuf.bytes ↔
      ∀ b, (res.body.getD [])[400]? = some b → Utf8.isTail b = false := by
    rcases gwcCall_httpFail h hfail with ⟨_, t, -, -, -, -, -, herr⟩ | ⟨hbody, herr⟩
    · rw [herr]
      exact httpErrbuf_valid_iff t.status hv hnul
    · rw [herr, hbody]
      exact iff_of_true .nil nofun
  unfold failMessage Whole
  cases hbody : res.body with
  | none =>
    rw [hbody] at herrbuf
    have hnone : gwjErrorMessage [] 400 = none := by decide
    rw [Option.bind_none, Option.getD_none, hnone]
    simpa using herrbuf
  | some body =>
    rw [hbody, Option.getD_some] at hv herrbuf
    rw [Option.bind_some, Option.getD_some]
    cases hem : gwjErrorMessage body 400 with
    | none => simpa using herrbuf
    | some em => exact iff_of_true (valid_cstr (gwjErrorMessage_valid hv hem)) (.inl rfl)

/-! ## The line -/

/-- What a reader of the log needs: one line of UTF-8 that is a JSON object. -/
def LineDecodes (line : Bytes) : Prop :=
  ∃ l ms, line = l ++ [10] ∧ 10 ∉ l ∧ Json.decode l = some (.obj ms)

def Printable (s : Bytes) : Prop := ∀ b ∈ s, 0x20 ≤ b.toNat ∧ b.toNat < 0x80

instance (s : Bytes) : Decidable (Printable s) :=
  inferInstanceAs (Decidable (∀ b ∈ s, 0x20 ≤ b.toNat ∧ b.toNat < 0x80))

theorem Printable.append {s t : Bytes} (hs : Printable s) (ht : Printable t) : Printable (s ++ t) :=
  fun b hb => (List.mem_append.1 hb).elim (hs b) (ht b)

theorem Printable.ite {c : Prop} [Decidable c] {s : Bytes} (h : Printable s) :
    Printable (if c then s else []) := by
  split
  · exact h
  · exact fun b hb => absurd hb List.not_mem_nil

theorem Printable.ld (v : Int) : Printable (C.ld v) := by
  have hall : Printable (ascii "0123456789") := by decide
  intro b hb
  rcases C.ld_digits v b hb with h | rfl
  · exact hall b (mem_digits h)
  · decide

theorem Bare.printable {s : Bytes} (h : Bare s) : Printable s :=
  fun b hb => ⟨(h b hb).2.2.1, (h b hb).2.2.2⟩

section Line

variable {secret ts m : Bytes} {e : LogEntry}

/-- The message stands between printable bytes. -/
theorem logText_around (secret : Bytes) (h : Worded ts e) (hm : e.message = some m) :
    ∃ pre post, Printable pre ∧
    Printable post ∧ post ≠ [] ∧ logText secret h = pre ++ (putEscaped secret m ++ post) := by
  have hline : logLine secret ts e = logText secret h ++ [10] := logLine_eq h
  have hend : ascii "\x7d\n" = ascii "\x7d" ++ [10] := rfl
  rw [logLine_elim, hm, Option.elim_some, hend, ← List.append_assoc] at hline
  have htext := List.append_cancel_right hline
  refine ⟨ascii "\x7b\"ts\":\"" ++ ts ++ ascii "\",\"level\":\"" ++ e.level ++
    ascii "\",\"event\":\"" ++ e.event ++ ascii "\"" ++ ascii ",\"message\":\"",
    ascii "\"" ++ (if e.attempt ≥ 0 then ascii ",\"attempt\":" ++ C.ld e.attempt else []) ++
    (if e.status ≥ 0 then ascii ",\"status\":" ++ C.ld e.status else []) ++
    (if e.seq > 0 then ascii ",\"seq\":" ++ decimal e.seq.toNat else []) ++ ascii "\x7d", ?_, ?_,
    ?_, ?_⟩
  · have hts := Printable.append (s := ascii "\x7b\"ts\":\"") (by decide) h.ts.printable
    have hlevel := (hts.append (t := ascii "\",\"level\":\"") (by decide)).append h.level.printable
    have hevent :=
      (hlevel.append (t := ascii "\",\"event\":\"") (by decide)).append h.event.printable
    exact (hevent.append (t := ascii "\"") (by decide)).append (by decide)
  · have hattempt : Printable (ascii ",\"attempt\":" ++ C.ld e.attempt) :=
      Printable.append (by decide) (.ld _)
    have hstatus : Printable (ascii ",\"status\":" ++ C.ld e.status) :=
      Printable.append (by decide) (.ld _)
    have hseq : Printable (ascii ",\"seq\":" ++ decimal e.seq.toNat) :=
      Printable.append (by decide) (.ld (.ofNat e.seq.toNat))
    exact (((Printable.append (s := ascii "\"") (by decide) hattempt.ite).append hstatus.ite).append
      hseq.ite).append (by decide)
  · exact List.append_ne_nil_of_right_ne_nil _ (by decide)
  · rw [← htext]
    simp only [List.append_assoc]

/-- **A line is read** exactly when its redacted message is UTF-8. -/
theorem logLine_decodes_iff (h : Worded ts e) (hm : e.message = some m) :
    LineDecodes (logLine secret ts e) ↔ Utf8.Valid (replaceAll secret redactedMark m) := by
  obtain ⟨pre, post, hpre, hpost, hne, htext⟩ := logText_around secret h hm
  have hvalid : Utf8.Valid (logText secret h) ↔ Utf8.Valid (replaceAll secret redactedMark m) := by
    have hescaped : Utf8.Valid ((replaceAll secret redactedMark m).flatMap jsonEscape) ↔
        Utf8.Valid (replaceAll secret redactedMark m) :=
      Json.flatMap_valid_iff (fun b hb => ⟨jsonEscape_ne_nil b, jsonEscape_low hb⟩)
        (fun b hb => jsonEscape_high hb) _
    have hafter : Utf8.Valid post := .of_ascii fun b hb => (hpost b hb).2
    have haround := hafter.around (l := putEscaped secret m) (r := []) hne
    rw [List.append_nil] at haround
    rw [htext, Utf8.valid_append_iff (.of_ascii fun b hb => (hpre b hb).2), haround,
      putEscaped_eq, hescaped]
    exact and_iff_left .nil
  constructor
  · rintro ⟨l, ms, hline, -, hdecode⟩
    rw [logLine_eq h] at hline
    rw [← List.append_cancel_right hline] at hdecode
    exact hvalid.1 (Json.decode_iff.1 hdecode).1
  · intro hm
    refine ⟨logText secret h, _, logLine_eq h, ?_,
      Json.decode_of_denotes (hvalid.2 hm) (logText_denotes secret h)⟩
    rw [htext]
    intro hmem
    have hlow : ¬ 0x20 ≤ (10 : UInt8).toNat := by decide
    rcases List.mem_append.1 hmem with hmem | hmem
    · exact hlow (hpre _ hmem).1
    rcases List.mem_append.1 hmem with hmem | hmem
    · rw [putEscaped_eq] at hmem
      obtain ⟨c, -, hc⟩ := List.mem_flatMap.1 hmem
      exact hlow (jsonEscape_printable c _ hc)
    · exact hlow (hpost _ hmem).1

end Line

theorem failEntry_worded {ts : Bytes} (hts : Bare ts) (res : GwcResult) :
    Worded ts (failEntry res) :=
  ⟨hts, show Bare (ascii "error") by decide, show Bare (ascii "oracle_fail") by decide⟩

/-- A kept key leaves the stretches around it. -/
theorem failEntry_decodes_pieces {key ts : Bytes} {res : GwcResult} {ps : List Bytes}
    (hkey : key ≠ [])
    (hlen : key.length < 256) (hts : Bare ts) (hps : Pieces key (failMessage res) ps) :
    LineDecodes (logLine (logSecret key) ts (failEntry res)) ↔ ∀ p ∈ ps, Utf8.Valid p := by
  have hmark : Utf8.Valid redactedMark := .of_ascii (by decide)
  rw [logLine_decodes_iff (failEntry_worded hts res) rfl, logSecret, if_pos hlen,
    hps.replaceAll hkey, Utf8.valid_intercalate hmark (by decide)]

/-- Scrubbing a text cuts no character. -/
theorem failEntry_decodes_iff {key ts : Bytes} {res : GwcResult} (hkey : key ≠ [])
    (htext : 256 ≤ key.length ∨ Utf8.Valid key) (hts : Bare ts) :
    LineDecodes (logLine (logSecret key) ts (failEntry res)) ↔ Utf8.Valid (failMessage res) := by
  by_cases hlen : key.length < 256
  · obtain ⟨ps, hps⟩ := exists_pieces hkey (failMessage res)
    have hjoin := Utf8.valid_intercalate (htext.resolve_left (by omega)) hkey ps
    rw [failEntry_decodes_pieces hkey hlen hts hps, ← hjoin, hps.join]
  · rw [logLine_decodes_iff (failEntry_worded hts res) rfl, logSecret, if_neg hlen,
      replaceAll_nil_sep]

/-- **The line of a failed call is read** exactly when its message is not cut inside a character. A
key that is no text may also cut one where it is scrubbed: then the stretches around it count. -/
theorem failure_line_decodes_iff {cfg : GwConfig} {net : Nat → Attempt} {res : GwcResult}
    (h : gwcCall cfg net = some res) (hfail : res.outcome = .httpFail)
    (hv : Utf8.Valid (res.body.getD [])) (hnul : (0 : UInt8) ∉ res.body.getD []) {key ts : Bytes}
    (hkey : key ≠ []) (hts : Bare ts) :
    outcomeOf cfg (logSecret key) res = (do
      gwLog (logSecret key) (failEntry res)
      return .failed .transportError) ∧
    (256 ≤ key.length ∨ Utf8.Valid key →
      (LineDecodes (logLine (logSecret key) ts (failEntry res)) ↔ Whole (res.body.getD []))) ∧
    (key.length < 256 → ∀ ps, Pieces key (failMessage res) ps →
      (LineDecodes (logLine (logSecret key) ts (failEntry res)) ↔ ∀ p ∈ ps, Utf8.Valid p)) := by
  refine ⟨outcomeOf_httpFail cfg _ hfail, fun htext => ?_, fun hlen ps hps => ?_⟩
  · rw [failEntry_decodes_iff hkey htext hts, failMessage_valid_iff h hfail hv hnul]
  · exact failEntry_decodes_pieces hkey hlen hts hps

/-! ## A body cut inside a character -/

/-- One transfer, answered with status 400 and one chunk. -/
def badRequest (body : Bytes) : Nat → Attempt :=
  fun _ => .transfer ⟨.ok, [(body, true)], 400, [], []⟩

/-- What `gwc_call` makes of it. -/
def badRequestResult (body : Bytes) : GwcResult :=
  ⟨.httpFail, 400, 1, some body, httpErrbuf 400 body⟩

theorem gwcCall_badRequest {cfg : GwConfig} {body : Bytes} (hattempts : 1 ≤ cfg.maxAttempts)
    (hcap : body.length ≤ cfg.maxResponseBytes.toNat) :
    gwcCall cfg (badRequest body) = some (badRequestResult body) := by
  have hbody : deliver cfg.maxResponseBytes.toNat {} [(body, true)] = ⟨some body, false⟩ := by
    have hfits : ¬ (BodyT.bytes {}).length + body.length > cfg.maxResponseBytes.toNat := by
      have hempty : (BodyT.bytes {}).length = 0 := rfl
      omega
    rw [deliver, onBody, if_neg hfits]
    rfl
  obtain ⟨left, hleft⟩ : ∃ left, cfg.maxAttempts.toNat = left + 1 :=
    ⟨cfg.maxAttempts.toNat - 1, by omega⟩
  have hfirst : cfg.maxAttempts.toNat - left = 1 := by omega
  have hstatus : (400 : Int64).toInt = 400 := by decide
  have hfinal : ¬ (((400 : Int64) = 429 ∨ ((500 : Int64) ≤ 400 ∧ (400 : Int64) < 600)) ∧
      1 < cfg.maxAttempts.toNat) := fun hc => absurd hc.1 (by decide)
  rw [gwcCall, hleft, gwcCallFrom, hfirst]
  dsimp only [badRequest]
  rw [hbody, if_neg (by decide), if_neg (fun hc => nomatch hc.1), if_neg (fun hc => hc rfl),
    if_neg (by decide), if_neg hfinal, hstatus]
  rfl

/-- A short body that is no JSON. -/
theorem failure_line_decodes_iff_sample :
    LineDecodes (logLine (logSecret (ascii "sk-1")) epochStamp
      (failEntry (badRequestResult (ascii "Bad Request")))) := by
  have hcall : gwcCall (gwConfigDefaults []) (badRequest (ascii "Bad Request")) =
      some (badRequestResult (ascii "Bad Request")) := gwcCall_badRequest (by decide) (by decide)
  have hkey : ascii "sk-1" ≠ [] := by decide
  have hstamp : Bare epochStamp := by decide
  obtain ⟨-, hiff, -⟩ :=
    failure_line_decodes_iff hcall rfl (.of_ascii (by decide)) (by decide) hkey hstamp
  exact (hiff (.inr (.of_ascii (by decide)))).2 (.inr nofun)

/-- A proxy's page with a character across byte 400. -/
def crossingBody : Bytes := List.replicate 399 (chr 'a') ++ Utf8.encode 0xE9

/-- **A body with a character across byte 400 makes a line that is no UTF-8.** -/
theorem crossing_line_unreadable : Utf8.Valid crossingBody ∧ (0 : UInt8) ∉ crossingBody ∧
    gwcCall (gwConfigDefaults []) (badRequest crossingBody) = some (badRequestResult crossingBody) ∧
    outcomeOf (gwConfigDefaults []) (logSecret (ascii "sk-1")) (badRequestResult crossingBody) = (do
      gwLog (logSecret (ascii "sk-1")) (failEntry (badRequestResult crossingBody))
      return .failed .transportError) ∧
    ¬ LineDecodes (logLine (logSecret (ascii "sk-1")) epochStamp
      (failEntry (badRequestResult crossingBody))) := by
  have hascii : Utf8.Valid (List.replicate 399 (chr 'a')) := by
    refine .of_ascii fun b hb => ?_
    rw [List.eq_of_mem_replicate hb]
    decide
  have hvalid : Utf8.Valid crossingBody := hascii.append (.encode (.inl (by decide)))
  have hnul : (0 : UInt8) ∉ crossingBody := by
    intro hmem
    rcases List.mem_append.1 hmem with hmem | hmem
    · exact absurd (List.eq_of_mem_replicate hmem) (by decide)
    · exact absurd hmem (by decide)
  have hlen : crossingBody.length = 401 := by
    rw [crossingBody, List.length_append, List.length_replicate]
    rfl
  have hcall : gwcCall (gwConfigDefaults []) (badRequest crossingBody) =
      some (badRequestResult crossingBody) :=
    gwcCall_badRequest (by decide) (by rw [hlen]; decide)
  refine ⟨hvalid, hnul, hcall, outcomeOf_httpFail _ _ rfl, ?_⟩
  rw [failEntry_decodes_iff (by decide) (.inr (.of_ascii (by decide))) (by decide),
    failMessage_valid_iff hcall rfl hvalid hnul]
  rintro (hnamed | hcut)
  · -- the body is no object
    have hnone : gwjErrorMessage crossingBody 400 = none := by
      rw [gwjErrorMessage, crossingBody, List.replicate_succ, List.cons_append,
        sWs_cons (by decide)]
      exact if_neg (by decide)
    change (gwjErrorMessage crossingBody 400).isSome = true at hnamed
    rw [hnone] at hnamed
    cases hnamed
  · -- byte 400 is the second of the character
    have htail : crossingBody[400]? = some 0xA9 := by
      rw [crossingBody, List.getElem?_append_right (by rw [List.length_replicate]; decide),
        List.length_replicate]
      rfl
    exact absurd (hcut _ htail) (by decide)

end AxiomaOracle
