import AxiomaOracle.Lib.JsonTorn
import AxiomaOracle.Verify.Histories
import AxiomaOracle.Verify.Journal

/-!
# The operator log of a history

A process can die inside the write of a log line, and the next one goes on behind what is left; a
write of a line can also fail in the middle while the process lives on. `log_authentic` says that no
reader is misled by that: whatever was cut, a line of the log that is JSON is a line the gateway
wrote, and an `oracle_fail` line is about a reply the gateway got.
-/

namespace AxiomaOracle

open Lib

/-- No other configured file is the log. -/
def LogApart (cfg : GwConfig) : Prop := ∀ r, r ≠ .log → cfg.path r ≠ cfg.path .log

/-- The replies of the oracle. -/
def replies (calls : List (Bytes × Option GwcResult)) : List GwcResult := calls.filterMap Prod.snd

theorem replies_cons (body : Bytes) (reply : Option GwcResult)
    (calls : List (Bytes × Option GwcResult)) :
    replies ((body, reply) :: calls) = reply.toList ++ replies calls := by
  cases reply <;> rfl

section LogHistory

variable {S : Substrate} {cfg : GwConfig} {secret ts old : Bytes} {w w' : World} {e : Env}
  {C C' : Bytes → LogEntry → Prop}

/-- A beginning of a line with a time stamp and an entry that `C` allows, after the replies `R`. -/
def Cut (secret : Bytes) (C : Bytes → LogEntry → Prop) (R : List GwcResult) (p : Bytes) : Prop :=
  ∃ ts entry, C ts entry ∧ Entry R entry ∧ p <+: logLine secret ts entry

/-- The log is written at its end, and cuts of lines stand behind what it held before. -/
structure LogKept (cfg : GwConfig) (secret old : Bytes) (C : Bytes → LogEntry → Prop) (w : World) :
    Prop where
  append : ∀ f, w.fd .log = some f → f.append = true
  text : ∃ ps : List Bytes, w.content cfg .log = old ++ ps.flatten ∧
    ∀ p ∈ ps, Cut secret C (replies w.calls) p

/-! ## One call -/

theorem content_of_log (h : w'.node (cfg.path .log) = w.node (cfg.path .log)) :
    w'.content cfg .log = w.content cfg .log := by
  simp only [World.content, World.file, World.fileAt, h]

theorem LogKept.congr (h : LogKept cfg secret old C w)
    (hcontent : w'.content cfg .log = w.content cfg .log)
    (hfd : ∀ f, w'.fd .log = some f → f.append = true)
      (hcalls : replies w.calls ⊆ replies w'.calls) :
    LogKept cfg secret old C w' := by
  obtain ⟨ps, htext, hps⟩ := h.text
  refine ⟨hfd, ps, hcontent.trans htext, fun p hp => ?_⟩
  obtain ⟨ts, entry, hC, he, hpre⟩ := hps p hp
  exact ⟨ts, entry, hC, he.mono hcalls, hpre⟩

theorem LogKept.mono (h : LogKept cfg secret old C w) (hC : ∀ ts entry, C ts entry → C' ts entry) :
    LogKept cfg secret old C' w := by
  obtain ⟨ps, htext, hps⟩ := h.text
  refine ⟨h.append, ps, htext, fun p hp => ?_⟩
  obtain ⟨ts, entry, hc, he, hpre⟩ := hps p hp
  exact ⟨ts, entry, hC ts entry hc, he, hpre⟩

theorem LogKept.release (h : LogKept cfg secret old C w) : LogKept cfg secret old C w.release :=
  ⟨fun _ hf => (nomatch hf), h.text⟩

theorem LogKept.offLog (hapart : LogApart cfg) (h : LogKept cfg secret old C w) {o : Op}
    (ho : o.OffLog) : LogKept cfg secret old C (exec cfg o e w).2 := by
  have haway : ∀ r, o.role = some r → cfg.path r ≠ cfg.path .log := by
    intro r hr
    refine hapart r ?_
    rintro rfl
    exact ho.1 hr
  obtain ⟨hnode, hfd⟩ := exec_elsewhere (e := e) (w := w) haway
  refine h.congr (content_of_log hnode) (fun f hf => h.append f (hfd ▸ hf)) ?_
  rw [exec_calls ho.2]
  exact List.Subset.refl _

theorem LogKept.reply (h : LogKept cfg secret old C w) (body : Bytes) :
    LogKept cfg secret old C (exec cfg (.gwcCall body) e w).2 := by
  refine h.congr rfl h.append ?_
  simp only [exec, replies, List.filterMap_cons]
  split
  · exact List.Subset.refl _
  · exact List.subset_cons_self _ _

theorem LogKept.openLog (h : LogKept cfg secret old C w) :
    LogKept cfg secret old C (exec cfg (.openAppend .log) e w).2 := by
  have hopen : ∀ bs, w.content cfg .log = bs → LogKept cfg secret old C
      ((w.setFile cfg .log bs).setFd .log (some ⟨0, true, true⟩)) := by
    rintro bs rfl
    refine h.congr ?_ (fun f hf => ?_) (List.Subset.refl _)
    · simp [World.content, World.file, World.fileAt]
    · cases hf
      rfl
  simp only [exec, execOpen]
  split
  · exact h
  split
  · exact h
  · next bs hnode => exact hopen bs (by simp [World.content, World.file, World.fileAt, hnode])
  · next hnode => exact hopen [] (by simp [World.content, World.file, World.fileAt, hnode])

theorem LogKept.write (h : LogKept cfg secret old C w) {entry : LogEntry} (hC : C ts entry)
    (hentry : Entry (replies w.calls) entry) :
    LogKept cfg secret old C (exec cfg (.write .log (logLine secret ts entry)) e w).2 := by
  simp only [exec, execWrite]
  split
  · exact h
  next f hf =>
  rw [h.append f hf, if_pos rfl]
  generalize written e (w.content cfg .log).length (logLine secret ts entry).length = n
  have hfd : ∀ (w' : World) (o : Nat) (live : Bool) (g : Fd),
      (w'.setFd .log (some ⟨o, live, true⟩)).fd .log = some g → g.append = true := by
    rintro w' o live g hg
    cases hg
    rfl
  cases f.live with
  | false => exact h.congr rfl (hfd w _ _) (List.Subset.refl _)
  | true =>
    obtain ⟨ps, htext, hps⟩ := h.text
    refine ⟨hfd _ _ _, ps ++ [(logLine secret ts entry).take n], ?_, fun p hp => ?_⟩
    · have hnew : (w.setFile cfg .log
          (w.content cfg .log ++ (logLine secret ts entry).take n)).content cfg .log =
            w.content cfg .log ++ (logLine secret ts entry).take n := by
        simp [World.content, World.file, World.fileAt]
      rw [if_pos rfl, writeAt_end, List.flatten_append, List.flatten_singleton, ← List.append_assoc,
        ← htext]
      exact hnew
    · rcases List.mem_append.1 hp with hp | hp
      · exact hps p hp
      · rw [List.mem_singleton.1 hp]
        exact ⟨ts, entry, hC, hentry, List.take_prefix _ _⟩

/-! ## Calls of `gw_log` -/

section LogCalls

variable {V : Service (machine cfg)} {c : World × V.Control} {es : List V.Event}

/-- `gw_log` is called with this entry in a history: the process came to the call, after the reply
the entry is about, if it is about one, and the clock gave this plain time stamp. -/
def LogCalled (V : Service (machine cfg)) (secret : Bytes) (c : World × V.Control)
    (es : List V.Event) (ts : Bytes) (entry : LogEntry) : Prop :=
  Bare ts ∧ ∃ es1 e es2 k, es = es1 ++ .call e :: es2 ∧ e.clock = ts ∧
    (V.run c es1).2 = .busy (gwLog secret entry >>= k) ∧
    Entry (replies (V.run c es1).1.calls) entry

theorem LogCalled.concat {entry : LogEntry} (h : LogCalled V secret c es ts entry) (ev : V.Event) :
    LogCalled V secret c (es ++ [ev]) ts entry := by
  obtain ⟨hts, es1, e, es2, k, rfl, hrest⟩ := h
  exact ⟨hts, es1, e, es2 ++ [ev], k, by simp, hrest⟩

/-- A program that journals, or one inside `gw_log`: its line is to be written, or to be synced. -/
inductive Logging (secret : Bytes) (C : Bytes → LogEntry → Prop) {α : Type} (R : List GwcResult) :
    Io α → Prop where
  | journals {p : Io α} : Journals secret R p → Logging secret C R p
  | stamped {ts : Bytes} {entry : LogEntry} {k : Unit → Io α} : C ts entry → Entry R entry →
      Journals secret R (k ()) → Logging secret C R (.call (.write .log (logLine secret ts entry))
        fun _ => .call (.fsync .log) fun _ => k ())
  | written {k : Unit → Io α} : Journals secret R (k ()) →
      Logging secret C R (.call (.fsync .log) fun _ => k ())

variable (V) in
/-- The invariant of a history: the log is kept, and a busy process is logging. -/
def LogInv (secret old : Bytes) (C : Bytes → LogEntry → Prop) (c : World × V.Control) : Prop :=
  LogKept cfg secret old C c.1 ∧ match c.2 with
    | .down | .idle _ => True
    | .busy p => Logging secret C (replies c.1.calls) p

theorem LogInv.mono (h : LogInv V secret old C c) (hC : ∀ ts entry, C ts entry → C' ts entry) :
    LogInv V secret old C' c := by
  obtain ⟨w, ctl⟩ := c
  obtain ⟨hkept, hctl⟩ := h
  refine ⟨hkept.mono hC, ?_⟩
  cases ctl with
  | down | idle st => trivial
  | busy p =>
    cases hctl with
    | journals hp => exact .journals hp
    | stamped hc he hk => exact .stamped (hC _ _ hc) he hk
    | written hk => exact .written hk

variable (V) in
/-- The programs of the service journal, and its end closes the descriptors. -/
structure Journaling (secret : Bytes) : Prop where
  boot : Journals secret [] V.boot
  serve : ∀ st req, Journals secret [] (V.serve st req)
  halt : ∀ st, Journals secret [] (V.halt st)
  release : V.release = World.release

theorem Journaling.down (hV : Journaling V secret) (h : LogKept cfg secret old C w) :
    LogInv V secret old C (V.release w, .down) := by
  rw [hV.release]
  exact ⟨h.release, trivial⟩

theorem Journaling.settle (hV : Journaling V secret) {p : Io (Option V.St)}
    (h : LogKept cfg secret old C w) (hp : Logging secret C (replies w.calls) p) :
    LogInv V secret old C (V.settle p w) := by
  cases p with
  | pure r =>
    cases r with
    | none => exact hV.down h
    | some st => exact ⟨h, trivial⟩
  | call o k => exact ⟨h, hp⟩

/-- A process before a call: the call happens, or the process dies, or something else does. -/
theorem Journaling.call (hV : Journaling V secret) {o : Op} {k : Ans o → Io (Option V.St)}
    (h : LogInv V secret old C (w, .busy (.call o k)))
    (hexec : ∀ e, LogKept cfg secret old C (exec cfg o e w).2) {ev : V.Event}
    (hnext : ∀ e, ev = .call e →
      Logging secret C (replies (exec cfg o e w).2.calls) (k (exec cfg o e w).1)) :
    LogInv V secret old C (V.step (w, .busy (.call o k)) ev) := by
  cases ev with
  | call e => exact hV.settle (hexec e) (hnext e rfl)
  | kill => exact hV.down h.1
  | cut e => exact hV.down (hexec e)
  | boot | serve req | halt => exact h

/-- **One event keeps the log**: `C'` allows what `C` does, and the entry of a call of `gw_log`
whose clock this event reads. -/
theorem LogInv.step (hV : Journaling V secret) (hapart : LogApart cfg) {ev : V.Event}
    (h : LogInv V secret old C c) (hC : ∀ ts entry, C ts entry → C' ts entry)
    (hnew : ∀ e entry k, ev = .call e → c.2 = .busy (gwLog secret entry >>= k) →
      Entry (replies c.1.calls) entry → C' e.clock entry) :
    LogInv V secret old C' (V.step c ev) := by
  replace h := h.mono hC
  obtain ⟨w, ctl⟩ := c
  cases ctl with
  | down =>
    cases ev with
    | boot => exact hV.settle h.1 (.journals (hV.boot.mono (List.nil_subset _)))
    | serve req | halt | call e | kill | cut e => exact h
  | idle st =>
    cases ev with
    | serve req => exact hV.settle h.1 (.journals ((hV.serve st req).mono (List.nil_subset _)))
    | halt => exact hV.settle h.1 (.journals ((hV.halt st).mono (List.nil_subset _)))
    | kill => exact hV.down h.1
    | boot | call e | cut e => exact h
  | busy p =>
    obtain ⟨hkept, hlogging⟩ := id h
    cases hlogging with
    | journals hp =>
      cases hp with
      | ret => cases ev <;> first | exact h | exact hV.down hkept
      | call ho hk =>
        refine hV.call h (fun e => hkept.offLog hapart ho) fun e _ => ?_
        rw [exec_calls ho.2]
        exact .journals (hk _)
      | @reply _ body k hk =>
        refine hV.call h (fun e => hkept.reply body) fun e _ => .journals ?_
        have hk := hk e.reply
        rw [← replies_cons body] at hk
        exact hk
      | openLog hk =>
        refine hV.call h (fun e => hkept.openLog) fun e _ => ?_
        rw [exec_calls fun _ => by simp]
        exact .journals (hk _)
      | line hentry hk =>
        -- the clock is read
        refine hV.call h (fun _ => hkept) fun e he => ?_
        exact .stamped (hnew e _ _ he rfl hentry) hentry hk
    | stamped hts hentry hk =>
      refine hV.call h (fun e => hkept.write hts hentry) fun e _ => ?_
      rw [exec_calls fun _ => by simp]
      exact .written hk
    | written hk => exact hV.call h (fun _ => hkept) fun e _ => .journals hk

end LogCalls

/-- A member `gw_log` writes: a scalar without control characters. -/
structure Plainly (m : Json.Member) : Prop where
  scalar : m.Scalar
  clear : ∀ b ∈ m.text, 0x20 ≤ b.toNat

theorem Bare.clear {s : Bytes} (h : Bare s) : ∀ b ∈ s, 0x20 ≤ b.toNat := fun b hb => (h b hb).2.2.1

theorem plainly_member {m : Json.Member} (hm : m.Scalar) (hk : ∀ b ∈ m.keyText, 0x20 ≤ b.toNat)
    (hv : ∀ b ∈ m.valueText, 0x20 ≤ b.toNat) : Plainly m where
  scalar := hm
  clear b hb := by
    have hquote : 0x20 ≤ (34 : UInt8).toNat := by decide
    have hcolon : 0x20 ≤ (58 : UInt8).toNat := by decide
    simp only [Json.Member.text, List.cons_append, List.mem_cons, List.mem_append] at hb
    rcases hb with rfl | hb | rfl | rfl | hb
    · exact hquote
    · exact hk b hb
    · exact hquote
    · exact hcolon
    · exact hv b hb

theorem plainly_str (k : String) (hk : Bare (ascii k)) {s t : Bytes} (h : Json.StringText s t)
    (ht : ∀ b ∈ t, 0x20 ≤ b.toNat) : Plainly (strMember k hk h) := by
  refine plainly_member (.inl ⟨s, t, h, rfl⟩) hk.clear fun b hb => ?_
  have hquote : 0x20 ≤ (34 : UInt8).toNat := by decide
  change b ∈ 34 :: t ++ [34] at hb
  rw [List.cons_append, List.mem_cons, List.mem_append, List.mem_singleton] at hb
  rcases hb with rfl | hb | rfl
  · exact hquote
  · exact ht b hb
  · exact hquote

theorem plainly_int (k : String) (hk : Bare (ascii k)) {m : Int} (hm : 0 ≤ m) :
    Plainly (intMember k hk m) := by
  obtain ⟨n, rfl⟩ := Int.eq_ofNat_of_zero_le hm
  refine plainly_member (.inr ⟨n, rfl⟩) hk.clear fun b hb => ?_
  have hall : ∀ b ∈ ascii "0123456789", 0x20 ≤ b.toNat := by decide
  exact hall b (mem_digits (decimal_isDigit n b hb))

variable {entry : LogEntry}

theorem plainly_logMembers (secret : Bytes) (h : Worded ts entry) :
    ∀ m ∈ strMember "ts" (by decide) h.ts.stringText :: logMembers secret h, Plainly m := by
  have hint : ∀ {c : Prop} [Decidable c] {k : String} {hk : Bare (ascii k)} {n : Int},
      (c → 0 ≤ n) → ∀ m ∈ (if c then [intMember k hk n] else []), Plainly m := by
    intro c _ k hk n hn m hm
    split at hm
    · next hc =>
      rw [List.mem_singleton.1 hm]
      exact plainly_int k hk (hn hc)
    · cases hm
  have hmessage : ∀ m ∈ (entry.message.map (messageMember secret)).toList, Plainly m := by
    intro m hm
    cases hmsg : entry.message with
    | none =>
      rw [hmsg] at hm
      cases hm
    | some msg =>
      rw [hmsg, Option.map_some, Option.toList_some, List.mem_singleton] at hm
      rw [hm]
      refine plainly_str _ _ _ fun b hb => ?_
      obtain ⟨c, -, hc⟩ := List.mem_flatMap.1 hb
      exact jsonEscape_printable c b hc
  unfold logMembers
  simp only [List.forall_mem_cons, List.forall_mem_append]
  exact ⟨plainly_str _ _ _ h.ts.clear, plainly_str _ _ _ h.level.clear,
    plainly_str _ _ _ h.event.clear, hmessage, hint id, hint id, hint fun _ => Int.natCast_nonneg _⟩

theorem bare_ts : Bare (ascii "ts") := by decide

theorem Worded.tsText (h : Worded ts entry) : Json.StringText ts ts := h.ts.stringText

/-- The record of a line. -/
def lineRecord (secret : Bytes) (h : Worded ts entry) : Json.Record where
  first := strMember "ts" bare_ts h.tsText
  rest := logMembers secret h
  scalar m hm := (plainly_logMembers secret h m hm).scalar
  named := ⟨chr 't', [chr 's'], rfl, by decide, by
    intro b hb
    cases hb
    decide⟩

theorem lineRecord_clear (secret : Bytes) (h : Worded ts entry) :
    ∀ b ∈ (lineRecord secret h).text, 0x20 ≤ b.toNat := by
  have hall := plainly_logMembers secret h
  have hopen : 0x20 ≤ (123 : UInt8).toNat := by decide
  have hcomma : 0x20 ≤ (44 : UInt8).toNat := by decide
  have hclose : 0x20 ≤ (125 : UInt8).toNat := by decide
  intro b hmem
  change b ∈ 123 :: ((strMember "ts" (by decide) h.ts.stringText).text ++
    ((logMembers secret h).flatMap (44 :: Json.Member.text ·) ++ [125])) at hmem
  rcases List.mem_cons.1 hmem with rfl | hmem
  · exact hopen
  rcases List.mem_append.1 hmem with hmem | hmem
  · exact (hall _ List.mem_cons_self).clear _ hmem
  rcases List.mem_append.1 hmem with hmem | hmem
  · obtain ⟨m, hm, hmem⟩ := List.mem_flatMap.1 hmem
    rcases List.mem_cons.1 hmem with rfl | hmem
    · exact hcomma
    · exact (hall m (List.mem_cons_of_mem _ hm)).clear _ hmem
  · rw [List.mem_singleton.1 hmem]
    exact hclose

theorem Entry.worded {R : List GwcResult} (h : Entry R entry) (hts : Bare ts) :
    Worded ts entry := by
  rcases h with ⟨hlevel, hevent, -⟩ | ⟨res, -, hres⟩
  · exact ⟨hts, hlevel, hevent⟩
  · cases hres with
    | fail => exact ⟨hts, show Bare (ascii "error") by decide, show Bare oracleFail by decide⟩
    | reject => exact ⟨hts, show Bare (ascii "warn") by decide, show Bare oracleFail by decide⟩

/-- The record of a line with a time stamp and an entry that `C` allows, after the replies `R`. -/
def Written (secret : Bytes) (C : Bytes → LogEntry → Prop) (R : List GwcResult)
    (t : Json.Record) : Prop :=
  ∃ ts entry, ∃ h : Worded ts entry, C ts entry ∧ Entry R entry ∧ t = lineRecord secret h

/-- Behind what it held, the log is made of torn lines. -/
theorem LogKept.lines (h : LogKept cfg secret old C w) (hC : ∀ ts entry, C ts entry → Bare ts) :
    ∃ new, w.content cfg .log = old ++ new ∧ (∀ b ∈ new, b = 10 ∨ 0x20 ≤ b.toNat) ∧
      ∀ l ∈ new.splitOn (chr '\n'), Json.Torn (Written secret C (replies w.calls)) l := by
  obtain ⟨-, ps, htext, hps⟩ := h
  have hrecord : ∀ p ∈ ps, ∃ t, Written secret C (replies w.calls) t ∧ p <+: t.text ++ [10] := by
    intro p hp
    obtain ⟨ts, entry, hts, hentry, hpre⟩ := hps p hp
    have hworded := hentry.worded (hC ts entry hts)
    rw [logLine_eq hworded] at hpre
    exact ⟨lineRecord secret hworded, ⟨ts, entry, hworded, hts, hentry, rfl⟩, hpre⟩
  have hclear : ∀ t, Written secret C (replies w.calls) t → ∀ b ∈ t.text, 0x20 ≤ b.toNat := by
    rintro t ⟨ts, entry, hworded, -, -, rfl⟩
    exact lineRecord_clear secret hworded
  refine ⟨ps.flatten, htext, fun b hb => ?_, Json.torn_lines (fun t ht hmem => ?_) hrecord⟩
  · obtain ⟨p, hp, hb⟩ := List.mem_flatten.1 hb
    obtain ⟨t, ht, hpre⟩ := hrecord p hp
    rcases List.mem_append.1 (hpre.subset hb) with hb | hb
    · exact .inr (hclear t ht b hb)
    · exact .inl (List.mem_singleton.1 hb)
  · have hlow : ¬ 0x20 ≤ (10 : UInt8).toNat := by decide
    exact hlow (hclear t ht 10 hmem)

end LogHistory

end AxiomaOracle
