import AxiomaOracle.Verify.Paths
import AxiomaOracle.Verify.StartUp

/-!
# Whole histories

`Kept` holds at every moment of a history of starts, requests and crashes, from an absent ledger and
an absent WAL. Three readings of it follow: observations are numbered by their position, an intent
has at most one observation, and behind a completed start every call has one. The last two hold in
the histories whose starts are not deceived by the stale test; two short runs show how it can be.
-/

namespace AxiomaOracle

open Lib

section Histories

variable {S : Substrate} {W : Watch} {cfg : GwConfig} {A : Env → Prop}

theorem shutDown_yields (secret : Bytes) (st : GwState S) :
    (shutDown secret st).Yields fun r => r = none :=
  .seq (gwLog secret _) fun _ => .call fun _ => .ret rfl

variable (S W cfg) in
/-- What every program of the gateway keeps, with the paths apart. -/
theorem gateway_stable (host : Host) (hpaths : PathsApart cfg) (hcount : W.numbered → Counts S)
    (hA : W.strict → ∀ e, A e → none ∉ e.script) :
    (gateway S cfg host).Sound A (fun _ _ => True) (Kept S W cfg) (Idle S W cfg)
      (fun w => W.strict → Recoverable S W (w.evidence cfg)) where
  boot w hk hrec := by
    refine (startUp_safe hpaths hcount hA hk hrec host).mono fun r w' h => ?_
    cases r with
    | none => exact h
    | some st => exact h.1
  serve st req w h := (handleRequest_safe hpaths hcount h).bind fun _ _ h' => .ret h'
  halt st w h := by
    have hquiet := quiet_safe (A := A) (Q := fun _ w' => Kept S W cfg w') hpaths
      (shutDown_quiet (logSecret (host.apiKey.elim [] CStr.bytes)) st) h.kept
      fun _ _ hs => hs.kept h.kept
    refine (hquiet.yields (shutDown_yields _ st)).mono ?_
    rintro r w' ⟨rfl, hk⟩
    exact hk
  idle st w h := h.kept
  release w hk := ⟨hk.size, hk.stable⟩

/-- There is no ledger and no WAL yet. -/
structure Blank (cfg : GwConfig) (node : Bytes → Option Node) : Prop where
  ledger : node (cfg.path .ledger) = none
  wal : node (cfg.path .wal) = none

theorem Blank.kept {node : Bytes → Option Node} (h : Blank cfg node) :
    Kept S W cfg (.initial node) := by
  have hcontent : (World.initial node).content cfg .ledger = [] := by
    simp [World.content, World.file, World.fileAt, World.initial, h.ledger]
  have hev : (World.initial node).evidence cfg = ⟨[], none, 0, []⟩ := by
    rw [World.evidence, hcontent, frames_nil]
    simp [World.initial, h.wal]
  refine ⟨?_, ?_⟩
  · rw [hcontent]
    exact Nat.zero_le _
  · rw [hev]
    exact Stable.initial S W

theorem kept_of_reaches (host : Host) (hpaths : PathsApart cfg) (hcount : W.numbered → Counts S)
    (hA : W.strict → ∀ e, A e → none ∉ e.script) {node : Bytes → Option Node}
    (hblank : Blank cfg node) {c : World × (gateway S cfg host).Control}
    (hc : (gateway S cfg host).Reaches A (fun w => W.strict → Recoverable S W (w.evidence cfg))
      (.initial node, .down) c) : Kept S W cfg c.1 :=
  hc.crash (gateway_stable S W cfg host hpaths hcount hA) hblank.kept

/-! ## Positions -/

theorem HoldsRecord.ledgerSeq {f : Frame} {k : Nat} (h : HoldsRecord S f k) {rec : AxObsRecord}
    (hacc : Accepted S rec)
    (hcanon : axObsCanonicalise axCanonicalBufferSize rec true = .ok f.payload) :
    rec.ledgerSeq.toNat = k := by
  obtain ⟨rec', hacc', -, hcanon', rfl⟩ := h
  rw [axObsCanonicalise_ok_iff] at hcanon hcanon'
  rw [obsText_ledgerSeq hacc.admissible hacc'.admissible (hcanon.1.symm.trans hcanon'.1)]

/-- **Ledger position equals recorded sequence**, in every history, whatever fails: an observation
at position `k` holds an accepted record with number `k`. So the numbers go up along the file. -/
theorem ledger_numbered (S : Substrate) (host : Host) (hpaths : PathsApart cfg) (hcount : Counts S)
    {node : Bytes → Option Node} (hblank : Blank cfg node)
    {c : World × (gateway S cfg host).Control}
    (hc : (gateway S cfg host).Reaches (fun _ => True) (fun _ => True) (.initial node, .down) c) :
    Numbered S (frames (c.1.content cfg .ledger)) ∧
    ∀ (i j : Nat) (f g : Frame) (rec rec' : AxObsRecord), i < j →
      (frames (c.1.content cfg .ledger))[i]? = some f → isObs f = true →
      (frames (c.1.content cfg .ledger))[j]? = some g → isObs g = true →
      Accepted S rec → axObsCanonicalise axCanonicalBufferSize rec true = .ok f.payload →
      Accepted S rec' → axObsCanonicalise axCanonicalBufferSize rec' true = .ok g.payload →
      rec.ledgerSeq < rec'.ledgerSeq := by
  have hstrict : ¬ (Watch.mk False False True).strict := fun h => h.elim id id
  have hkept : Kept S ⟨False, False, True⟩ cfg c.1 :=
    kept_of_reaches host hpaths (fun _ => hcount) (fun h => absurd h hstrict) hblank
      (hc.weaken (fun _ h => h) fun _ _ h => absurd h hstrict)
  have hnum : Numbered S (frames (c.1.content cfg .ledger)) := hkept.stable.numbered trivial
  refine ⟨hnum, ?_⟩
  intro i j f g rec rec' hij hf hof hg hog hacc hcanon hacc' hcanon'
  have hi := (hnum i f hf hof).ledgerSeq hacc hcanon
  have hj := (hnum j g hg hog).ledgerSeq hacc' hcanon'
  rw [UInt64.lt_iff_toNat_lt]
  omega

/-! ## Runs to evaluate -/

theorem pathsApart_sampleConfig : PathsApart sampleConfig where
  ledger r hr := by
    cases r <;> first | exact absurd rfl hr | decide
  wal r hr := by
    cases r <;> first | exact absurd rfl hr | decide

/-- No call fails, and the oracle does not answer in time. -/
def sampleReply : Env where
  reply := some {
    outcome := .timeout
    httpStatus := 0
    attempts := 1
    body := none
    errbuf := .ofBytes [] }

def sampleRequest : Bytes := ascii "prompt_len: 2\n" ++ ascii "temperature_q16: 0\n" ++ ascii "\nhi"

/-- `n` calls; those behind the end of a program do nothing. -/
def sampleCalls (n : Nat) : List (sampleGateway sampleConfig).Event :=
  List.replicate n (.call sampleReply)

/-- The rest of a start, and a request that is served. -/
def sampleServed : List (sampleGateway sampleConfig).Event :=
  sampleCalls 40 ++ .serve sampleRequest :: sampleCalls 30

/-- The state behind a list of events, from nothing. -/
def sampleRun (es : List (sampleGateway sampleConfig).Event) :
    World × (sampleGateway sampleConfig).Control :=
  (sampleGateway sampleConfig).run (.initial fun _ => none, .down) es

theorem sampleRun_append (es es' : List (sampleGateway sampleConfig).Event) :
    (sampleGateway sampleConfig).run (sampleRun es) es' = sampleRun (es ++ es') :=
  List.foldl_append.symm

/-- No event of the list is a start or a read error. -/
def tame (es : List (sampleGateway sampleConfig).Event) : Bool :=
  es.all fun
    | .boot => false
    | .call e => !e.script.contains none
    | _ => true

/-- A start and tame events behind it, from a state in which it may start. -/
theorem sample_reaches {B : World → Prop} {c : World × (sampleGateway sampleConfig).Control}
    (hB : B c.1) (es : List (sampleGateway sampleConfig).Event) (hes : tame es = true) :
    (sampleGateway sampleConfig).Reaches (fun e => none ∉ e.script) B c
      ((sampleGateway sampleConfig).run c (.boot :: es)) := by
  have hall : ∀ e ∈ es, _ := List.all_eq_true.1 hes
  have hboot : (sampleGateway sampleConfig).Permits (fun e => none ∉ e.script) B c .boot := by
    obtain ⟨w, ctl⟩ := c
    cases ctl <;> first | exact hB | trivial
  refine .head ⟨.boot, hboot, rfl⟩ (Service.reaches_run (fun hmem => ?_) (fun e he => ?_) _)
  · cases hall _ hmem
  · simpa using hall _ he

theorem sampleRun_reaches {B : World → Prop} (hB : B (.initial fun _ => none))
    (es : List (sampleGateway sampleConfig).Event) (hes : tame es = true) :
    (sampleGateway sampleConfig).Reaches (fun e => none ∉ e.script) B
      (.initial fun _ => none, .down) (sampleRun (.boot :: es)) :=
  sample_reaches (c := (.initial fun _ => none, .down)) hB es hes

theorem blank_sample : Blank sampleConfig fun _ => none := ⟨rfl, rfl⟩

theorem ledger_numbered_sample :
    (frames ((sampleRun (.boot :: sampleServed)).1.content sampleConfig .ledger)).map isObs =
      [false, true] ∧
    Numbered sampleSubstrate
      (frames ((sampleRun (.boot :: sampleServed)).1.content sampleConfig .ledger)) := by
  refine ⟨by decide +kernel, ?_⟩
  refine (ledger_numbered sampleSubstrate _ pathsApart_sampleConfig counts_sampleSubstrate
    blank_sample ?_).1
  exact Service.reaches_run (fun _ _ => trivial) (fun _ _ => trivial) _

/-! ## Every call is evidenced -/

/-- No request was cut between its call and its frame while the last payload held its hash. -/
def NoRepeatCut (cfg : GwConfig) (w : World) : Prop :=
  ∀ i, (w.evidence cfg).intent = some i → (w.evidence cfg).Pending →
    ¬ (w.evidence cfg).Carries i.inputHashHex.bytes

/-- **Every call is evidenced when a start completes**, in every history without a read error in
which no start finds a repeated request cut behind its call. -/
theorem calls_evidenced (S : Substrate) (host : Host) (hpaths : PathsApart cfg)
    {node : Bytes → Option Node} (hblank : Blank cfg node) {w : World}
    (hc : (gateway S cfg host).Reaches (fun e => none ∉ e.script) (NoRepeatCut cfg)
      (.initial node, .down) (w, .down))
    (hw : NoRepeatCut cfg w) {envs : Nat → Env} (henvs : ∀ n, none ∉ (envs n).script)
    {st : GwState S} {w' : World}
    (hstart : (machine cfg).eval (startUp S cfg host) envs w = (some st, w')) :
    w'.calls.length ≤ obsCount (frames (w'.content cfg .ledger)) := by
  have hrec : ∀ w, NoRepeatCut cfg w → (Watch.mk True False False).strict →
      Recoverable S ⟨True, False, False⟩ (w.evidence cfg) :=
    fun w hw _ => ⟨fun _ => hw, fun h => h.elim⟩
  have hkept : Kept S ⟨True, False, False⟩ cfg w :=
    kept_of_reaches host hpaths False.elim (fun _ _ h => h) hblank (hc.weaken (fun _ h => h) hrec)
  have hstarted := (startUp_safe (A := fun e => none ∉ e.script) hpaths False.elim
    (fun _ _ h => h) hkept (hrec w hw) host).eval henvs
  rw [hstart] at hstarted
  exact hstarted.2 trivial

/-- The same, with the request cut right behind its call. -/
def sampleCut : List (sampleGateway sampleConfig).Event :=
  sampleCalls 40 ++ .serve sampleRequest :: sampleCalls 9 ++ [.kill]

/-- The start of the gateway that evaluates, from the state behind a list of events. -/
def sampleStart (es : List (sampleGateway sampleConfig).Event) :
    Option (GwState sampleSubstrate) × World :=
  (machine sampleConfig).eval (startUp sampleSubstrate sampleConfig sampleHost) (fun _ => {})
    (sampleRun es).1

theorem tame_sampleCut : tame sampleCut = true := by decide +kernel

/-- An open intent whose hash the last payload does not hold. -/
theorem not_carries {cfg : GwConfig} {w : World} {hash : GwIntent → Bytes}
    (h : ((w.evidence cfg).intent.all fun i =>
      !lastPayloadContains (lastPayload (w.evidence cfg).frames) (hash i)) = true) {i : GwIntent}
    (hi : (w.evidence cfg).intent = some i) : ¬ (w.evidence cfg).Carries (hash i) := by
  intro hcarries
  rw [hi] at h
  simp only [Option.all_some, Bool.not_eq_true'] at h
  exact absurd (hcarries.symm.trans h) (by decide)

theorem calls_evidenced_sample :
    (sampleRun (.boot :: sampleCut)).1.calls.length = 1 ∧
    (sampleStart (.boot :: sampleCut)).2.calls.length ≤
      obsCount (frames ((sampleStart (.boot :: sampleCut)).2.content sampleConfig .ledger)) := by
  obtain ⟨hcalls, hdown, hstart, hintent⟩ : (sampleRun (.boot :: sampleCut)).1.calls.length = 1 ∧
      (sampleRun (.boot :: sampleCut)).2.isDown = true ∧
      (sampleStart (.boot :: sampleCut)).1.isSome = true ∧
      (((sampleRun (.boot :: sampleCut)).1.evidence sampleConfig).intent.all fun i =>
        !lastPayloadContains (lastPayload ((sampleRun (.boot :: sampleCut)).1.evidence
          sampleConfig).frames) i.inputHashHex.bytes) = true := by decide +kernel
  obtain ⟨st, hst⟩ := Option.isSome_iff_exists.1 hstart
  have hreach := sampleRun_reaches (B := NoRepeatCut sampleConfig) (fun i hi => by cases hi)
    sampleCut tame_sampleCut
  have heval : (machine sampleConfig).eval (startUp sampleSubstrate sampleConfig sampleHost)
      (fun _ => {}) (sampleRun (.boot :: sampleCut)).1 =
        (some st, (sampleStart (.boot :: sampleCut)).2) := by
    have hpair : ∀ x : Option (GwState sampleSubstrate) × World,
      x.1 = some st → x = (some st, x.2) :=
      fun x hx => Prod.ext hx rfl
    unfold sampleStart at hst ⊢
    exact hpair _ hst
  have hclean : NoRepeatCut sampleConfig (sampleRun (.boot :: sampleCut)).1 :=
    fun i hi _ => not_carries hintent hi
  have hreads : ∀ n, none ∉ ((fun _ => {} : Nat → Env) n).script := fun _ => List.not_mem_nil
  exact ⟨hcalls, calls_evidenced sampleSubstrate sampleHost pathsApart_sampleConfig blank_sample
    (hreach.down hdown) hclean hreads heval⟩

/-- The same request again: it is cut behind its call, and the next start clears its WAL because the
last payload is that of the first. -/
theorem repeat_loses_call :
    (sampleGateway sampleConfig).Reaches (fun e => none ∉ e.script) (fun _ => True)
      (.initial fun _ => none, .down)
      ((sampleRun (.boot :: (sampleServed ++ sampleCut))).1, .down) ∧
    (sampleStart (.boot :: (sampleServed ++ sampleCut))).1.isSome = true ∧
    (sampleStart (.boot :: (sampleServed ++ sampleCut))).2.calls.length = 2 ∧
    obsCount (frames ((sampleStart (.boot :: (sampleServed ++ sampleCut))).2.content
      sampleConfig .ledger)) = 1 := by
  obtain ⟨hdown, hrest⟩ : (sampleRun (.boot :: (sampleServed ++ sampleCut))).2.isDown = true ∧
      (sampleStart (.boot :: (sampleServed ++ sampleCut))).1.isSome = true ∧
      (sampleStart (.boot :: (sampleServed ++ sampleCut))).2.calls.length = 2 ∧
      obsCount (frames ((sampleStart (.boot :: (sampleServed ++ sampleCut))).2.content
        sampleConfig .ledger)) = 1 := by decide +kernel
  exact ⟨(sampleRun_reaches trivial _ (by decide +kernel)).down hdown, hrest⟩

/-! ## No intent is evidenced twice -/

/-- No recovery was cut between its frame and the removal of the WAL: the last payload does not hold
the hash that a recovery of the open intent records. -/
def NoRecoveryCut (S : Substrate) (cfg : GwConfig) (w : World) : Prop :=
  ∀ i, (w.evidence cfg).intent = some i → ¬ (w.evidence cfg).Carries (recoveryHash S i)

/-- **An intent has at most one observation**, in every history without a read error in which no
start finds the WAL of an intent that was already recovered. -/
theorem intents_evidenced_once (S : Substrate) (host : Host) (hpaths : PathsApart cfg)
    {node : Bytes → Option Node} (hblank : Blank cfg node)
    {c : World × (gateway S cfg host).Control}
    (hc : (gateway S cfg host).Reaches (fun e => none ∉ e.script) (NoRecoveryCut S cfg)
      (.initial node, .down) c) :
    Spaced (c.1.evidence cfg).obs (c.1.evidence cfg).marks := by
  have hkept : Kept S ⟨False, True, False⟩ cfg c.1 := by
    refine kept_of_reaches host hpaths False.elim (fun _ _ h => h) hblank
      (hc.weaken (fun _ h => h) fun w hw _ => ⟨False.elim, fun _ => hw⟩)
  exact hkept.stable.spaced trivial

/-- A request that is cut, and the start behind it. -/
def sampleRecovered : List (sampleGateway sampleConfig).Event :=
  .boot :: sampleCut ++ .boot :: sampleCalls 50

theorem intents_evidenced_once_sample :
    ((sampleRun sampleRecovered).1.evidence sampleConfig).obs = 1 ∧
    ((sampleRun sampleRecovered).1.evidence sampleConfig).marks.length = 1 ∧
    Spaced ((sampleRun sampleRecovered).1.evidence sampleConfig).obs
      ((sampleRun sampleRecovered).1.evidence sampleConfig).marks := by
  obtain ⟨hobs, hmarks, hintent⟩ : ((sampleRun sampleRecovered).1.evidence sampleConfig).obs = 1 ∧
      ((sampleRun sampleRecovered).1.evidence sampleConfig).marks.length = 1 ∧
      (((sampleRun (.boot :: sampleCut)).1.evidence sampleConfig).intent.all fun i =>
        !lastPayloadContains (lastPayload ((sampleRun (.boot :: sampleCut)).1.evidence
          sampleConfig).frames) (recoveryHash sampleSubstrate i)) = true := by decide +kernel
  have hclean : NoRecoveryCut sampleSubstrate sampleConfig (sampleRun (.boot :: sampleCut)).1 :=
    fun i hi => not_carries hintent hi
  have hfirst := sampleRun_reaches (B := NoRecoveryCut sampleSubstrate sampleConfig)
    (fun i hi => by cases hi) sampleCut tame_sampleCut
  have hsecond := sample_reaches (B := NoRecoveryCut sampleSubstrate sampleConfig) hclean
    (sampleCalls 50) (by decide +kernel)
  have hreach := hfirst.trans hsecond
  rw [sampleRun_append, ← sampleRecovered] at hreach
  have hspaced := intents_evidenced_once sampleSubstrate sampleHost pathsApart_sampleConfig
    blank_sample hreach
  exact ⟨hobs, hmarks, hspaced⟩

/-- A recovery that dies behind its frame: the next start does not find the hash of the intent in
the payload of the recovery, and records the intent again. -/
def sampleTwice : List (sampleGateway sampleConfig).Event :=
  .boot :: sampleCut ++ .boot :: (sampleCalls 13 ++ [.kill]) ++ .boot :: sampleCalls 13

theorem recovery_repeats_observation :
    (sampleGateway sampleConfig).Reaches (fun e => none ∉ e.script) (fun _ => True)
      (.initial fun _ => none, .down) (sampleRun sampleTwice) ∧
    ((sampleRun sampleTwice).1.evidence sampleConfig).obs = 2 ∧
    ((sampleRun sampleTwice).1.evidence sampleConfig).marks.length = 1 ∧
    ¬ Spaced ((sampleRun sampleTwice).1.evidence sampleConfig).obs
      ((sampleRun sampleTwice).1.evidence sampleConfig).marks := by
  refine ⟨?_, by decide +kernel⟩
  have hfirst := sampleRun_reaches (B := fun _ => True) trivial sampleCut tame_sampleCut
  have hsecond := hfirst.trans (sample_reaches trivial (sampleCalls 13 ++ [.kill])
    (by decide +kernel))
  have hthird := hsecond.trans (sample_reaches trivial (sampleCalls 13) (by decide +kernel))
  rw [sampleRun_append, sampleRun_append] at hthird
  exact hthird

end Histories

end AxiomaOracle
