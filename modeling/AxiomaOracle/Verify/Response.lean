import AxiomaOracle.Lib.Split
import AxiomaOracle.Verify.Config
import AxiomaOracle.Verify.Served

/-!
# The response framing

The header of a response is nine keyed lines and a blank line, with the text of the answer behind it
(`responseHeader_eq`). No key has a colon, no value a line end, and each line is not empty, so a
client that cuts at the first blank line, at line ends and at the first colon of a line reads all of
it back (`Lib.readFields_lines`). The bound on the buffer is the sum of the bounds on the values.
-/

namespace AxiomaOracle

open Lib

/-- The keys of the header and their values, in order. -/
def responseFields (cfg : GwConfig) (o : Outcome) (info : CommitInfo) (params : AxOracleParams) :
    List (Bytes × Bytes) :=
  [(ascii "status", if o.okForCaller then ascii "ok" else ascii "error"),
    (ascii "completion_state", stateName o.state), (ascii "failure_type", failureName o.ftype),
    (ascii "obs_hash", info.obsHashHex), (ascii "chain_head", info.headHex),
    (ascii "seq", decimal info.seq.toNat), (ascii "snapshot_id", cfg.modelId.bytes),
    (ascii "temperature_q16", if axParamsTemperatureIsNull params then ascii "null"
      else C.ld params.temperature.toInt),
    (ascii "output_len", decimal o.output.length)]

/-- A client: the response is cut at its first blank line, the header at line feeds, and each line
at its first colon and blank. -/
def clientRead (response : Bytes) : Option (List (Bytes × Bytes) × Bytes) :=
  readFields (chr '\n') [chr ':', chr ' '] response

/-- What a commit reports: the hash of an admitted record and a chain head, both in hex. -/
structure Reported (S : Substrate) (info : CommitInfo) : Prop where
  obsHash : ∃ obs, Accepted S obs ∧ info.obsHashHex = obs.obsHash.bytes
  head : ∃ d : Digest, info.headHex = hexOf d.bytes

section Response

variable {S : Substrate} {cfg : GwConfig} {o : Outcome} {info : CommitInfo}
  {params : AxOracleParams}

variable (cfg) in
theorem commitObservation_reports (st : GwState S) (state : AxCompletionState)
    (ftype : AxFailureType) (input output : Bytes) (params : AxOracleParams) :
    (commitObservation cfg st state ftype input output params).Yields
      fun x => ∀ info ∈ x.2, Reported S info := by
  unfold commitObservation
  dsimp only
  split
  · exact .ret fun info h => nomatch h
  next hret =>
  split
  · exact .ret fun info h => nomatch h
  split
  · exact .ret fun info h => nomatch h
  split
  · exact .ret fun info h => nomatch h
  refine .seq _ fun gr => ?_
  rcases gr with ⟨g, _ | ⟨head, seq⟩⟩
  · exact .ret fun info h => nomatch h
  · refine .ret fun info h => ?_
    obtain rfl := Option.some.inj h
    exact ⟨⟨_, ⟨_, _, _, _, hret, rfl⟩, rfl⟩, head, ofBytes_hexOf head.bytes⟩

/-! ## The header is the lines of its fields -/

theorem responseHeader_eq (cfg : GwConfig) (o : Outcome) (info : CommitInfo)
    (params : AxOracleParams) :
    responseHeader cfg o info params =
      [chr '\n'].intercalate ((responseFields cfg o info params).map
        (fieldLine [chr ':', chr ' '])) ++ [chr '\n', chr '\n'] := by
  have hfirst (t : Bytes) : ascii "status" ++ ([chr ':', chr ' '] ++ t) =
    ascii "status: " ++ t := rfl
  have hline : ∀ k ∈ ["completion_state", "failure_type", "obs_hash", "chain_head", "seq",
      "snapshot_id", "temperature_q16", "output_len"],
      [chr '\n'] ++ (ascii k ++ [chr ':', chr ' ']) = ascii ("\n" ++ k ++ ": ") := by decide
  have hkey (k : String) (t : Bytes) (h : [chr '\n'] ++ (ascii k ++ [chr ':', chr ' ']) =
      ascii ("\n" ++ k ++ ": ")) :
      [chr '\n'] ++ (ascii k ++ ([chr ':', chr ' '] ++ t)) = ascii ("\n" ++ k ++ ": ") ++ t := by
    rw [← h]
    simp only [List.append_assoc]
  unfold responseHeader responseFields
  simp only [List.map_cons, List.map_nil, List.intercalate_cons_cons, List.intercalate_singleton,
    fieldLine, List.append_assoc]
  rw [hfirst, hkey "completion_state" _ (hline _ (by decide)),
    hkey "failure_type" _ (hline _ (by decide)), hkey "obs_hash" _ (hline _ (by decide)),
    hkey "chain_head" _ (hline _ (by decide)), hkey "seq" _ (hline _ (by decide)),
    hkey "snapshot_id" _ (hline _ (by decide)), hkey "temperature_q16" _ (hline _ (by decide)),
    hkey "output_len" _ (hline _ (by decide))]
  rfl

/-! ## Its values -/

theorem decimal_printable (n : Nat) : ∀ b ∈ decimal n, 0x20 ≤ b.toNat := by
  intro b hb
  have hdigit := decimal_isDigit n b hb
  simp only [isDigit, Bool.and_eq_true, decide_eq_true_eq] at hdigit
  omega

theorem ld_printable (v : Int) : ∀ b ∈ C.ld v, 0x20 ≤ b.toNat := by
  cases v with
  | ofNat n => exact decimal_printable n
  | negSucc n => exact List.forall_mem_cons.2 ⟨by decide, decimal_printable (n + 1)⟩

theorem hexOf_printable (bs : Bytes) : ∀ b ∈ hexOf bs, 0x20 ≤ b.toNat := fun b hb =>
  Nat.le_trans (by decide) (hexOf_range bs b hb).1

theorem ite_printable {c : Prop} [Decidable c] {s t : Bytes} (hs : ∀ b ∈ s, 0x20 ≤ b.toNat)
    (ht : ∀ b ∈ t, 0x20 ≤ b.toNat) : ∀ b ∈ if c then s else t, 0x20 ≤ b.toNat := by
  split
  · exact hs
  · exact ht

/-- No value has a control character. -/
theorem responseFields_printable (hcfg : Loaded cfg) (hinfo : Reported S info) (o : Outcome)
    (params : AxOracleParams) :
    ∀ f ∈ responseFields cfg o info params, ∀ b ∈ f.2, 0x20 ≤ b.toNat := by
  obtain ⟨c, hc, -, -, -, hmodel⟩ := hcfg.named
  obtain ⟨obs, hacc, hobs⟩ := hinfo.obsHash
  obtain ⟨d, -, hd⟩ := hacc.admissible.hash
  obtain ⟨head, hhead⟩ := hinfo.head
  have hname : cfg.modelId = c := Option.some.inj hc
  simp only [responseFields, List.forall_mem_cons]
  refine ⟨ite_printable (by decide) (by decide), ?_, ?_, ?_, ?_, decimal_printable _, ?_,
    ite_printable (by decide) (ld_printable _), decimal_printable _, fun f hf => nomatch hf⟩
  · cases o.state <;> simp only [stateName] <;> decide
  · cases o.ftype <;> simp only [failureName] <;> decide
  · rw [hobs, hd]
    exact hexOf_printable _
  · rw [hhead]
    exact hexOf_printable _
  · rw [hname]
    exact fun b hb => (hmodel b hb).1

theorem responseHeader_length (hcfg : Loaded cfg) (hinfo : Reported S info) (o : Outcome)
    (params : AxOracleParams) (hlen : o.output.length < sizeMod) :
    (responseHeader cfg o info params).length < 384 + gwIdMax := by
  obtain ⟨c, hc, -, hmodel, -⟩ := hcfg.named
  obtain ⟨obs, hacc, hobs⟩ := hinfo.obsHash
  obtain ⟨head, hhead⟩ := hinfo.head
  have hname : cfg.modelId = c := Option.some.inj hc
  have hstatus : (if o.okForCaller then ascii "ok" else ascii "error").length ≤ 5 := by
    split <;> decide
  have hstate : (stateName o.state).length ≤ 9 := by
    cases o.state <;> simp only [stateName] <;> decide
  have hftype : (failureName o.ftype).length ≤ 15 := by
    cases o.ftype <;> simp only [failureName] <;> decide
  have hhash : info.obsHashHex.length = 64 := by rw [hobs, hacc.obsHash_length]
  have hchain : info.headHex.length = 64 := by
    rw [hhead, hexOf_length, head.size]
    rfl
  have hseq := decimal_length_le_20 info.seq.toNat_lt
  have hout := decimal_length_le_20 hlen
  have htemp : (if axParamsTemperatureIsNull params then ascii "null"
      else C.ld params.temperature.toInt).length ≤ 20 := by
    split
    · decide
    · have hlo := params.temperature.le_toInt
      have hhi := params.temperature.toInt_lt
      exact numeral_length_le (by omega) (by omega)
  have hkeys : (ascii "status: ").length = 8 ∧ (ascii "\ncompletion_state: ").length = 19 ∧
      (ascii "\nfailure_type: ").length = 15 ∧ (ascii "\nobs_hash: ").length = 11 ∧
      (ascii "\nchain_head: ").length = 13 ∧ (ascii "\nseq: ").length = 6 ∧
      (ascii "\nsnapshot_id: ").length = 14 ∧ (ascii "\ntemperature_q16: ").length = 18 ∧
      (ascii "\noutput_len: ").length = 13 ∧ (ascii "\n\n").length = 2 := by decide
  have hbuf : gwIdMax = 256 := rfl
  unfold responseHeader
  rw [hname]
  simp only [List.length_append]
  omega

/-- **A client reads the response back.** -/
theorem clientRead_response (hcfg : Loaded cfg) (hinfo : Reported S info) (o : Outcome)
    (params : AxOracleParams) :
    clientRead (responseHeader cfg o info params ++ o.output) =
      some (responseFields cfg o info params, o.output) := by
  have hkeys : (responseFields cfg o info params).map Prod.fst =
      [ascii "status", ascii "completion_state", ascii "failure_type", ascii "obs_hash",
        ascii "chain_head", ascii "seq", ascii "snapshot_id", ascii "temperature_q16",
        ascii "output_len"] := rfl
  have hkey : ∀ f ∈ responseFields cfg o info params, chr ':' ∉ f.1 ∧ chr '\n' ∉ f.1 := by
    intro f hf
    have hmem := List.mem_map_of_mem (f := Prod.fst) hf
    rw [hkeys] at hmem
    revert hmem
    generalize f.1 = k
    revert k
    decide
  have hvalues := responseFields_printable hcfg hinfo o params
  have hline : ∀ f ∈ responseFields cfg o info params,
      chr '\n' ∉ fieldLine [chr ':', chr ' '] f := by
    intro f hf hmem
    rcases List.mem_append.1 hmem with h | h
    · exact (hkey f hf).2 h
    rcases List.mem_append.1 h with h | h
    · exact absurd h (by decide)
    · exact absurd (hvalues f hf _ h) (by decide)
  rw [responseHeader_eq, List.append_assoc]
  exact readFields_lines (List.cons_ne_nil _ _) (fun f hf => (hkey f hf).1) hline o.output

/-- What is sent is the header, and behind one that arrives the text. -/
theorem respond_sends (secret : Bytes)
    (hfits : (responseHeader cfg o info params).length < 384 + gwIdMax)
    (envs : Nat → Env) (w : World) :
    sends ((machine cfg).trace (respond cfg secret o info params) envs w) =
        [(responseHeader cfg o info params, false)] ∨
      ∃ rest, sends ((machine cfg).trace (respond cfg secret o info params) envs w) =
          (responseHeader cfg o info params, true) :: rest ∧
          (rest.map Prod.fst).flatten = o.output := by
  have hbuf : C.snprintf (384 + gwIdMax) (responseHeader cfg o info params) =
      some (responseHeader cfg o info params) := if_pos hfits
  unfold respond
  rw [hbuf]
  simp only [sys, Prog.perform_bind]
  cases hok : ((machine cfg).exec (.send (responseHeader cfg o info params)) (envs 0) w).1 with
  | false =>
    left
    rw [Machine.trace, hok]
    rfl
  | true =>
    right
    rw [Machine.trace, hok]
    by_cases hlen : o.output.length > 0
    · simp only [if_true, hlen]
      exact ⟨_, rfl, List.append_nil _⟩
    · have hnil : o.output = [] := List.length_eq_zero_iff.1 (by omega)
      simp only [if_true, hlen, if_false]
      exact ⟨[], rfl, hnil.symm⟩

/-- **The response framing is decodable.** Behind a commit the header fits its buffer, so the header
is what is sent, with the text behind it; and a client that reads the framing finds the nine keys in
order, each with its value, and the text. -/
theorem response_decodable {file : Bytes} (hload : gwConfigLoad file = .ok cfg)
    {st st' : GwState S} {input : Bytes} {envs : Nat → Env} {w w' : World}
    (hlen : o.output.length < sizeMod)
    (hcommit : (machine cfg).eval (commitObservation cfg st o.state o.ftype input o.output params)
      envs w = ((st', some info), w')) :
    C.snprintf (384 + gwIdMax) (responseHeader cfg o info params) =
      some (responseHeader cfg o info params) ∧
    clientRead (responseHeader cfg o info params ++ o.output) =
      some (responseFields cfg o info params, o.output) ∧
    ∀ (secret : Bytes) (envs' : Nat → Env) (w'' : World),
      sends ((machine cfg).trace (respond cfg secret o info params) envs' w'') =
          [(responseHeader cfg o info params, false)] ∨
        ∃ rest, sends ((machine cfg).trace (respond cfg secret o info params) envs' w'') =
            (responseHeader cfg o info params, true) :: rest ∧
          (rest.map Prod.fst).flatten = o.output := by
  have hcfg := gwConfigLoad_ok hload
  have hyields := (commitObservation_reports cfg st o.state o.ftype input o.output params).eval
    (machine cfg) envs w
  rw [hcommit] at hyields
  have hinfo : Reported S info := hyields info rfl
  have hfits := responseHeader_length hcfg hinfo o params hlen
  exact ⟨if_pos hfits, clientRead_response hcfg hinfo o params,
    fun secret envs' w'' => respond_sends secret hfits envs' w''⟩

/-! ## Over a request -/

theorem Recorded.reported {input output : Bytes} {rec : AxObsRecord} {w : World}
    (h : Recorded S cfg input output rec info w) : Reported S info := by
  obtain ⟨genesis, fs, f, r, -, -, -, -, -, -, hhead⟩ := h.ledger
  exact ⟨⟨rec, h.observed.accepted, h.obsHash.symm⟩, S.currentHash r.ctx,
    hhead.trans (ofBytes_hexOf _)⟩

/-- **Whatever a request sends** is a refusal, the cut header of a response, or a response that a
client reads back. -/
theorem handleRequest_decodable {host : Host} {node : Bytes → Option Node} {w : World}
    {st : GwState S} {file : Bytes} (hload : gwConfigLoad file = .ok cfg) (hpaths : PathsApart cfg)
    (hcount : Counts S) (hsize : ((World.initial node).content cfg .ledger).length ≤ offMax)
    (hreach : (gateway S cfg host).Reaches (fun _ => True) (fun _ => True) (.initial node, .down)
      (w, .idle st)) (req secret : Bytes) (envs : Nat → Env) :
    (∃ reason ok, sends ((machine cfg).trace (handleRequest cfg secret st req) envs w) =
      [(refusal reason, ok)]) ∨
    (∃ o info params, sends ((machine cfg).trace (handleRequest cfg secret st req) envs w) =
      [(responseHeader cfg o info params, false)]) ∨
    ∃ o info params, clientRead ((sends ((machine cfg).trace (handleRequest cfg secret st req) envs
      w)).map Prod.fst).flatten = some (responseFields cfg o info params, o.output) := by
  have hsaid := (handleRequest_runs (C := fun _ _ => True) hpaths hcount hsize hreach req secret
    envs fun _ _ => trivial).2.2.said
  generalize sends ((machine cfg).trace (handleRequest cfg secret st req) envs w) = sent at hsaid ⊢
  cases hsaid with
  | refused reason ok => exact .inl ⟨reason, ok, rfl⟩
  | @cut o info params => exact .inr (.inl ⟨o, info, params, rfl⟩)
  | @served o info params rest hresp hrest =>
    obtain ⟨hdr, norm, rec, -, -, hrec⟩ := hresp.recorded
    refine .inr (.inr ⟨o, info, params, ?_⟩)
    rw [List.map_cons, List.flatten_cons, hrest]
    exact clientRead_response (gwConfigLoad_ok hload) hrec.reported o params

end Response

/-- An answer with a blank line and a colon of its own. -/
def framedOutcome : Outcome := ⟨.complete, .null, ascii "a: b\n\nc", true⟩

def framedCommit : (GwState sampleSubstrate × Option CommitInfo) × World :=
  (machine servedConfig).eval (commitObservation servedConfig
    ⟨axAdmissionCtxInit, 0, false, sampleGwl⟩ framedOutcome.state framedOutcome.ftype (ascii "hi")
    framedOutcome.output axOracleParamsInitNull) (fun _ => {}) sampleOpened

theorem response_decodable_sample : ∃ info, framedCommit.1.2 = some info ∧
    clientRead (responseHeader servedConfig framedOutcome info axOracleParamsInitNull ++
        framedOutcome.output) =
      some (responseFields servedConfig framedOutcome info axOracleParamsInitNull,
        ascii "a: b\n\nc") := by
  have hsome : framedCommit.1.2.isSome = true := by decide +kernel
  have hlen : framedOutcome.output.length < sizeMod := by decide
  generalize hrun : framedCommit = run at hsome ⊢
  obtain ⟨⟨st, _ | info⟩, w⟩ := run
  · cases hsome
  · unfold framedCommit at hrun
    exact ⟨info, rfl, (response_decodable (o := framedOutcome) servedConfig_loads hlen hrun).2.1⟩

end AxiomaOracle
