import AxiomaOracle.Gateway.Main
import AxiomaOracle.Tools.LossCheck
import AxiomaOracle.Verify.AdmissionRuns
import AxiomaOracle.Verify.Ledger

/-!
# The historical checker and the live producer

Two implementations of one file format and of one record: `gwl_append` writes frames and
`obs_v1_loss_check.py` reads them; admission accepts a record and the checker finds no signature in
its canonical form.
-/

namespace AxiomaOracle

open Lib

/-! ## The frame file -/

/-- Pairs with their numbers, from `n` on. -/
def numberedFrom (n : Nat) (tps : List (Bytes × Bytes)) : List (Nat × Bytes × Bytes) :=
  (tps.zipIdx n).map fun x => (x.2, x.1)

theorem take_drop_middle (a b c : Bytes) : ((a ++ (b ++ c)).drop a.length).take b.length = b := by
  rw [List.drop_left, List.take_left]

/-- One turn of the loop, at the start of a frame. -/
theorem framesLoop_encode (f : Frame) (done rest : Bytes) (fuel seq : Nat) :
    LossCheck.framesLoop (done ++ (f.encode ++ rest)) (fuel + 1) done.length seq =
      (LossCheck.framesLoop (done ++ (f.encode ++ rest)) fuel (done.length + f.encode.length)
        (seq + 1)).map ((seq + 1, f.tag, f.payload) :: ·) := by
  have hlen := f.encode_length
  have hcommit := f.commitLen
  -- the four slices the loop takes, each behind what stands before it
  have htlen : ((done ++ (f.encode ++ rest)).drop done.length).take 4 = wrU32le f.tag.length := by
    have := take_drop_middle done (wrU32le f.tag.length)
      (f.tag ++ (wrU64le f.payload.length ++ (f.payload ++ f.commit)) ++ rest)
    simpa only [Frame.encode_eq, List.append_assoc, Frame.wrU32le_length] using this
  have htag : ((done ++ (f.encode ++ rest)).drop (done.length + 4)).take f.tag.length = f.tag := by
    have := take_drop_middle (done ++ wrU32le f.tag.length) f.tag
      (wrU64le f.payload.length ++ (f.payload ++ f.commit) ++ rest)
    simpa only [Frame.encode_eq, List.append_assoc, List.length_append, Frame.wrU32le_length]
      using this
  have hplen : ((done ++ (f.encode ++ rest)).drop (done.length + 4 + f.tag.length)).take 8 =
      wrU64le f.payload.length := by
    have := take_drop_middle (done ++ wrU32le f.tag.length ++ f.tag) (wrU64le f.payload.length)
      (f.payload ++ f.commit ++ rest)
    simpa only [Frame.encode_eq, List.append_assoc, List.length_append, Frame.wrU32le_length,
      Frame.wrU64le_length, Nat.add_assoc] using this
  have hpayload : ((done ++ (f.encode ++ rest)).drop (done.length + 4 + f.tag.length + 8)).take
      f.payload.length = f.payload := by
    have := take_drop_middle (done ++ wrU32le f.tag.length ++ f.tag ++ wrU64le f.payload.length)
      f.payload (f.commit ++ rest)
    simpa only [Frame.encode_eq, List.append_assoc, List.length_append, Frame.wrU32le_length,
      Frame.wrU64le_length, Nat.add_assoc] using this
  have hrd32 : leDecode (wrU32le f.tag.length) = f.tag.length := f.rdU32le_tag
  have hrd64 : leDecode (wrU64le f.payload.length) = f.payload.length := f.rdU64le_payload
  have hend : done.length + 4 + f.tag.length + 8 + (f.payload.length + 32) =
      done.length + f.encode.length := by omega
  have htotal : (done ++ (f.encode ++ rest)).length =
      done.length + (f.encode.length + rest.length) := by simp
  rw [LossCheck.framesLoop]
  simp only [htlen, hrd32, htag, hplen, hrd64, hpayload, hend, htotal]
  rw [if_pos (by omega), if_neg (by omega), if_neg (by omega), if_neg (by omega)]

theorem framesLoop_encodeAll_numbered (fs : List Frame) (done : Bytes) {fuel seq : Nat}
    (hfuel : fs.length ≤ fuel) :
    LossCheck.framesLoop (done ++ encodeAll fs) fuel done.length seq =
      .ok (numberedFrom (seq + 1) (fs.map fun f => (f.tag, f.payload))) := by
  induction fs generalizing done fuel seq with
  | nil =>
    cases fuel with
    | zero => rfl
    | succ fuel =>
      rw [LossCheck.framesLoop, encodeAll_nil, List.append_nil, if_neg (Nat.lt_irrefl _)]; rfl
  | cons f fs ih =>
    obtain ⟨fuel, rfl⟩ : ∃ k, fuel = k + 1 := ⟨fuel - 1, by simp at hfuel; omega⟩
    have hrest : LossCheck.framesLoop _ fuel _ (seq + 1) = _ :=
      ih (done ++ f.encode) (Nat.le_of_succ_le_succ hfuel)
    rw [List.append_assoc, List.length_append] at hrest
    rw [encodeAll_cons, framesLoop_encode, hrest]
    rfl

/-- The checker reads whole frames back. -/
theorem lossCheck_frames_encodeAll (fs : List Frame) : LossCheck.frames (encodeAll fs) =
    .ok (numberedFrom 1 (fs.map fun f => (f.tag, f.payload))) := by
  have hlen := encodeAll_length_ge fs
  exact framesLoop_encodeAll_numbered fs [] (by omega)

section Appended

variable {S : Substrate} {cfg : GwConfig} {w : World}

/-- Successful appends behind whole frames leave whole frames, whatever the chain in memory. -/
theorem Appends.frames_of {g g' : Gwl S} {w' : World} {tps : List (CStr × Bytes)}
    (happ : Appends cfg g w tps g' w') {fs : List Frame} (hat : LedgerAt cfg w (encodeAll fs))
    (hexp : g.exportActive = true → cfg.path .exportCopy ≠ cfg.path .ledger) :
    ∃ gs : List Frame,
    gs.map (fun f => (f.tag, f.payload)) = tps.map (fun tp => (tp.1.bytes, tp.2)) ∧
      LedgerAt cfg w' (encodeAll (fs ++ gs)) := by
  induction happ generalizing fs with
  | nil g w => exact ⟨[], rfl, by rwa [List.append_nil]⟩
  | @cons g g' w w' tag payload tps envs hsome _ ih =>
    have hsafe : Safe (machine cfg) (fun _ => True) (fun _ _ => True) (fun _ => True)
        (fun x w' => x.2.isSome → (x.1.exportActive = true → g.exportActive = true) ∧
          ∃ f : Frame, FrameFor S tag payload f ∧ LedgerAt cfg w' (encodeAll (fs ++ [f])))
        (gwlAppend g tag payload) w := by
      apply gwlAppend_safe hat hexp
      · intro hnone
        cases hnone
      · intro f p w' _ _ _
        trivial
      · intro f p w' act _ _ _ _ hnone
        cases hnone
      · intro f w' act ctx hf hact hgrown _ _
        exact ⟨hact, f, hf, by simpa using hgrown.at_⟩
    obtain ⟨hact, f, hf, hnext⟩ := hsafe.eval (fun _ => trivial) hsome
    obtain ⟨gs, hgs, hend⟩ := ih hnext fun h => hexp (hact h)
    refine ⟨f :: gs, ?_, ?_⟩
    · rw [List.map_cons, List.map_cons, hgs, hf.tag_eq, hf.payload_eq]
    · rwa [List.append_assoc] at hend

end Appended

/-! ## Records -/

/-- An accepted record with no output claims none. -/
theorem Accepted.output_empty {S : Substrate} {obs : AxObsRecord} (h : Accepted S obs)
    (hempty : optBytes obs.output = []) : obs.outputSize = 0 := by
  obtain ⟨size, inp, ctx, f, hret, rfl⟩ := h
  obtain ⟨-, hpass, hash, hout, -⟩ := axObsAdmit_ok hret
  rw [hout] at hempty ⊢
  have hb : (CStr.ofBytes (outputOf inp.output)).bytes = outputOf inp.output :=
    CStr.ofBytes_of_nulFree (nulFree_of_control hpass.control)
  have hnil : outputOf inp.output = [] := by rw [← hb]; exact hempty
  -- normalisation empties nothing, so what was kept of the output is empty, and so is the output
  have hkept : inp.output.bytes.take axMaxOutputBytes = [] := by
    by_contra hne
    exact normLF_ne_nil hne hnil
  have hbytes : inp.output.bytes = [] := by
    rcases List.take_eq_nil_iff.1 hkept with hzero | hnil
    · exact absurd hzero (by decide)
    · exact hnil
  have hlen : inp.output.len = 0 := by
    obtain ⟨-, -, -, -, -, hnull⟩ := (inputIsSchemaValid_iff inp).1 hpass.valid
    cases hio : inp.output with
    | null n =>
      rw [hio] at hnull
      exact Nat.eq_zero_of_not_pos fun hpos => hnull ⟨rfl, hpos⟩
    | mem bs hbs =>
      rw [hio] at hbytes
      exact List.length_eq_zero_iff.2 hbytes
  change (if inp.output.len > axMaxOutputBytes then UInt64.ofNat inp.output.len
      else UInt64.ofNat (outputOf inp.output).length) = 0
  rw [if_neg (by rw [hlen]; exact Nat.not_lt_zero _), hnil]
  rfl

namespace LossCheck

theorem DecodesItems.keys {ms : List (Bytes × Json)} {items : List (Bytes × PyValue)}
    (h : DecodesItems ms items) {key : Bytes} (hkey : key ∉ ms.map Prod.fst) :
    get key items = none := by
  induction ms generalizing items with
  | nil =>
    cases h
    rfl
  | cons m ms ih =>
    cases h with
    | cons hv hrest =>
      rw [List.map_cons, List.mem_cons, not_or] at hkey
      rw [get, ih hrest hkey.2, if_neg (Ne.symm hkey.1)]

/-- A member of the object is found under its key. -/
theorem DecodesItems.get {ms : List (Bytes × Json)} {items : List (Bytes × PyValue)}
    (h : DecodesItems ms items) (hnodup : (ms.map Prod.fst).Nodup) (key : Bytes) (v : Json)
    (hmem : (key, v) ∈ ms) : ∃ p, LossCheck.get key items = some p ∧ Decodes v p := by
  induction ms generalizing items with
  | nil => cases hmem
  | cons m ms ih =>
    cases h with
    | @cons k w p _ items hv hrest =>
      rw [List.map_cons, List.nodup_cons] at hnodup
      rw [LossCheck.get]
      rcases List.mem_cons.1 hmem with heq | hlater
      · cases heq
        rw [hrest.keys hnodup.1, if_pos rfl]
        exact ⟨p, rfl, hv⟩
      · obtain ⟨q, hq, hdec⟩ := ih hrest hnodup.2 hlater
        rw [hq]
        exact ⟨q, rfl, hdec⟩

theorem DecodesItems.get_str {ms : List (Bytes × Json)} {items : List (Bytes × PyValue)}
    (h : DecodesItems ms items) (hnodup : (ms.map Prod.fst).Nodup) (key s : Bytes)
    (hmem : (key, Json.str s) ∈ ms) : LossCheck.get key items = some (.str s) := by
  obtain ⟨p, hp, hdec⟩ := h.get hnodup key _ hmem
  cases hdec
  exact hp

/-- The states of a permitted pair are none of the five findings. -/
theorem states_clean {cs : AxCompletionState} {ft : AxFailureType} {rec : List (Bytes × PyValue)}
    {p q : PyValue} (hperm : statePairIsPermitted cs ft = true)
    (hcs : get (ascii "completion_state") rec = some p) (hp : Decodes (completionStateJson cs) p)
    (hft : get (ascii "failure_type") rec = some q) (hq : Decodes (failureTypeJson ft) q) :
    eqStr (some p) unknownEnum = false ∧ eqStr (some q) unknownEnum = false ∧
      isForbiddenPair rec = false := by
  unfold isForbiddenPair
  rw [hcs, hft]
  cases cs <;> cases ft <;> try cases hperm
  all_goals
    cases hp
    cases hq
    decide

/-- The members of a record, as `obsJson` lists them. -/
theorem obsJson_items {obs : AxObsRecord} {p : PyValue} (h : Decodes (obsJson obs true) p) :
    ∃ ms items, obsJson obs true = .obj ms ∧ p = .dict items ∧ (ms.map Prod.fst).Nodup ∧
      DecodesItems ms items := by
  cases h with
  | @dict ms items hitems =>
    refine ⟨_, items, rfl, rfl, ?_, hitems⟩
    change [ascii "completion_state", ascii "failure_type", ascii "input_hash", ascii "ledger_seq",
      ascii "model_id", ascii "obs_hash", ascii "oracle_id", ascii "output", ascii "output_size",
      ascii "params", ascii "schema_version"].Nodup
    decide

theorem id_ne_nil {id : Option CStr} (h : idIsWellFormed id = true) : optBytes id ≠ [] := by
  cases id with
  | none => cases h
  | some c =>
    intro hnil
    have hc : c.bytes = [] := hnil
    simp [idIsWellFormed, hc] at h

/-- **A record that admission accepts has no signature.** -/
theorem signatures_accepted {S : Substrate} {loads : Bytes → Option PyValue}
    (hloads : Rfc8259 loads) {obs : AxObsRecord} (hacc : Accepted S obs) :
    signatures loads (obsText obs true) = [.ok] := by
  have hadm := hacc.admissible
  have hdecode : Json.decode (obsText obs true) = some (obsJson obs true) := by
    rw [obsText_admissible hadm true]
    exact Json.decode_render (plain_obsJson hadm true)
  obtain ⟨p, hp, hdec⟩ := hloads _ _ hdecode
  obtain ⟨ms, items, hms, rfl, hnodup, hitems⟩ := obsJson_items hdec
  obtain rfl := Json.obj.inj hms
  have hschema := hitems.get_str hnodup (ascii "schema_version") (optBytes obs.schemaVersion)
    (by simp)
  have hmodel := hitems.get_str hnodup (ascii "model_id") (optBytes obs.modelId) (by simp)
  have horacle := hitems.get_str hnodup (ascii "oracle_id") (optBytes obs.oracleId) (by simp)
  have houtput := hitems.get_str hnodup (ascii "output") (optBytes obs.output) (by simp)
  obtain ⟨n, hsize, hn⟩ := hitems.get hnodup (ascii "output_size") (.int obs.outputSize.toNat)
    (by simp)
  obtain ⟨cs, hcs, hcsdec⟩ := hitems.get hnodup (ascii "completion_state")
    (completionStateJson obs.completionState) (by simp)
  obtain ⟨ft, hft, hftdec⟩ := hitems.get hnodup (ascii "failure_type")
    (failureTypeJson obs.failureType) (by simp)
  obtain ⟨hcs', hft', hpair⟩ := states_clean hadm.states hcs hcsdec hft hftdec
  have htag : eqStr (some (.str (optBytes obs.schemaVersion))) obsTag = true := by
    rw [hadm.schema]
    decide
  have hloss :
      (eqStr (some (.str (optBytes obs.output))) [] && isPositiveInt (some n)) = false := by
    rw [Bool.and_eq_false_imp]
    intro hempty
    have hzero := hacc.output_empty (by simpa [eqStr] using hempty)
    rw [hzero] at hn
    cases hn <;> rfl
  have hids : (eqStr (some (.str (optBytes obs.modelId))) [] ||
      eqStr (some (.str (optBytes obs.oracleId))) []) = false := by
    simp [eqStr, id_ne_nil hadm.modelId, id_ne_nil hadm.oracleId]
  have hfits : ¬ (obsText obs true).length > maxObsBytes := Nat.not_lt.2 hadm.fits
  unfold signatures
  rw [hp]
  simp only [hschema, htag, houtput, hsize, hloss, hfits, hmodel, horacle, hids, hcs, hft, hcs',
    hft', hpair, Bool.not_true, Bool.or_false, Bool.false_eq_true, if_false, List.append_nil,
    if_true]

end LossCheck

/-! ## The two programs together -/

theorem numberedFrom_mem {n : Nat} {tps : List (Bytes × Bytes)} {x : Nat × Bytes × Bytes}
    (h : x ∈ numberedFrom n tps) : x.2 ∈ tps := by
  obtain ⟨y, hy, rfl⟩ := List.mem_map.1 h
  exact List.fst_mem_of_mem_zipIdx hy

theorem LossCheck.report_defects {loads : Bytes → Option PyValue} {records : List (Nat × Bytes)}
    (h : ∀ r ∈ records, signatures loads r.2 = [.ok]) : (report loads records).defects = 0 := by
  unfold report
  rw [List.length_eq_zero_iff, List.filter_eq_nil_iff]
  intro s hs
  obtain ⟨r, hr, rfl⟩ := List.mem_map.1 hs
  rw [h r hr]
  change ¬ isFinding .ok = true
  decide

/-- **The historical checker agrees with the live producer.** Of a file that successful appends
wrote into an empty ledger it reads exactly the pairs appended, numbered from 1; in the canonical
form of an accepted record it finds nothing; and a ledger whose observations are all such forms
gives exit status 0. -/
theorem loss_check_agrees {S : Substrate} {loads : Bytes → Option LossCheck.PyValue}
    (hloads : LossCheck.Rfc8259 loads) :
    (∀ (cfg : GwConfig) (g g' : Gwl S) (w w' : World) (tps : List (CStr × Bytes)),
      LedgerAt cfg w [] → (g.exportActive = true → cfg.path .exportCopy ≠ cfg.path .ledger) →
      Appends cfg g w tps g' w' →
      LossCheck.frames (w'.content cfg .ledger) =
        .ok (numberedFrom 1 (tps.map fun tp => (tp.1.bytes, tp.2))) ∧
      ((∀ tp ∈ tps, tp.1 = gwTagObs → ∃ obs size, Accepted S obs ∧
          axObsCanonicalise size obs true = .ok tp.2) →
        LossCheck.exitStatus (LossCheck.main loads .frames (w'.content cfg .ledger)) = 0)) ∧
    ∀ obs size text, Accepted S obs → axObsCanonicalise size obs true = .ok text →
      LossCheck.signatures loads text = [.ok] := by
  have hsig : ∀ obs size text, Accepted S obs → axObsCanonicalise size obs true = .ok text →
      LossCheck.signatures loads text = [.ok] := by
    intro obs size text hacc htext
    rw [(axObsCanonicalise_ok_iff.1 htext).1]
    exact LossCheck.signatures_accepted hloads hacc
  refine ⟨?_, hsig⟩
  intro cfg g g' w w' tps hat hexp happ
  have hempty : LedgerAt cfg w (encodeAll []) := hat
  obtain ⟨gs, hgs, hend⟩ := happ.frames_of hempty hexp
  have hframes : LossCheck.frames (w'.content cfg .ledger) =
      .ok (numberedFrom 1 (tps.map fun tp => (tp.1.bytes, tp.2))) := by
    rw [hend.content, List.nil_append, lossCheck_frames_encodeAll, hgs]
  refine ⟨hframes, ?_⟩
  intro hobs
  have hdefects : (LossCheck.report loads
      ((numberedFrom 1 (tps.map fun tp => (tp.1.bytes, tp.2))).filterMap fun f =>
        if f.2.1 = LossCheck.obsTag then some (f.1, f.2.2) else none)).defects = 0 := by
    apply LossCheck.report_defects
    intro r hr
    obtain ⟨x, hx, hsome⟩ := List.mem_filterMap.1 hr
    obtain ⟨tp, htp, hpair⟩ := List.mem_map.1 (numberedFrom_mem hx)
    split at hsome
    · rename_i htag
      obtain rfl := Option.some.inj hsome
      have htag' : tp.1 = gwTagObs := by
        have hobsTag : LossCheck.obsTag = gwTagObs.bytes := by decide
        rw [← hpair, hobsTag] at htag
        exact CStr.ext htag
      obtain ⟨obs, size, hacc, htext⟩ := hobs tp htp htag'
      rw [← hpair]
      exact hsig obs size tp.2 hacc htext
    · cases hsome
  simp only [LossCheck.main, LossCheck.items, hframes, Except.map, LossCheck.exitStatus, hdefects]
  rfl

/-! ## A loader, and a ledger of one record -/

namespace LossCheck

mutual

/-- A loader that takes every number of exponent zero for an `int`. -/
def ofJson : Json → PyValue
  | .null => .none
  | .bool b => .bool b
  | .num n e => if e = 0 then .int n else .float
  | .str s => .str s
  | .arr _ => .list
  | .obj ms => .dict (ofMembers ms)

def ofMembers : List (Bytes × Json) → List (Bytes × PyValue)
  | [] => []
  | (k, v) :: ms => (k, ofJson v) :: ofMembers ms

end

mutual

theorem decodes_ofJson : ∀ v : Json, Decodes v (ofJson v)
  | .null => .null
  | .bool b => .bool b
  | .num n e => by
    unfold ofJson
    split
    · subst e
      exact .int n
    · exact .float n e
  | .str s => .str s
  | .arr vs => .list vs
  | .obj ms => .dict (decodesItems_ofMembers ms)

theorem decodesItems_ofMembers : ∀ ms : List (Bytes × Json), DecodesItems ms (ofMembers ms)
  | [] => .nil
  | (_, v) :: ms => .cons (decodes_ofJson v) (decodesItems_ofMembers ms)

end

def sampleLoads (s : Bytes) : Option PyValue := (Json.decode s).map ofJson

theorem rfc8259_sampleLoads : Rfc8259 sampleLoads := by
  intro s v hv
  exact ⟨ofJson v, by rw [sampleLoads, hv]; rfl, decodes_ofJson v⟩

end LossCheck

/-- The canonical form of the accepted sample record. -/
def sampleRecordText : Bytes :=
  obsText (axObsAdmit sampleSubstrate 64 sampleInput axAdmissionCtxInit {}).out true

/-- An empty ledger after one append of it. -/
def sampleRecorded : (Gwl sampleSubstrate × Option (Digest × UInt64)) × World :=
  (machine sampleConfig).eval (gwlAppend sampleGwl gwTagObs sampleRecordText) (fun _ => {})
    sampleOpened

theorem loss_check_agrees_sample :
    LossCheck.frames (sampleRecorded.2.content sampleConfig .ledger) =
      .ok [(1, ascii "AX:OBS:v1", sampleRecordText)] ∧
    LossCheck.exitStatus (LossCheck.main LossCheck.sampleLoads .frames
      (sampleRecorded.2.content sampleConfig .ledger)) = 0 := by
  have hat : LedgerAt sampleConfig sampleOpened [] := ⟨rfl, rfl⟩
  have happ : Appends sampleConfig sampleGwl sampleOpened [(gwTagObs, sampleRecordText)]
      sampleRecorded.1.1 sampleRecorded.2 :=
    .cons (fun _ => {}) (by decide +kernel) (.nil _ _)
  have hacc : Accepted sampleSubstrate
      (axObsAdmit sampleSubstrate 64 sampleInput axAdmissionCtxInit {}).out :=
    ⟨_, _, _, _, sampleInput_accepted, rfl⟩
  obtain ⟨hframes, hexit⟩ := (loss_check_agrees LossCheck.rfc8259_sampleLoads).1 sampleConfig
    sampleGwl _ sampleOpened _ _ hat (fun h => nomatch h) happ
  refine ⟨hframes, hexit ?_⟩
  intro tp htp _
  rw [List.mem_singleton.1 htp]
  exact ⟨_, axMaxObsBytes + 1, hacc,
    axObsCanonicalise_admissible hacc.admissible (Nat.lt_succ_self _) true⟩

end AxiomaOracle
