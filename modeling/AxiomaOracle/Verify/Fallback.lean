import AxiomaOracle.Verify.Config
import AxiomaOracle.Verify.Standing

/-!
# A failure can always be recorded

An observation with no output, of a loaded configuration, passes every check of admission: the
identifiers were checked when they were loaded, and the record is far below the limit. Only the
ordering guard is left, and a current process passes it.
-/

namespace AxiomaOracle

open Lib

variable {S : Substrate} {cfg : GwConfig} {whole : Prop} {w : World} {genesis : S.LedgerCtx}
  {fs : List Frame} {st : GwState S}

/-- The three failures of `ERROR`. -/
def IsFailure (ftype : AxFailureType) : Prop :=
  ftype = .timeout ∨ ftype = .invalidOutput ∨ ftype = .transportError

/-! ## The size of the record -/

theorem escape_length_le (s : Bytes) : (Json.escape s).length ≤ 6 * s.length := by
  induction s with
  | nil => exact Nat.le_refl _
  | cons c s ih =>
    have hc : (Json.escapeByte c).length ≤ 6 := by
      unfold Json.escapeByte
      split
      · exact (by decide : 2 ≤ 6)
      split
      · exact (by decide : 2 ≤ 6)
      split
      · exact Nat.le_refl 6
      · exact (by decide : 1 ≤ 6)
    have hcons : Json.escape (c :: s) = Json.escapeByte c ++ Json.escape s := List.flatMap_cons
    rw [hcons, List.length_append, List.length_cons]
    omega

theorem optEscaped_length_le {s : Option CStr} {n : Nat} (h : IdAdmitted s n) :
    (optEscaped s).length ≤ 6 * n := by
  obtain ⟨c, rfl, -, hle, -⟩ := h
  have := escape_length_le c.bytes
  have heq : optEscaped (some c) = Json.escape c.bytes := rfl
  rw [heq]
  omega

/-- A record without an output is far below the limit. -/
theorem failureText_length_le {rec : AxObsRecord} (hmodel : IdAdmitted rec.modelId 255)
    (horacle : IdAdmitted rec.oracleId 255) (hhash : rec.obsHash.bytes.length ≤ 64)
    (hout : optEscaped rec.output = []) (hschema : rec.schemaVersion = some axObsSchemaVersion) :
    (obsText rec true).length ≤ 4000 := by
  have htext := obsText_length_le rec
  have h1 := optEscaped_length_le hmodel
  have h2 := optEscaped_length_le horacle
  have h3 : (rec.schemaVersion.elim [] CStr.bytes).length = 9 := by
    rw [hschema]
    decide
  rw [hout, List.length_nil] at htext
  omega

/-! ## Admission -/

theorem Current.ordered_succ (hcount : Counts S) (h : Current S cfg genesis fs st w)
    (hframed : Framed S cfg whole w) (hinit : st.adm.initialized = true) :
    st.adm.lastLedgerSeq < gwlSeq st.gwl + 1 := by
  have hsize : (encodeAll fs).length ≤ offMax := h.inStep.at_.content ▸ hframed.size
  have hnum := h.inStep.sequence hcount hsize
  have hsucc := succ_toNat hsize hnum
  have hle := UInt64.le_iff_toNat_le.1 (h.ordered hinit)
  rw [UInt64.lt_iff_toNat_lt]
  omega

/-- A pointer with a length points somewhere. -/
theorem CBuf.ofBytes_present (bs : Bytes) :
    ¬ ((CBuf.ofBytes bs).isNull = true ∧ 0 < (CBuf.ofBytes bs).len) := by
  unfold CBuf.ofBytes
  split
  · rintro ⟨hnull, -⟩
    cases hnull
  · rintro ⟨-, hpos⟩
    exact absurd hpos (by decide)

/-- **A failure is always admitted**, by a current process with a loaded configuration. -/
theorem failure_admitted (hcfg : Loaded cfg) (hfault : Faultless S)
    (hord : st.adm.initialized = true → st.adm.lastLedgerSeq < gwlSeq st.gwl + 1)
    {ftype : AxFailureType} (htype : IsFailure ftype) (input : Bytes) (params : AxOracleParams) :
    (axObsAdmit S axMaxOutputBytes (observationInput cfg st .error ftype input [] params)
      st.adm {}).ret = none := by
  have hmodel := hcfg.named
  have horacle := hcfg.oracleId
  have hkept : keptOutput (observationInput cfg st .error ftype input [] params) = [] := rfl
  have hinput : ¬ ((observationInput cfg st .error ftype input [] params).input.isNull = true ∧
      0 < (observationInput cfg st .error ftype input [] params).input.len) :=
    CBuf.ofBytes_present input
  have hstates : (observationInput cfg st .error ftype input [] params).completionState = .error ∧
      IsFailure (observationInput cfg st .error ftype input [] params).failureType := ⟨rfl, htype⟩
  refine axObsAdmit_of_admits ⟨?_, hmodel.mono (by decide), horacle.mono (by decide),
    .inr (.inr hstates), ?_, hinput, ?_, .inl hkept, ?_⟩ (by rw [hkept]; decide) {}
  · cases hinit : st.adm.initialized with
    | false => exact .inl rfl
    | true => exact .inr (hord hinit)
  · rintro ⟨-, hlt⟩
    cases hlt
  · rintro ⟨hnull, -⟩
    cases hnull
  · generalize hinp : observationInput cfg st .error ftype input [] params = inp at *
    obtain ⟨d, hd⟩ := Option.isSome_iff_exists.1
      (hfault.commit axObsSchemaVersion (obsText (admitBody S inp) false))
    have hrec : RecordOf S inp { admitBody S inp with obsHash := .ofBytes (hexOf d.bytes) } := by
      subst hinp
      exact recordOf_admitBody hinput (congrArg Prod.fst (axValidateAndNormalise_nil 1 {})) rfl hd
        (ofBytes_hexOf d.bytes)
    have hlen : (obsText { admitBody S inp with obsHash := .ofBytes (hexOf d.bytes) } true).length ≤
        4000 := by
      subst hinp
      refine failureText_length_le hmodel horacle ?_ rfl rfl
      rw [ofBytes_hexOf, hexOf_length, d.size]
      decide
    refine ⟨_, hrec, axCanonicalBufferSize, _, axObsCanonicalise_ok_iff.2 ⟨rfl, ?_⟩,
      Nat.le_trans hlen (by decide)⟩
    exact Nat.le_trans hlen (by decide)

end AxiomaOracle
