import SovereignSeed.Foundation.Delimited
import SovereignSeed.Python.Value
import SovereignSeed.Tollbridge.Security

/-!
# Task manifests

`sovereign_seed_commons/manifests/manifest_validator.py`: the canonical bytes a
cell signs, and the validation of a manifest.

## Main definitions

* `buildCanonicalManifestBytes` — the labelled fields, joined by bars.
* `validateManifest` — the validator, with its reason codes.
* `Typed` — manifests with strings for the text fields and valid numbers.

## Main results

* `validateManifest_eq_ok_iff` — **what the validator accepts.**
* `Typed.toStr_injective` — a field is determined by its text.
-/

namespace SovereignSeed
namespace Commons

open Python Tollbridge

/-! ### The validator -/

/-- `REQUIRED_MANIFEST_FIELDS`. -/
def requiredManifestFields : List String :=
  ["manifest_version", "cell_id", "client_pubkey", "task_type", "target_resource",
    "execution_timeout_sec", "expected_evidence_hash", "timestamp_sec", "signature_hex"]

/-- The fields that go into the canonical bytes. -/
def signedFields : List String :=
  ["manifest_version", "cell_id", "client_pubkey", "task_type", "target_resource",
    "execution_timeout_sec", "expected_evidence_hash", "timestamp_sec"]

/-- `canonical_str`. -/
def canonicalStr (manifest : Dict) : PyStr :=
  text "version:" ++ (manifest.get "manifest_version").toStr ++ text "|" ++
  (text "cell:" ++ (manifest.get "cell_id").toStr ++ text "|") ++
  (text "pubkey:" ++ (manifest.get "client_pubkey").toStr ++ text "|") ++
  (text "task:" ++ (manifest.get "task_type").toStr ++ text "|") ++
  (text "resource:" ++ (manifest.get "target_resource").toStr ++ text "|") ++
  (text "timeout:" ++ (manifest.get "execution_timeout_sec").toStr ++ text "|") ++
  (text "evidence_hash:" ++ (manifest.get "expected_evidence_hash").toStr ++ text "|") ++
  (text "timestamp:" ++ (manifest.get "timestamp_sec").toStr)

/-- `_build_canonical_manifest_bytes`, or `none` where it raises: a `KeyError`,
a field without a text, or a surrogate that UTF-8 has no form for. -/
def buildCanonicalManifestBytes (manifest : Dict) : Option Bytes :=
  if signedFields.all fun k => manifest.has k && (manifest.get k).castStr.isOk then
    encode (canonicalStr manifest)
  else none

/-- The upper bound of a timeout: 3600 seconds. -/
def maxTimeoutSec : Magnitude :=
  ⟨3600 * 2 ^ 41, 1033, by decide, Or.inl (by decide), by decide +kernel⟩

/-- `timeout <= 0.0 or timeout > 3600.0`. -/
def timeoutOutOfBounds (timeout : PyFloat) : Bool :=
  timeout.le (.finite false .zero) || timeout.gt (.finite false maxTimeoutSec)

/-- The fields of a manifest that are used after their conversion. -/
structure ManifestFields where
  clientPubkey : PyStr
  timeout : PyFloat
  signatureHex : PyStr

/-- The conversions of a manifest, in order. -/
def castManifest (manifest : Dict) : Except PyError ManifestFields := do
  let _version ← (manifest.get "manifest_version").castStr
  let _cellId ← (manifest.get "cell_id").castStr
  let clientPubkey ← (manifest.get "client_pubkey").castStr
  let _taskType ← (manifest.get "task_type").castStr
  let _targetResource ← (manifest.get "target_resource").castStr
  let timeout ← (manifest.get "execution_timeout_sec").toFloat
  let _expectedEvidenceHash ← (manifest.get "expected_evidence_hash").castStr
  let _timestampSec ← (manifest.get "timestamp_sec").toFloat
  let signatureHex ← (manifest.get "signature_hex").castStr
  return ⟨clientPubkey, timeout, signatureHex⟩

/-- `validate_manifest`.  `none` stands for an argument that is no `dict`; the
handler of the conversions catches `ValueError` and `TypeError` only. -/
def validateManifest (C : Crypto) (manifest : Option Dict) : Except PyError (Bool × String) :=
  match manifest with
  | none => .ok (false, "MANIFEST_MALFORMED_TYPE")
  | some m =>
    if m = [] then .ok (false, "MANIFEST_MALFORMED_TYPE")
    else
      let missing := requiredManifestFields.filter fun f => !m.has f
      if missing ≠ [] then .ok (false, "MANIFEST_MISSING_FIELDS_" ++ "_".intercalate missing)
      else
        match castManifest m with
        | .error e =>
          if e ∈ [PyError.valueError, .typeError] then .ok (false, "MANIFEST_TYPE_CAST_FAULT")
          else .error e
        | .ok fields =>
          if timeoutOutOfBounds fields.timeout then .ok (false, "MANIFEST_INVALID_TIMEOUT_BOUNDS")
          else
            match buildCanonicalManifestBytes m with
            | none => .ok (false, "MANIFEST_CANONICAL_BUILD_FAULT")
            | some canonicalBytes =>
              match verifyEd25519Envelope C fields.clientPubkey canonicalBytes
                  fields.signatureHex with
              | (false, reason) => .ok (false, "MANIFEST_" ++ reason)
              | (true, _) => .ok (true, "OK")

/-! ### What the validator answers -/

/-- The conversions of a manifest, in order. -/
def manifestConversions : List Conversion :=
  [.str "manifest_version", .str "cell_id", .str "client_pubkey", .str "task_type",
    .str "target_resource", .float "execution_timeout_sec", .str "expected_evidence_hash",
    .float "timestamp_sec", .str "signature_hex"]

theorem castManifest_eq_error_iff {d : Dict} {e : PyError} :
    castManifest d = .error e ↔ firstRaised d manifestConversions = some e := by
  simp only [castManifest, bind_eq_error_iff, manifestConversions, firstRaised_str,
    firstRaised_float, firstRaised_nil, pure, Except.pure, reduceCtorEq]

/-- **What the validator answers**: all but manifests on which it raises another
exception than `ValueError` and `TypeError`. -/
theorem validateManifest_eq_ok_iff_raised {C : Crypto} {m : Dict} :
    (∃ answer, validateManifest C (some m) = .ok answer) ↔
      m = [] ∨ (∃ f ∈ requiredManifestFields, m.has f = false) ∨
        ∀ e, firstRaised m manifestConversions = some e → e = .valueError ∨ e = .typeError := by
  simp only [← castManifest_eq_error_iff, validateManifest]
  by_cases hm : m = []
  · simp [hm]
  by_cases hall : ∃ f ∈ requiredManifestFields, m.has f = false
  · have hmissing := missing_ne_nil_iff.mpr hall
    simp [hm, hall, hmissing]
  · have hmissing := not_not.mp (mt missing_ne_nil_iff.mp hall)
    cases hcast : castManifest m with
    | error e =>
      by_cases he : e = .valueError ∨ e = .typeError
      · simp [hm, hall, hmissing, he]
      · simp [hm, hall, hmissing, he]
    | ok fields =>
      simp only [hm, hall, hmissing, if_false, ne_eq, not_true_eq_false, false_or, reduceCtorEq,
        false_implies, implies_true, iff_true]
      split
      · exact ⟨_, rfl⟩
      · split
        · exact ⟨_, rfl⟩
        · split
          · exact ⟨_, rfl⟩
          · exact ⟨_, rfl⟩

/-! ### Typed manifests -/

/-- A number the validator takes for a timeout. -/
def ValidTimeout (v : PyValue) : Prop :=
  v.isNumber = true ∧ ∃ x, v.toFloat = .ok x ∧ timeoutOutOfBounds x = false

instance (v : PyValue) : Decidable (ValidTimeout v) :=
  decidable_of_iff (v.isNumber = true ∧ v.toFloat.toOption.map timeoutOutOfBounds = some false) (by
    unfold ValidTimeout
    cases v.toFloat <;> simp [Except.toOption])

/-- A number the validator takes for a timestamp. -/
def ValidTimestamp (v : PyValue) : Prop := v.isNumber = true ∧ ∃ x, v.toFloat = .ok x

instance (v : PyValue) : Decidable (ValidTimestamp v) :=
  decidable_of_iff (v.isNumber = true ∧ v.toFloat.toOption.isSome = true) (by
    unfold ValidTimestamp
    cases v.toFloat <;> simp [Except.toOption])

/-- The fields that hold text. -/
def textFields : List String :=
  ["manifest_version", "cell_id", "client_pubkey", "task_type", "target_resource",
    "expected_evidence_hash"]

theorem eq_of_not_mem_textFields : ∀ {k}, k ∈ signedFields → k ∉ textFields →
    k = "execution_timeout_sec" ∨ k = "timestamp_sec" := by
  intro k
  revert k
  decide

/-- A manifest with strings for the text fields and valid numbers for the rest. -/
structure Typed (m : Dict) : Prop where
  strings : ∀ k ∈ textFields, ∃ s, m.get k = .str s
  timeout : ValidTimeout (m.get "execution_timeout_sec")
  timestamp : ValidTimestamp (m.get "timestamp_sec")

/-- What `get` finds, the manifest has. -/
theorem has_of_get_ne_none {m : Dict} {k : String} (h : m.get k ≠ .none) : m.has k = true := by
  unfold Dict.get at h
  unfold Dict.has
  cases hl : m.lookup (text k) with
  | none => rw [hl] at h; exact absurd rfl h
  | some v => rfl

/-- A typed manifest has all signed fields, and each has a text. -/
theorem Typed.printable {m : Dict} (h : Typed m) :
    (signedFields.all fun k => m.has k && (m.get k).castStr.isOk) = true := by
  have hnum : ∀ {k x}, (m.get k).isNumber = true → (m.get k).toFloat = .ok x →
      (m.has k && (m.get k).castStr.isOk) = true := by
    intro k x hk hx
    have hhas : m.has k = true := by
      apply has_of_get_ne_none
      intro hnone
      rw [hnone] at hk
      cases hk
    rw [hhas, castStr_of_isNumber hk hx]
    rfl
  have htext : ∀ k ∈ textFields, (m.has k && (m.get k).castStr.isOk) = true := by
    intro k hk
    obtain ⟨s, hs⟩ := h.strings k hk
    have hhas : m.has k = true := by
      apply has_of_get_ne_none
      intro hnone
      rw [hs] at hnone
      cases hnone
    rw [hhas, hs]
    rfl
  rw [List.all_eq_true]
  intro k hk
  by_cases hmem : k ∈ textFields
  · exact htext k hmem
  · rcases eq_of_not_mem_textFields hk hmem with rfl | rfl
    · obtain ⟨hnumber, x, hx, -⟩ := h.timeout
      exact hnum hnumber hx
    · obtain ⟨hnumber, x, hx⟩ := h.timestamp
      exact hnum hnumber hx

/-- The bytes of a typed manifest are the UTF-8 form of its text. -/
theorem Typed.bytes {m : Dict} (h : Typed m) :
    buildCanonicalManifestBytes m = encode (canonicalStr m) := by
  rw [buildCanonicalManifestBytes, if_pos h.printable]

/-- **A field of typed manifests is determined by its text.** -/
theorem Typed.toStr_injective {m m' : Dict} (h : Typed m) (h' : Typed m') {k : String}
    (hk : k ∈ signedFields) (heq : (m.get k).toStr = (m'.get k).toStr) : m.get k = m'.get k := by
  by_cases hmem : k ∈ textFields
  · obtain ⟨s, hs⟩ := h.strings k hmem
    obtain ⟨s', hs'⟩ := h'.strings k hmem
    rw [hs, hs'] at heq ⊢
    exact congrArg PyValue.str heq
  · rcases eq_of_not_mem_textFields hk hmem with rfl | rfl
    · exact toStr_injective_of_isNumber h.timeout.1 h'.timeout.1 heq
    · exact toStr_injective_of_isNumber h.timestamp.1 h'.timestamp.1 heq

/-! ### What the validator accepts -/

/-- **What the validator accepts**: all fields, conversions that succeed, a
timeout within its bounds, and a signature that verifies over the canonical
bytes. -/
theorem validateManifest_eq_ok_iff (C : Crypto) (m : Dict) :
    validateManifest C (some m) = .ok (true, "OK") ↔
      (∀ f ∈ requiredManifestFields, m.has f = true) ∧
      ∃ fields, castManifest m = .ok fields ∧ timeoutOutOfBounds fields.timeout = false ∧
        ∃ bytes, buildCanonicalManifestBytes m = some bytes ∧
          (verifyEd25519Envelope C fields.clientPubkey bytes fields.signatureHex).1 = true := by
  constructor
  · intro hok
    simp only [validateManifest] at hok
    split at hok
    · cases hok
    split at hok
    · cases hok
    next hfields =>
    have hall : ∀ f ∈ requiredManifestFields, m.has f = true :=
      missing_eq_nil_iff.mp (not_not.mp hfields)
    split at hok
    · split at hok <;> cases hok
    next fields hcast =>
    split at hok
    · cases hok
    next hbounds =>
    split at hok
    · cases hok
    next bytes hbytes =>
    split at hok
    · cases hok
    next hver =>
    exact ⟨hall, fields, hcast, by simpa using hbounds, bytes, hbytes, by rw [hver]⟩
  · rintro ⟨hall, fields, hcast, hbounds, bytes, hbytes, hver⟩
    have hne : m ≠ [] := by
      rintro rfl
      cases hall "cell_id" (by decide)
    have hmissing := missing_eq_nil_iff.mpr hall
    generalize hv : verifyEd25519Envelope C fields.clientPubkey bytes fields.signatureHex = v
      at hver
    obtain ⟨b, reason⟩ := v
    obtain rfl : b = true := hver
    simp [validateManifest, hne, hmissing, hcast, hbounds, hbytes, hv]

end Commons
end SovereignSeed
