import SovereignSeed.Python.Value
import SovereignSeed.Tollbridge.Security

/-!
# The remote handoff

`sip_remote_handoff/validator.py`: the check of an envelope that arrives as a
`dict` of whatever its sender put into it.

## Main definitions

* `requiredFields`, `Header.ofDict` — the fields, and their conversion.
* `validateRemoteEnvelope` — the validator, with its reason codes.

## Main results

* `validateRemoteEnvelope_eq_ok_iff` — **what the validator accepts.**
-/

namespace SovereignSeed
namespace Tollbridge

open Python

/-- `REQUIRED_FIELDS`. -/
def requiredFields : List String :=
  ["protocol_version", "client_pubkey", "nonce", "timestamp_sec", "asset_type",
    "subscription_topic", "content_type", "signature_hex"]

/-- The conversions of the header, in order. -/
def Header.ofDict (envelopeData : Dict) : Except PyError Header := do
  let protocolVersion ← (envelopeData.get "protocol_version").castStr
  let clientPubkey ← (envelopeData.get "client_pubkey").castStr
  let nonce ← (envelopeData.get "nonce").castStr
  let timestampSec ← (envelopeData.get "timestamp_sec").toFloat
  let assetType ← (envelopeData.get "asset_type").castStr
  let subscriptionTopic ← (envelopeData.get "subscription_topic").castStr
  let contentType ← (envelopeData.get "content_type").castStr
  let signatureHex ← (envelopeData.get "signature_hex").castStr
  return ⟨protocolVersion, clientPubkey, nonce, timestampSec, assetType, subscriptionTopic,
    contentType, signatureHex⟩

/-- `validate_remote_envelope`, at the clock reading `now`.  `none` stands for
an argument that is no `dict`; the handler of the conversions catches
`ValueError` and `TypeError` only.  The handler of a failing canonical build is
left out: the build cannot fail. -/
def validateRemoteEnvelope (C : Crypto) (now : ClockReading) (envelopeData : Option Dict)
    (rawPayload : Bytes) : Except PyError (Bool × String) :=
  match envelopeData with
  | none => .ok (false, "REMOTE_MALFORMED_ENVELOPE_TYPE")
  | some d =>
    if d = [] then .ok (false, "REMOTE_MALFORMED_ENVELOPE_TYPE")
    else
      let missingFields := requiredFields.filter fun f => !d.has f
      if missingFields ≠ [] then
        .ok (false, "REMOTE_MISSING_FIELDS_" ++ "_".intercalate missingFields)
      else
        match Header.ofDict d with
        | .error e =>
          if e ∈ [PyError.valueError, .typeError] then .ok (false, "REMOTE_HEADER_TYPE_CAST_FAULT")
          else .error e
        | .ok h =>
          if verifyTimestampFreshness now h.timestampSec = false then
            .ok (false, "REMOTE_TIMESTAMP_STALE")
          else
            match verifyEd25519Envelope C h.clientPubkey (h.canonicalBytes C rawPayload)
                h.signatureHex with
            | (false, reason) => .ok (false, "REMOTE_" ++ reason)
            | (true, _) => .ok (true, "OK")

/-- The header an envelope converts to. -/
theorem Header.ofDict_eq_ok_iff {d : Dict} {h : Header} : Header.ofDict d = .ok h ↔
    (d.get "protocol_version").castStr = .ok h.protocolVersion ∧
      (d.get "client_pubkey").castStr = .ok h.clientPubkey ∧
      (d.get "nonce").castStr = .ok h.nonce ∧
      (d.get "timestamp_sec").toFloat = .ok h.timestampSec ∧
      (d.get "asset_type").castStr = .ok h.assetType ∧
      (d.get "subscription_topic").castStr = .ok h.subscriptionTopic ∧
      (d.get "content_type").castStr = .ok h.contentType ∧
      (d.get "signature_hex").castStr = .ok h.signatureHex := by
  simp only [Header.ofDict, bind_eq_ok_iff]
  constructor
  · rintro ⟨_, h₁, _, h₂, _, h₃, _, h₄, _, h₅, _, h₆, _, h₇, _, h₈, hpure⟩
    cases hpure
    exact ⟨h₁, h₂, h₃, h₄, h₅, h₆, h₇, h₈⟩
  · rintro ⟨h₁, h₂, h₃, h₄, h₅, h₆, h₇, h₈⟩
    exact ⟨_, h₁, _, h₂, _, h₃, _, h₄, _, h₅, _, h₆, _, h₇, _, h₈, rfl⟩

/-- The conversions of the validator, in order. -/
def headerConversions : List Conversion :=
  [.str "protocol_version", .str "client_pubkey", .str "nonce", .float "timestamp_sec",
    .str "asset_type", .str "subscription_topic", .str "content_type", .str "signature_hex"]

theorem Header.ofDict_eq_error_iff {d : Dict} {e : PyError} :
    Header.ofDict d = .error e ↔ firstRaised d headerConversions = some e := by
  simp only [Header.ofDict, bind_eq_error_iff, headerConversions, firstRaised_str,
    firstRaised_float, firstRaised_nil, pure, Except.pure, reduceCtorEq]

/-- **What the validator answers**: all but envelopes on which it raises another
exception than `ValueError` and `TypeError`. -/
theorem validateRemoteEnvelope_eq_ok_iff_raised {C : Crypto} {now : ClockReading} {d : Dict}
    {rawPayload : Bytes} :
    (∃ answer, validateRemoteEnvelope C now (some d) rawPayload = .ok answer) ↔
      d = [] ∨ (∃ f ∈ requiredFields, d.has f = false) ∨
        ∀ e, firstRaised d headerConversions = some e → e = .valueError ∨ e = .typeError := by
  simp only [← Header.ofDict_eq_error_iff, validateRemoteEnvelope]
  by_cases hd : d = []
  · simp [hd]
  by_cases hall : ∃ f ∈ requiredFields, d.has f = false
  · have hmissing := missing_ne_nil_iff.mpr hall
    simp [hd, hall, hmissing]
  · have hmissing := not_not.mp (mt missing_ne_nil_iff.mp hall)
    cases hcast : Header.ofDict d with
    | error e =>
      by_cases he : e = .valueError ∨ e = .typeError
      · simp [hd, hall, hmissing, he]
      · simp [hd, hall, hmissing, he]
    | ok h =>
      simp only [hd, hall, hmissing, if_false, ne_eq, not_true_eq_false, false_or, reduceCtorEq,
        false_implies, implies_true, iff_true]
      split
      · exact ⟨_, rfl⟩
      · split
        · exact ⟨_, rfl⟩
        · exact ⟨_, rfl⟩

/-- The header of an envelope whose signature verifies over its payload. -/
structure Parsed (C : Crypto) (d : Dict) (rawPayload : Bytes) (h : Header) : Prop where
  fields : ∀ f ∈ requiredFields, d.has f = true
  header : Header.ofDict d = .ok h
  verified : (verifyEd25519Envelope C h.clientPubkey (h.canonicalBytes C rawPayload)
    h.signatureHex).1 = true

/-- A `dict` with all the required fields is not empty. -/
theorem ne_nil_of_has {d : Dict} (h : ∀ f ∈ requiredFields, d.has f = true) : d ≠ [] := by
  rintro rfl
  cases h "nonce" (by decide)

/-- **What the validator accepts**: an envelope with all fields, a header that
converts and verifies, and a timestamp that passes the freshness test. -/
theorem validateRemoteEnvelope_eq_ok_iff (C : Crypto) (now : ClockReading) (d : Dict)
    (rawPayload : Bytes) :
    validateRemoteEnvelope C now (some d) rawPayload = .ok (true, "OK") ↔
      ∃ h, Parsed C d rawPayload h ∧ verifyTimestampFreshness now h.timestampSec = true := by
  constructor
  · intro hok
    simp only [validateRemoteEnvelope] at hok
    split at hok
    · cases hok
    split at hok
    · cases hok
    next hfields =>
    have hall : ∀ f ∈ requiredFields, d.has f = true := missing_eq_nil_iff.mp (not_not.mp hfields)
    split at hok
    · split at hok <;> cases hok
    next h hh =>
    split at hok
    · cases hok
    next hfresh =>
    split at hok
    · cases hok
    next hver =>
    exact ⟨h, ⟨hall, hh, by rw [hver]⟩, by simpa using hfresh⟩
  · rintro ⟨h, ⟨hall, hh, hver⟩, hfresh⟩
    have hmissing := missing_eq_nil_iff.mpr hall
    generalize hv : verifyEd25519Envelope C h.clientPubkey (h.canonicalBytes C rawPayload)
      h.signatureHex = v at hver
    obtain ⟨b, reason⟩ := v
    obtain rfl : b = true := hver
    simp [validateRemoteEnvelope, ne_nil_of_has hall, hmissing, hh, hfresh, hv]

end Tollbridge
end SovereignSeed
