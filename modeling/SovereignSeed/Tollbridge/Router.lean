import SovereignSeed.Tollbridge.Engine
import SovereignSeed.Tollbridge.Validator

/-!
# The bridge router

`tollbridge/bridge_router.py`: the way from a parsed request body to a submission.
The router checks the size and the fields, converts them, decodes the payload and
awaits the engine.

## Main definitions

* `routerFields`, `castRequestBody` — the fields, and their conversion.
* `Routed`, `routeIngress` — the router up to its `await`.
* `ReachesInsert`, `RouterRejects` — how the engine goes on from there.

## Main results

* `routeIngress_eq_submitted_iff` — **what the router hands over.**
* `routeIngress_eq_ok_iff` — what the router answers.
-/

namespace SovereignSeed
namespace Tollbridge

open Python

/-! ### The router -/

/-- `MAX_PAYLOAD_SIZE_BYTES`. -/
def maxPayloadSizeBytes : ℤ := 2 * 1024 * 1024

/-- `required_fields`. -/
def routerFields : List String :=
  ["protocol_version", "client_pubkey", "nonce", "timestamp_sec", "asset_type",
    "subscription_topic", "content_type", "payload_hex", "signature_hex"]

/-- The conversions of the body, in order: a header, and the payload's digits. -/
def castRequestBody (requestBody : Dict) : Except PyError (Header × PyStr) := do
  let protocolVersion ← (requestBody.get "protocol_version").castStr
  let clientPubkey ← (requestBody.get "client_pubkey").castStr
  let nonce ← (requestBody.get "nonce").castStr
  let timestampSec ← (requestBody.get "timestamp_sec").toFloat
  let assetType ← (requestBody.get "asset_type").castStr
  let subscriptionTopic ← (requestBody.get "subscription_topic").castStr
  let contentType ← (requestBody.get "content_type").castStr
  let payloadHex ← (requestBody.get "payload_hex").castStr
  let signatureHex ← (requestBody.get "signature_hex").castStr
  return (⟨protocolVersion, clientPubkey, nonce, timestampSec, assetType, subscriptionTopic,
    contentType, signatureHex⟩, payloadHex)

/-- Where the router has got to before it awaits anything. -/
inductive Routed
  /-- It has returned `{"status": "rejected", "reason": reason}`. -/
  | rejected (reason : String)
  /-- It awaits the submission of `r`. -/
  | submitted (r : Request)
  deriving DecidableEq

/-- `route_ingress` up to its `await`; the handler of the conversions catches
`ValueError` only.  What the engine answers is handed on; the handler of a
submission that raises is left out: a submission does not raise. -/
def routeIngress (requestBody : Dict) (rawBodyBytesLen : ℤ) : Except PyError Routed :=
  if maxPayloadSizeBytes < rawBodyBytesLen then .ok (.rejected "PAYLOAD_TOO_LARGE")
  else
    let missingFields := routerFields.filter fun f => !requestBody.has f
    if missingFields ≠ [] then
      .ok (.rejected ("MISSING_FIELDS_" ++ "_".intercalate missingFields))
    else
      match castRequestBody requestBody with
      | .error e =>
        if e = .valueError then .ok (.rejected "MALFORMED_FIELD_TYPES") else .error e
      | .ok (h, payloadHex) =>
        let cleanedHex := strip payloadHex
        if cleanedHex.length % 2 ≠ 0 then .ok (.rejected "MALFORMED_PAYLOAD_HEX_ODD_LENGTH")
        else
          match fromHex cleanedHex with
          | none => .ok (.rejected "INVALID_PAYLOAD_HEX_ENCODING")
          | some rawPayload => .ok (.submitted ⟨h, rawPayload⟩)

/-- The control point of the call that `submit_envelope_payload` of `r` makes. -/
def Engine.submittedPc (C : Crypto) (now : ClockReading) (s : Engine) (r : Request) :
    Option CallPc :=
  ((s.submit C now r).calls s.submitted).map Call.pc

/-- The body gets past all checks: the thread for its idempotency record is scheduled. -/
def ReachesInsert (C : Crypto) (now : ClockReading) (s : Engine) (requestBody : Dict)
    (rawBodyBytesLen : ℤ) : Prop :=
  ∃ r, routeIngress requestBody rawBodyBytesLen = .ok (.submitted r) ∧
    s.submittedPc C now r = some .scheduled

/-- The body is rejected by one of the checks before the idempotency record. -/
def RouterRejects (C : Crypto) (now : ClockReading) (s : Engine) (requestBody : Dict)
    (rawBodyBytesLen : ℤ) (reason : String) : Prop :=
  routeIngress requestBody rawBodyBytesLen = .ok (.rejected reason) ∨
    ∃ r, routeIngress requestBody rawBodyBytesLen = .ok (.submitted r) ∧
      s.submittedPc C now r = some (.returned (.rejected reason))

/-- A submission is scheduled, or has been rejected by its checks. -/
theorem Engine.submittedPc_eq (C : Crypto) (now : ClockReading) (s : Engine) (r : Request) :
    s.submittedPc C now r = some (match validateSubmission C now r with
      | .ok () => .scheduled
      | .error reason => .returned (.rejected reason)) := by
  cases h : validateSubmission C now r with
  | ok => simp only [Engine.submittedPc, Engine.submit, h, Function.update_self, Option.map_some]
  | error => simp only [Engine.submittedPc, Engine.submit, h, Function.update_self, Option.map_some]

/-- The conversions of the router, in order. -/
def routerConversions : List Conversion :=
  [.str "protocol_version", .str "client_pubkey", .str "nonce", .float "timestamp_sec",
    .str "asset_type", .str "subscription_topic", .str "content_type", .str "payload_hex",
    .str "signature_hex"]

theorem castRequestBody_eq_error_iff {d : Dict} {e : PyError} :
    castRequestBody d = .error e ↔ firstRaised d routerConversions = some e := by
  simp only [castRequestBody, bind_eq_error_iff, routerConversions, firstRaised_str,
    firstRaised_float, firstRaised_nil, pure, Except.pure, reduceCtorEq]

/-- **What the router answers**: all but bodies on which it raises, with another
exception than `ValueError`. -/
theorem routeIngress_eq_ok_iff {d : Dict} {len : ℤ} :
    (∃ routed, routeIngress d len = .ok routed) ↔
      maxPayloadSizeBytes < len ∨ (∃ f ∈ routerFields, d.has f = false) ∨
        ∀ e, firstRaised d routerConversions = some e → e = .valueError := by
  simp only [← castRequestBody_eq_error_iff, routeIngress]
  by_cases hlen : maxPayloadSizeBytes < len
  · simp [hlen]
  by_cases hall : ∃ f ∈ routerFields, d.has f = false
  · have hmissing := missing_ne_nil_iff.mpr hall
    simp [hlen, hall, hmissing]
  · have hmissing := not_not.mp (mt missing_ne_nil_iff.mp hall)
    cases hcast : castRequestBody d with
    | error e =>
      by_cases he : e = .valueError
      · simp [hlen, hall, hmissing, he]
      · simp [hlen, hall, hmissing, he]
    | ok r =>
      simp only [hlen, hall, hmissing, if_false, ne_eq, not_true_eq_false, false_or, reduceCtorEq,
        false_implies, implies_true, iff_true]
      split
      · exact ⟨_, rfl⟩
      · split
        · exact ⟨_, rfl⟩
        · exact ⟨_, rfl⟩

/-- **What the router hands over**: a body of admissible size with all fields,
whose fields convert, and whose payload is an even number of digits. -/
theorem routeIngress_eq_submitted_iff {d : Dict} {len : ℤ} {r : Request} :
    routeIngress d len = .ok (.submitted r) ↔
      len ≤ maxPayloadSizeBytes ∧ (∀ f ∈ routerFields, d.has f = true) ∧
        ∃ payloadHex, castRequestBody d = .ok (r.toHeader, payloadHex) ∧
          (strip payloadHex).length % 2 = 0 ∧ fromHex (strip payloadHex) = some r.rawPayload := by
  constructor
  · intro h
    simp only [routeIngress] at h
    split at h
    · cases h
    next hlen =>
    split at h
    · cases h
    next hfields =>
    have hall : ∀ f ∈ routerFields, d.has f = true := missing_eq_nil_iff.mp (not_not.mp hfields)
    split at h
    · split at h <;> cases h
    next header payloadHex hcast =>
    split at h
    · cases h
    next heven =>
    split at h
    · cases h
    next rawPayload hhex =>
    cases h
    exact ⟨Int.not_lt.mp hlen, hall, payloadHex, hcast, by simpa using heven, hhex⟩
  · rintro ⟨hlen, hall, payloadHex, hcast, heven, hhex⟩
    have hmissing := missing_eq_nil_iff.mpr hall
    simp [routeIngress, Int.not_lt.mpr hlen, hmissing, hcast, heven, hhex]

end Tollbridge
end SovereignSeed
