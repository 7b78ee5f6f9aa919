import SovereignSeed.Commons.Manifest
import SovereignSeed.Tollbridge.Router
import SovereignSeed.Tollbridge.Completion

/-!
# What the entry points answer

The router and the two validators convert the fields of what they are given under
handlers that name the exceptions they catch.  `float` raises a `TypeError` on
`None` and on objects, which the router lets through, and an `OverflowError` on
an integer beyond the range of a float, which all three let through.

## Main definitions

* `RouterAnswers`, `ValidatorAnswers`, `ManifestAnswers` — an entry point answers.

## Main results

* `entryPoints_answer_iff` — **when each of them answers.**
* `overflowing_timestamp_escapes` — a timestamp on which none of them does.
-/

namespace SovereignSeed
namespace Commons

open Python Tollbridge

/-- `route_ingress` answers: it returns at once, or the submission that it awaits
returns. -/
def RouterAnswers (C : Crypto) (cfg : Config) (eid : ℕ) (now : ClockReading) (s : Engine)
    (requestBody : Dict) (rawBodyBytesLen : ℤ) : Prop :=
  ∃ routed, routeIngress requestBody rawBodyBytesLen = .ok routed ∧
    ∀ r, routed = .submitted r → Returns C cfg eid now s r

/-- `validate_remote_envelope` answers. -/
def ValidatorAnswers (C : Crypto) (now : ClockReading) (envelopeData : Dict) (rawPayload : Bytes) :
    Prop :=
  ∃ answer, validateRemoteEnvelope C now (some envelopeData) rawPayload = .ok answer

/-- `validate_manifest` answers. -/
def ManifestAnswers (C : Crypto) (manifest : Dict) : Prop :=
  ∃ answer, validateManifest C (some manifest) = .ok answer

/-- **When the entry points answer**: when they do not come to the conversions, or
when the first conversion that raises raises what their handler catches. -/
theorem entryPoints_answer_iff (C : Crypto) (cfg : Config) (eid : ℕ) (now : ClockReading)
    (s : Engine) (d : Dict) (rawPayload : Bytes) (len : ℤ) :
    (RouterAnswers C cfg eid now s d len ↔
        maxPayloadSizeBytes < len ∨ (∃ f ∈ routerFields, d.has f = false) ∨
          ∀ e, firstRaised d routerConversions = some e → e = .valueError) ∧
      (ValidatorAnswers C now d rawPayload ↔
        d = [] ∨ (∃ f ∈ requiredFields, d.has f = false) ∨
          ∀ e, firstRaised d headerConversions = some e → e = .valueError ∨ e = .typeError) ∧
      (ManifestAnswers C d ↔
        d = [] ∨ (∃ f ∈ requiredManifestFields, d.has f = false) ∨
          ∀ e, firstRaised d manifestConversions = some e → e = .valueError ∨ e = .typeError) := by
  refine ⟨?_, validateRemoteEnvelope_eq_ok_iff_raised, validateManifest_eq_ok_iff_raised⟩
  rw [← routeIngress_eq_ok_iff]
  constructor
  · rintro ⟨routed, hrouted, -⟩
    exact ⟨routed, hrouted⟩
  · rintro ⟨routed, hrouted⟩
    exact ⟨routed, hrouted, fun r _ => submission_returns C cfg eid now s r⟩

/-- A body with the fields of all three entry points, text but for the timestamp. -/
def bodyAt (timestamp : PyValue) : Dict :=
  let fields := (routerFields ∪ requiredManifestFields).map fun f => (text f, .str (text "30"))
  Dict.insert fields "timestamp_sec" timestamp

/-- The timestamp `null` escapes the router, the timestamp `10 ** 400` all three. -/
theorem overflowing_timestamp_escapes :
    (∀ C cfg eid now s, ¬RouterAnswers C cfg eid now s (bodyAt .none) 1024) ∧
      ∀ C cfg eid now s rawPayload,
        ¬RouterAnswers C cfg eid now s (bodyAt (.int (10 ^ 400))) 1024 ∧
          ¬ValidatorAnswers C now (bodyAt (.int (10 ^ 400))) rawPayload ∧
          ¬ManifestAnswers C (bodyAt (.int (10 ^ 400))) := by
  have hnull : routeIngress (bodyAt .none) 1024 = .error .typeError := by decide
  have hrouter : routeIngress (bodyAt (.int (10 ^ 400))) 1024 = .error .overflowError := by
    decide +kernel
  have hheader : firstRaised (bodyAt (.int (10 ^ 400))) headerConversions =
      some .overflowError := by decide +kernel
  have hmanifest : firstRaised (bodyAt (.int (10 ^ 400))) manifestConversions =
      some .overflowError := by decide +kernel
  have hfields : ((requiredFields ++ requiredManifestFields).all
      (bodyAt (.int (10 ^ 400))).has) = true := by decide
  have hhas : ∀ f ∈ requiredFields ++ requiredManifestFields,
      (bodyAt (.int (10 ^ 400))).has f ≠ false := by
    intro f hf hno
    have hthere := List.all_eq_true.mp hfields f hf
    rw [hno] at hthere
    cases hthere
  refine ⟨fun C cfg eid now s h => ?_, fun C cfg eid now s rawPayload => ⟨fun h => ?_,
    fun h => ?_, fun h => ?_⟩⟩
  · obtain ⟨routed, hrouted, -⟩ := h
    rw [hnull] at hrouted
    cases hrouted
  · obtain ⟨routed, hrouted, -⟩ := h
    rw [hrouter] at hrouted
    cases hrouted
  · rcases validateRemoteEnvelope_eq_ok_iff_raised.mp h with hnil | ⟨f, hf, hno⟩ | hcaught
    · cases hnil
    · exact hhas f (List.mem_append_left _ hf) hno
    · exact absurd (hcaught _ hheader) (by decide)
  · rcases validateManifest_eq_ok_iff_raised.mp h with hnil | ⟨f, hf, hno⟩ | hcaught
    · cases hnil
    · exact hhas f (List.mem_append_right _ hf) hno
    · exact absurd (hcaught _ hmanifest) (by decide)

end Commons
end SovereignSeed
