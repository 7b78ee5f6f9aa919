import SovereignSeed.Tollbridge.Router

/-!
# The two ways in agree

The checks of an envelope are written twice: in the remote validator, and over
the router and the engine.  On an envelope and its payload the two come to the
same verdict.  They differ where the fields do not convert: the router lets the
exceptions through that the validator catches, and reports the others under
another code.

## Main definitions

* `withPayload` — an envelope with its payload.
* `signatureReasons`, `CheckReason` — the reason codes that both ways report.

## Main results

* `routeIngress_withPayload` — the router on an envelope with its payload.
* `ingress_paths_agree` — **one way reaches the vault exactly when the other
  accepts, and they reject for the same reasons.**
-/

namespace SovereignSeed

namespace Tollbridge

open Python

/-- An envelope with its payload in hexadecimal. -/
def withPayload (envelope : Dict) (rawPayload : Bytes) : Dict :=
  envelope.insert "payload_hex" (.str (hexOf rawPayload))

section WithPayload

variable {d : Dict} {p : Bytes} {f : String}

theorem text_ne_payload_hex : ∀ f ∈ requiredFields, text f ≠ text "payload_hex" := by
  simp only [requiredFields, List.mem_cons, List.not_mem_nil, or_false]
  rintro f (rfl | rfl | rfl | rfl | rfl | rfl | rfl | rfl) <;> decide

theorem has_withPayload (hf : f ∈ requiredFields) : (withPayload d p).has f = d.has f := by
  rw [Dict.has, withPayload, Dict.lookup_insert_of_ne (text_ne_payload_hex f hf), Dict.has]

theorem get_withPayload (hf : f ∈ requiredFields) : (withPayload d p).get f = d.get f := by
  rw [Dict.get, withPayload, Dict.lookup_insert_of_ne (text_ne_payload_hex f hf), Dict.get]

theorem has_payload_hex : (withPayload d p).has "payload_hex" = true := by
  rw [Dict.has, withPayload, Dict.lookup_insert_self]
  rfl

theorem get_payload_hex : (withPayload d p).get "payload_hex" = .str (hexOf p) := by
  rw [Dict.get, withPayload, Dict.lookup_insert_self]
  rfl

/-- The router misses the fields the validator misses, in the same order. -/
theorem missingFields_withPayload :
    (routerFields.filter fun f => !(withPayload d p).has f) =
      requiredFields.filter fun f => !d.has f := by
  -- the payload is one field more, in the middle of the list
  have hrouter : routerFields =
      requiredFields.take 7 ++ ["payload_hex"] ++ requiredFields.drop 7 := rfl
  have hsame : ∀ l : List String, (∀ f ∈ l, f ∈ requiredFields) →
      (l.filter fun f => !(withPayload d p).has f) = l.filter fun f => !d.has f := fun l hl =>
    List.filter_congr fun f hf => by rw [has_withPayload (hl f hf)]
  rw [hrouter, List.filter_append, List.filter_append,
    hsame _ fun f hf => List.mem_of_mem_take hf, hsame _ fun f hf => List.mem_of_mem_drop hf,
    List.filter_cons_of_neg (by rw [has_payload_hex]; decide), List.filter_nil, List.append_nil,
    ← List.filter_append, List.take_append_drop]

/-- The router converts what the validator converts, and the payload. -/
theorem castRequestBody_withPayload :
    castRequestBody (withPayload d p) = (fun h => (h, hexOf p)) <$> Header.ofDict d := by
  have hpayload : (PyValue.str (hexOf p)).castStr = pure (hexOf p) := rfl
  simp only [castRequestBody, Header.ofDict, get_payload_hex, hpayload, pure_bind, map_bind,
    map_pure, get_withPayload (f := "protocol_version") (by decide),
    get_withPayload (f := "client_pubkey") (by decide),
    get_withPayload (f := "nonce") (by decide), get_withPayload (f := "timestamp_sec") (by decide),
    get_withPayload (f := "asset_type") (by decide),
    get_withPayload (f := "subscription_topic") (by decide),
    get_withPayload (f := "content_type") (by decide),
    get_withPayload (f := "signature_hex") (by decide)]

/-- **The router on an envelope with its payload.** -/
theorem routeIngress_withPayload {len : ℤ} (hlen : len ≤ maxPayloadSizeBytes) :
    routeIngress (withPayload d p) len =
      let missingFields := requiredFields.filter fun f => !d.has f
      if missingFields ≠ [] then
        .ok (.rejected ("MISSING_FIELDS_" ++ "_".intercalate missingFields))
      else
        match Header.ofDict d with
        | .error e =>
          if e = .valueError then .ok (.rejected "MALFORMED_FIELD_TYPES") else .error e
        | .ok h => .ok (.submitted ⟨h, p⟩) := by
  -- the payload is hex by construction, so its checks pass
  have heven : (hexOf p).length % 2 = 0 := by
    rw [length_hexOf]
    omega
  simp only [routeIngress, if_neg (Int.not_lt.mpr hlen), missingFields_withPayload,
    castRequestBody_withPayload]
  split
  · rfl
  · cases Header.ofDict d with
    | error e => rfl
    | ok h =>
      simp only [Functor.map, Except.map, strip_hexOf, heven, fromHex_hexOf, ne_eq,
        not_true_eq_false, if_false]

end WithPayload

/-! ### Reason codes -/

/-- The reason codes of `verify_ed25519_envelope`. -/
def signatureReasons : List String :=
  ["INVALID_SOLANA_PUBKEY", "MISSING_OR_INVALID_SIGNATURE_TYPE",
    "MALFORMED_HEX_SIGNATURE_ODD_LENGTH", "INVALID_HEX_ENCODING",
    "INVALID_SIGNATURE_LENGTH_EXPECTED_64", "CRYPTOGRAPHIC_SIGNATURE_MISMATCH",
    "INTERNAL_VERIFICATION_FAULT"]

/-- A reason code of missing fields, of staleness, or of the signature. -/
def CheckReason (reason : String) : Prop :=
  (∃ fields, reason = "MISSING_FIELDS_" ++ fields) ∨ reason = "TIMESTAMP_STALE" ∨
    reason ∈ signatureReasons

/-- The signature check rejects with one of its codes. -/
theorem mem_signatureReasons {C : Crypto} {clientPubkey signatureHex : PyStr} {bytes : Bytes}
    {reason : String}
    (h : verifyEd25519Envelope C clientPubkey bytes signatureHex = (false, reason)) :
    reason ∈ signatureReasons := by
  unfold verifyEd25519Envelope at h
  split at h
  · cases h; decide
  split at h
  · cases h; decide
  simp only at h
  split at h
  · cases h; decide
  split at h
  · cases h; decide
  split at h
  · cases h; decide
  split at h
  · cases h; decide
  split at h <;> cases h <;> decide

/-- The codes of a failing conversion are none of the checks. -/
theorem ne_of_checkReason {reason : String} (h : CheckReason reason) :
    reason ≠ "MALFORMED_FIELD_TYPES" ∧ reason ≠ "HEADER_TYPE_CAST_FAULT" := by
  rcases h with ⟨fields, rfl⟩ | rfl | h
  · constructor <;> intro heq <;>
      -- the second letters differ: `I` against `A` and `E`
      exact absurd (congrArg (fun s => s.toList[1]?) heq) (by simp [String.toList_append])
  · decide
  · revert reason
    decide

theorem remote_append_inj {reason reason' : String} :
    "REMOTE_" ++ reason = "REMOTE_" ++ reason' ↔ reason = reason' :=
  ⟨fun h => by simpa using h, fun h => h ▸ rfl⟩

/-! ### Agreement -/

/-- How the two ways end on an envelope `d` with payload `p`. -/
inductive BothEnd (C : Crypto) (now : ClockReading) (s : Engine) (d : Dict) (p : Bytes) (len : ℤ) :
    Prop
  /-- Fields are missing. -/
  | incomplete {reason : String} : CheckReason reason →
      routeIngress (withPayload d p) len = .ok (.rejected reason) →
      validateRemoteEnvelope C now (some d) p = .ok (false, "REMOTE_" ++ reason) →
      BothEnd C now s d p len
  /-- A field does not convert. -/
  | malformed :
      routeIngress (withPayload d p) len = .ok (.rejected "MALFORMED_FIELD_TYPES") ∨
        (∃ e, routeIngress (withPayload d p) len = .error e) →
      validateRemoteEnvelope C now (some d) p = .ok (false, "REMOTE_HEADER_TYPE_CAST_FAULT") ∨
        (∃ e, validateRemoteEnvelope C now (some d) p = .error e) →
      BothEnd C now s d p len
  /-- The timestamp or the signature is refused. -/
  | refused {r : Request} {reason : String} : CheckReason reason →
      routeIngress (withPayload d p) len = .ok (.submitted r) →
      s.submittedPc C now r = some (.returned (.rejected reason)) →
      validateRemoteEnvelope C now (some d) p = .ok (false, "REMOTE_" ++ reason) →
      BothEnd C now s d p len
  /-- The envelope passes. -/
  | passed {r : Request} :
      routeIngress (withPayload d p) len = .ok (.submitted r) →
      s.submittedPc C now r = some .scheduled →
      validateRemoteEnvelope C now (some d) p = .ok (true, "OK") →
      BothEnd C now s d p len

variable {C : Crypto} {now : ClockReading} {s : Engine} {d : Dict} {p : Bytes} {len : ℤ}

/-- The two ways end in step. -/
theorem bothEnd (hd : d ≠ []) (hlen : len ≤ maxPayloadSizeBytes) : BothEnd C now s d p len := by
  have hrouter := routeIngress_withPayload (d := d) (p := p) hlen
  by_cases hmissing : (requiredFields.filter fun f => !d.has f) = []
  · simp only [hmissing, ne_eq, not_true_eq_false, if_false] at hrouter
    cases hheader : Header.ofDict d with
    | error e =>
      rw [hheader] at hrouter
      refine .malformed ?_ ?_
      · by_cases he : e = .valueError
        · exact .inl (hrouter.trans (if_pos he))
        · exact .inr ⟨e, hrouter.trans (if_neg he)⟩
      · by_cases he : e ∈ [PyError.valueError, .typeError]
        · exact .inl (by simp only [validateRemoteEnvelope, hd, hmissing, hheader, he]; simp)
        · exact .inr ⟨e, by simp only [validateRemoteEnvelope, hd, hmissing, hheader, he]; simp⟩
    | ok h =>
      rw [hheader] at hrouter
      have hpc := Engine.submittedPc_eq C now s ⟨h, p⟩
      simp only [validateSubmission, Request.signedBytes] at hpc
      cases hfresh : verifyTimestampFreshness now h.timestampSec with
      | false =>
        rw [hfresh, if_pos rfl] at hpc
        exact .refused (.inr (.inl rfl)) hrouter hpc
          (by simp [validateRemoteEnvelope, hd, hmissing, hheader, hfresh])
      | true =>
        rw [hfresh, if_neg (by decide)] at hpc
        cases hver : verifyEd25519Envelope C h.clientPubkey (h.canonicalBytes C p)
          h.signatureHex with
        | mk isValid reason =>
          rw [hver] at hpc
          cases isValid with
          | false =>
            exact .refused (.inr (.inr (mem_signatureReasons hver))) hrouter hpc
              (by simp [validateRemoteEnvelope, hd, hmissing, hheader, hfresh, hver])
          | true =>
            exact .passed hrouter hpc
              (by simp [validateRemoteEnvelope, hd, hmissing, hheader, hfresh, hver])
  · have hprefix : "REMOTE_MISSING_FIELDS_" = "REMOTE_" ++ "MISSING_FIELDS_" := rfl
    refine .incomplete (.inl ⟨_, rfl⟩) (hrouter.trans (if_pos hmissing)) ?_
    simp only [validateRemoteEnvelope, hd, hmissing, if_false, hprefix, String.append_assoc, ne_eq,
      not_false_eq_true, if_true]

/-- **The two ways in agree** on an envelope and its payload: the router's reaches
the idempotency record exactly when the validator accepts, and where the one
rejects for missing fields, staleness or the signature, so does the other, with
the same code behind its prefix. -/
theorem ingress_paths_agree (C : Crypto) (now : ClockReading) (s : Engine) (d : Dict) (p : Bytes)
    (len : ℤ) (hd : d ≠ []) (hlen : len ≤ maxPayloadSizeBytes) :
    (ReachesInsert C now s (withPayload d p) len ↔
        validateRemoteEnvelope C now (some d) p = .ok (true, "OK")) ∧
      ∀ reason, CheckReason reason →
        (RouterRejects C now s (withPayload d p) len reason ↔
          validateRemoteEnvelope C now (some d) p = .ok (false, "REMOTE_" ++ reason)) := by
  have hreach : ∀ {r}, routeIngress (withPayload d p) len = .ok (.submitted r) →
      (ReachesInsert C now s (withPayload d p) len ↔ s.submittedPc C now r = some .scheduled) := by
    intro r hr
    simp [ReachesInsert, hr]
  have hreject : ∀ {r reason}, routeIngress (withPayload d p) len = .ok (.submitted r) →
      (RouterRejects C now s (withPayload d p) len reason ↔
        s.submittedPc C now r = some (.returned (.rejected reason))) := by
    intro r reason hr
    simp [RouterRejects, hr]
  have hend : BothEnd C now s d p len := bothEnd hd hlen
  rcases hend with
    ⟨hcheck, hrouter, hremote⟩ | ⟨hrouter, hremote⟩ | ⟨hcheck, hrouter, hpc, hremote⟩ |
    ⟨hrouter, hpc, hremote⟩
  · simp [ReachesInsert, RouterRejects, hrouter, hremote]
  · -- neither code is one of a check
    have hne : ∀ {reason}, CheckReason reason →
        routeIngress (withPayload d p) len ≠ .ok (.rejected reason) := by
      intro reason hreason heq
      rcases hrouter with hr | ⟨e, hr⟩ <;> rw [hr] at heq <;> cases heq
      exact (ne_of_checkReason hreason).1 rfl
    have hne' : ∀ {reason}, CheckReason reason →
        validateRemoteEnvelope C now (some d) p ≠ .ok (false, "REMOTE_" ++ reason) := by
      intro reason hreason heq
      rcases hremote with hr | ⟨e, hr⟩ <;> rw [hr] at heq
      · have hcast : "REMOTE_HEADER_TYPE_CAST_FAULT" = "REMOTE_" ++ "HEADER_TYPE_CAST_FAULT" := rfl
        -- the validator writes this code out, prefix and all
        rw [hcast] at heq
        simp only [Except.ok.injEq, Prod.mk.injEq, true_and] at heq
        exact (ne_of_checkReason hreason).2 (remote_append_inj.mp heq).symm
      · cases heq
    have hnone : ∀ r, routeIngress (withPayload d p) len ≠ .ok (.submitted r) := by
      rcases hrouter with hr | ⟨e, hr⟩ <;> simp [hr]
    refine ⟨?_, fun reason hreason => ?_⟩
    · rcases hremote with hr | ⟨e, hr⟩ <;> simp [ReachesInsert, hnone, hr]
    · simp [RouterRejects, hnone, hne hreason, hne' hreason]
  · rw [hreach hrouter, hremote]
    simp [hreject hrouter, hpc]
  · rw [hreach hrouter, hremote]
    simp [hreject hrouter, hpc]

/-- The envelope of a header. -/
def envelopeOf (h : Header) : Dict :=
  [(text "protocol_version", .str h.protocolVersion), (text "client_pubkey", .str h.clientPubkey),
   (text "nonce", .str h.nonce), (text "timestamp_sec", .float h.timestampSec),
   (text "asset_type", .str h.assetType), (text "subscription_topic", .str h.subscriptionTopic),
   (text "content_type", .str h.contentType), (text "signature_hex", .str h.signatureHex)]

/-- A signed envelope, which the validator accepts, reaches the vault through the router. -/
theorem ingress_paths_agree_signed :
    ReachesInsert clientCrypto clock (.fresh ⟨[], []⟩)
      (withPayload (envelopeOf aliceFirst.toHeader) aliceFirst.rawPayload) 1024 :=
  (ingress_paths_agree clientCrypto clock (.fresh ⟨[], []⟩) (envelopeOf aliceFirst.toHeader)
    aliceFirst.rawPayload 1024 (by simp [envelopeOf]) (by decide)).1.mpr (by decide +kernel)

end Tollbridge
end SovereignSeed
