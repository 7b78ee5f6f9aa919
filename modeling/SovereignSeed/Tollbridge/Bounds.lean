import SovereignSeed.Tollbridge.Agreement
import SovereignSeed.Tollbridge.Rejection

/-!
# Declared bounds

`tollbridge/security.py` declares what an admitted request may look like: a
protocol version and an asset type from two sets, a nonce and a topic of bounded
length, a signature of 64 bytes.  The signature check enforces the last.  The
other four constants are read nowhere, so a request keeps to them only if its
sender does.

## Main definitions

* `DeclaredLimits`, `AdmissionBounds` — the declared bounds, without and with the last.
* `Accepted` — the router answers a body with `accepted` in some run.

## Main results

* `exists_accepted` — a request that passes its checks is accepted in some run.
* `admission_bounds_iff` — **when what is accepted keeps to the bounds.**
-/

namespace SovereignSeed
namespace Tollbridge

open Python

variable {C : Crypto} {cfg : Config} {eid : ℕ} {now : ClockReading} {r : Request}

/-! ### The constants -/

/-- `SUPPORTED_PROTOCOL_VERSIONS`. -/
def supportedProtocolVersions : List PyStr := [text "sip-v1.0"]

/-- `SUPPORTED_ASSET_TYPES`. -/
def supportedAssetTypes : List PyStr := [text "SOL", text "USDC", text "DATA_FEED"]

/-- `MAX_NONCE_LENGTH`. -/
def maxNonceLength : ℕ := 128

/-- `MAX_TOPIC_LENGTH`. -/
def maxTopicLength : ℕ := 256

/-- The bounds that no code reads. -/
structure DeclaredLimits (h : Header) : Prop where
  protocolVersion : h.protocolVersion ∈ supportedProtocolVersions
  assetType : h.assetType ∈ supportedAssetTypes
  nonce : h.nonce.length ≤ maxNonceLength
  subscriptionTopic : h.subscriptionTopic.length ≤ maxTopicLength

/-- All declared bounds. -/
structure AdmissionBounds (h : Header) : Prop extends DeclaredLimits h where
  signature : ∃ sig, fromHex (strip h.signatureHex) = some sig ∧ sig.length = expectedSignatureLength

/-- `route_ingress` hands the body over as `r`, and in some run of the engine the
submission of `r` returns `accepted`. -/
def Accepted (C : Crypto) (cfg : Config) (eid : ℕ) (requestBody : Dict) (rawBodyBytesLen : ℤ)
    (r : Request) : Prop :=
  routeIngress requestBody rawBodyBytesLen = .ok (.submitted r) ∧
    ∃ s, (engineMachine C cfg eid).Reachable s ∧ ∃ i call, s.calls i = some call ∧
      call.request = r ∧ call.pc = .returned .accepted

/-! ### What the checks enforce -/

/-- **A verified signature has 64 bytes.** -/
theorem signature_length {clientPubkey signatureHex : PyStr} {canonicalBytes : Bytes}
    (h : (verifyEd25519Envelope C clientPubkey canonicalBytes signatureHex).1 = true) :
    ∃ sig, fromHex (strip signatureHex) = some sig ∧ sig.length = expectedSignatureLength := by
  unfold verifyEd25519Envelope at h
  split at h
  · cases h
  split at h
  · cases h
  simp only at h
  split at h
  · cases h
  split at h
  · cases h
  next sig hsig =>
    split at h
    · cases h
    next hlen => exact ⟨sig, hsig, not_not.mp hlen⟩

/-- What passes the checks of a submission is signed. -/
theorem verified_of_valid (h : validateSubmission C now r = .ok ()) :
    (verifyEd25519Envelope C r.clientPubkey (r.signedBytes C) r.signatureHex).1 = true := by
  unfold validateSubmission at h
  split at h
  · cases h
  · split at h
    · cases h
    · next hverified => rw [hverified]

/-- What is accepted has passed the checks and is stored. -/
theorem Accepted.checked {d : Dict} {len : ℤ} (h : Accepted C cfg eid d len r) :
    (∃ now, validateSubmission C now r = .ok ()) ∧ r.storable = true := by
  obtain ⟨-, s, hs, i, call, hcall, rfl, hpc⟩ := h
  have hinv : AdmitInv C eid s := by
    refine hs.invariant ?_ fun u a v hu hst => hu.step (moves_of_step hst)
    rintro u ⟨file, -, rfl⟩
    exact .of_fresh
  obtain ⟨hvalid, hstore⟩ := hinv.checked hcall (by rw [hpc]; rfl)
  exact ⟨⟨call.submittedAt, hvalid⟩, hstore⟩

/-! ### What is accepted -/

/-- The steps of a submission of `r` to a new engine. -/
def firstSubmission (now : ClockReading) (r : Request) : List Act :=
  [.start, .submit now r, .openCursor 0, .beginInsert 0 false, .insert 0 false,
    .commitInsert 0 false, .resume 0 now]

/-- **A request that passes its checks is accepted in some run**: as the first of a
new engine. -/
theorem exists_accepted (hvalid : validateSubmission C now r = .ok ())
    (hstore : r.storable = true) :
    ∃ s, (engineMachine C cfg eid).Reachable s ∧ ∃ i call, s.calls i = some call ∧
      call.request = r ∧ call.pc = .returned .accepted := by
  obtain ⟨s, hpath, hanswered⟩ : ∃ s, (engineMachine C cfg eid).Path
      (fun u a => commitsRecord eid u a = true) (.fresh ⟨[], []⟩) (firstSubmission now r) s ∧
        Answered (Engine.fresh ⟨[], []⟩).start now r s := exists_answered_first hvalid hstore
  have hcall : s.calls 0 = some ⟨r, now, .returned .accepted⟩ := by
    rw [hanswered.calls]
    exact Function.update_self _ _ _
  exact ⟨s, hpath.reachable (.init ⟨_, Tables.initial_nil, rfl⟩), 0, _, hcall, rfl, rfl⟩

/-- **When what is accepted keeps to the bounds**: when a body that can be accepted
keeps to the four that no code reads. -/
theorem admission_bounds_iff (C : Crypto) (cfg : Config) (eid : ℕ) (requestBody : Dict)
    (rawBodyBytesLen : ℤ) :
    (∀ r, Accepted C cfg eid requestBody rawBodyBytesLen r → AdmissionBounds r.toHeader) ↔
      ∀ r, routeIngress requestBody rawBodyBytesLen = .ok (.submitted r) →
        (∃ now, validateSubmission C now r = .ok ()) → r.storable = true →
          DeclaredLimits r.toHeader := by
  constructor
  · rintro hbounds r hrouted ⟨now, hvalid⟩ hstore
    exact (hbounds r ⟨hrouted, exists_accepted hvalid hstore⟩).toDeclaredLimits
  · intro hlimits r haccepted
    obtain ⟨⟨now, hvalid⟩, hstore⟩ := haccepted.checked
    exact ⟨hlimits r haccepted.1 ⟨now, hvalid⟩ hstore, signature_length (verified_of_valid hvalid)⟩

/-! ### An asset of no supported type -/

/-- A request for an asset type that is not in the set. -/
def aliceGold : Request :=
  requestOf aliceAddress (text "n4") (text "GOLD")
    0x1212ca4394dbe439560980b1a59d6bce3a387becbff9a50ca14dbfe44b004522
    0x45c145adeedb00422ad7b1bd846ccd65df41685e951b6256429fe93382c9d40d

/-- The functions of other packages on it. -/
def goldCrypto : Crypto :=
  .ofTable [(emptyObject, emptyObjectDigest)] [(aliceAddress, aliceKey)]
    [(aliceKey, buildCanonicalEnvelopeBytes (aliceGold.toHeader.envelope (hexOf emptyObjectDigest)),
      (fromHex aliceGold.signatureHex).getD [])]

/-- **An asset of no supported type is accepted.** -/
theorem unsupported_asset_accepted :
    ¬ ∀ r, Accepted goldCrypto ⟨10, 10⟩ 0
        (withPayload (envelopeOf aliceGold.toHeader) aliceGold.rawPayload) 1024 r →
      AdmissionBounds r.toHeader := by
  intro hbounds
  have hrouted : routeIngress (withPayload (envelopeOf aliceGold.toHeader) aliceGold.rawPayload)
      1024 = .ok (.submitted aliceGold) := by decide +kernel
  have hvalid : validateSubmission goldCrypto clock aliceGold = .ok () := by decide +kernel
  have hasset := (hbounds aliceGold ⟨hrouted, exists_accepted hvalid (by decide)⟩).assetType
  exact absurd hasset (by decide)

end Tollbridge
end SovereignSeed
