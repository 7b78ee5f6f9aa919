import SovereignSeed.Tollbridge.Telemetry

/-!
# What is stored and what was signed

The signature of an accepted request is verified over stripped strings, and the
strings as they came are stored.  A reader of the signed bytes finds the stored
strings in them exactly when stripping, and the joining of surrogate pairs that
JSON does, leave them alone.

## Main definitions

* `SignedText`, `StoredAsSigned` — what the signed bytes say of a stored row.
* `Request.plain` — the strings are those that are signed.

## Main results

* `storedAsSigned_iff` — **when a request is stored as it was signed.**
* `accepted_stored_as_signed_iff` — **the same of every accepted call**;
  `spelling_not_stored_as_signed` is one that is not.
-/

namespace SovereignSeed
namespace Tollbridge

open Python

variable {C : Crypto} {cfg : Config} {eid : ℕ} {s : Engine}

/-- A reader finds the text `s` under `field` in the canonical bytes. -/
def SignedText (canonicalBytes : Bytes) (field : String) (s : PyStr) : Prop :=
  ∃ members, signedStrings canonicalBytes = some members ∧ (text field, .str s) ∈ members

/-- The stored strings are those in the canonical bytes, and the stored hash is
that of the stored payload. -/
structure StoredAsSigned (C : Crypto) (canonicalBytes : Bytes) (row : VaultRow)
    (item : TelemetryRow) : Prop where
  vaultPubkey : SignedText canonicalBytes "client_pubkey" row.clientPubkey
  vaultNonce : SignedText canonicalBytes "nonce" row.nonce
  clientPubkey : SignedText canonicalBytes "client_pubkey" item.clientPubkey
  assetType : SignedText canonicalBytes "asset_type" item.assetType
  subscriptionTopic : SignedText canonicalBytes "subscription_topic" item.subscriptionTopic
  contentType : SignedText canonicalBytes "content_type" item.contentType
  envelopeHash : item.envelopeHash = C.hexdigest item.payloadBlob

/-- The text is signed as it is: it has no white space at its ends and no
surrogate pair in it. -/
def isPlain (s : PyStr) : Bool := strip s == s && !Json.hasPair s

/-- The stored strings of a request are plain. -/
def Request.plain (r : Request) : Bool :=
  [r.clientPubkey, r.nonce, r.assetType, r.subscriptionTopic, r.contentType].all isPlain

/-! ### The members of the canonical bytes -/

/-- The keys of the canonical object are distinct. -/
theorem signedMembers_keys_nodup (e : Envelope) : ((signedMembers e).map Prod.fst).Nodup := by
  have hkeys : ∀ e : Envelope, (signedMembers e).map Prod.fst =
      [text "asset_type", text "client_pubkey", text "content_type", text "nonce",
        text "payload_hash", text "protocol_version", text "subscription_topic",
        text "timestamp"] := fun _ => rfl
  rw [hkeys]
  decide

/-- What the bytes hold under the key of a stripped string. -/
theorem signedText_iff {e : Envelope} {field : String} {f : PyStr}
    (hmem : (text field, Json.Scalar.str (strip f)) ∈ canonicalDict e) (s : PyStr) :
    SignedText (buildCanonicalEnvelopeBytes e) field s ↔ Json.joinPairs (strip f) = s := by
  have hsigned : (text field, Json.Scalar.str (Json.joinPairs (strip f))) ∈ signedMembers e :=
    List.mem_map.mpr ⟨_, hmem, rfl⟩
  unfold SignedText
  rw [signedStrings_canonical]
  constructor
  · rintro ⟨members, heq, hs⟩
    cases heq
    have hpair := List.inj_on_of_nodup_map (signedMembers_keys_nodup e) hsigned hs rfl
    exact Json.Scalar.str.inj (Prod.mk.inj hpair).2
  · rintro rfl
    exact ⟨_, rfl, hsigned⟩

/-- A string is in the bytes as it is stored exactly when it is plain. -/
theorem signedText_self_iff {e : Envelope} {field : String} {f : PyStr}
    (hmem : (text field, Json.Scalar.str (strip f)) ∈ canonicalDict e) :
    SignedText (buildCanonicalEnvelopeBytes e) field f ↔ isPlain f = true := by
  rw [signedText_iff hmem, Json.joinPairs_strip_eq_iff]
  simp [isPlain]

/-- **A request is stored as it was signed exactly when its strings are plain.** -/
theorem storedAsSigned_iff (call : Call) (i : ℕ) (now : ClockReading) :
    StoredAsSigned C (call.request.signedBytes C) (call.vaultRow eid i)
        (call.item C eid i now) ↔ call.request.plain = true := by
  have hself : ∀ field f, (text field, Json.Scalar.str (strip f)) ∈
      canonicalDict (call.request.toHeader.envelope (C.hexdigest call.request.rawPayload)) →
      (SignedText (call.request.signedBytes C) field f ↔ isPlain f = true) :=
    fun field f hmem => signedText_self_iff hmem
  have hpubkey := hself "client_pubkey" call.request.clientPubkey
    (by simp [canonicalDict, Header.envelope])
  have hnonce := hself "nonce" call.request.nonce (by simp [canonicalDict, Header.envelope])
  have hasset := hself "asset_type" call.request.assetType
    (by simp [canonicalDict, Header.envelope])
  have htopic := hself "subscription_topic" call.request.subscriptionTopic
    (by simp [canonicalDict, Header.envelope])
  have hcontent := hself "content_type" call.request.contentType
    (by simp [canonicalDict, Header.envelope])
  simp only [Request.plain, List.all_cons, List.all_nil, Bool.and_true, Bool.and_eq_true]
  constructor
  · intro h
    exact ⟨hpubkey.mp h.vaultPubkey, hnonce.mp h.vaultNonce, hasset.mp h.assetType,
      htopic.mp h.subscriptionTopic, hcontent.mp h.contentType⟩
  · rintro ⟨h1, h2, h3, h4, h5⟩
    exact ⟨hpubkey.mpr h1, hnonce.mpr h2, hpubkey.mpr h1, hasset.mpr h3, htopic.mpr h4,
      hcontent.mpr h5, rfl⟩

/-! ### Accepted calls -/

/-- **What is stored of an accepted call.**  Its signature verifies over its bytes;
what the vault and the way to the table hold of it is one row and one item; and
these are what was signed exactly when its strings are plain. -/
theorem accepted_stored_as_signed_iff (C : Crypto) (cfg : Config) (eid : ℕ) {s₀ s : Engine}
    {as : List Act} (h0 : (engineMachine C cfg eid).init s₀)
    (h : (engineMachine C cfg eid).Path Machine.free s₀ as s) {i : ℕ} {call : Call}
    (hcall : s.calls i = some call) (hpc : call.pc = .returned .accepted) :
    (verifyEd25519Envelope C call.request.clientPubkey (call.request.signedBytes C)
        call.request.signatureHex).1 = true ∧
      (∀ row ∈ s.vault.view, row.caller = some (eid, i) → row = call.vaultRow eid i) ∧
      ∃ item ∈ s.accepted, item.caller = some (eid, i) ∧
        (∀ other, other ∈ s.telemetry.view ∨ other ∈ s.batch ∨ other ∈ s.queue →
          other.caller = some (eid, i) → other = item) ∧
        (StoredAsSigned C (call.request.signedBytes C) (call.vaultRow eid i) item ↔
          call.request.plain = true) := by
  obtain ⟨hinv, hrows⟩ := h.invariant
    (P := fun u => EngineInv C cfg eid s₀.telemetry.file u ∧ RowInv eid s₀.vault.file u)
    (fun u b v hu _ hst => by
      have hm : Moves C cfg eid u b v := moves_of_step hst
      exact ⟨hu.1.step hm, hu.2.step hu.1.vault hm⟩)
    (by
      have hengine := EngineInv.of_init h0
      obtain ⟨file, hfile, rfl⟩ := h0
      exact ⟨hengine, .of_fresh⟩)
  have hold : (∀ row ∈ s₀.vault.file, row.caller = none) ∧
      ∀ row ∈ s₀.telemetry.file, row.caller = none := by
    obtain ⟨file, hfile, rfl⟩ := h0
    exact ⟨hfile.vault, hfile.telemetry⟩
  refine ⟨?_, ?_, ?_⟩
  · have hvalid := hinv.calls.admitted hcall (by rw [hpc]; rfl)
    unfold validateSubmission at hvalid
    split at hvalid
    · cases hvalid
    · split at hvalid
      · cases hvalid
      · next hverified => rw [hverified]
  · intro row hrow hcaller
    rcases hrows row hrow with hbase | ⟨j, call', hj, rfl⟩
    · rw [hold.1 row hbase] at hcaller
      cases hcaller
    · obtain rfl : j = i := (Prod.mk.inj (Option.some.inj hcaller)).2
      rw [hcall] at hj
      cases hj
      rfl
  · obtain ⟨now, hitem⟩ := hinv.items.of_accepted hcall hpc
    refine ⟨_, hitem, rfl, ?_, storedAsSigned_iff call i now⟩
    intro other hother hcaller
    rcases hinv.items.origin other hother with hbase | hput
    · rw [hold.2 other hbase] at hcaller
      cases hcaller
    · exact List.inj_on_of_nodup_map hinv.items.callers hput hitem hcaller

/-- **A request with white space after its nonce is not stored as it was signed.** -/
theorem spelling_not_stored_as_signed :
    ¬ ∀ s as, (engineMachine clientCrypto ⟨10, 10⟩ 0).Path Machine.free (.fresh ⟨[], []⟩) as s →
      ∀ i call, s.calls i = some call → call.pc = .returned .accepted →
        ∃ item, StoredAsSigned clientCrypto (call.request.signedBytes clientCrypto)
          (call.vaultRow 0 i) item := by
  intro hstored
  have hexec : ((engineMachine clientCrypto ⟨10, 10⟩ 0).exec (fun _ _ => true) (.fresh ⟨[], []⟩)
      ([.start, .writerStart] ++ submission 0 aliceSpelling)).map (fun s => s.calls 0) =
      some (some ⟨aliceSpelling, clock, .returned .accepted⟩) := by decide +kernel
  obtain ⟨s, hpath, hcall⟩ := Machine.exists_path_of_exec hexec
  obtain ⟨item, hsigned⟩ := hstored s _ (hpath.mono fun _ _ _ => trivial) 0 _ hcall rfl
  have hmem : (text "nonce", Json.Scalar.str (strip aliceSpelling.nonce)) ∈
      canonicalDict (aliceSpelling.toHeader.envelope
        (clientCrypto.hexdigest aliceSpelling.rawPayload)) := by
    simp [canonicalDict, Header.envelope]
  have hplain : isPlain aliceSpelling.nonce = true :=
    (signedText_self_iff hmem).mp hsigned.vaultNonce
  exact absurd hplain (by decide)

/-- A call whose strings are plain. -/
theorem accepted_stored_as_signed_plain : ∃ s,
    (engineMachine clientCrypto ⟨10, 10⟩ 0).Path Machine.free (.fresh ⟨[], []⟩)
        ([.start, .writerStart] ++ submission 0 aliceFirst) s ∧
      ∃ item ∈ s.accepted, StoredAsSigned clientCrypto (aliceFirst.signedBytes clientCrypto)
        (Call.vaultRow 0 0 ⟨aliceFirst, clock, .returned .accepted⟩) item := by
  have hexec : ((engineMachine clientCrypto ⟨10, 10⟩ 0).exec (fun _ _ => true) (.fresh ⟨[], []⟩)
      ([.start, .writerStart] ++ submission 0 aliceFirst)).map (fun s => s.calls 0) =
      some (some ⟨aliceFirst, clock, .returned .accepted⟩) := by decide +kernel
  obtain ⟨s, hpath, hcall⟩ := Machine.exists_path_of_exec hexec
  have hfree : (engineMachine clientCrypto ⟨10, 10⟩ 0).Path Machine.free (.fresh ⟨[], []⟩)
      ([.start, .writerStart] ++ submission 0 aliceFirst) s := hpath.mono fun _ _ _ => trivial
  obtain ⟨-, -, item, hitem, -, -, hiff⟩ := accepted_stored_as_signed_iff clientCrypto ⟨10, 10⟩ 0
    ⟨_, Tables.initial_nil, rfl⟩ hfree hcall rfl
  exact ⟨s, hfree, item, hitem, hiff.mpr (by decide)⟩

end Tollbridge
end SovereignSeed
