import SovereignSeed.Tollbridge.Security

/-!
# What the canonical bytes determine

The canonical bytes of an envelope are the compact JSON text of its stripped
fields.  For strings over Unicode scalar values that text is read back as those
fields, so the bytes are the same only for envelopes whose fields are the same but
for white space around them.

## Main definitions

* `Envelope.stripped` — the envelope without the white space.
* `Envelope.signed` — the same with surrogate pairs joined, as a reader finds it.
* `Envelope.IsScalar` — no field holds a surrogate.
* `canonicalMembers` — the signed fields as JSON values.

## Main results

* `buildCanonicalEnvelopeBytes_eq` — the bytes are the text of the signed fields.
* `bytes_eq_iff_signed` — what the bytes of any envelope determine.
* `loadBytes_canonical` — **a reader of the bytes gets the stripped fields.**
* `canonical_bytes_eq_iff` — **the bytes determine exactly the stripped fields.**
-/

namespace SovereignSeed
namespace Tollbridge

open Python

/-- The envelope with each string stripped. -/
def Envelope.stripped (e : Envelope) : Envelope where
  protocolVersion := strip e.protocolVersion
  clientPubkey := strip e.clientPubkey
  nonce := strip e.nonce
  timestamp := e.timestamp
  assetType := strip e.assetType
  payloadHash := strip e.payloadHash
  contentType := strip e.contentType
  subscriptionTopic := strip e.subscriptionTopic

/-- The envelope as a reader of its bytes finds it: the strings are stripped, and the
halves of their surrogate pairs joined. -/
def Envelope.signed (e : Envelope) : Envelope where
  protocolVersion := Json.joinPairs (strip e.protocolVersion)
  clientPubkey := Json.joinPairs (strip e.clientPubkey)
  nonce := Json.joinPairs (strip e.nonce)
  timestamp := e.timestamp
  assetType := Json.joinPairs (strip e.assetType)
  payloadHash := Json.joinPairs (strip e.payloadHash)
  contentType := Json.joinPairs (strip e.contentType)
  subscriptionTopic := Json.joinPairs (strip e.subscriptionTopic)

/-- The strings of an envelope. -/
def Envelope.strings (e : Envelope) : List PyStr :=
  [e.protocolVersion, e.clientPubkey, e.nonce, e.assetType, e.payloadHash, e.contentType,
    e.subscriptionTopic]

/-- The strings are texts over Unicode scalar values. -/
def Envelope.IsScalar (e : Envelope) : Prop := ∀ s ∈ e.strings, Python.IsScalar s

instance (e : Envelope) : Decidable e.IsScalar := inferInstanceAs (Decidable (∀ s ∈ e.strings, _))

/-- The fields of an envelope as the members of a JSON object. -/
def canonicalMembers (e : Envelope) : Json.Members :=
  [(text "asset_type", .str e.assetType),
   (text "client_pubkey", .str e.clientPubkey),
   (text "content_type", .str e.contentType),
   (text "nonce", .str e.nonce),
   (text "payload_hash", .str e.payloadHash),
   (text "protocol_version", .str e.protocolVersion),
   (text "subscription_topic", .str e.subscriptionTopic),
   (text "timestamp", .float e.timestamp)]

theorem canonicalMembers_injective : Function.Injective canonicalMembers := by
  intro e e' h
  simp only [canonicalMembers, List.cons.injEq, Prod.mk.injEq, true_and, and_true,
    Json.Value.str.injEq, Json.Value.float.injEq] at h
  obtain ⟨hasset, hkey, hcontent, hnonce, hhash, hversion, htopic, htime⟩ := h
  cases e
  cases e'
  simp_all

/-- The canonical bytes are the text of the signed fields. -/
theorem buildCanonicalEnvelopeBytes_eq (e : Envelope) :
    buildCanonicalEnvelopeBytes e =
      utf8 ((Json.Value.obj (canonicalMembers e.stripped)).render .compact 0) := by
  rw [buildCanonicalEnvelopeBytes, Json.dumps_eq_render (by simp [canonicalDict])]
  have hpair : ∀ (k : PyStr) (w : Json.Scalar) (v : Json.Value), w.dump = v.render .compact 1 →
      (k, w).1 = (k, v).1 ∧ (k, w).2.dump = (k, v).2.render .compact 1 := fun _ _ _ h => ⟨rfl, h⟩
  iterate 8 refine .cons (hpair _ _ _ rfl) ?_
  exact .nil

theorem Envelope.IsScalar.stripped {e : Envelope} (h : e.IsScalar) : e.stripped.IsScalar := by
  intro s hs
  -- the strings of the stripped envelope are the stripped strings
  obtain ⟨t, ht, rfl⟩ := List.mem_map.mp (show s ∈ e.strings.map strip from hs)
  exact isScalar_strip (h t ht)

/-- The members of an envelope without surrogate pairs are a loaded object. -/
theorem loaded_canonicalMembers {e : Envelope} (h : ∀ s ∈ e.strings, Json.hasPair s = false) :
    (Json.Value.obj (canonicalMembers e)).Loaded := by
  have hkeys : ∀ k ∈ (canonicalMembers e).map Prod.fst, Json.hasPair k = false := by
    simp only [canonicalMembers, List.map_cons, List.map_nil]
    decide
  have hnodup : ((canonicalMembers e).map Prod.fst).Nodup := by
    simp only [canonicalMembers, List.map_cons, List.map_nil]
    decide
  refine .obj hnodup (fun m hm => hkeys _ (List.mem_map_of_mem hm)) fun m hm => ?_
  have hstr : ∀ s ∈ e.strings, (Json.Value.str s).Loaded := fun s hs => .str (h s hs)
  simp only [canonicalMembers, List.mem_cons, List.not_mem_nil, or_false] at hm
  rcases hm with rfl | rfl | rfl | rfl | rfl | rfl | rfl | rfl
  iterate 7 exact hstr _ (by simp [Envelope.strings])
  exact .float e.timestamp

/-- Joining the pairs of the stripped fields changes no byte. -/
theorem buildCanonicalEnvelopeBytes_eq_signed (e : Envelope) :
    buildCanonicalEnvelopeBytes e =
      utf8 ((Json.Value.obj (canonicalMembers e.signed)).render .compact 0) := by
  have hkeys : ∀ m ∈ canonicalMembers e.stripped, Json.joinPairs m.1 = m.1 := by
    have hall : ∀ k ∈ (canonicalMembers e.stripped).map Prod.fst, Json.hasPair k = false := by
      simp only [canonicalMembers, List.map_cons, List.map_nil]
      decide
    exact fun m hm => (Json.joinPairs_eq_self_iff _).mpr (hall _ (List.mem_map_of_mem hm))
  have hmembers : ((canonicalMembers e.stripped).map fun m => (Json.joinPairs m.1, m.2.joined)) =
      (canonicalMembers e.stripped).map fun m => (m.1, m.2.joined) :=
    List.map_congr_left fun m hm => by rw [hkeys m hm]
  have hjoined : (Json.Value.obj (canonicalMembers e.stripped)).joined =
      .obj (canonicalMembers e.signed) := by
    rw [Json.Value.joined, Json.rebuild_obj]
    exact congrArg Json.Value.obj hmembers
  rw [buildCanonicalEnvelopeBytes_eq, ← Json.render_joined, hjoined]

/-- **The bytes of any envelope determine what a reader of them finds.** -/
theorem bytes_eq_iff_signed (e e' : Envelope) :
    buildCanonicalEnvelopeBytes e = buildCanonicalEnvelopeBytes e' ↔ e.signed = e'.signed := by
  have hload : ∀ e : Envelope, Json.loadBytes (buildCanonicalEnvelopeBytes e) =
      some (.obj (canonicalMembers e.signed)) := by
    intro e
    have hsigned : ∀ s ∈ e.signed.strings, Json.hasPair s = false := by
      intro s hs
      -- the strings a reader finds are the joined ones
      obtain ⟨t, -, rfl⟩ := List.mem_map.mp
        (show s ∈ e.strings.map fun t => Json.joinPairs (strip t) from hs)
      exact Json.hasPair_joinPairs _
    rw [buildCanonicalEnvelopeBytes_eq_signed, (loaded_canonicalMembers hsigned).loadBytes_render]
  constructor
  · intro heq
    have hmembers := hload e
    rw [heq, hload e', Option.some.injEq, Json.Value.obj.injEq] at hmembers
    exact (canonicalMembers_injective hmembers).symm
  · intro heq
    rw [buildCanonicalEnvelopeBytes_eq_signed, buildCanonicalEnvelopeBytes_eq_signed, heq]

/-- **A reader of the bytes gets the stripped fields.** -/
theorem loadBytes_canonical {e : Envelope} (h : e.IsScalar) :
    Json.loadBytes (buildCanonicalEnvelopeBytes e) = some (.obj (canonicalMembers e.stripped)) := by
  have hstripped : ∀ s ∈ e.stripped.strings, Json.hasPair s = false := fun s hs =>
    Json.hasPair_of_isScalar (h.stripped s hs)
  rw [buildCanonicalEnvelopeBytes_eq, (loaded_canonicalMembers hstripped).loadBytes_render]

/-- **The canonical bytes determine exactly the stripped fields**, and a reader of the
bytes gets them. -/
theorem canonical_bytes_eq_iff (e e' : Envelope) (h : e.IsScalar) (h' : e'.IsScalar) :
    (buildCanonicalEnvelopeBytes e = buildCanonicalEnvelopeBytes e' ↔ e.stripped = e'.stripped) ∧
      Json.loadBytes (buildCanonicalEnvelopeBytes e) =
        some (.obj (canonicalMembers e.stripped)) := by
  refine ⟨⟨fun heq => ?_, fun heq => ?_⟩, loadBytes_canonical h⟩
  · have hload := loadBytes_canonical h
    rw [heq, loadBytes_canonical h', Option.some.injEq, Json.Value.obj.injEq] at hload
    exact (canonicalMembers_injective hload).symm
  · rw [buildCanonicalEnvelopeBytes_eq, buildCanonicalEnvelopeBytes_eq, heq]

/-- An envelope with a quotation mark, a control character, and characters of two, three and
four octets. -/
def wideEnvelope : Envelope where
  protocolVersion := text "1.0"
  clientPubkey := aliceAddress
  nonce := [0x22, 0x5c, 0x01, 0xe9]
  timestamp := .finite false maxTimestampDriftSec
  assetType := [0x20ac, 0x1f600]
  payloadHash := []
  contentType := text "a/b"
  subscriptionTopic := text "t"

/-- The same with white space around its nonce. -/
def paddedEnvelope : Envelope :=
  { wideEnvelope with nonce := 0x09 :: (wideEnvelope.nonce ++ [0x2003]) }

theorem canonical_bytes_eq_iff_wide :
    (buildCanonicalEnvelopeBytes wideEnvelope = buildCanonicalEnvelopeBytes paddedEnvelope ↔
        wideEnvelope.stripped = paddedEnvelope.stripped) ∧
      Json.loadBytes (buildCanonicalEnvelopeBytes wideEnvelope) =
        some (.obj (canonicalMembers wideEnvelope.stripped)) :=
  canonical_bytes_eq_iff _ _ (by decide) (by decide)

end Tollbridge
end SovereignSeed
