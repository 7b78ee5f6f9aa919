import SovereignSeed.Python.JsonOrder
import SovereignSeed.Resurrection.Checkpoint

/-!
# Evidence hashes

`sovereign_seed_commons/evidence/evidence_validator.py`: the hash of an evidence payload
is that of its compact text with sorted keys, and a payload is verified by computing its
hash again.  A payload that has no text has the empty string for its hash, and the empty
string is no hash that is verified against.

## Main definitions

* `computeEvidenceHash`, `verifyEvidence` — the two methods.

## Main results

* `verifyEvidence_eq_ok_iff` — what is accepted.
* `verify_evidence_iff` — **a payload is accepted with the hash of another exactly if they
  are equal up to the order of keys, and have a text.**
-/

namespace SovereignSeed
namespace Commons

open Python Json Tollbridge Resurrection

/-! ### The validator -/

/-- `normalized_bytes`, or `none` where `json.dumps` raises. -/
def normalizedBytes (evidencePayload : Value) : Option Bytes :=
  (evidencePayload.sortKeys.dumps .compact).map utf8

/-- `EvidenceValidator.compute_evidence_hash`: an exception gives the empty string. -/
def computeEvidenceHash (C : Crypto) (evidencePayload : Value) : PyStr :=
  match normalizedBytes evidencePayload with
  | some bytes => C.hexdigest bytes
  | none => []

/-- `isinstance(v, dict)`. -/
def isDict : Value → Bool
  | .obj _ => true
  | _ => false

/-- `isinstance(v, str)`. -/
def isString : Value → Bool
  | .str _ => true
  | _ => false

/-- `EvidenceValidator.verify_evidence`. -/
def verifyEvidence (C : Crypto) (evidencePayload expectedHash : Value) : Bool × String :=
  if truthy evidencePayload = false ∨ isDict evidencePayload = false then
    (false, "EVIDENCE_MALFORMED_PAYLOAD")
  else if truthy expectedHash = false ∨ isString expectedHash = false then
    (false, "EVIDENCE_INVALID_EXPECTED_HASH")
  else
    let computedHash := computeEvidenceHash C evidencePayload
    if computedHash = [] then (false, "EVIDENCE_COMPUTATION_FAULT")
    else if isStr expectedHash computedHash = false then (false, "EVIDENCE_HASH_MISMATCH")
    else (true, "OK")

/-! ### What is accepted -/

/-- **What is accepted**: an object that is not empty, with its own hash. -/
theorem verifyEvidence_eq_ok_iff {C : Crypto} {evidencePayload expectedHash : Value} :
    verifyEvidence C evidencePayload expectedHash = (true, "OK") ↔
      (∃ m ms, evidencePayload = .obj (m :: ms)) ∧ computeEvidenceHash C evidencePayload ≠ [] ∧
        expectedHash = .str (computeEvidenceHash C evidencePayload) := by
  unfold verifyEvidence
  constructor
  · intro h
    split at h
    · cases h
    next hpayload =>
    split at h
    · cases h
    extract_lets computedHash at h
    split at h
    · cases h
    next hhash =>
    split at h
    · cases h
    next heq =>
    rw [not_or] at hpayload
    refine ⟨?_, hhash, isStr_eq_true_iff.mp (by simpa using heq)⟩
    cases evidencePayload with
    | obj ms =>
      cases ms with
      | nil => exact absurd rfl hpayload.1
      | cons m ms => exact ⟨m, ms, rfl⟩
    | _ => exact absurd rfl hpayload.2
  · rintro ⟨⟨m, ms, rfl⟩, hhash, rfl⟩
    have hstr : isStr (.str (computeEvidenceHash C (.obj (m :: ms))))
      (computeEvidenceHash C (.obj (m :: ms))) = true := isStr_eq_true_iff.mpr rfl
    simp [truthy, isDict, isString, hhash, hstr]

/-! ### The hash of another payload -/

/-- SHA-256 has no collision on the texts of the two payloads. -/
def HashesApart (C : Crypto) (p q : Value) : Prop :=
  ∀ bytes bytes', normalizedBytes p = some bytes → normalizedBytes q = some bytes' →
    C.sha256 bytes = C.sha256 bytes' → bytes = bytes'

theorem normalizedBytes_eq {v : Value} (h : v.printable = true) :
    normalizedBytes v = some (utf8 (v.sortKeys.render .compact 0)) := by
  rw [normalizedBytes, Value.dumps, if_pos ((printable_sortKeys_iff v).mpr h)]
  rfl

theorem normalizedBytes_eq_none {v : Value} (h : ¬v.printable = true) :
    normalizedBytes v = none := by
  rw [normalizedBytes, Value.dumps, if_neg (mt (printable_sortKeys_iff v).mp h)]
  rfl

/-- A payload with a text has a hash. -/
theorem computeEvidenceHash_ne_nil {C : Crypto} (hsize : DigestSize C) {v : Value} :
    computeEvidenceHash C v ≠ [] ↔ v.printable = true := by
  unfold computeEvidenceHash
  by_cases h : v.printable = true
  · rw [normalizedBytes_eq h]
    refine iff_of_true (fun hnil => ?_) h
    -- 64 digits are not none
    have hlen := length_hexOf (C.sha256 (utf8 (v.sortKeys.render .compact 0)))
    rw [show hexOf (C.sha256 _) = [] from hnil, hsize] at hlen
    cases hlen
  · rw [normalizedBytes_eq_none h]
    exact iff_of_false (fun hne => hne rfl) h

/-- Payloads with texts have the same hash exactly if they are equal up to order. -/
theorem computeEvidenceHash_eq_iff {C : Crypto} {p q : Value} (hp : p.Plain) (hq : q.Plain)
    (hp' : p.printable = true) (hq' : q.printable = true) (hfree : HashesApart C p q) :
    computeEvidenceHash C p = computeEvidenceHash C q ↔ Reordered p q := by
  rw [← same_iff_reordered hp]
  constructor
  · intro h
    rw [computeEvidenceHash, computeEvidenceHash, normalizedBytes_eq hp',
      normalizedBytes_eq hq'] at h
    have htexts := utf8_injective (hfree _ _ (normalizedBytes_eq hp') (normalizedBytes_eq hq')
      (hexOf_injective h))
    exact (hp.loaded_iff.mpr hp').sortKeys.eq_of_render_eq (hq.loaded_iff.mpr hq').sortKeys htexts
  · intro h
    rw [computeEvidenceHash, computeEvidenceHash, normalizedBytes, normalizedBytes, h]

/-- **A payload is accepted with the hash of another exactly if they are equal up to the
order of keys, and have a text.** -/
theorem verify_evidence_iff (C : Crypto) (hsize : DigestSize C) {p q : Members} (hne : p ≠ [])
    (hp : (Value.obj p).Plain) (hq : (Value.obj q).Plain)
    (hfree : HashesApart C (.obj p) (.obj q)) :
    verifyEvidence C (.obj p) (.str (computeEvidenceHash C (.obj q))) = (true, "OK") ↔
      Reordered (.obj p) (.obj q) ∧ (Value.obj p).printable = true := by
  rw [verifyEvidence_eq_ok_iff, computeEvidenceHash_ne_nil hsize, Value.str.injEq]
  constructor
  · rintro ⟨-, hp', hhash⟩
    have hq' : (Value.obj q).printable = true := by
      rw [← computeEvidenceHash_ne_nil hsize, hhash, computeEvidenceHash_ne_nil hsize]
      exact hp'
    exact ⟨(computeEvidenceHash_eq_iff hp hq hp' hq' hfree).mp hhash.symm, hp'⟩
  · rintro ⟨hreordered, hp'⟩
    have hq' : (Value.obj q).printable = true := by
      rw [← printable_sortKeys_iff, ← (hreordered.same hp).1, printable_sortKeys_iff]
      exact hp'
    obtain ⟨m, ms, rfl⟩ := List.exists_cons_of_ne_nil hne
    have hhash := (computeEvidenceHash_eq_iff hp hq hp' hq' hfree).mpr hreordered
    exact ⟨⟨m, ms, rfl⟩, hp', hhash.symm⟩

/-- A payload with its members in two orders. -/
def metricsPayload : Members :=
  [(text "cell_id", .str (text "cell_alpha_01")),
    (text "metrics", .obj [(text "ops", .int 500), (text "failed", .bool false)])]

@[inherit_doc metricsPayload]
def metricsPayload' : Members :=
  [(text "metrics", .obj [(text "failed", .bool false), (text "ops", .int 500)]),
    (text "cell_id", .str (text "cell_alpha_01"))]

/-- SHA-256 on the text of the payload. -/
def metricsCrypto : Crypto where
  sha256 data :=
    if data = utf8 ((Value.obj metricsPayload).sortKeys.render .compact 0) then
      bytesOf 32 0xf1e5c644610281435ce4218aa5132ed136b41b0e7d31d56fe080da169ae3b1cb
    else bytesOf 32 0
  pubkeyFromString _ := none
  verify _ _ _ := .badSignature

theorem digestSize_metricsCrypto : DigestSize metricsCrypto := by
  have hlen : ∀ n, (bytesOf 32 n).length = 32 := fun n => by
    rw [bytesOf, List.length_map, List.length_range]
  intro data
  simp only [metricsCrypto]
  split
  · exact hlen _
  · exact hlen _

theorem plain_metricsPayload : (Value.obj metricsPayload).Plain := by
  refine .obj (by decide) (by decide) fun m hm => ?_
  simp only [metricsPayload, List.mem_cons, List.not_mem_nil, or_false] at hm
  rcases hm with rfl | rfl
  · exact .str (by decide)
  · refine .obj (by decide) (by decide) fun m hm => ?_
    simp only [List.mem_cons, List.not_mem_nil, or_false] at hm
    rcases hm with rfl | rfl
    · exact .int 500
    · exact .bool false

theorem reordered_metricsPayload : Reordered (.obj metricsPayload) (.obj metricsPayload') :=
  .trans (.member _ [_] [] (.moved (.swap _ _ _))) (.moved (.swap _ _ _))

theorem verify_evidence_iff_metrics :
    verifyEvidence metricsCrypto (.obj metricsPayload)
        (.str (computeEvidenceHash metricsCrypto (.obj metricsPayload'))) = (true, "OK") ↔
      Reordered (.obj metricsPayload) (.obj metricsPayload') ∧
        (Value.obj metricsPayload).printable = true := by
  have hplain := plain_metricsPayload
  obtain ⟨hsame, hplain'⟩ := reordered_metricsPayload.same hplain
  refine verify_evidence_iff metricsCrypto digestSize_metricsCrypto (List.cons_ne_nil _ _) hplain
    hplain' fun bytes bytes' h h' _ => ?_
  -- one text, sorted
  rw [normalizedBytes, hsame] at h
  exact Option.some.inj (h.symm.trans h')

/-- An integer with one digit too many. -/
def longPayload : Members := [(text "n", .int (10 ^ maxStrDigits))]

/-- A payload without a text is not accepted with its own hash. -/
theorem long_payload_is_refused :
    ¬∀ (C : Crypto) (p q : Members), DigestSize C → p ≠ [] → q ≠ [] → (Value.obj p).Plain →
      (Value.obj q).Plain → HashesApart C (.obj p) (.obj q) →
      (verifyEvidence C (.obj p) (.str (computeEvidenceHash C (.obj q))) = (true, "OK") ↔
        Reordered (.obj p) (.obj q)) := by
  intro h
  have hlong : ¬(Value.obj longPayload).printable = true := by
    rw [printable_obj]
    intro hall
    simpa [Value.printable, Int.natAbs_pow] using hall _ (.head _)
  have hplain : (Value.obj longPayload).Plain := by
    refine .obj (by decide) (by decide) fun m hm => ?_
    rw [List.mem_singleton.mp hm]
    exact .int _
  have hfree : HashesApart metricsCrypto (.obj longPayload) (.obj longPayload) := by
    intro bytes bytes' hbytes
    rw [normalizedBytes_eq_none hlong] at hbytes
    cases hbytes
  have hok := (h metricsCrypto _ _ digestSize_metricsCrypto (List.cons_ne_nil _ _)
    (List.cons_ne_nil _ _) hplain hplain hfree).mpr (.refl _)
  exact hlong ((computeEvidenceHash_ne_nil digestSize_metricsCrypto).mp
    (verifyEvidence_eq_ok_iff.mp hok).2.1)

end Commons
end SovereignSeed
