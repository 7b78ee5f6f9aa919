import SovereignSeed.Commons.Binding

/-!
# The cell executor

`sovereign_seed_commons/cells/cell_executor.py`: a manifest that the validator accepts
starts a task, and the task is given the time the manifest names.  The validator refuses
a timeout that is not positive or exceeds an hour.  A NaN is neither.

## Main definitions

* `executeCell` — the executor up to the wait for its task.
* `BoundedTimeout`, `CoveredTimeout` — a bounded wait, and a wait that has been signed.

## Main results

* `timeoutOutOfBounds_eq_false_iff` — **what the test of the timeout lets through.**
* `execution_timeout_iff` — **when the task is given a bounded time.**
-/

namespace SovereignSeed
namespace Commons

open Python Tollbridge

/-! ### The executor -/

/-- Where the executor has got to before it awaits anything. -/
inductive Launched
  /-- It has returned `(False, {}, reason)`. -/
  | rejected (reason : String)
  /-- It waits for the task payload, for `timeoutSec` at most. -/
  | started (timeoutSec : PyFloat)
  deriving DecidableEq

/-- `execute_cell` up to its `await`.  The timeout is converted once more, outside of any
handler.  The check of what the task returns is `verifyEvidence`. -/
def executeCell (C : Crypto) (manifest : Option Dict) : Except PyError Launched :=
  match validateManifest C manifest with
  | .error e => .error e
  | .ok (false, reason) => .ok (.rejected ("CELL_MANIFEST_REJECTED_" ++ reason))
  | .ok (true, _) =>
    (((manifest.getD []).get "execution_timeout_sec").toFloat).map Launched.started

/-! ### What the test of the timeout lets through -/

/-- A number above 0 and up to 3600. -/
def BoundedTimeout (x : PyFloat) : Prop :=
  x.isFinite = true ∧ 0 < x.toRat ∧ x.toRat ≤ 3600

/-- The bound in units. -/
theorem units_maxTimeoutSec : maxTimeoutSec.units = 3600 * 2 ^ unitExp := by
  have hunit : unitExp = 41 + 1033 := by decide +kernel
  have hmant : maxTimeoutSec.mant = 3600 * 2 ^ 41 := rfl
  have hexp : maxTimeoutSec.exp = 1033 := rfl
  rw [Magnitude.units, hmant, hexp, hunit, mul_assoc, ← pow_add]

/-- **What the test of the timeout lets through**: a bounded number, and NaN. -/
theorem timeoutOutOfBounds_eq_false_iff (x : PyFloat) :
    timeoutOutOfBounds x = false ↔ x = .nan ∨ BoundedTimeout x := by
  cases x with
  | nan => simp [timeoutOutOfBounds, PyFloat.le, PyFloat.gt]
  | inf neg =>
    cases neg <;> simp [timeoutOutOfBounds, BoundedTimeout, PyFloat.le, PyFloat.gt, PyFloat.isFinite]
  | finite neg a =>
    have hpos : (0 : ℚ) < 2 ^ unitExp := by positivity
    have hlow : 0 < (PyFloat.finite neg a).toRat ↔ 0 < (PyFloat.finite neg a).scaled := by
      rw [PyFloat.toRat, div_pos_iff_of_pos_right hpos, Int.cast_pos]
    have hhigh : (PyFloat.finite neg a).toRat ≤ 3600 ↔
        (PyFloat.finite neg a).scaled ≤ maxTimeoutSec.units := by
      rw [PyFloat.toRat, div_le_iff₀ hpos, units_maxTimeoutSec]
      push_cast
      exact_mod_cast Iff.rfl
    have hzero : (PyFloat.finite false .zero).scaled = 0 := rfl
    have hmax : (PyFloat.finite false maxTimeoutSec).scaled = maxTimeoutSec.units := rfl
    simp only [BoundedTimeout, hlow, hhigh, timeoutOutOfBounds, PyFloat.le, PyFloat.gt, hzero, hmax,
      PyFloat.isFinite, reduceCtorEq, false_or, true_and, Bool.or_eq_false_iff, Bool.not_eq_eq_eq_not,
      Bool.not_false, decide_eq_false_iff_not, decide_eq_true_eq, not_le]

/-! ### What the executor starts -/

/-- The signature is verified over bytes that have the text of the field behind its label,
and the field is the number `x`. -/
structure CoveredTimeout (C : Crypto) (m : Dict) (x : PyFloat) : Prop where
  value : (m.get "execution_timeout_sec").toFloat = .ok x
  signed : ∃ before after bytes fields,
    encode (before ++ text "|timeout:" ++ (m.get "execution_timeout_sec").toStr ++
      text "|evidence_hash:" ++ after) = some bytes ∧
    castManifest m = .ok fields ∧
    (verifyEd25519Envelope C fields.clientPubkey bytes fields.signatureHex).1 = true

/-- The timeout that is tested is what the field converts to. -/
theorem timeout_of_castManifest {m : Dict} {fields : ManifestFields}
    (h : castManifest m = .ok fields) :
    (m.get "execution_timeout_sec").toFloat = .ok fields.timeout := by
  simp only [castManifest, bind_eq_ok_iff] at h
  obtain ⟨_, -, _, -, _, -, _, -, _, -, timeout, htimeout, _, -, _, -, _, -, heq⟩ := h
  cases heq
  exact htimeout

/-- **What the executor starts**: a task whose manifest is valid, for the time that the
field converts to. -/
theorem executeCell_eq_started_iff {C : Crypto} {m : Dict} {x : PyFloat} :
    executeCell C (some m) = .ok (.started x) ↔
      validateManifest C (some m) = .ok (true, "OK") ∧
        (m.get "execution_timeout_sec").toFloat = .ok x := by
  unfold executeCell
  constructor
  · intro h
    split at h
    · cases h
    · cases h
    · next reason hvalid =>
      obtain rfl : reason = "OK" := by
        simp only [validateManifest] at hvalid
        split at hvalid
        · cases hvalid
        split at hvalid
        · cases hvalid
        split at hvalid
        · split at hvalid <;> cases hvalid
        split at hvalid
        · cases hvalid
        split at hvalid
        · cases hvalid
        split at hvalid <;> cases hvalid
        rfl
      refine ⟨hvalid, ?_⟩
      cases hx : (m.get "execution_timeout_sec").toFloat with
      | error e => rw [Option.getD_some, hx] at h; cases h
      | ok y => rw [Option.getD_some, hx] at h; cases h; rfl
  · rintro ⟨hvalid, hx⟩
    rw [hvalid]
    simp [hx, Except.map]

/-- **What is started is signed.** -/
theorem coveredTimeout_of_started {C : Crypto} {m : Dict} {x : PyFloat}
    (h : executeCell C (some m) = .ok (.started x)) : CoveredTimeout C m x := by
  obtain ⟨hvalid, hx⟩ := executeCell_eq_started_iff.mp h
  obtain ⟨-, fields, hcast, -, bytes, hbytes, hver⟩ := (validateManifest_eq_ok_iff C m).mp hvalid
  refine ⟨hx, ?_⟩
  have hencode : encode (canonicalStr m) = some bytes := by
    unfold buildCanonicalManifestBytes at hbytes
    split at hbytes
    · exact hbytes
    · cases hbytes
  -- the text between the labels is that of the field
  obtain ⟨before, after, hstr⟩ : ∃ before after, canonicalStr m =
      before ++ text "|timeout:" ++ (m.get "execution_timeout_sec").toStr ++
        text "|evidence_hash:" ++ after := by
    refine ⟨text "version:" ++ (m.get "manifest_version").toStr ++ text "|" ++
      (text "cell:" ++ (m.get "cell_id").toStr ++ text "|") ++
      (text "pubkey:" ++ (m.get "client_pubkey").toStr ++ text "|") ++
      (text "task:" ++ (m.get "task_type").toStr ++ text "|") ++
      (text "resource:" ++ (m.get "target_resource").toStr),
      (m.get "expected_evidence_hash").toStr ++ text "|" ++
        (text "timestamp:" ++ (m.get "timestamp_sec").toStr), ?_⟩
    have htimeout : text "|timeout:" = text "|" ++ text "timeout:" := by decide
    have hevidence : text "|evidence_hash:" = text "|" ++ text "evidence_hash:" := by decide
    rw [canonicalStr, htimeout, hevidence]
    simp only [List.append_assoc]
  rw [hstr] at hencode
  exact ⟨before, after, bytes, fields, hencode, hcast, hver⟩

/-- **When the task is given a bounded time**, which is then the time that was signed: when
the field is not converted to a NaN. -/
theorem execution_timeout_iff (C : Crypto) (m : Dict) (x : PyFloat)
    (h : executeCell C (some m) = .ok (.started x)) :
    (BoundedTimeout x ∧ CoveredTimeout C m x) ↔
      (m.get "execution_timeout_sec").toFloat ≠ .ok .nan := by
  obtain ⟨hvalid, hx⟩ := executeCell_eq_started_iff.mp h
  obtain ⟨-, fields, hcast, hbounds, -⟩ := (validateManifest_eq_ok_iff C m).mp hvalid
  have hsame : fields.timeout = x := by
    have htimeout := timeout_of_castManifest hcast
    rw [hx] at htimeout
    exact (Except.ok.inj htimeout).symm
  rw [hsame, timeoutOutOfBounds_eq_false_iff] at hbounds
  rw [hx]
  constructor
  · rintro ⟨hbounded, -⟩ hnan
    cases hnan
    cases hbounded.1
  · intro hne
    refine ⟨hbounds.resolve_left ?_, coveredTimeout_of_started h⟩
    rintro rfl
    exact hne rfl

/-! ### A task without a bound -/

/-- A manifest of the holder of `aliceKey` with the given timeout, and its signature. -/
def signedManifest (timeout : PyValue) (half half' : ℕ) : Dict :=
  manifestOf (text "v1.0") (text "cell_alpha_01") aliceAddress (text "state_resurrection")
    (text "git://commons") timeout (text "e3b0") (.int 1700000000) ++
      [(text "signature_hex", .str (hexOf (bytesOf 32 half ++ bytesOf 32 half')))]

/-- The timeout is the text `nan`. -/
def nanManifest : Dict :=
  signedManifest (.str (text "nan"))
    0xbca9a2b3f84ed8b7137d24a24c0dd9ae68edcadc695f213f281628c11de40848
    0x02a4602889c4b2807147436f331880a65c1dbf620335dedd5783b1609023ab0f

/-- The timeout is 30 seconds. -/
def halfMinuteManifest : Dict :=
  signedManifest (.int 30)
    0x13c595aad2b92c988afc8ff0007843884085ec524d28dbbd5b388a465bd9ba70
    0xc6eb8daa5a62c9e203a6f58d56a20ca97b7c49de0a607ceb902957a1d16acf0f

/-- The functions of other packages on the two manifests: their signatures verify. -/
def manifestCrypto : Crypto :=
  .ofTable [] [(aliceAddress, aliceKey)]
    ([nanManifest, halfMinuteManifest].map fun m =>
      (aliceKey, utf8 (canonicalStr m), (fromHex (m.get "signature_hex").toStr).getD []))

/-- **A timeout of NaN is handed to the wait.** -/
theorem nan_timeout_started :
    ¬ ∀ m x, executeCell manifestCrypto (some m) = .ok (.started x) →
      BoundedTimeout x ∧ CoveredTimeout manifestCrypto m x := by
  intro hbounded
  have hstarted : executeCell manifestCrypto (some nanManifest) = .ok (.started .nan) := by
    decide +kernel
  cases (hbounded nanManifest .nan hstarted).1.1

/-- A task that is given 30 seconds. -/
theorem half_minute_started : ∃ x,
    executeCell manifestCrypto (some halfMinuteManifest) = .ok (.started x) ∧ BoundedTimeout x ∧
      CoveredTimeout manifestCrypto halfMinuteManifest x := by
  have hvalid : validateManifest manifestCrypto (some halfMinuteManifest) = .ok (true, "OK") := by
    decide +kernel
  obtain ⟨x, hx⟩ : ∃ x, PyFloat.ofInt 30 = some x :=
    Option.isSome_iff_exists.mp (by decide +kernel)
  have hvalue : (halfMinuteManifest.get "execution_timeout_sec").toFloat = .ok x := by
    have hget : halfMinuteManifest.get "execution_timeout_sec" = .int 30 := by decide
    rw [hget, PyValue.toFloat, hx]
    rfl
  have hstarted := executeCell_eq_started_iff.mpr ⟨hvalid, hvalue⟩
  refine ⟨x, hstarted, (execution_timeout_iff manifestCrypto halfMinuteManifest x hstarted).mpr ?_⟩
  rw [hvalue]
  intro hnan
  cases hnan
  exact absurd hx (by decide +kernel)

end Commons
end SovereignSeed
