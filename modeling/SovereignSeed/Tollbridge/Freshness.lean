import SovereignSeed.Tollbridge.Validator
import SovereignSeed.Tollbridge.Vault

/-!
# The freshness window

An envelope is to be taken within 300 seconds of its timestamp.  The test is that
the distance does not exceed 300, in floats: a NaN does not exceed anything, and a
distance that exceeds 300 by half a unit in the last place is rounded to it.  The
second happens near the epoch only.  The engine stores the timestamp in a column
that takes no NaN; the remote handoff stores nothing.

## Main definitions

* `Within`, `RoundedOff` — within the window, and rounded into it.

## Main results

* `not_roundedOff` — no clock of today rounds a distance into the window.
* `taken_within_iff` — **when what is taken is within the window**, on both ways into
  the system; `nan_is_taken` is an envelope that is not.
-/

namespace SovereignSeed
namespace Tollbridge

open Python

variable {C : Crypto} {cfg : Config} {eid : ℕ} {s : Engine} {now : ClockReading} {ts : PyFloat}

/-- The timestamp is a number within 300 seconds of the clock. -/
def Within (now : ClockReading) (ts : PyFloat) : Prop :=
  ts.isFinite = true ∧ |now.val.toRat - ts.toRat| ≤ 300

/-- The timestamp is further away, by no more than what the difference of two
floats may be off. -/
def RoundedOff (now : ClockReading) (ts : PyFloat) : Prop :=
  ts.isFinite = true ∧ 300 < |now.val.toRat - ts.toRat| ∧
    |now.val.toRat - ts.toRat| ≤ 300 + 1 / 2 ^ 45

/-- What passes the test is within the window, is no number, or is rounded off. -/
theorem within_iff_of_fresh (h : verifyTimestampFreshness now ts = true) :
    Within now ts ↔ ¬(ts = .nan ∨ RoundedOff now ts) := by
  rcases (verifyTimestampFreshness_iff now ts).mp h with rfl | ⟨hfinite, hle⟩
  · refine iff_of_false ?_ (not_not_intro (.inl rfl))
    intro hwithin
    cases hwithin.1
  · have hne : ts ≠ .nan := by
      rintro rfl
      cases hfinite
    unfold Within RoundedOff
    simp only [hfinite, hne, hle, false_or, true_and, and_true, not_lt]

/-! ### Clocks of today -/

/-- A float that is not small is a number of 2⁻⁴³ths. -/
theorem exists_toRat_eq {x : PyFloat} (h : 512 ≤ |x.toRat|) : ∃ k : ℤ, x.toRat = k / 2 ^ 43 := by
  have hunit : unitExp = 43 + (unitExp - 43) := by decide +kernel
  generalize unitExp - 43 = m at hunit
  have hpos : (0 : ℚ) < 2 ^ m := by positivity
  cases x with
  | nan => exact ⟨0, by simp [PyFloat.toRat, PyFloat.scaled]⟩
  | inf neg => exact ⟨0, by simp [PyFloat.toRat, PyFloat.scaled]⟩
  | finite neg a =>
    have habs : |(PyFloat.finite neg a).toRat| = a.units / 2 ^ unitExp := by
      cases neg <;> simp [PyFloat.toRat, PyFloat.scaled, abs_div]
    have hunits : 2 ^ (9 + unitExp) ≤ a.units := by
      rw [habs, le_div_iff₀ (by positivity)] at h
      have hcast : ((2 ^ (9 + unitExp) : ℕ) : ℚ) ≤ (a.units : ℕ) := by
        push_cast
        rw [pow_add]
        linarith
      exact_mod_cast hcast
    -- the exponent is large, since the mantissa is not
    have hexp : m ≤ a.exp := by
      have hlt : 2 ^ (9 + unitExp) < 2 ^ (53 + a.exp) := by
        apply hunits.trans_lt
        rw [Nat.pow_add]
        exact Nat.mul_lt_mul_of_pos_right a.mant_lt (Nat.two_pow_pos _)
      have hlt' := (Nat.pow_lt_pow_iff_right (by decide : 1 < 2)).mp hlt
      omega
    obtain ⟨j, hj⟩ := Nat.exists_eq_add_of_le hexp
    have hratio : (a.units : ℚ) / 2 ^ unitExp = (a.mant * 2 ^ j : ℤ) / 2 ^ 43 := by
      rw [Magnitude.units, hj, hunit, pow_add, pow_add]
      push_cast
      field_simp
    cases neg with
    | false => exact ⟨a.mant * 2 ^ j, by simpa [PyFloat.toRat, PyFloat.scaled] using hratio⟩
    | true =>
      refine ⟨-(a.mant * 2 ^ j), ?_⟩
      rw [Int.cast_neg, neg_div, ← hratio]
      simp [PyFloat.toRat, PyFloat.scaled, neg_div]

/-- From 1024 seconds after the epoch on no distance is rounded into the window. -/
theorem not_roundedOff (h : 1024 ≤ now.val.toRat) : ¬RoundedOff now ts := by
  rintro ⟨-, hlt, hle⟩
  have hts : 512 ≤ |ts.toRat| := by
    have hsub := (abs_le.mp hle).2
    have hge : 512 ≤ ts.toRat := by
      norm_num at hsub
      linarith
    exact hge.trans (le_abs_self _)
  obtain ⟨k, hk⟩ := exists_toRat_eq (x := now.val) ((by linarith : (512 : ℚ) ≤ _).trans (le_abs_self _))
  obtain ⟨l, hl⟩ := exists_toRat_eq hts
  rw [hk, hl, ← sub_div, abs_div, abs_of_pos (by positivity : (0 : ℚ) < 2 ^ 43)] at hlt hle
  rw [lt_div_iff₀ (by positivity)] at hlt
  rw [div_le_iff₀ (by positivity)] at hle
  -- whole numbers of 2⁻⁴³ths are not that close
  have hlow : 300 * 2 ^ 43 < |k - l| := by exact_mod_cast hlt
  have hhigh : 4 * |k - l| ≤ 4 * (300 * 2 ^ 43) + 1 := by
    have hcast : (4 : ℚ) * |(k : ℚ) - l| ≤ 4 * (300 * 2 ^ 43) + 1 := by
      norm_num at hle ⊢
      linarith
    exact_mod_cast hcast
  omega

/-! ### What is taken -/

/-- The header holds what `float` makes of the timestamp. -/
theorem Parsed.timestamp {d : Dict} {rawPayload : Bytes} {h : Header}
    (hp : Parsed C d rawPayload h) : (d.get "timestamp_sec").toFloat = .ok h.timestampSec :=
  (Header.ofDict_eq_ok_iff.mp hp.header).2.2.2.1

/-- **When what is taken is within the window.**  The remote handoff: unless an
envelope that is otherwise in order has a NaN for its timestamp, or one that is
rounded off.  The engine: unless the timestamp is rounded off. -/
theorem taken_within_iff (C : Crypto) :
    (∀ now d rawPayload,
      (validateRemoteEnvelope C now (some d) rawPayload = .ok (true, "OK") →
          ∃ ts, (d.get "timestamp_sec").toFloat = .ok ts ∧ Within now ts) ↔
        ¬∃ h, Parsed C d rawPayload h ∧
          (h.timestampSec = .nan ∨ RoundedOff now h.timestampSec)) ∧
      ∀ cfg eid s, (engineMachine C cfg eid).Reachable s → ∀ i call, s.calls i = some call →
        call.pc = .returned .accepted →
        (Within call.submittedAt call.request.timestampSec ↔
          ¬RoundedOff call.submittedAt call.request.timestampSec) := by
  constructor
  · intro now d rawPayload
    rw [validateRemoteEnvelope_eq_ok_iff]
    constructor
    · rintro htaken ⟨h, hparsed, hbad⟩
      have hfresh : verifyTimestampFreshness now h.timestampSec = true := by
        rw [verifyTimestampFreshness_iff]
        exact hbad.imp id fun hoff => ⟨hoff.1, hoff.2.2⟩
      obtain ⟨ts, hts, hwithin⟩ := htaken ⟨h, hparsed, hfresh⟩
      rw [hparsed.timestamp] at hts
      cases hts
      exact (within_iff_of_fresh hfresh).mp hwithin hbad
    · rintro hgood ⟨h, hparsed, hfresh⟩
      refine ⟨h.timestampSec, hparsed.timestamp, (within_iff_of_fresh hfresh).mpr ?_⟩
      intro hbad
      exact hgood ⟨h, hparsed, hbad⟩
  · intro cfg eid s hs i call hcall hpc
    have hinv : AdmitInv C eid s := by
      refine hs.invariant ?_ fun u a v hu hst => hu.step (moves_of_step hst)
      rintro u ⟨file, -, rfl⟩
      exact .of_fresh
    have hfresh : verifyTimestampFreshness call.submittedAt call.request.timestampSec = true := by
      have hvalid := hinv.admitted hcall (by rw [hpc]; rfl)
      unfold validateSubmission at hvalid
      split at hvalid
      · cases hvalid
      · next hfresh => simpa using hfresh
    have hne : call.request.timestampSec ≠ .nan := (hinv.stored hcall (by rw [hpc]; rfl)).2
    rw [within_iff_of_fresh hfresh, or_iff_right hne]

/-! ### An envelope without a time -/

/-- A header of the holder of `aliceKey` that is signed with a NaN for its time. -/
def nanHeader : Header :=
  { aliceFirst.toHeader with
    timestampSec := .nan
    signatureHex := hexOf
      (bytesOf 32 0x920ae6b0b223dc9775bda435024609bdfe645a1c8b4b314bdb2fdb1a090c114d ++
        bytesOf 32 0x25f7209591964cf6babdf5799c4aeedc706c556f20732257da3ff2bb80bea909) }

/-- The envelope that has it, with the text `nan`. -/
def nanEnvelope : Dict :=
  [(text "protocol_version", .str nanHeader.protocolVersion),
   (text "client_pubkey", .str nanHeader.clientPubkey),
   (text "nonce", .str nanHeader.nonce),
   (text "timestamp_sec", .str (text "nan")),
   (text "asset_type", .str nanHeader.assetType),
   (text "subscription_topic", .str nanHeader.subscriptionTopic),
   (text "content_type", .str nanHeader.contentType),
   (text "signature_hex", .str nanHeader.signatureHex)]

/-- The functions of other packages on it. -/
def nanCrypto : Crypto :=
  .ofTable [(emptyObject, emptyObjectDigest)] [(aliceAddress, aliceKey)]
    [(aliceKey, buildCanonicalEnvelopeBytes (nanHeader.envelope (hexOf emptyObjectDigest)),
      (fromHex nanHeader.signatureHex).getD [])]

/-- **An envelope with a NaN for its timestamp is taken.** -/
theorem nan_is_taken :
    ¬∀ now d rawPayload, validateRemoteEnvelope nanCrypto now (some d) rawPayload = .ok (true, "OK") →
      ∃ ts, (d.get "timestamp_sec").toFloat = .ok ts ∧ Within now ts := by
  intro htaken
  have hok : validateRemoteEnvelope nanCrypto clock (some nanEnvelope) emptyObject =
      .ok (true, "OK") := by decide +kernel
  have hnan : (nanEnvelope.get "timestamp_sec").toFloat = .ok .nan := by decide
  obtain ⟨ts, hts, hwithin⟩ := htaken clock nanEnvelope emptyObject hok
  rw [hnan] at hts
  cases hts
  cases hwithin.1

/-- A request made now is taken, and within the window. -/
theorem taken_within_now : ∃ s, (engineMachine clientCrypto ⟨10, 10⟩ 0).Reachable s ∧
    s.calls 0 = some ⟨aliceFirst, clock, .returned .accepted⟩ ∧
    Within clock aliceFirst.timestampSec := by
  have hexec : ((engineMachine clientCrypto ⟨10, 10⟩ 0).exec (fun _ _ => true) (.fresh ⟨[], []⟩)
      ([.start, .writerStart] ++ submission 0 aliceFirst)).map (fun s => s.calls 0) =
      some (some ⟨aliceFirst, clock, .returned .accepted⟩) := by decide +kernel
  obtain ⟨s, hpath, hcall⟩ := Machine.exists_path_of_exec hexec
  have hs : (engineMachine clientCrypto ⟨10, 10⟩ 0).Reachable s :=
    hpath.reachable (.init ⟨_, Tables.initial_nil, rfl⟩)
  refine ⟨s, hs, hcall, ((taken_within_iff clientCrypto).2 ⟨10, 10⟩ 0 s hs 0 _ hcall rfl).mpr ?_⟩
  rintro ⟨-, hlt, -⟩
  have hzero : clock.val.toRat - aliceFirst.timestampSec.toRat = 0 := sub_self _
  change 300 < |clock.val.toRat - aliceFirst.timestampSec.toRat| at hlt
  rw [hzero, abs_zero] at hlt
  exact absurd hlt (by norm_num)

end Tollbridge
end SovereignSeed
