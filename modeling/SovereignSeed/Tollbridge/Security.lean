import SovereignSeed.Python.JsonBytes
import Mathlib.Tactic.FieldSimp
import Mathlib.Tactic.Positivity

/-!
# Envelope security

`tollbridge/security.py`: the canonical bytes a client signs, the freshness
window, and the verification of a signature.  What comes from other packages —
SHA-256, the decoding of a Solana key, Ed25519 verification — is a parameter.

## Main definitions

* `Crypto` — the functions of other packages.
* `Envelope`, `buildCanonicalEnvelopeBytes` — the signed fields and their bytes.
* `Header` — what the callers of the checks hold.
* `verifyTimestampFreshness`, `verifyEd25519Envelope` — the two checks.
* `signedStrings` — the strings a reader of the bytes finds in them.

## Main results

* `fromHex_hexOf` — bytes are decoded to what was encoded.
* `signedStrings_canonical` — **the bytes hold the stripped fields.**
* `verifyTimestampFreshness_iff` — **what the freshness test lets through.**
-/

namespace SovereignSeed
namespace Tollbridge

open Python

/-! ### Other packages -/

/-- How `VerifyKey(key).verify(message, signature)` ends. -/
inductive VerifyOutcome
  | ok
  | badSignature
  | valueError
  | otherError
  deriving DecidableEq

/-- The functions of `hashlib`, `solders` and `nacl` that the code calls. -/
structure Crypto where
  /-- `hashlib.sha256(data).digest()`. -/
  sha256 : Bytes → Bytes
  /-- `bytes(Pubkey.from_string(s))`, or `none` where it raises. -/
  pubkeyFromString : PyStr → Option Bytes
  /-- `VerifyKey(key).verify(message, signature)`. -/
  verify : Bytes → Bytes → Bytes → VerifyOutcome

/-- `digest.hex()`. -/
def hexOf (digest : Bytes) : PyStr :=
  digest.flatMap fun b => [Json.hexDigit (b.toNat / 16), Json.hexDigit (b.toNat % 16)]

/-- `hashlib.sha256(data).hexdigest()`. -/
def Crypto.hexdigest (C : Crypto) (data : Bytes) : PyStr := hexOf (C.sha256 data)

/-- White space as `bytes.fromhex` skips it. -/
def isAsciiSpace (c : CodePoint) : Bool := (0x09 ≤ c.val && c.val ≤ 0x0d) || c.val == 0x20

/-- `bytes.fromhex(s)`, or `none` where it raises `ValueError`. -/
def fromHex : PyStr → Option Bytes
  | [] => some []
  | [c] => if isAsciiSpace c then some [] else none
  | c :: d :: s =>
    if isAsciiSpace c then fromHex (d :: s)
    else
      match Json.hexVal c, Json.hexVal d with
      | some i, some j => (fromHex s).map (UInt8.ofNat (16 * i + j) :: ·)
      | _, _ => none

/-- The functions that know the results of a few calls, each a row of a table. -/
def Crypto.ofTable (digests : List (Bytes × Bytes)) (keys : List (PyStr × Bytes))
    (signatures : List (Bytes × Bytes × Bytes)) : Crypto where
  sha256 := fun data => (digests.lookup data).getD []
  pubkeyFromString := fun s => keys.lookup s
  verify := fun key message signature =>
    if (key, message, signature) ∈ signatures then .ok else .badSignature

/-- A number as `length` bytes, the greatest first. -/
def bytesOf (length value : ℕ) : Bytes :=
  (List.range length).map fun i => UInt8.ofNat (value / 256 ^ (length - 1 - i))

/-- An Ed25519 public key, and its Solana address. -/
def aliceKey : Bytes :=
  bytesOf 32 0xd75a980182b10ab7d54bfed3c964073a0ee172f3daa62325af021a68f707511a

@[inherit_doc aliceKey]
def aliceAddress : PyStr := text "FVen3X669xLzsi6N2V91DoiyzHzg1uAgqiT8jZ9nS96Z"

/-! ### Constants -/

/-- `MAX_TIMESTAMP_DRIFT_SEC`: 300 seconds. -/
def maxTimestampDriftSec : Magnitude :=
  ⟨300 * 2 ^ 44, 1030, by decide, Or.inl (by decide), by decide +kernel⟩

/-- `EXPECTED_SIGNATURE_LENGTH`. -/
def expectedSignatureLength : ℕ := 64

/-! ### The canonical bytes -/

/-- The arguments of `build_canonical_envelope_bytes`. -/
structure Envelope where
  protocolVersion : PyStr
  clientPubkey : PyStr
  nonce : PyStr
  timestamp : PyFloat
  assetType : PyStr
  payloadHash : PyStr
  contentType : PyStr
  subscriptionTopic : PyStr

/-- `canonical_dict`, in the order of its sorted keys. -/
def canonicalDict (e : Envelope) : List (PyStr × Json.Scalar) :=
  [(text "asset_type", .str (strip e.assetType)),
   (text "client_pubkey", .str (strip e.clientPubkey)),
   (text "content_type", .str (strip e.contentType)),
   (text "nonce", .str (strip e.nonce)),
   (text "payload_hash", .str (strip e.payloadHash)),
   (text "protocol_version", .str (strip e.protocolVersion)),
   (text "subscription_topic", .str (strip e.subscriptionTopic)),
   (text "timestamp", .num (jsonFloat e.timestamp))]

/-- `build_canonical_envelope_bytes`. -/
def buildCanonicalEnvelopeBytes (e : Envelope) : Bytes := utf8 (Json.dumps (canonicalDict e))

/-- The header of an envelope, as both ways into the system hold it. -/
structure Header where
  protocolVersion : PyStr
  clientPubkey : PyStr
  nonce : PyStr
  timestampSec : PyFloat
  assetType : PyStr
  subscriptionTopic : PyStr
  contentType : PyStr
  signatureHex : PyStr
  deriving DecidableEq

/-- The signed fields of a header and the hash of its payload. -/
def Header.envelope (h : Header) (payloadHash : PyStr) : Envelope where
  protocolVersion := h.protocolVersion
  clientPubkey := h.clientPubkey
  nonce := h.nonce
  timestamp := h.timestampSec
  assetType := h.assetType
  payloadHash := payloadHash
  contentType := h.contentType
  subscriptionTopic := h.subscriptionTopic

/-- The bytes both ways into the system verify the signature over. -/
def Header.canonicalBytes (C : Crypto) (h : Header) (rawPayload : Bytes) : Bytes :=
  buildCanonicalEnvelopeBytes (h.envelope (C.hexdigest rawPayload))

/-! ### The checks -/

/-- A reading of the clock: `time.time()` is a finite number. -/
abbrev ClockReading := { x : PyFloat // x.isFinite = true }

/-- `verify_timestamp_freshness`, at the clock reading `now`. -/
def verifyTimestampFreshness (now : ClockReading) (timestampSec : PyFloat) : Bool :=
  let diff := (now.val.sub timestampSec).abs
  if diff.gt (.finite false maxTimestampDriftSec) then false else true

/-- `validate_solana_pubkey`. -/
def validateSolanaPubkey (C : Crypto) (pubkeyStr : PyStr) : Bool :=
  if pubkeyStr = [] then false
  else
    let cleaned := strip pubkeyStr
    if cleaned.length < 32 ∨ 44 < cleaned.length then false
    else (C.pubkeyFromString cleaned).isSome

/-- `verify_ed25519_envelope`: a verdict and its reason code. -/
def verifyEd25519Envelope (C : Crypto) (clientPubkey : PyStr) (canonicalBytes : Bytes)
    (signatureHex : PyStr) : Bool × String :=
  if validateSolanaPubkey C clientPubkey = false then (false, "INVALID_SOLANA_PUBKEY")
  else if signatureHex = [] then (false, "MISSING_OR_INVALID_SIGNATURE_TYPE")
  else
    let cleaned := strip signatureHex
    if cleaned.length % 2 ≠ 0 then (false, "MALFORMED_HEX_SIGNATURE_ODD_LENGTH")
    else
      match fromHex cleaned with
      | none => (false, "INVALID_HEX_ENCODING")
      | some sig =>
        if sig.length ≠ expectedSignatureLength then (false, "INVALID_SIGNATURE_LENGTH_EXPECTED_64")
        else
          match C.pubkeyFromString (strip clientPubkey) with
          | none => (false, "INVALID_HEX_ENCODING")
          | some key =>
            match C.verify key canonicalBytes sig with
            | .ok => (true, "OK")
            | .valueError => (false, "INVALID_HEX_ENCODING")
            | .badSignature => (false, "CRYPTOGRAPHIC_SIGNATURE_MISMATCH")
            | .otherError => (false, "INTERNAL_VERIFICATION_FAULT")

/-! ### Hexadecimal digits -/

theorem hexOf_cons (b : UInt8) (p : Bytes) :
    hexOf (b :: p) =
      Json.hexDigit (b.toNat / 16) :: Json.hexDigit (b.toNat % 16) :: hexOf p := rfl

/-- A digit is no white space. -/
theorem hexDigit_not_space : ∀ d, d < 16 →
    isAsciiSpace (Json.hexDigit d) = false ∧ isSpace (Json.hexDigit d) = false := by
  decide

/-- **Bytes are decoded to what was encoded.** -/
theorem fromHex_hexOf (p : Bytes) : fromHex (hexOf p) = some p := by
  induction p with
  | nil => rfl
  | cons b p ih =>
    have hb := b.toNat_lt
    have hhi : b.toNat / 16 < 16 := by omega
    have hlo : b.toNat % 16 < 16 := by omega
    have hval : 16 * (b.toNat / 16) + b.toNat % 16 = b.toNat := by omega
    rw [hexOf_cons, fromHex, (hexDigit_not_space _ hhi).1, Json.hexVal_hexDigit _ hhi,
      Json.hexVal_hexDigit _ hlo, ih]
    simp [hval]

/-- The digits determine the bytes. -/
theorem hexOf_injective : Function.Injective hexOf := fun p q h => by
  have hp := fromHex_hexOf p
  rw [h, fromHex_hexOf] at hp
  exact (Option.some.inj hp).symm

theorem length_hexOf (p : Bytes) : (hexOf p).length = 2 * p.length := by
  induction p with
  | nil => rfl
  | cons b p ih =>
    rw [hexOf_cons, List.length_cons, List.length_cons, List.length_cons, ih]
    omega

theorem isSpace_of_mem_hexOf {p : Bytes} {c : CodePoint} (h : c ∈ hexOf p) : isSpace c = false := by
  obtain ⟨b, -, hc⟩ := List.mem_flatMap.mp h
  have hb := b.toNat_lt
  simp only [List.mem_cons, List.not_mem_nil, or_false] at hc
  rcases hc with rfl | rfl
  · exact (hexDigit_not_space _ (by omega)).2
  · exact (hexDigit_not_space _ (by omega)).2

/-- There is nothing to strip around digits. -/
theorem strip_hexOf (p : Bytes) : strip (hexOf p) = hexOf p := by
  have hno : ∀ c ∈ hexOf p, ¬isSpace c = true := fun c hc => by simp [isSpace_of_mem_hexOf hc]
  rw [strip, List.dropWhile_eq_self_iff.mpr fun hlen => hno _ (List.getElem_mem hlen),
    List.rdropWhile_eq_self_iff.mpr fun hne => hno _ (List.getLast_mem hne)]

/-! ### The strings in the bytes -/

/-- The strings a JSON reader finds in the canonical bytes, by their keys. -/
def signedStrings (canonicalBytes : Bytes) : Option (List (PyStr × Json.Scalar)) :=
  Json.loads (canonicalBytes.map fun b => Fin.ofNat 0x110000 b.toNat)

/-- The members of the canonical bytes as a reader finds them. -/
def signedMembers (e : Envelope) : List (PyStr × Json.Scalar) :=
  (canonicalDict e).map fun m => (m.1, m.2.joined)

theorem jsonFloat_isToken (x : PyFloat) : ∀ c ∈ jsonFloat x, Json.isToken c = true := by
  have hrepr : ∀ y : PyFloat, ∀ c ∈ y.repr, Json.isToken c = true := by
    have hall : floatChars.all Json.isToken = true := by decide
    exact fun y c hc => List.all_eq_true.mp hall c (mem_floatChars_of_mem_repr c hc)
  cases x with
  | nan =>
    have hall : (jsonFloat .nan).all Json.isToken = true := by decide
    exact List.all_eq_true.mp hall
  | inf neg =>
    have hall : ∀ neg, (jsonFloat (.inf neg)).all Json.isToken = true := by decide
    exact List.all_eq_true.mp (hall neg)
  | finite neg a => exact hrepr (.finite neg a)

/-- **The canonical bytes hold the stripped fields**, with adjacent halves of a
surrogate pair joined. -/
theorem signedStrings_canonical (e : Envelope) :
    signedStrings (buildCanonicalEnvelopeBytes e) = some (signedMembers e) := by
  have hkeys : ∀ m ∈ canonicalDict e, Json.joinPairs m.1 = m.1 := by
    have hall : ∀ k ∈ (canonicalDict e).map Prod.fst, Json.hasPair k = false := by
      simp only [canonicalDict, List.map_cons, List.map_nil]
      decide
    exact fun m hm => (Json.joinPairs_eq_self_iff _).mpr (hall _ (List.mem_map_of_mem hm))
  have hwf : ∀ m ∈ canonicalDict e, m.2.wellFormed := by
    simp only [canonicalDict, List.mem_cons, List.not_mem_nil, or_false]
    rintro m (rfl | rfl | rfl | rfl | rfl | rfl | rfl | rfl)
    iterate 7 exact trivial
    exact jsonFloat_isToken e.timestamp
  have hascii : ∀ d ∈ Json.dumps (canonicalDict e), d.val < 0x80 := by
    apply Json.dumps_ascii
    intro m hm t ht
    simp only [canonicalDict, List.mem_cons, List.not_mem_nil, or_false] at hm
    rcases hm with rfl | rfl | rfl | rfl | rfl | rfl | rfl | rfl
    iterate 7 cases ht
    cases ht
    exact Json.jsonFloat_ascii e.timestamp
  rw [signedStrings, buildCanonicalEnvelopeBytes, map_utf8_of_ascii hascii,
    Json.loads_dumps (by simp [canonicalDict]) hwf, signedMembers]
  exact congrArg some (List.map_congr_left fun m hm => by rw [hkeys m hm])

/-! ### What the freshness test lets through -/

/-- A distance in units is a distance of rationals. -/
theorem toRat_sub (x y : PyFloat) :
    x.toRat - y.toRat = ((x.scaled - y.scaled : ℤ) : ℚ) / 2 ^ unitExp := by
  rw [PyFloat.toRat, PyFloat.toRat, Int.cast_sub, sub_div]

theorem abs_toRat_sub_le_iff (x y : PyFloat) {k : ℕ} {b : Magnitude} (hmant : b.mant = k * 2 ^ 44)
    (hexp : unitExp = 44 + b.exp) :
    |x.toRat - y.toRat| ≤ k + 1 / 2 ^ 45 ↔
      2 * (x.scaled - y.scaled).natAbs ≤ 2 * b.units + 2 ^ b.exp := by
  have hpos : (0 : ℚ) < 2 ^ (44 + b.exp) := by positivity
  rw [toRat_sub, hexp, abs_div, abs_of_pos hpos, div_le_iff₀ hpos, ← Int.cast_abs,
    Int.abs_eq_natAbs, pow_add, Magnitude.units, hmant]
  generalize (x.scaled - y.scaled).natAbs = d
  generalize b.exp = n
  have hcast : 2 * d ≤ 2 * (k * 2 ^ 44 * 2 ^ n) + 2 ^ n ↔
      (2 * d : ℚ) ≤ 2 * (k * 2 ^ 44 * 2 ^ n) + 2 ^ n := by exact_mod_cast Iff.rfl
  rw [hcast, Int.cast_natCast]
  constructor <;> intro h <;> linarith

/-- **What the freshness test lets through**: NaN, and the finite timestamps
within 300 seconds of the clock and half a unit in the last place of 300. -/
theorem verifyTimestampFreshness_iff (now : ClockReading) (ts : PyFloat) :
    verifyTimestampFreshness now ts = true ↔
      ts = .nan ∨ ts.isFinite = true ∧ |now.val.toRat - ts.toRat| ≤ 300 + 1 / 2 ^ 45 := by
  obtain ⟨now, hnow⟩ := now
  cases now with
  | nan => cases hnow
  | inf neg => cases hnow
  | finite s a =>
    cases ts with
    | nan => simp [verifyTimestampFreshness, PyFloat.sub, PyFloat.abs, PyFloat.gt]
    | inf t =>
      simp [verifyTimestampFreshness, PyFloat.sub, PyFloat.abs, PyFloat.gt, PyFloat.le,
        PyFloat.isFinite]
    | finite t c =>
      have hgt := abs_sub_gt_iff (s := s) (t := t) (a := a) (c := c) (b := maxTimestampDriftSec)
        (by decide) (by decide)
      have hle := abs_toRat_sub_le_iff (.finite s a) (.finite t c) (k := 300)
        (b := maxTimestampDriftSec) rfl (by decide +kernel)
      simp only [verifyTimestampFreshness, PyFloat.isFinite, reduceCtorEq, false_or, true_and]
      rw [Nat.cast_ofNat] at hle
      rw [hle, ← Nat.not_lt]
      split
      · next h => simp only [Bool.false_eq_true, false_iff, not_not]; exact hgt.mp h
      · next h => simp only [true_iff]; exact fun hlt => h (hgt.mpr hlt)

end Tollbridge
end SovereignSeed
