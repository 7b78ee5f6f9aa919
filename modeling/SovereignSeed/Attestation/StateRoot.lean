import SovereignSeed.Runner.Mutation

/-!
# The state root of the ledger

`tools/attestation/hasher.py` writes the SHA-256 of the ledger into a manifest, and
`tools/attestation/verify_proof.py` compares it with that of the ledger it finds.  A
ledger is no file, or a file with some bytes.

The hasher reads the ledger in chunks, if there is a file, and so gives for a ledger that
is missing what it gives for an empty one.  Without a collision of SHA-256 these two are
all that the comparison confuses: a manifest that is missing fails the verification, a
ledger that is missing does not.

## Main definitions

* `updateAll`, `generateStateRoot` — the state root, read chunk by chunk.
* `attest`, `verify` — the two programs.
* `Blank` — one ledger is missing, and the other is empty.

## Main results

* `generateStateRoot_eq` — **the chunks give the digest of the whole.**
* `verify_attest_eq` — the verification compares two digests, whatever else is written.
* `verify_attest_iff` — **it tells two ledgers apart, unless they are blank.**
-/

namespace SovereignSeed
namespace Attestation

open Python Json Tollbridge

/-- The ledger `revenue_vault.db`: no file, or a file with these bytes. -/
abbrev Ledger := Option Bytes

/-- The bytes of a ledger. -/
def contents (ledger : Ledger) : Bytes := ledger.getD []

/-! ### `hasher.py` -/

/-- `while chunk := f.read(8192): hasher.update(chunk)`, from a hasher that has seen some
bytes and a file with some bytes left. -/
def updateAll (seen left : Bytes) : Bytes :=
  if left.take 8192 = [] then seen
  else updateAll (seen ++ left.take 8192) (left.drop 8192)
termination_by left.length
decreasing_by
  rename_i hend
  have hpos : 0 < left.length :=
    List.length_pos_iff.mpr fun hnil => hend (by rw [hnil, List.take_nil])
  rw [List.length_drop]
  omega

/-- `generate_state_root`. -/
def generateStateRoot (C : Crypto) (ledger : Ledger) : PyStr :=
  match ledger with
  | none => C.hexdigest []
  | some data => C.hexdigest (updateAll [] data)

/-- The manifest of the main program. -/
def manifest (now : Int64) (rootHash : PyStr) : Members :=
  [(text "timestamp_utc", .int now.toInt), (text "state_root", .str rootHash),
    (text "protocol", .str (text "Sovereign Intelligence Protocol")),
    (text "status", .str (text "VERIFIED"))]

/-- The main program of `hasher.py`: the bytes of `latest_attestation.json`. -/
def attest (C : Crypto) (now : Int64) (ledger : Ledger) : Bytes :=
  utf8 ((Value.obj (manifest now (generateStateRoot C ledger))).render .indented 0)

/-! ### `verify_proof.py` -/

/-- `verify`, or `none` where it raises: the manifest is no text, no JSON or no `dict`. -/
def verify (C : Crypto) (file : Option Bytes) (ledger : Ledger) : Option Bool :=
  match file with
  | none => some false
  | some data =>
    match (readText false data).bind load with
    | some (.obj d) => some (isStr (field d "state_root") (generateStateRoot C ledger))
    | _ => none

/-- One of the ledgers is no file, the other a file of no bytes. -/
def Blank (attested current : Ledger) : Prop :=
  (attested = none ∧ current = some []) ∨ (attested = some [] ∧ current = none)

/-! ### The state root -/

/-- **The chunks give the whole.** -/
theorem updateAll_eq (seen left : Bytes) : updateAll seen left = seen ++ left := by
  induction seen, left using updateAll.induct with
  | case1 seen left hend =>
    have hnil : left = [] := by
      rcases List.take_eq_nil_iff.mp hend with hzero | hnil
      · cases hzero
      · exact hnil
    rw [updateAll, if_pos hend, hnil, List.append_nil]
  | case2 seen left hmore ih =>
    rw [updateAll, if_neg hmore, ih, List.append_assoc, List.take_append_drop]

/-- **The state root is the digest of the bytes of the ledger.** -/
theorem generateStateRoot_eq (C : Crypto) (ledger : Ledger) :
    generateStateRoot C ledger = C.hexdigest (contents ledger) := by
  cases ledger with
  | none => rfl
  | some data =>
    rw [generateStateRoot, updateAll_eq, List.nil_append]
    rfl

/-- Two ledgers have the same bytes if they are the same or blank. -/
theorem contents_eq_iff {p q : Ledger} : contents p = contents q ↔ p = q ∨ Blank p q := by
  cases p <;> cases q <;> simp [contents, Blank, eq_comm]

theorem not_blank_self (p : Ledger) : ¬Blank p p := by
  rintro (⟨rfl, hempty⟩ | ⟨rfl, hmissing⟩)
  · cases hempty
  · cases hmissing

/-! ### The manifest -/

section Manifest

variable {C : Crypto}

/-- The manifest has different keys. -/
theorem nodup_manifest (now : Int64) (rootHash : PyStr) :
    ((manifest now rootHash).map Prod.fst).Nodup := by
  have hkeys : [text "timestamp_utc", text "state_root", text "protocol", text "status"].Nodup := by
    decide
  exact hkeys

/-- A manifest with the hexadecimal digits of a digest comes back as it was. -/
theorem loaded_manifest (now : Int64) (digest : Bytes) :
    (Value.obj (manifest now (hexOf digest))).Loaded := by
  have hkeys : [text "timestamp_utc", text "state_root", text "protocol", text "status"].all
      (fun k => !hasPair k) = true ∧ hasPair (text "Sovereign Intelligence Protocol") = false ∧
        hasPair (text "VERIFIED") = false := by
    decide
  obtain ⟨hpairs, hprotocol, hstatus⟩ := hkeys
  refine .obj (nodup_manifest now _) (fun m hm => ?_) (fun m hm => ?_)
  · have hmem : m.1 ∈ [text "timestamp_utc", text "state_root", text "protocol", text "status"] :=
      List.mem_map_of_mem (f := Prod.fst) hm
    simpa using List.all_eq_true.mp hpairs _ hmem
  · simp only [manifest, List.mem_cons, List.not_mem_nil, or_false] at hm
    rcases hm with rfl | rfl | rfl | rfl
    · exact .int (natAbs_toInt_lt now)
    · exact .str (hasPair_of_isScalar (Runner.isAscii_hexOf digest).isScalar)
    · exact .str hprotocol
    · exact .str hstatus

/-- **The verification compares two digests**, whatever else is in the manifest. -/
theorem verify_attest_eq (C : Crypto) (now : Int64) (attested current : Ledger) :
    verify C (some (attest C now attested)) current =
      some (decide (C.sha256 (contents attested) = C.sha256 (contents current))) := by
  have hload := Runner.load_file (loaded_manifest now (C.sha256 (contents attested)))
  rw [Option.bind_some] at hload
  have hfield : field (manifest now (hexOf (C.sha256 (contents attested)))) "state_root" =
      .str (hexOf (C.sha256 (contents attested))) :=
    field_of_mem (nodup_manifest now _) (.tail _ (.head _))
  simp only [verify, attest, generateStateRoot_eq, Crypto.hexdigest, hload, hfield, isStr,
    hexOf_injective.eq_iff]

end Manifest

/-! ### Two ledgers -/

/-- **The verification succeeds exactly for the ledger that was attested, exactly if the two
are not blank**: with no collision of SHA-256 on their bytes, a missing ledger and an empty
one are all that is confused.  The state root is the digest of the whole file. -/
theorem verify_attest_iff (C : Crypto) (now : Int64) {attested current : Ledger}
    (hfree : C.sha256 (contents attested) = C.sha256 (contents current) →
      contents attested = contents current) :
    (∀ data, generateStateRoot C (some data) = C.hexdigest data) ∧
      ((verify C (some (attest C now attested)) current = some true ↔ attested = current) ↔
        ¬Blank attested current) := by
  refine ⟨fun data => generateStateRoot_eq C (some data), ?_⟩
  have hsame : verify C (some (attest C now attested)) current = some true ↔
      attested = current ∨ Blank attested current := by
    rw [verify_attest_eq, Option.some_inj, decide_eq_true_iff, ← contents_eq_iff]
    exact ⟨hfree, fun heq => congrArg C.sha256 heq⟩
  rw [hsame]
  constructor
  · intro heq hblank
    obtain rfl := heq.mp (.inr hblank)
    exact not_blank_self _ hblank
  · intro hnot
    exact ⟨fun h => h.resolve_right hnot, .inl⟩

/-- SHA-256 on no bytes, and on those of `abc`. -/
def ledgerCrypto : Crypto :=
  .ofTable
    [([], bytesOf 32 0xe3b0c44298fc1c149afbf4c8996fb92427ae41e4649b934ca495991b7852b855),
      (utf8 (text "abc"),
        bytesOf 32 0xba7816bf8f01cfea414140de5dae2223b00361a396177a9cb410ff61f20015ad)] [] []

/-- A ledger that is deleted after it was attested is missed. -/
theorem verify_attest_abc :
    ∃ now attested current, attested = some (utf8 (text "abc")) ∧ current = none ∧
      ((∀ data, generateStateRoot ledgerCrypto (some data) = ledgerCrypto.hexdigest data) ∧
        ((verify ledgerCrypto (some (attest ledgerCrypto now attested)) current = some true ↔
          attested = current) ↔ ¬Blank attested current)) := by
  refine ⟨1791863763, _, _, rfl, rfl, verify_attest_iff ledgerCrypto _ ?_⟩
  decide

/-- **An empty ledger that is deleted is not missed**: the manifest with the root
`e3b0c442…` is verified against no file. -/
theorem deleted_ledger_verified :
    ¬∀ (C : Crypto) (now : Int64) (attested current : Ledger),
      (C.sha256 (contents attested) = C.sha256 (contents current) →
        contents attested = contents current) →
      (verify C (some (attest C now attested)) current = some true ↔ attested = current) := by
  intro h
  have hverified : verify ledgerCrypto (some (attest ledgerCrypto 1791863763 (some []))) none =
      some true := by
    rw [verify_attest_eq]
    rfl
  cases (h ledgerCrypto 1791863763 (some []) none fun _ => rfl).mp hverified

end Attestation
end SovereignSeed
