import SovereignSeed.Foundation.HashChain
import SovereignSeed.Python.JsonLoaded
import SovereignSeed.Tollbridge.Security

/-!
# The lineage verifier

`tools/verify_lineage.py`: a file holds an array of entries, each with the hash of
the entry before it and a hash of its own, which is that of its JSON text without
the hash.  Two files the verifier accepts, with one hash at their ends, hold the
same entries.

## Main definitions

* `canonicalBytes` — the bytes an entry's hash is taken over.
* `verifyEntries`, `verifyLineage` — the verifier.
* `Accepts`, `CollisionFree`, `NoZeroDigest` — a chain in an accepted file, and the
  assumptions on SHA-256.

## Main results

* `linked_of_passed` — an accepted chain is linked and hashed.
* `lineage_tamper_evident` — **accepted chains with one tip are the same.**
-/

namespace SovereignSeed
namespace Lineage

open Python Json Tollbridge HashChain

/-! ### The verifier -/

/-- The `prev_hash` of the first entry: 64 zeros. -/
def genesisHash : PyStr := List.replicate 64 (digit 0)

/-- `canonical_bytes`, or `none` where `json.dumps` raises. -/
def canonicalBytes (entry : Members) : Option Bytes :=
  let entryCopy := entry.filter fun m => m.1 ≠ text "hash"
  ((Value.obj entryCopy).sortKeys.dumps .spaced).map utf8

/-- How the verifier ends. -/
inductive Verdict
  | passed
  /-- `Lineage file not found`. -/
  | notFound
  /-- `Invalid or empty lineage chain`. -/
  | invalidChain
  | prevHashMismatch (idx : ℕ)
  | hashMismatch (idx : ℕ)
  /-- An exception: the file is no JSON, or an entry is no object. -/
  | raised
  deriving DecidableEq

/-- The loop over the chain, from entry `idx` on. -/
def verifyEntries (C : Crypto) : ℕ → PyStr → List Value → Verdict
  | _, _, [] => .passed
  | idx, expectedPrev, .obj entry :: rest =>
    let storedHash := field entry "hash"
    let prevHash := field entry "prev_hash"
    if isStr prevHash expectedPrev = false then .prevHashMismatch idx
    else
      match canonicalBytes entry with
      | none => .raised
      | some bytes =>
        let computedHash := C.hexdigest bytes
        if isStr storedHash computedHash = false then .hashMismatch idx
        -- the stored hash is the computed one here
        else verifyEntries C (idx + 1) computedHash rest
  | _, _, _ :: _ => .raised

/-- `verify_lineage`; `none` stands for a file that does not exist. -/
def verifyLineage (C : Crypto) (file : Option PyStr) : Verdict :=
  match file with
  | none => .notFound
  | some contents =>
    match load contents with
    | none => .raised
    | some (.arr (entry :: rest)) => verifyEntries C 0 genesisHash (entry :: rest)
    | some _ => .invalidChain

/-- The verifier accepts the file, and `chain` is what is in it. -/
def Accepts (C : Crypto) (file : PyStr) (chain : List Members) : Prop :=
  verifyLineage C (some file) = .passed ∧ load file = some (.arr (chain.map .obj))

/-- SHA-256 has no collision on the entries. -/
def CollisionFree (C : Crypto) (entries : List Members) : Prop :=
  ∀ e ∈ entries, ∀ e' ∈ entries, ∀ bytes bytes', canonicalBytes e = some bytes →
    canonicalBytes e' = some bytes' → C.sha256 bytes = C.sha256 bytes' → bytes = bytes'

/-- SHA-256 is not zero on the entries. -/
def NoZeroDigest (C : Crypto) (entries : List Members) : Prop :=
  ∀ e ∈ entries, ∀ bytes, canonicalBytes e = some bytes → C.hexdigest bytes ≠ genesisHash

/-- The `hash` field of the last entry. -/
def tipHash (chain : List Members) : Option Value := chain.getLast?.map fun e => field e "hash"

/-! ### What is accepted -/

/-- The hash of the entry is that of its bytes, the hash before it is a string. -/
structure Hashed (C : Crypto) (entry : Members) : Prop where
  hash : ∃ bytes, canonicalBytes entry = some bytes ∧
    field entry "hash" = .str (C.hexdigest bytes)
  prevHash : ∃ s, field entry "prev_hash" = .str s

/-- **An accepted chain is linked and hashed.** -/
theorem linked_of_passed {C : Crypto} : ∀ {chain : List Members} {idx : ℕ} {expectedPrev : PyStr},
    verifyEntries C idx expectedPrev (chain.map .obj) = .passed →
    Linked (fun e => field e "prev_hash") (fun e => field e "hash") (.str expectedPrev) chain ∧
      ∀ e ∈ chain, Hashed C e := by
  intro chain
  induction chain with
  | nil => exact fun _ => ⟨trivial, nofun⟩
  | cons entry rest ih =>
    intro idx expectedPrev h
    simp only [List.map_cons, verifyEntries] at h
    split at h
    · cases h
    next hprev =>
    split at h
    · cases h
    next bytes hbytes =>
    split at h
    · cases h
    next hhash =>
    have hprev : field entry "prev_hash" = .str expectedPrev :=
      isStr_eq_true_iff.mp (by simpa using hprev)
    have hhash : field entry "hash" = .str (C.hexdigest bytes) :=
      isStr_eq_true_iff.mp (by simpa using hhash)
    obtain ⟨hlinked, hrest⟩ := ih h
    refine ⟨⟨hprev, ?_⟩, List.forall_mem_cons.mpr ⟨⟨⟨bytes, hbytes, hhash⟩, _, hprev⟩, hrest⟩⟩
    -- the hash of the entry is what the next one has to name
    rw [← hhash] at hlinked
    exact hlinked

namespace Accepts

variable {C : Crypto} {file : PyStr} {chain : List Members}

theorem loaded (h : Accepts C file chain) : ∀ e ∈ chain, (Value.obj e).Loaded := by
  cases loaded_of_load h.2 with
  | arr hall => exact List.forall_mem_map.mp hall

theorem linked (h : Accepts C file chain) :
    Linked (fun e => field e "prev_hash") (fun e => field e "hash") (.str genesisHash) chain ∧
      ∀ e ∈ chain, Hashed C e := by
  obtain ⟨hpassed, hload⟩ := h
  rw [verifyLineage] at hpassed
  simp only [hload] at hpassed
  cases chain with
  | nil => exact ⟨trivial, nofun⟩
  | cons entry rest => exact linked_of_passed hpassed

end Accepts

/-! ### Entries that are the same -/

section Entries

variable {e e' : Members} {k : PyStr} {v : Value}

/-- Members with their values sorted inside. -/
def sortValues (e : Members) : Members := e.map fun m => (m.1, m.2.sortKeys)

theorem same_obj_iff : Same (.obj e) (.obj e') ↔
    sortMembers (sortValues e) = sortMembers (sortValues e') := by
  simp only [Same, Value.sortKeys, rebuild_obj, Value.obj.injEq]
  exact Iff.rfl

theorem nodup_sortValues (h : (e.map Prod.fst).Nodup) : ((sortValues e).map Prod.fst).Nodup := by
  rw [sortValues, List.map_map]
  exact h

/-- A string of the one entry is a string of the other. -/
theorem mem_of_same {s : PyStr} (h : Same (.obj e) (.obj e')) (hmem : (k, .str s) ∈ e) :
    (k, .str s) ∈ e' := by
  have hsorted : (k, .str s) ∈ sortMembers (sortValues e) :=
    mem_sortMembers.mpr (List.mem_map.mpr ⟨_, hmem, rfl⟩)
  rw [same_obj_iff.mp h, mem_sortMembers] at hsorted
  -- sorting inside a value leaves its kind, so only a string comes out as one
  obtain ⟨⟨k', u⟩, hu, heq⟩ := List.mem_map.mp hsorted
  obtain ⟨rfl, husort⟩ := Prod.mk.inj heq
  cases u with
  | str t => cases husort; exact hu
  | arr vs => rw [Value.sortKeys, rebuild_arr] at husort; cases husort
  | obj ms => rw [Value.sortKeys, rebuild_obj] at husort; cases husort
  | null => cases husort
  | bool b => cases husort
  | int n => cases husort
  | float x => cases husort

/-- An entry is one of its members and the others. -/
theorem perm_cons_filter (h : (e.map Prod.fst).Nodup) (hmem : (k, v) ∈ e) :
    e.Perm ((k, v) :: e.filter fun m => m.1 ≠ k) := by
  induction e with
  | nil => cases hmem
  | cons m e ih =>
    simp only [List.map_cons, List.nodup_cons] at h
    rcases List.mem_cons.mp hmem with rfl | hmem
    · have hall : (e.filter fun m => m.1 ≠ k) = e := by
        refine List.filter_eq_self.mpr fun m hm => decide_eq_true fun heq => ?_
        exact h.1 (List.mem_map.mpr ⟨m, hm, heq⟩)
      rw [List.filter_cons_of_neg (by simp), hall]
    · have hne : m.1 ≠ k := fun heq => h.1 (heq ▸ List.mem_map_of_mem hmem)
      rw [List.filter_cons_of_pos (by simpa using hne)]
      exact ((ih h.2 hmem).cons m).trans (.swap _ _ _)

/-- Entries that are the same without a member they share are the same. -/
theorem same_of_same_filter (h : (e.map Prod.fst).Nodup) (h' : (e'.map Prod.fst).Nodup)
    (hmem : (k, v) ∈ e) (hmem' : (k, v) ∈ e')
    (hsame : Same (.obj (e.filter fun m => m.1 ≠ k)) (.obj (e'.filter fun m => m.1 ≠ k))) :
    Same (.obj e) (.obj e') := by
  rw [same_obj_iff] at hsame ⊢
  refine sortMembers_eq_of_perm ?_ (nodup_sortValues h)
  have hrest : (sortValues (e.filter fun m => m.1 ≠ k)).Perm
      (sortValues (e'.filter fun m => m.1 ≠ k)) :=
    (perm_sortMembers _).symm.trans (hsame ▸ perm_sortMembers _)
  have hfirst : (sortValues e).Perm ((k, v.sortKeys) :: sortValues (e.filter fun m => m.1 ≠ k)) :=
    (perm_cons_filter h hmem).map _
  have hlast : (sortValues e').Perm
      ((k, v.sortKeys) :: sortValues (e'.filter fun m => m.1 ≠ k)) :=
    (perm_cons_filter h' hmem').map _
  exact hfirst.trans ((hrest.cons _).trans hlast.symm)

end Entries

theorem nodup_of_loaded {e : Members} (h : (Value.obj e).Loaded) : (e.map Prod.fst).Nodup := by
  cases h with
  | obj hnodup => exact hnodup

/-- A part of a loaded entry is loaded. -/
theorem loaded_filter {e : Members} (h : (Value.obj e).Loaded) (p : PyStr × Value → Bool) :
    (Value.obj (e.filter p)).Loaded := by
  cases h with
  | obj hnodup hkeys hvalues =>
    refine .obj (hnodup.sublist (List.filter_sublist.map _)) (fun m hm => ?_) fun m hm => ?_
    · exact hkeys m (List.mem_of_mem_filter hm)
    · exact hvalues m (List.mem_of_mem_filter hm)

/-- Entries with one hash are the same. -/
theorem same_of_hash_eq {C : Crypto} {e e' : Members} (h : (Value.obj e).Loaded)
    (h' : (Value.obj e').Loaded) (hhash : Hashed C e) (hhash' : Hashed C e')
    (hfree : ∀ bytes bytes', canonicalBytes e = some bytes → canonicalBytes e' = some bytes' →
      C.sha256 bytes = C.sha256 bytes' → bytes = bytes')
    (heq : field e "hash" = field e' "hash") : Same (.obj e) (.obj e') := by
  obtain ⟨bytes, hbytes, hstored⟩ := hhash.hash
  obtain ⟨bytes', hbytes', hstored'⟩ := hhash'.hash
  have hdigest : C.hexdigest bytes = C.hexdigest bytes' := by
    rw [hstored, hstored'] at heq
    exact Value.str.inj heq
  obtain rfl : bytes = bytes' := hfree _ _ hbytes hbytes' (hexOf_injective hdigest)
  -- the bytes determine the entries without their hashes, which are equal too
  obtain ⟨s, hs, hutf⟩ := Option.map_eq_some_iff.mp hbytes
  obtain ⟨s', hs', hutf'⟩ := Option.map_eq_some_iff.mp hbytes'
  obtain rfl : s = s' := utf8_injective (hutf.trans hutf'.symm)
  have hrest := (loaded_filter h _).same_of_dumps_eq (loaded_filter h' _) hs hs'
  rw [hstored] at heq
  exact same_of_same_filter (nodup_of_loaded h) (nodup_of_loaded h')
    (mem_of_field (nodup_of_loaded h) hstored) (mem_of_field (nodup_of_loaded h') heq.symm) hrest

/-- **Lineage chains are tamper-evident**: two accepted chains with one hash at their
ends hold the same entries, one by one. -/
theorem lineage_tamper_evident (C : Crypto) {file file' : PyStr} {chain chain' : List Members}
    (h : Accepts C file chain) (h' : Accepts C file' chain')
    (hfree : CollisionFree C (chain ++ chain')) (hzero : NoZeroDigest C (chain ++ chain'))
    (htip : tipHash chain = tipHash chain') :
    List.Forall₂ (fun e e' => Same (.obj e) (.obj e')) chain chain' := by
  obtain ⟨hlinked, hhashed⟩ := h.linked
  obtain ⟨hlinked', hhashed'⟩ := h'.linked
  -- no entry has the hash that marks the start
  have hmark : ∀ {es : List Members}, (∀ e ∈ es, Hashed C e) → (∀ e ∈ es, e ∈ chain ++ chain') →
      ∀ e ∈ es, field e "hash" ≠ .str genesisHash := by
    intro es hes hsub e he heq
    obtain ⟨bytes, hbytes, hstored⟩ := (hes e he).hash
    rw [hstored] at heq
    exact hzero e (hsub e he) bytes hbytes (Value.str.inj heq)
  refine hlinked.forall₂_of_tip_eq ?_ ?_ (hmark hhashed fun e => List.mem_append_left _)
    (hmark hhashed' fun e => List.mem_append_right _) hlinked' ?_
  · intro e he e' he' heq
    exact same_of_hash_eq (h.loaded e he) (h'.loaded e' he') (hhashed e he) (hhashed' e' he')
      (hfree e (List.mem_append_left _ he) e' (List.mem_append_right _ he')) heq
  · intro e he e' he' hsame
    obtain ⟨s, hprev⟩ := (hhashed e he).prevHash
    -- the hash before an entry is one of its members
    have hmem := mem_of_same hsame (mem_of_field (nodup_of_loaded (h.loaded e he)) hprev)
    rw [hprev, field_of_mem (nodup_of_loaded (h'.loaded e' he')) hmem]
  · rw [tip, tip]
    exact congrArg (Option.getD · _) htip

/-- An entry in a file, with its members in the order of their keys. -/
def entryOf (data hash : PyStr) (index : ℤ) (prevHash timestamp : PyStr) : Members :=
  [(text "data", .str data), (text "hash", .str hash), (text "index", .int index),
   (text "prev_hash", .str prevHash), (text "timestamp", .str timestamp)]

/-- The hash of the entry in `lineage_memory.json`. -/
def genesisEntryHash : PyStr :=
  text "8c61eab336c3880c8235c0edfd5f900ac1f9a7f618395527e3c71479cefc0992"

/-- The entry in `lineage_memory.json`. -/
def genesisEntry : Members :=
  entryOf (text "SOVEREIGN_SEED_COMMONS_GENESIS") genesisEntryHash 0 genesisHash
    (text "2026-09-28T00:00:00Z")

/-- The hash of the entry behind it. -/
def nextEntryHash : PyStr :=
  text "36c4e6862fa1d2a0138454aafb8c6b5f6741ff5c4edfc38ab66dc9b5d4c38eb6"

/-- An entry behind that of `lineage_memory.json`. -/
def nextEntry : Members :=
  entryOf (text "CELL_MIGRATED") nextEntryHash 1 genesisEntryHash (text "2026-09-29T00:00:00Z")

/-- The digests of the two entries. -/
def lineageCrypto : Crypto :=
  .ofTable [((canonicalBytes genesisEntry).getD [],
    bytesOf 32 0x8c61eab336c3880c8235c0edfd5f900ac1f9a7f618395527e3c71479cefc0992),
    ((canonicalBytes nextEntry).getD [],
    bytesOf 32 0x36c4e6862fa1d2a0138454aafb8c6b5f6741ff5c4edfc38ab66dc9b5d4c38eb6)] [] []

theorem loaded_entryOf {data hash prevHash timestamp : PyStr} {index : ℤ}
    (htexts : ∀ s ∈ [data, hash, prevHash, timestamp], hasPair s = false)
    (hindex : index.natAbs < 10 ^ maxStrDigits) :
    (Value.obj (entryOf data hash index prevHash timestamp)).Loaded := by
  refine .obj ?_ ?_ ?_
  · have hkeys : [text "data", text "hash", text "index", text "prev_hash",
        text "timestamp"].Nodup := by decide
    exact hkeys
  · have hkeys : ∀ k ∈ [text "data", text "hash", text "index", text "prev_hash",
        text "timestamp"], hasPair k = false := by decide
    exact fun m hm => hkeys m.1 (List.mem_map_of_mem (f := Prod.fst) hm)
  · simp only [entryOf, List.mem_cons, List.not_mem_nil, or_false]
    rintro m (rfl | rfl | rfl | rfl | rfl)
    · exact .str (htexts _ (by simp))
    · exact .str (htexts _ (by simp))
    · exact .int hindex
    · exact .str (htexts _ (by simp))
    · exact .str (htexts _ (by simp))

theorem loaded_reverse {e : Members} (h : (Value.obj e).Loaded) :
    (Value.obj e.reverse).Loaded := by
  cases h with
  | obj hnodup hkeys hvalues =>
    refine .obj ?_ (fun m hm => hkeys m (List.mem_reverse.mp hm))
      fun m hm => hvalues m (List.mem_reverse.mp hm)
    rw [List.map_reverse]
    exact List.nodup_reverse.mpr hnodup

/-- Two linked entries, and a file with the members of both the other way round. -/
theorem lineage_tamper_evident_linked :
    List.Forall₂ (fun e e' => Same (.obj e) (.obj e')) [genesisEntry, nextEntry]
      [genesisEntry.reverse, nextEntry.reverse] := by
  have hentries : [genesisEntry, nextEntry] ++ [genesisEntry.reverse, nextEntry.reverse] =
      [genesisEntry, nextEntry, genesisEntry.reverse, nextEntry.reverse] := rfl
  have hloaded : ∀ e ∈ [genesisEntry, nextEntry], (Value.obj e).Loaded := by
    refine List.forall_mem_cons.mpr ⟨?_, List.forall_mem_singleton.mpr ?_⟩
    · exact loaded_entryOf (by decide) (by decide +kernel)
    · exact loaded_entryOf (by decide) (by decide +kernel)
  have hfile : Accepts lineageCrypto
      ((Value.arr ([genesisEntry, nextEntry].map .obj)).render .indented 0)
      [genesisEntry, nextEntry] :=
    ⟨by decide +kernel, (Value.Loaded.arr (by simpa using hloaded)).load_render _⟩
  have hfile' : Accepts lineageCrypto
      ((Value.arr ([genesisEntry.reverse, nextEntry.reverse].map .obj)).render .compact 0)
      [genesisEntry.reverse, nextEntry.reverse] := by
    refine ⟨by decide +kernel, (Value.Loaded.arr ?_).load_render _⟩
    have hfirst := loaded_reverse (hloaded genesisEntry (by simp))
    have hsecond := loaded_reverse (hloaded nextEntry (by simp))
    simpa using ⟨hfirst, hsecond⟩
  refine lineage_tamper_evident lineageCrypto hfile hfile' ?_ ?_ rfl
  · have hfree : ∀ e ∈ [genesisEntry, nextEntry, genesisEntry.reverse, nextEntry.reverse],
        ∀ e' ∈ [genesisEntry, nextEntry, genesisEntry.reverse, nextEntry.reverse],
        (canonicalBytes e).map lineageCrypto.sha256 = (canonicalBytes e').map lineageCrypto.sha256 →
          canonicalBytes e = canonicalBytes e' := by
      decide +kernel
    rw [hentries]
    intro e he e' he' bytes bytes' hb hb' hdigest
    have hsame := hfree e he e' he' (by rw [hb, hb', Option.map_some, Option.map_some, hdigest])
    rw [hb, hb'] at hsame
    exact Option.some.inj hsame
  · have hzero : ∀ e ∈ [genesisEntry, nextEntry, genesisEntry.reverse, nextEntry.reverse],
        (canonicalBytes e).map lineageCrypto.hexdigest ≠ some genesisHash := by
      decide +kernel
    rw [hentries]
    intro e he bytes hb heq
    have hne := hzero e he
    rw [hb, Option.map_some, heq] at hne
    exact hne rfl

end Lineage
end SovereignSeed
