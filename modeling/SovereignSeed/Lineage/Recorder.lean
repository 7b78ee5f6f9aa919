import SovereignSeed.Lineage.Verifier
import SovereignSeed.Logger.Dashboard
import SovereignSeed.Python.JsonOrder
import SovereignSeed.Runner.Mutation

/-!
# The lineage recorder

`tools/cell_lineage.py`: `record_mutation` appends a line to `memory/lineage.jsonl` with a
mutation and the hash of its JSON text, and gives the hash back; the mutation names the hash of
its parent.  The program at the end of the file records generation after generation this way,
from the hash of a fixed seed.

The verifier of `tools/verify_lineage.py` wants an array of entries with other fields, so it
passes no log of the recorder.

## Main definitions

* `recordMutation` — one call; `recordMutations` — calls with any parents.
* `recordLineage` — generations, each the child of the one before.
* `record` — what a call appends.
* `HashesApart` — no collision of SHA-256 among the texts of two lineages and the seed.

## Main results

* `recorded_log` — **any beginning of a log is read as the first calls, and the verifier passes
  none.**
* `lineage_of_tip` — **lineages with one hash at their ends have the same generations.**
-/

namespace SovereignSeed
namespace Lineage

open Python Json Tollbridge HashChain Logger

/-! ### The recorder -/

/-- The arguments of `record_mutation` but for the hash of the parent, and its clock. -/
structure Mutation where
  cellId : PyStr
  mutationDescription : PyStr
  timestamp : PyStr

/-- `mutation_payload`. -/
def mutationPayload (parentHash : PyStr) (m : Mutation) : Members :=
  [(text "cell_id", .str m.cellId), (text "parent_lineage_hash", .str parentHash),
    (text "mutation_description", .str m.mutationDescription), (text "timestamp", .str m.timestamp),
    (text "protocol", .str (text "Sovereign Seed Commons"))]

/-- `compute_string_sha256`, or `none` where it raises. -/
def computeStringSha256 (C : Crypto) (content : PyStr) : Option PyStr :=
  (encode content).map C.hexdigest

/-- `record_mutation` on a log: the hash and the log behind it, or `none` where it raises. -/
def recordMutation (C : Crypto) (log : Bytes) (parentHash : PyStr) (m : Mutation) :
    Option (PyStr × Bytes) :=
  match (Value.obj (mutationPayload parentHash m)).sortKeys.dumps .spaced with
  | none => none
  | some payloadStr =>
    match computeStringSha256 C payloadStr with
    | none => none
    | some currentHash =>
      let record := Value.obj
        [(text "hash", .str currentHash), (text "data", .obj (mutationPayload parentHash m))]
      match record.dumps .spaced with
      | none => none
      | some line => some (currentHash, log ++ utf8 (line ++ [0x0a]))

/-- Calls with any parents, one after the other. -/
def recordMutations (C : Crypto) : Bytes → List (PyStr × Mutation) → Option Bytes
  | log, [] => some log
  | log, (parentHash, m) :: calls =>
    match recordMutation C log parentHash m with
    | none => none
    | some (_, log') => recordMutations C log' calls

/-- Generations: each call names the hash that the one before has given back. -/
def recordLineage (C : Crypto) : Bytes → PyStr → List Mutation → Option (PyStr × Bytes)
  | log, parentHash, [] => some (parentHash, log)
  | log, parentHash, m :: generations =>
    match recordMutation C log parentHash m with
    | none => none
    | some (hash, log') => recordLineage C log' hash generations

/-- The text whose hash the first generation names. -/
def genesisSeed : PyStr := text "SOVEREIGN_GENESIS_ROOT_SEED"

/-- The program: generations from the seed. -/
def recordFromGenesis (C : Crypto) (log : Bytes) (generations : List Mutation) :
    Option (PyStr × Bytes) :=
  match computeStringSha256 C genesisSeed with
  | none => none
  | some genesisHash => recordLineage C log genesisHash generations

/-! ### What is recorded -/

section Records

variable {C : Crypto} {p : PyStr} {m : Mutation}

/-- The text that is hashed. -/
def payloadText (e : PyStr × Mutation) : PyStr :=
  (Value.obj (mutationPayload e.1 e.2)).sortKeys.render .spaced 0

/-- The hash of a call. -/
def mutationHash (C : Crypto) (e : PyStr × Mutation) : PyStr := C.hexdigest (utf8 (payloadText e))

/-- What a call appends. -/
def record (C : Crypto) (e : PyStr × Mutation) : Value :=
  .obj [(text "hash", .str (mutationHash C e)), (text "data", .obj (mutationPayload e.1 e.2))]

/-- The row of a call. -/
def recordRow (C : Crypto) (e : PyStr × Mutation) : PyStr × Value :=
  ((record C e).render .spaced 0, record C e)

theorem printable_mutationPayload (p : PyStr) (m : Mutation) :
    (Value.obj (mutationPayload p m)).printable = true := by
  refine printable_obj.mpr fun x hx => ?_
  simp only [mutationPayload, List.mem_cons, List.not_mem_nil, or_false] at hx
  rcases hx with rfl | rfl | rfl | rfl | rfl <;> rfl

theorem printable_record (C : Crypto) (e : PyStr × Mutation) : (record C e).printable = true := by
  refine printable_obj.mpr fun x hx => ?_
  simp only [List.mem_cons, List.not_mem_nil, or_false] at hx
  rcases hx with rfl | rfl
  · rfl
  · exact printable_mutationPayload e.1 e.2

/-- **A call appends its row, and gives its hash back.** -/
theorem recordMutation_eq (C : Crypto) (log : Bytes) (p : PyStr) (m : Mutation) :
    recordMutation C log p m =
      some (mutationHash C (p, m), log ++ rowsFile [recordRow C (p, m)]) := by
  have hpayload : (Value.obj (mutationPayload p m)).sortKeys.dumps .spaced =
      some (payloadText (p, m)) :=
    if_pos ((printable_sortKeys_iff _).mpr (printable_mutationPayload p m))
  have hhash : computeStringSha256 C (payloadText (p, m)) = some (mutationHash C (p, m)) := by
    rw [computeStringSha256, encode_eq_some (s := payloadText (p, m)) (render_ascii _ 0).isScalar]
    rfl
  have hrecord : (record C (p, m)).dumps .spaced = some (recordRow C (p, m)).1 :=
    if_pos (printable_record C (p, m))
  unfold recordMutation
  rw [hpayload]
  dsimp only
  rw [hhash]
  dsimp only
  rw [record] at hrecord
  rw [hrecord]
  dsimp only
  rw [rowsFile, rowsText, List.flatMap_cons, List.flatMap_nil, List.append_nil]

theorem rowsFile_append (rows rows' : List (PyStr × Value)) :
    rowsFile (rows ++ rows') = rowsFile rows ++ rowsFile rows' := by
  rw [rowsFile, rowsText, List.flatMap_append, utf8_append]
  rfl

/-- Calls append their rows. -/
theorem recordMutations_eq (C : Crypto) (log : Bytes) (calls : List (PyStr × Mutation)) :
    recordMutations C log calls = some (log ++ rowsFile (calls.map (recordRow C))) := by
  induction calls generalizing log with
  | nil => exact congrArg some (List.append_nil log).symm
  | cons e calls ih =>
    rw [recordMutations, recordMutation_eq]
    dsimp only
    rw [ih, List.append_assoc, ← rowsFile_append]
    rfl

/-! ### Rows -/

/-- What `json.dumps` makes of an object is a row. -/
theorem isRow_render {ms : Members} (h : (Value.obj ms).Loaded) :
    IsRow ((Value.obj ms).render .spaced 0) (.obj ms) where
  isScalar := (render_ascii _ 0).isScalar
  printed := by
    intro c hc
    have hspace : c = 0x20 → (0x20 : ℕ) ≤ c.val := by
      rintro rfl
      decide
    rcases char_of_mem_render _ 0 c hc with hprint | ⟨d, hopening | hbetween | hclosing⟩ | hcolon
    · simp only [isPrint, Bool.and_eq_true, decide_eq_true_eq] at hprint
      exact hprint.1
    · cases hopening
    · exact hspace (List.mem_singleton.mp hbetween)
    · cases hclosing
    · exact hspace (List.mem_singleton.mp hcolon)
  opens := by
    rw [Value.render, bracket_eq_cons]
    rfl
  closes := by
    rw [Value.render]
    exact getLast_bracket _ _ _ _ _
  load := h.load_render _

/-- The arguments are texts over scalar values. -/
structure Mutation.IsText (m : Mutation) : Prop where
  cellId : IsScalar m.cellId
  mutationDescription : IsScalar m.mutationDescription
  timestamp : IsScalar m.timestamp

theorem plain_mutationPayload (hp : IsScalar p) (hm : m.IsText) :
    (Value.obj (mutationPayload p m)).Plain := by
  have hkeys : [text "cell_id", text "parent_lineage_hash", text "mutation_description",
      text "timestamp", text "protocol"].Nodup ∧
      ∀ k ∈ [text "cell_id", text "parent_lineage_hash", text "mutation_description",
        text "timestamp", text "protocol"], IsScalar k := by
    decide
  refine plain_obj.mpr ⟨hkeys.1, fun x hx => hkeys.2 x.1 (List.mem_map_of_mem hx), fun x hx => ?_⟩
  · simp only [mutationPayload, List.mem_cons, List.not_mem_nil, or_false] at hx
    rcases hx with rfl | rfl | rfl | rfl | rfl
    · exact .str hm.cellId
    · exact .str hp
    · exact .str hm.mutationDescription
    · exact .str hm.timestamp
    · exact .str (by decide)

theorem isScalar_mutationHash (C : Crypto) (e : PyStr × Mutation) : IsScalar (mutationHash C e) :=
  (Runner.isAscii_hexOf _).isScalar

/-- **The row of a call is a row.** -/
theorem isRow_recordRow (C : Crypto) (hp : IsScalar p) (hm : m.IsText) :
    IsRow (recordRow C (p, m)).1 (recordRow C (p, m)).2 := by
  have hplain : (record C (p, m)).Plain := by
    have hkeys : [text "hash", text "data"].Nodup ∧
        ∀ k ∈ [text "hash", text "data"], IsScalar k := by
      decide
    refine plain_obj.mpr ⟨hkeys.1, fun x hx => hkeys.2 x.1 (List.mem_map_of_mem hx), fun x hx => ?_⟩
    · simp only [List.mem_cons, List.not_mem_nil, or_false] at hx
      rcases hx with rfl | rfl
      · exact .str (isScalar_mutationHash C _)
      · exact plain_mutationPayload hp hm
  exact isRow_render (hplain.loaded_iff.mpr (printable_record C (p, m)))

/-! ### Logs -/

/-- The verifier passes no text that begins with a brace: it is no array. -/
theorem verifyLineage_of_brace (C : Crypto) {contents : PyStr}
    (h : contents.head? = some 0x7b) : verifyLineage C (some contents) ≠ .passed := by
  intro hpassed
  unfold verifyLineage at hpassed
  dsimp only at hpassed
  split at hpassed
  · cases hpassed
  · next entry rest hload =>
    obtain ⟨ms, hms⟩ := exists_obj_of_load h hload
    cases hms
  · cases hpassed

/-- **A log of the recorder.**  Whatever the parents, any beginning of the log is read as the
first calls, each with the hash of its mutation; and the verifier does not pass the log. -/
theorem recorded_log (C : Crypto) {calls : List (PyStr × Mutation)}
    (hcalls : ∀ e ∈ calls, IsScalar e.1 ∧ e.2.IsText) :
    ∃ log, recordMutations C [] calls = some log ∧
      (∀ n, ∃ k, Whole (calls.map (recordRow C)) n k ∧
        loadJsonl (log.take n) = (calls.take k).map (record C)) ∧
      loadJsonl log = calls.map (record C) ∧
      verifyLineage C (decode false log) ≠ .passed := by
  have hrows : ∀ r ∈ calls.map (recordRow C), IsRow r.1 r.2 := by
    intro r hr
    obtain ⟨e, he, rfl⟩ := List.mem_map.mp hr
    obtain ⟨hp, hm⟩ := hcalls e he
    exact isRow_recordRow C hp hm
  have hread : ∀ n, ∃ k, Whole (calls.map (recordRow C)) n k ∧
      loadJsonl ((rowsFile (calls.map (recordRow C))).take n) =
        (calls.take k).map (record C) := by
    intro n
    obtain ⟨k, torn, hwhole, -, -, hload, -⟩ := read_of_take hrows n
    refine ⟨k, hwhole, ?_⟩
    rw [hload, ← List.map_take, List.map_map]
    rfl
  refine ⟨_, by rw [recordMutations_eq, List.nil_append], hread, ?_, ?_⟩
  · rw [read_rows hrows, List.map_map]
    rfl
  · rw [rowsFile, decode_utf8 (chars_rowsText hrows).1]
    cases calls with
    | nil => exact fun hpassed => by cases hpassed
    | cons e calls =>
      refine verifyLineage_of_brace C ?_
      rw [List.map_cons, rowsText, List.flatMap_cons, List.append_assoc, List.head?_append,
        (hrows _ List.mem_cons_self).opens]
      rfl

end Records

/-- The generations of the program, both in the first second of 2026. -/
def exampleGenerations : List Mutation :=
  [⟨text "@research_cell_alpha",
      text "Initial base cell synchronization and secure IPC socket integration.",
      text "2026-01-01T00:00:00Z"⟩,
    ⟨text "@research_cell_gamma",
      text "Applied microsecond latency optimization via lock-free queue buffering.",
      text "2026-01-01T00:00:00Z"⟩]

/-- The SHA-256 digest of the seed. -/
def seedDigest : Bytes :=
  bytesOf 32 0x42ffb40b7a2993efbd6b0960910de18fdd8a5e6ddb2af5ef312dacd110c3d1a6

/-- The SHA-256 digest of the first generation. -/
def alphaGenerationDigest : Bytes :=
  bytesOf 32 0x2047ced7f87028924c3469c0ea1d3e59703caa202035daeae1bbaecfcaf32dad

/-- The texts that are hashed, with their digests. -/
def generationCrypto : Crypto :=
  .ofTable ((utf8 genesisSeed, seedDigest) ::
    [(utf8 (payloadText (hexOf seedDigest, exampleGenerations[0])), alphaGenerationDigest),
      (utf8 (payloadText (hexOf alphaGenerationDigest, exampleGenerations[1])),
        bytesOf 32 0xcb7c525b46c3cdfd912166dd9ad8f3cb73be7183de39a00c4d28fbc60ee804ba)]) [] []

theorem isText_exampleGenerations : ∀ m ∈ exampleGenerations, m.IsText := by
  intro m hm
  simp only [exampleGenerations, List.mem_cons, List.not_mem_nil, or_false] at hm
  rcases hm with rfl | rfl
  · exact ⟨by decide, by decide, by decide⟩
  · exact ⟨by decide, by decide, by decide⟩

/-- Both generations with their parents. -/
def exampleCalls : List (PyStr × Mutation) :=
  [hexOf seedDigest, hexOf alphaGenerationDigest].zip exampleGenerations

theorem recorded_log_example :
    ∃ log, recordMutations generationCrypto [] exampleCalls = some log ∧
      loadJsonl log = exampleCalls.map (record generationCrypto) ∧
      verifyLineage generationCrypto (decode false log) ≠ .passed := by
  have hcalls : ∀ e ∈ exampleCalls, IsScalar e.1 ∧ e.2.IsText := by
    rintro ⟨p, m⟩ he
    obtain ⟨hp, hm⟩ := List.of_mem_zip he
    refine ⟨?_, isText_exampleGenerations m hm⟩
    rcases List.mem_cons.mp hp with rfl | hp
    · exact (Runner.isAscii_hexOf _).isScalar
    · rw [List.mem_singleton.mp hp]
      exact (Runner.isAscii_hexOf _).isScalar
  obtain ⟨log, hrun, -, hload, hverify⟩ := recorded_log generationCrypto hcalls
  exact ⟨log, hrun, hload, hverify⟩

/-! ### Lineages -/

section Lineages

variable {C : Crypto} {p : PyStr}

/-- The calls of generations: each names the hash of the one before. -/
def lineage (C : Crypto) : PyStr → List Mutation → List (PyStr × Mutation)
  | _, [] => []
  | p, m :: generations => (p, m) :: lineage C (mutationHash C (p, m)) generations

/-- **Generations append their rows, and give the last hash back.** -/
theorem recordLineage_eq (C : Crypto) : ∀ (generations : List Mutation) (log : Bytes) (p : PyStr),
    recordLineage C log p generations =
      some (tip (mutationHash C) p (lineage C p generations),
        log ++ rowsFile ((lineage C p generations).map (recordRow C))) := by
  intro generations
  induction generations with
  | nil => exact fun log p => congrArg (fun l => some (p, l)) (List.append_nil log).symm
  | cons m generations ih =>
    intro log p
    rw [recordLineage, recordMutation_eq]
    dsimp only
    rw [ih, lineage, tip_cons, List.append_assoc, ← rowsFile_append]
    rfl

/-- The hash of the seed. -/
def seedHash (C : Crypto) : PyStr := C.hexdigest (utf8 genesisSeed)

theorem recordFromGenesis_eq (C : Crypto) (log : Bytes) (generations : List Mutation) :
    recordFromGenesis C log generations =
      some (tip (mutationHash C) (seedHash C) (lineage C (seedHash C) generations),
        log ++ rowsFile ((lineage C (seedHash C) generations).map (recordRow C))) := by
  have hgenesis : computeStringSha256 C genesisSeed = some (seedHash C) := by
    rw [computeStringSha256, encode_eq_some (show IsScalar genesisSeed by decide)]
    rfl
  rw [recordFromGenesis, hgenesis]
  exact recordLineage_eq C generations log (seedHash C)

theorem linked_lineage (C : Crypto) : ∀ (generations : List Mutation) (p : PyStr),
    Linked Prod.fst (mutationHash C) p (lineage C p generations) := by
  intro generations
  induction generations with
  | nil => exact fun _ => trivial
  | cons m generations ih => exact fun p => ⟨rfl, ih _⟩

theorem lineage_map_snd (C : Crypto) : ∀ (generations : List Mutation) (p : PyStr),
    (lineage C p generations).map Prod.snd = generations := by
  intro generations
  induction generations with
  | nil => exact fun _ => rfl
  | cons m generations ih => exact fun p => congrArg (m :: ·) (ih _)

/-- The calls of generations of texts have texts only. -/
theorem isText_of_mem_lineage {generations : List Mutation} (h : ∀ m ∈ generations, m.IsText)
    (hp : IsScalar p) : ∀ e ∈ lineage C p generations, IsScalar e.1 ∧ e.2.IsText := by
  induction generations generalizing p with
  | nil => exact List.forall_mem_nil _
  | cons m generations ih =>
    obtain ⟨hm, hrest⟩ := List.forall_mem_cons.mp h
    exact List.forall_mem_cons.mpr ⟨⟨hp, hm⟩, ih hrest (isScalar_mutationHash C _)⟩

/-- SHA-256 has no collision among the texts of some calls and the seed. -/
def HashesApart (C : Crypto) (calls : List (PyStr × Mutation)) : Prop :=
  ∀ t ∈ genesisSeed :: calls.map payloadText, ∀ t' ∈ genesisSeed :: calls.map payloadText,
    C.sha256 (utf8 t) = C.sha256 (utf8 t') → t = t'

/-- A call is determined by its text. -/
theorem eq_of_payloadText_eq {e e' : PyStr × Mutation} (h : IsScalar e.1 ∧ e.2.IsText)
    (h' : IsScalar e'.1 ∧ e'.2.IsText) (heq : payloadText e = payloadText e') : e = e' := by
  have hloaded := (plain_mutationPayload h.1 h.2).loaded_iff.mpr (printable_mutationPayload _ _)
  have hloaded' := (plain_mutationPayload h'.1 h'.2).loaded_iff.mpr (printable_mutationPayload _ _)
  have hsame : Same (.obj (mutationPayload e.1 e.2)) (.obj (mutationPayload e'.1 e'.2)) :=
    hloaded.sortKeys.eq_of_render_eq hloaded'.sortKeys heq
  -- the keys are distinct, so a field of the one is the field of the other
  have hkeys := (plain_obj.mp (plain_mutationPayload h'.1 h'.2)).1
  have hfield : ∀ {k s s'}, (k, .str s) ∈ mutationPayload e.1 e.2 →
      (k, .str s') ∈ mutationPayload e'.1 e'.2 → s = s' := by
    intro k s s' hmem hmem'
    have hpair := List.inj_on_of_nodup_map hkeys (mem_of_same hsame hmem) hmem' rfl
    exact Value.str.inj (Prod.mk.inj hpair).2
  obtain ⟨p, cellId, description, timestamp⟩ := e
  obtain ⟨p', cellId', description', timestamp'⟩ := e'
  obtain rfl : cellId = cellId' := hfield (.head _) (.head _)
  obtain rfl : p = p' := hfield (.tail _ (.head _)) (.tail _ (.head _))
  obtain rfl : description = description' :=
    hfield (.tail _ (.tail _ (.head _))) (.tail _ (.tail _ (.head _)))
  obtain rfl : timestamp = timestamp' :=
    hfield (.tail _ (.tail _ (.tail _ (.head _)))) (.tail _ (.tail _ (.tail _ (.head _))))
  rfl

/-- **Lineages with one hash at their ends have the same generations**, and so have recorded
the same rows. -/
theorem lineage_of_tip (C : Crypto) {log log' file file' : Bytes} {last : PyStr}
    {generations generations' : List Mutation}
    (htexts : ∀ m ∈ generations, m.IsText) (htexts' : ∀ m ∈ generations', m.IsText)
    (h : recordFromGenesis C log generations = some (last, file))
    (h' : recordFromGenesis C log' generations' = some (last, file'))
    (hfree : HashesApart C (lineage C (seedHash C) generations ++
      lineage C (seedHash C) generations')) :
    generations = generations' ∧
      ∃ rows, file = log ++ rowsFile rows ∧ file' = log' ++ rowsFile rows := by
  have hscalar : IsScalar (seedHash C) := (Runner.isAscii_hexOf _).isScalar
  rw [recordFromGenesis_eq, Option.some.injEq, Prod.mk.injEq] at h h'
  obtain ⟨g, hg⟩ : ∃ g, g = seedHash C := ⟨_, rfl⟩
  rw [← hg] at h h' hfree hscalar
  obtain ⟨htip, rfl⟩ := h
  obtain ⟨htip', rfl⟩ := h'
  have hall := isText_of_mem_lineage (C := C) htexts hscalar
  have hall' := isText_of_mem_lineage (C := C) htexts' hscalar
  -- hashes of two texts are the same for one text only
  have hunique : ∀ t ∈ genesisSeed :: (lineage C g generations ++ lineage C g generations').map
      payloadText, ∀ t' ∈ genesisSeed :: (lineage C g generations ++ lineage C g generations').map
        payloadText, C.hexdigest (utf8 t) = C.hexdigest (utf8 t') → t = t' :=
    fun t ht t' ht' heq => hfree t ht t' ht' (hexOf_injective heq)
  have hmem : ∀ e ∈ lineage C g generations, payloadText e ∈ genesisSeed ::
      (lineage C g generations ++ lineage C g generations').map payloadText := fun e he =>
    .tail _ (List.mem_map_of_mem (List.mem_append_left _ he))
  have hmem' : ∀ e ∈ lineage C g generations', payloadText e ∈ genesisSeed ::
      (lineage C g generations ++ lineage C g generations').map payloadText := fun e he =>
    .tail _ (List.mem_map_of_mem (List.mem_append_right _ he))
  -- the text of a call begins with a brace, and the seed does not
  have hseed : ∀ e, payloadText e ≠ genesisSeed := by
    intro e heq
    have hbrace : (payloadText e).head? = some 0x7b := by
      rw [payloadText, sortKeys_obj, Value.render, bracket_eq_cons]
      rfl
    rw [heq] at hbrace
    exact absurd hbrace (by decide)
  have hsame : List.Forall₂ Eq (lineage C g generations) (lineage C g generations') := by
    refine (linked_lineage C generations g).forall₂_of_tip_eq ?_ ?_ ?_ ?_
      (linked_lineage C generations' g) (htip.trans htip'.symm)
    · intro e he e' he' heq
      exact eq_of_payloadText_eq (hall e he) (hall' e' he')
        (hunique _ (hmem e he) _ (hmem' e' he') heq)
    · rintro e - e' - rfl
      rfl
    · intro e he heq
      exact hseed e (hunique _ (hmem e he) _ (.head _) (heq.trans hg))
    · intro e he heq
      exact hseed e (hunique _ (hmem' e he) _ (.head _) (heq.trans hg))
  have heq := List.forall₂_eq_eq_eq ▸ hsame
  have hgenerations := congrArg (List.map Prod.snd) heq
  rw [lineage_map_snd, lineage_map_snd] at hgenerations
  exact ⟨hgenerations, _, rfl, by rw [heq]⟩

end Lineages

/-- The program run twice, on no log and on its own. -/
theorem lineage_of_tip_example :
    ∃ last file file', recordFromGenesis generationCrypto [] exampleGenerations = some (last, file) ∧
      recordFromGenesis generationCrypto file exampleGenerations = some (last, file') ∧
      ∃ rows, file = [] ++ rowsFile rows ∧ file' = file ++ rowsFile rows := by
  have hfree : HashesApart generationCrypto
      (lineage generationCrypto (seedHash generationCrypto) exampleGenerations ++
        lineage generationCrypto (seedHash generationCrypto) exampleGenerations) := by
    unfold HashesApart
    decide +kernel
  have h := recordFromGenesis_eq generationCrypto [] exampleGenerations
  have h' := fun log => recordFromGenesis_eq generationCrypto log exampleGenerations
  exact ⟨_, _, _, h, h' _, (lineage_of_tip generationCrypto isText_exampleGenerations
    isText_exampleGenerations h (h' _) hfree).2⟩

end Lineage
end SovereignSeed
