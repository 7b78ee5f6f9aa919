import SovereignSeed.Python.OsPath
import SovereignSeed.Resurrection.State
import SovereignSeed.Tollbridge.Security

/-!
# Checkpoints

The resurrection engine.  `create_checkpoint` writes a cell's state to a file of its
own, with the SHA-256 of the sorted text of the state; `resurrect_state` reads the file
and hashes the sorted text of what it has read.  Both texts are sorted before their keys
are written as strings — but the second one is sorted after they have been.

A call may be cut short: by the end of the process or an error of the system, behind some
directory that it makes or behind some character that it writes.

## Main definitions

* `createCheckpoint`, `Halt` — the writer, and how far it comes.
* `resurrectState`, `verifyCheckpoint` — the reader.

## Main results

* `verifyCheckpoint_fileText` — what the reader makes of a file of the writer's.
* `round_trip_iff` — **a checkpoint is resurrected exactly if the order of its keys is
  that of their strings.**
-/

namespace SovereignSeed
namespace Resurrection

open Python Json Tollbridge

/-- What the engine runs on. -/
structure Host where
  crypto : Crypto
  sorter : Sorter
  /-- The working directory. -/
  cwd : Place Bytes

/-! ### The file -/

/-- `os.path.join(checkpoint_dir, f"{cell_id}_checkpoint.json")`. -/
def filePath (checkpointDir cellId : PyStr) : PyStr :=
  joinPath checkpointDir (cellId ++ text "_checkpoint.json")

/-- `checkpoint_payload`. -/
def checkpointPayload (cellId stateHash : PyStr) (stateData : State) : Value :=
  .obj [(text "cell_id", .str cellId), (text "state_hash", .str stateHash),
    (text "state_data", (PyData.dict stateData).value)]

/-- What `json.dump(checkpoint_payload, f, indent=2)` writes. -/
def fileText (cellId stateHash : PyStr) (stateData : State) : PyStr :=
  (checkpointPayload cellId stateHash stateData).render .indented 0

/-! ### Writing -/

/-- How far a call comes. -/
inductive Halt
  /-- To its own end. -/
  | none
  /-- Behind the first `k` parts of the directory. -/
  | making (k : ℕ)
  /-- Behind the first `n` characters of the file. -/
  | writing (n : ℕ)

/-- The call is not cut short. -/
def Halt.finished : Halt → Bool
  | .none => true
  | _ => false

/-- `os.makedirs(checkpoint_dir, exist_ok=True)`, and whether the call goes on behind it. -/
def Halt.make (halt : Halt) (H : Host) (fs : Files) (checkpointDir : PyStr) : Files × Bool :=
  match halt with
  | .making k => (makedirsUpTo k H.cwd fs checkpointDir, false)
  | _ => makedirs H.cwd fs checkpointDir

/-- What is left in the file. -/
def Halt.written (halt : Halt) (contents : PyStr) : PyStr :=
  match halt with
  | .writing n => contents.take n
  | _ => contents

theorem written_writing (n : ℕ) (contents : PyStr) :
    (Halt.writing n).written contents = contents.take n := rfl

/-- The hash of a state whose sorted text is `normalizedState`; the text is ASCII. -/
def Host.stateHash (H : Host) (normalizedState : PyStr) : PyStr :=
  H.crypto.hexdigest (utf8 normalizedState)

/-- `create_checkpoint`: the files behind it, and what it returns.  A call that is cut
short returns what one does that fails. -/
def createCheckpoint (H : Host) (fs : Files) (cellId : PyStr) (stateData : State)
    (checkpointDir : PyStr) (halt : Halt) : Files × Bool × PyStr :=
  let made := halt.make H fs checkpointDir
  if made.2 = false then (made.1, false, [])
  else
    match normalize H.sorter (.dict stateData) with
    | none => (made.1, false, [])
    | some normalizedState =>
      let stateHash := H.stateHash normalizedState
      let contents := fileText cellId stateHash stateData
      let opened := (resolve H.cwd made.1 (filePath checkpointDir cellId)).bind fun p =>
        made.1.writeFile p (halt.written contents)
      match opened with
      | none => (made.1, false, [])
      | some fs' => if halt.finished then (fs', true, stateHash) else (fs', false, [])

/-! ### Reading -/

/-- `bool(v)` of a JSON value. -/
def truthy : Value → Bool
  | .null => false
  | .bool b => b
  | .int n => n != 0
  | .float (.finite _ a) => a.mant != 0
  | .float _ => true
  | .str s => s != []
  | .arr vs => !vs.isEmpty
  | .obj ms => !ms.isEmpty

/-- The body of the `try` of `resurrect_state`, given the text of the file. -/
def verifyCheckpoint (H : Host) (contents : PyStr) : Bool × Members × String :=
  match load contents with
  | some (.obj payload) =>
    match truthy (field payload "state_hash"), field payload "state_data" with
    | true, .obj stateData =>
      match (Value.obj stateData).sortKeys.dumps .compact with
      | none => (false, [], "RESURRECTION_RUNTIME_EXCEPTION")
      | some normalizedState =>
        if isStr (field payload "state_hash") (H.stateHash normalizedState) then
          (true, stateData, "OK")
        else (false, [], "RESURRECTION_INTEGRITY_MISMATCH")
    | _, _ => (false, [], "RESURRECTION_MALFORMED_CHECKPOINT")
  | _ => (false, [], "RESURRECTION_RUNTIME_EXCEPTION")

/-- `resurrect_state`. -/
def resurrectState (H : Host) (fs : Files) (cellId checkpointDir : PyStr) :
    Bool × Members × String :=
  match nodeAt H.cwd fs (filePath checkpointDir cellId) with
  | none => (false, [], "RESURRECTION_CHECKPOINT_NOT_FOUND")
  | some .dir => (false, [], "RESURRECTION_RUNTIME_EXCEPTION")
  | some (.file contents) => verifyCheckpoint H contents

/-! ### Calls -/

section Calls

variable {H : Host} {fs : Files} {cellId checkpointDir : PyStr} {stateData : State} {halt : Halt}

/-- The call comes to open the file, which is at `p`. -/
structure Opens (H : Host) (fs : Files) (cellId : PyStr) (stateData : State)
    (checkpointDir : PyStr) (halt : Halt) (normalizedState : PyStr) (p : Place Bytes) : Prop where
  made : (halt.make H fs checkpointDir).2 = true
  normalized : normalize H.sorter (.dict stateData) = some normalizedState
  resolved :
    resolve H.cwd (halt.make H fs checkpointDir).1 (filePath checkpointDir cellId) = some p
  free : (halt.make H fs checkpointDir).1.Free p

/-- **What a call does**: it writes the file, or makes directories and fails. -/
theorem createCheckpoint_cases (H : Host) (fs : Files) (cellId : PyStr) (stateData : State)
    (checkpointDir : PyStr) (halt : Halt) :
    (∃ normalizedState p fs',
      Opens H fs cellId stateData checkpointDir halt normalizedState p ∧
      (halt.make H fs checkpointDir).1.writeFile p (halt.written
        (fileText cellId (H.stateHash normalizedState) stateData)) = some fs' ∧
      createCheckpoint H fs cellId stateData checkpointDir halt =
        if halt.finished then (fs', true, H.stateHash normalizedState) else (fs', false, [])) ∨
    (∀ normalizedState p, ¬Opens H fs cellId stateData checkpointDir halt normalizedState p) ∧
      createCheckpoint H fs cellId stateData checkpointDir halt =
        ((halt.make H fs checkpointDir).1, false, []) := by
  unfold createCheckpoint
  extract_lets made
  split
  · next hmade =>
    refine .inr ⟨fun normalizedState p h => ?_, rfl⟩
    rw [h.made] at hmade
    cases hmade
  next hmade =>
  have hmade : made.2 = true := by simpa using hmade
  split
  · next hnorm =>
    refine .inr ⟨fun normalizedState p h => ?_, rfl⟩
    rw [h.normalized] at hnorm
    cases hnorm
  next normalizedState hnorm =>
  extract_lets stateHash contents opened
  rcases hopened : opened with _ | fs'
  · refine .inr ⟨fun normalizedState' p h => ?_, rfl⟩
    have hwrite : opened = made.1.writeFile p (halt.written contents) :=
      congrArg (fun place => place.bind fun p => made.1.writeFile p (halt.written contents))
        h.resolved
    rw [hopened, FileSystem.writeFile, dif_pos h.free] at hwrite
    cases hwrite
  · obtain ⟨p, hp, hwrite⟩ := Option.bind_eq_some_iff.mp hopened
    exact .inl ⟨normalizedState, p, fs', ⟨hmade, hnorm, hp, FileSystem.free_of_writeFile hwrite⟩,
      hwrite, rfl⟩

/-- The files behind a call that writes the file. -/
theorem files_of_create {fs' : Files} {stateHash : PyStr}
    (h : createCheckpoint H fs cellId stateData checkpointDir halt =
      if halt.finished then (fs', true, stateHash) else (fs', false, [])) :
    (createCheckpoint H fs cellId stateData checkpointDir halt).1 = fs' := by
  rw [h]
  split <;> rfl

/-- What is read behind a call that writes the file. -/
theorem Opens.resurrect {normalizedState contents : PyStr} {p : Place Bytes} {fs' : Files}
    (h : Opens H fs cellId stateData checkpointDir halt normalizedState p)
    (hwrite : (halt.make H fs checkpointDir).1.writeFile p contents = some fs') :
    resurrectState H fs' cellId checkpointDir = verifyCheckpoint H contents := by
  have hnode : nodeAt H.cwd fs' (filePath checkpointDir cellId) = some (.file contents) := by
    rw [nodeAt, resolve_writeFile hwrite, h.resolved, Option.bind_some]
    exact FileSystem.contents_eq_some_iff.mp (FileSystem.contents_writeFile_self hwrite)
  rw [resurrectState, hnode]

end Calls

/-! ### The file that is read -/

/-- What is loaded from the text of a state. -/
def stateImage (stateData : State) : Members :=
  dictOf (stateData.map fun m => (joinPairs m.1.text, m.2.image))

/-- The sorted text of a state, as `create_checkpoint` takes it. -/
def savedText (S : Sorter) (stateData : State) : PyStr :=
  ((PyData.dict stateData).sortKeys S).value.render .compact 0

/-- The sorted text of what is loaded, as `resurrect_state` takes it. -/
def loadedText (stateData : State) : PyStr :=
  (Value.obj (stateImage stateData)).sortKeys.render .compact 0

/-- The keys of the payload are different. -/
theorem payload_keys : [text "cell_id", text "state_hash", text "state_data"].Nodup := by
  decide

theorem printable_checkpointPayload {stateData : State} (cellId stateHash : PyStr)
    (h : (PyData.dict stateData).value.printable = true) :
    (checkpointPayload cellId stateHash stateData).printable = true := by
  refine printable_obj.mpr fun m hm => ?_
  simp only [List.mem_cons, List.not_mem_nil, or_false] at hm
  rcases hm with rfl | rfl | rfl
  · rfl
  · rfl
  · exact h

/-- The file is loaded. -/
theorem load_fileText {stateData : State} (cellId stateHash : PyStr)
    (h : (PyData.dict stateData).value.printable = true) :
    load (fileText cellId stateHash stateData) =
      some (.obj [(text "cell_id", .str (joinPairs cellId)),
        (text "state_hash", .str (joinPairs stateHash)),
        (text "state_data", .obj (stateImage stateData))]) := by
  -- the texts join when they are read, and of equal keys the last one stays
  have himage : ((PyData.dict stateData).value.rebuild joinPairs id).rebuild id dictOf =
      .obj (stateImage stateData) := image_dict stateData
  have hkeys : joinPairs (text "cell_id") = text "cell_id" ∧
      joinPairs (text "state_hash") = text "state_hash" ∧
      joinPairs (text "state_data") = text "state_data" := by decide
  rw [load, fileText, parse_render .indented (printable_checkpointPayload cellId stateHash h),
    Option.map_some, checkpointPayload, Value.joined, rebuild_obj, Value.dict, rebuild_obj]
  simp only [List.map_cons, List.map_nil, id_eq, himage, hkeys, Value.rebuild]
  exact congrArg (fun ms => some (Value.obj ms)) (dictOf_eq_self payload_keys)

/-- The fields that are read. -/
theorem field_payload (id hash data : Value) :
    field [(text "cell_id", id), (text "state_hash", hash), (text "state_data", data)]
        "state_hash" = hash ∧
      field [(text "cell_id", id), (text "state_hash", hash), (text "state_data", data)]
        "state_data" = data := by
  have hne : (text "state_hash" == text "cell_id") = false ∧
      (text "state_data" == text "cell_id") = false ∧
      (text "state_data" == text "state_hash") = false := by decide
  constructor <;> simp only [field, List.lookup_cons, hne, BEq.rfl, Option.getD_some]

/-- There is nothing to join in a hash. -/
theorem joinPairs_hexOf (digest : Bytes) : joinPairs (hexOf digest) = hexOf digest := by
  -- only a high surrogate could join with what follows
  have hhigh : ∀ d, d < 16 → isHigh (hexDigit d) = false := by decide
  induction digest with
  | nil => rfl
  | cons b digest ih =>
    have hb := b.toNat_lt
    rw [hexOf_cons, joinPairs_cons (hhigh _ (by omega)), joinPairs_cons (hhigh _ (by omega)), ih]

/-- **What the reader makes of a file of the writer's**: it compares the hash of what is
loaded with the one that is stored. -/
theorem verifyCheckpoint_fileText {H : Host} {stateData : State} (cellId : PyStr)
    {normalizedState : PyStr} (hdigest : H.crypto.sha256 (utf8 normalizedState) ≠ [])
    (h : (PyData.dict stateData).value.printable = true) :
    verifyCheckpoint H (fileText cellId (H.stateHash normalizedState) stateData) =
      if H.stateHash normalizedState = H.stateHash (loadedText stateData) then
        (true, stateImage stateData, "OK")
      else (false, [], "RESURRECTION_INTEGRITY_MISMATCH") := by
  have hloaded : (Value.obj (stateImage stateData)).Loaded := by
    have himage := loaded_image h
    rwa [image_dict] at himage
  -- what was loaded is printed again, so this `dumps` does not raise
  have hdumps : (Value.obj (stateImage stateData)).sortKeys.dumps .compact =
      some (loadedText stateData) := if_pos hloaded.sortKeys.printable
  have htruthy : truthy (.str (H.stateHash normalizedState)) = true := by
    have hne : H.stateHash normalizedState ≠ [] := by
      intro hnil
      have hlen := length_hexOf (H.crypto.sha256 (utf8 normalizedState))
      rw [show hexOf _ = [] from hnil, List.length_nil] at hlen
      exact hdigest (List.length_eq_zero_iff.mp (by omega))
    simpa [truthy] using hne
  have hjoin : joinPairs (H.stateHash normalizedState) = H.stateHash normalizedState :=
    joinPairs_hexOf _
  rw [verifyCheckpoint, load_fileText cellId _ h, hjoin]
  simp only [field_payload, htruthy, hdumps, isStr, decide_eq_true_eq]

/-- Nothing but the state is resurrected from its file. -/
theorem eq_of_verify_fileText {H : Host} {cellId stateHash : PyStr} {stateData : State}
    {d : Members} (h : (PyData.dict stateData).value.printable = true)
    (hok : verifyCheckpoint H (fileText cellId stateHash stateData) = (true, d, "OK")) :
    d = stateImage stateData := by
  rw [verifyCheckpoint, load_fileText cellId stateHash h] at hok
  simp only [field_payload] at hok
  split at hok
  · next hdata =>
    obtain rfl : stateImage stateData = _ := Value.obj.inj hdata
    split at hok
    · cases hok
    split at hok
    · cases hok
      rfl
    · cases hok
  · cases hok

/-! ### The round trip -/

/-- A SHA-256 digest is 32 bytes long. -/
def DigestSize (C : Crypto) : Prop := ∀ data, (C.sha256 data).length = 32

/-- SHA-256 has no collision on the two sorted texts of a state. -/
def NoCollision (H : Host) (stateData : State) : Prop :=
  H.crypto.sha256 (utf8 (savedText H.sorter stateData)) =
    H.crypto.sha256 (utf8 (loadedText stateData)) →
  savedText H.sorter stateData = loadedText stateData

theorem normalize_eq_some {S : Sorter} {stateData : State} {normalizedState : PyStr}
    (h : normalize S (.dict stateData) = some normalizedState) :
    normalizedState = savedText S stateData ∧ (PyData.dict stateData).value.printable = true := by
  unfold normalize at h
  split at h
  · next hok =>
    have hprintable := (Bool.and_eq_true_iff.mp hok).2
    exact ⟨(Option.some.inj h).symm, (Bool.and_eq_true_iff.mp hprintable).1⟩
  · cases h

/-- The two texts agree exactly when the keys are in the order of strings. -/
theorem savedText_eq_iff {S : Sorter} {stateData : State}
    (h : (PyData.dict stateData).value.printable = true) :
    savedText S stateData = loadedText stateData ↔ Ordered S (.dict stateData) := by
  rw [← render_sortKeys_eq_iff S h, image_dict]
  rfl

/-- And so do their hashes. -/
theorem stateHash_eq_iff {H : Host} {stateData : State}
    (h : (PyData.dict stateData).value.printable = true) (hfree : NoCollision H stateData) :
    H.stateHash (savedText H.sorter stateData) = H.stateHash (loadedText stateData) ↔
      Ordered H.sorter (.dict stateData) := by
  rw [← savedText_eq_iff h]
  exact ⟨fun heq => hfree (hexOf_injective heq), fun heq => congrArg H.stateHash heq⟩

/-- What the reader makes of the file of a state. -/
theorem verify_savedText {H : Host} (hsize : DigestSize H.crypto) {stateData : State}
    (cellId : PyStr) (h : (PyData.dict stateData).value.printable = true) :
    verifyCheckpoint H (fileText cellId (H.stateHash (savedText H.sorter stateData)) stateData) =
      if H.stateHash (savedText H.sorter stateData) = H.stateHash (loadedText stateData) then
        (true, stateImage stateData, "OK")
      else (false, [], "RESURRECTION_INTEGRITY_MISMATCH") := by
  refine verifyCheckpoint_fileText cellId (fun hnil => ?_) h
  have hlen := hsize (utf8 (savedText H.sorter stateData))
  rw [hnil] at hlen
  cases hlen

/-- The file of a state passes exactly if the keys are in the order of strings. -/
theorem verify_savedText_iff {H : Host} (hsize : DigestSize H.crypto) {stateData : State}
    (cellId : PyStr) (h : (PyData.dict stateData).value.printable = true)
    (hfree : NoCollision H stateData) :
    verifyCheckpoint H (fileText cellId (H.stateHash (savedText H.sorter stateData)) stateData) =
      (true, stateImage stateData, "OK") ↔ Ordered H.sorter (.dict stateData) := by
  rw [verify_savedText hsize cellId h, ← stateHash_eq_iff h hfree]
  split
  · next heq => exact ⟨fun _ => heq, fun _ => rfl⟩
  · next hne =>
    exact ⟨fun hok => absurd (congrArg Prod.fst hok) Bool.false_ne_true, fun heq => absurd heq hne⟩

/-- What is read behind a call that returns `True`. -/
theorem resurrect_created {H : Host} {fs fs' : Files} {cellId checkpointDir stateHash : PyStr}
    {stateData : State}
    (h : createCheckpoint H fs cellId stateData checkpointDir .none = (fs', true, stateHash)) :
    (PyData.dict stateData).value.printable = true ∧
      resurrectState H fs' cellId checkpointDir = verifyCheckpoint H
        (fileText cellId (H.stateHash (savedText H.sorter stateData)) stateData) := by
  rcases createCheckpoint_cases H fs cellId stateData checkpointDir .none with
    ⟨normalizedState, p, fs'', hopens, hwrite, heq⟩ | ⟨-, heq⟩
  · rw [h] at heq
    obtain ⟨rfl, -⟩ := Prod.mk.inj heq
    obtain ⟨rfl, hprintable⟩ := normalize_eq_some hopens.normalized
    exact ⟨hprintable, hopens.resurrect hwrite⟩
  · rw [h] at heq
    cases heq

/-- A checkpoint whose keys are in the order of strings is resurrected. -/
theorem resurrect_of_ordered {H : Host} (hsize : DigestSize H.crypto) {fs fs' : Files}
    {cellId checkpointDir stateHash : PyStr} {stateData : State}
    (h : createCheckpoint H fs cellId stateData checkpointDir .none = (fs', true, stateHash))
    (hordered : Ordered H.sorter (.dict stateData)) :
    resurrectState H fs' cellId checkpointDir = (true, stateImage stateData, "OK") := by
  obtain ⟨hprintable, hread⟩ := resurrect_created h
  rw [hread, verify_savedText hsize cellId hprintable, (savedText_eq_iff hprintable).mpr hordered,
    if_pos rfl]

/-- **A checkpoint is resurrected exactly if its keys, sorted as they are, are sorted as
strings.** -/
theorem round_trip_iff (H : Host) (hsize : DigestSize H.crypto) {fs fs' : Files}
    {cellId checkpointDir stateHash : PyStr} {stateData : State}
    (h : createCheckpoint H fs cellId stateData checkpointDir .none = (fs', true, stateHash))
    (hfree : NoCollision H stateData) :
    resurrectState H fs' cellId checkpointDir = (true, stateImage stateData, "OK") ↔
      Ordered H.sorter (.dict stateData) := by
  obtain ⟨hprintable, hread⟩ := resurrect_created h
  rw [hread]
  exact verify_savedText_iff hsize cellId hprintable hfree

/-- The state of the test. -/
def testState : State :=
  [(.str (text "cursor"), .int 42500), (.str (text "mode"), .str (text "WAL_SYNCHRONOUS")),
    (.str (text "last_block"), .str (text "0xdeadbeef"))]

/-- The state one block later. -/
def nextState : State :=
  [(.str (text "cursor"), .int 42501), (.str (text "mode"), .str (text "WAL_SYNCHRONOUS")),
    (.str (text "last_block"), .str (text "0xfeedface"))]

/-- A `dict` with integers for keys. -/
def countsState : State := [(.str (text "m"), .dict [(.int 9, .int 0), (.int 10, .int 0)])]

/-- SHA-256 on the texts of the three states. -/
def checkpointDigest (data : Bytes) : Bytes :=
  if data = utf8 (savedText .insertion testState) then
    bytesOf 32 0xfff440713ee112fffbb06089ee4209a390b61927595c1fd7dcb4fdb9a3b2a076
  else if data = utf8 (savedText .insertion nextState) then
    bytesOf 32 0xab5e293d46288f1e623e2175b46e23d328257af40c6a134640ea37369628e3c3
  else if data = utf8 (savedText .insertion countsState) then
    bytesOf 32 0x8eb204743fd612c705bb11681d5191fe08dc4cab65bd83c26615a11612310c4f
  else if data = utf8 (loadedText countsState) then
    bytesOf 32 0x990785bb4ecbfdc214c9830040378f262b8475dcba8f64ed0e66c5b31132e3a3
  else bytesOf 32 0

/-- An engine at the root of a file system. -/
def exampleHost : Host where
  crypto := { Crypto.ofTable [] [] [] with sha256 := checkpointDigest }
  sorter := .insertion
  cwd := []

theorem digestSize_exampleHost : DigestSize exampleHost.crypto := by
  intro data
  have hlen : ∀ n, (bytesOf 32 n).length = 32 := fun n => by
    rw [bytesOf, List.length_map, List.length_range]
  show (checkpointDigest data).length = 32
  unfold checkpointDigest
  split
  · exact hlen _
  split
  · exact hlen _
  split
  · exact hlen _
  split
  · exact hlen _
  · exact hlen _

/-- A checkpoint of the cell `c` in `/d`. -/
def exampleCall (s : State) : Files × Bool × PyStr :=
  createCheckpoint exampleHost .empty (text "c") s (text "/d") .none

/-- The call returns `True`, with both states. -/
theorem exampleCall_returns : ∀ s ∈ [testState, countsState],
    exampleCall s = ((exampleCall s).1, true, (exampleCall s).2.2) := by
  have htest : (exampleCall testState).2.1 = true := by decide +kernel
  have hcounts : (exampleCall countsState).2.1 = true := by decide +kernel
  intro s hs
  simp only [List.mem_cons, List.not_mem_nil, or_false] at hs
  rcases hs with rfl | rfl
  · exact Prod.ext rfl (Prod.ext htest rfl)
  · exact Prod.ext rfl (Prod.ext hcounts rfl)

theorem ordered_testState : Ordered exampleHost.sorter (.dict testState) := by decide

theorem round_trip_testState :
    resurrectState exampleHost (exampleCall testState).1 (text "c") (text "/d") =
      (true, stateImage testState, "OK") := by
  have hfree : NoCollision exampleHost testState := fun _ => by decide
  exact (round_trip_iff exampleHost digestSize_exampleHost (exampleCall_returns _ (.head _))
    hfree).mpr ordered_testState

/-- Integers are sorted as numbers, and as strings once they are loaded. -/
theorem integer_keys_are_not_resurrected :
    ¬∀ (H : Host) (fs fs' : Files) (cellId checkpointDir stateHash : PyStr) (stateData : State),
      DigestSize H.crypto → NoCollision H stateData →
      createCheckpoint H fs cellId stateData checkpointDir .none = (fs', true, stateHash) →
      resurrectState H fs' cellId checkpointDir = (true, stateImage stateData, "OK") := by
  intro h
  have hfail : (resurrectState exampleHost (exampleCall countsState).1 (text "c") (text "/d")).1 =
      false := by decide +kernel
  have hfree : NoCollision exampleHost countsState := fun heq => absurd heq (by decide +kernel)
  have hcreate := exampleCall_returns countsState (.tail _ (.head _))
  have hok := h _ _ _ _ _ _ _ digestSize_exampleHost hfree hcreate
  exact absurd ((congrArg Prod.fst hok).symm.trans hfail) (by decide)

end Resurrection
end SovereignSeed
