import SovereignSeed.Python.JsonPrefix
import SovereignSeed.Resurrection.Checkpoint

/-!
# Interrupted checkpoints

The writer opens the cell's file and so empties it, before it writes the first character
of the new one.  Between the two, and up to the last brace, what is in the file is no
JSON.

## Main definitions

* `SafePoint` — the points where a call may be cut short.

## Main results

* `verifyCheckpoint_take` — a beginning of a file is not resurrected.
* `interrupted_iff` — **a call that is cut short leaves one of the two states exactly at
  a safe point.**
-/

namespace SovereignSeed
namespace Resurrection

open Python Json Tollbridge

variable {H : Host} {fs fs' : Files} {cellId checkpointDir : PyStr} {stateData : State}
  {halt : Halt}

/-! ### What stays -/

/-- What is resurrected is in a file. -/
theorem file_of_resurrected {d : Members}
    (h : resurrectState H fs cellId checkpointDir = (true, d, "OK")) :
    ∃ contents, nodeAt H.cwd fs (filePath checkpointDir cellId) = some (.file contents) := by
  unfold resurrectState at h
  split at h
  · cases h
  · cases h
  · next contents hnode => exact ⟨contents, hnode⟩

/-- The directories that a call makes are added to what is there. -/
theorem grows_make (halt : Halt) (H : Host) (fs : Files) (checkpointDir : PyStr) :
    FileSystem.Grows fs (halt.make H fs checkpointDir).1 := by
  cases halt with
  | none => exact grows_makedirs H.cwd fs checkpointDir
  | making k => exact grows_makedirsUpTo k H.cwd fs checkpointDir
  | writing n => exact grows_makedirs H.cwd fs checkpointDir

/-- The directories change nothing for a cell that has a file. -/
theorem resurrectState_make {d : Members} (halt : Halt)
    (h : resurrectState H fs cellId checkpointDir = (true, d, "OK")) :
    resurrectState H (halt.make H fs checkpointDir).1 cellId checkpointDir = (true, d, "OK") := by
  obtain ⟨contents, hnode⟩ := file_of_resurrected h
  rw [← h, resurrectState, resurrectState, hnode,
    nodeAt_grows (grows_make halt H fs checkpointDir) hnode]

/-- A cell that has a file gets another one. -/
theorem opens_of_resurrected {d : Members} {normalizedState : PyStr}
    (h : resurrectState H fs cellId checkpointDir = (true, d, "OK"))
    (hmade : (halt.make H fs checkpointDir).2 = true)
    (hnorm : normalize H.sorter (.dict stateData) = some normalizedState) :
    ∃ p, Opens H fs cellId stateData checkpointDir halt normalizedState p := by
  obtain ⟨contents, hnode⟩ := file_of_resurrected h
  obtain ⟨p, hp, hfile⟩ := Option.bind_eq_some_iff.mp
    (nodeAt_grows (grows_make halt H fs checkpointDir) hnode)
  exact ⟨p, hmade, hnorm, hp, FileSystem.free_of_file hfile⟩

/-! ### What is cut off -/

/-- **A beginning of a file is not resurrected.** -/
theorem verifyCheckpoint_take {stateHash : PyStr} {n : ℕ}
    (h : (PyData.dict stateData).value.printable = true)
    (hn : n < (fileText cellId stateHash stateData).length) :
    verifyCheckpoint H ((fileText cellId stateHash stateData).take n) =
      (false, [], "RESURRECTION_RUNTIME_EXCEPTION") := by
  have hload : load ((fileText cellId stateHash stateData).take n) = none := by
    have hrest : (fileText cellId stateHash stateData).drop n ≠ [] := by
      rw [ne_eq, List.drop_eq_nil_iff]
      omega
    have hparse : parse ((fileText cellId stateHash stateData).take n) = none :=
      parse_eq_none_of_append (L := .indented) (printable_checkpointPayload cellId stateHash h)
        (List.take_append_drop n _) hrest
    rw [load, hparse, Option.map_none]
  rw [verifyCheckpoint, hload]

/-- Nothing but the state is resurrected from what is left of its file. -/
theorem eq_of_verify_written {stateHash : PyStr} {d : Members} (halt : Halt)
    (h : (PyData.dict stateData).value.printable = true)
    (hok : verifyCheckpoint H (halt.written (fileText cellId stateHash stateData)) =
      (true, d, "OK")) : d = stateImage stateData := by
  cases halt with
  | none => exact eq_of_verify_fileText h hok
  | making k => exact eq_of_verify_fileText h hok
  | writing n =>
    rw [written_writing] at hok
    rcases lt_or_ge n (fileText cellId stateHash stateData).length with hn | hn
    · rw [verifyCheckpoint_take h hn] at hok
      cases hok
    · rw [List.take_of_length_le hn] at hok
      exact eq_of_verify_fileText h hok

/-- The points where a call may be cut short: before the file is opened, or behind its
last character, if the state is one that is resurrected. -/
def SafePoint (H : Host) (fs : Files) (cellId : PyStr) (stateData : State)
    (checkpointDir : PyStr) : Halt → Prop
  | .writing n =>
    (makedirs H.cwd fs checkpointDir).2 = false ∨
    normalize H.sorter (.dict stateData) = none ∨
    (fileText cellId (H.stateHash (savedText H.sorter stateData)) stateData).length ≤ n ∧
      Ordered H.sorter (.dict stateData)
  | _ => True

/-- **A call that fails or is cut short leaves the old state or the new one exactly at a
safe point.** -/
theorem interrupted_iff (hsize : DigestSize H.crypto) {d₀ : Members}
    (hold : resurrectState H fs cellId checkpointDir = (true, d₀, "OK"))
    (hcut : (createCheckpoint H fs cellId stateData checkpointDir halt).2.1 = false)
    (hfree : NoCollision H stateData) :
    (resurrectState H (createCheckpoint H fs cellId stateData checkpointDir halt).1 cellId
        checkpointDir = (true, d₀, "OK") ∨
      resurrectState H (createCheckpoint H fs cellId stateData checkpointDir halt).1 cellId
        checkpointDir = (true, stateImage stateData, "OK")) ↔
      SafePoint H fs cellId stateData checkpointDir halt := by
  rcases createCheckpoint_cases H fs cellId stateData checkpointDir halt with
    ⟨normalizedState, p, fs', hopens, hwrite, heq⟩ | ⟨hnever, heq⟩
  · obtain ⟨rfl, hprintable⟩ := normalize_eq_some hopens.normalized
    cases halt with
    | none =>
      rw [heq] at hcut
      cases hcut
    | making k => exact absurd hopens.made Bool.false_ne_true
    | writing n =>
      have hsafe : SafePoint H fs cellId stateData checkpointDir (.writing n) ↔
          (fileText cellId (H.stateHash (savedText H.sorter stateData)) stateData).length ≤ n ∧
            Ordered H.sorter (.dict stateData) := by
        have hmade : (makedirs H.cwd fs checkpointDir).2 = true := hopens.made
        simp [SafePoint, hmade, hopens.normalized]
      rw [files_of_create heq, hopens.resurrect hwrite, written_writing, hsafe]
      rcases lt_or_ge n (fileText cellId (H.stateHash (savedText H.sorter stateData))
        stateData).length with hn | hn
      · rw [verifyCheckpoint_take hprintable hn]
        simp [Nat.not_le.mpr hn]
      · rw [List.take_of_length_le hn, verify_savedText_iff hsize cellId hprintable hfree]
        refine ⟨fun h => ⟨hn, h.elim (fun hold => ?_) id⟩, fun h => .inr h.2⟩
        rw [eq_of_verify_fileText hprintable hold] at hold
        exact (verify_savedText_iff hsize cellId hprintable hfree).mp hold
  · -- the file is as it was
    have hstays := resurrectState_make halt hold
    rw [heq]
    refine ⟨fun _ => ?_, fun _ => .inl hstays⟩
    cases halt with
    | none => trivial
    | making k => trivial
    | writing n =>
      rcases hmade : (makedirs H.cwd fs checkpointDir).2 with _ | _
      · exact .inl hmade
      rcases hnorm : normalize H.sorter (.dict stateData) with _ | normalizedState
      · exact .inr (.inl hnorm)
      obtain ⟨p, hopens⟩ :
          ∃ p, Opens H fs cellId stateData checkpointDir (.writing n) normalizedState p :=
        opens_of_resurrected hold hmade hnorm
      exact absurd hopens (hnever _ _)

/-- The test's state in the file of the cell `c`, and a call for the same cell with the next state
that is cut short behind `n` characters. -/
def exampleCut (n : ℕ) : Files × Bool × PyStr :=
  createCheckpoint exampleHost (exampleCall testState).1 (text "c") nextState (text "/d")
    (.writing n)

theorem resurrected_testState :
    resurrectState exampleHost (exampleCall testState).1 (text "c") (text "/d") =
      (true, stateImage testState, "OK") :=
  resurrect_of_ordered digestSize_exampleHost (exampleCall_returns _ (.head _)) ordered_testState

/-- Behind the last character the new state is there. -/
theorem interrupted_behind_the_end :
    resurrectState exampleHost (exampleCut 1000).1 (text "c") (text "/d") =
        (true, stateImage testState, "OK") ∨
      resurrectState exampleHost (exampleCut 1000).1 (text "c") (text "/d") =
        (true, stateImage nextState, "OK") := by
  have hcut : (exampleCut 1000).2.1 = false := by decide +kernel
  have hfree : NoCollision exampleHost nextState := fun _ => by decide
  have hfull : (fileText (text "c") (exampleHost.stateHash (savedText exampleHost.sorter nextState))
    nextState).length ≤ 1000 := by decide +kernel
  have hordered : Ordered exampleHost.sorter (.dict nextState) := by decide
  exact (interrupted_iff digestSize_exampleHost resurrected_testState hcut hfree).mpr
    (.inr (.inr ⟨hfull, hordered⟩))

/-- An open file that nothing is written to yet holds neither state. -/
theorem interrupted_checkpoint_is_lost :
    ¬∀ (H : Host) (fs : Files) (cellId checkpointDir : PyStr) (s₀ s₁ : State) (halt : Halt),
      DigestSize H.crypto → NoCollision H s₁ →
      resurrectState H fs cellId checkpointDir = (true, stateImage s₀, "OK") →
      (createCheckpoint H fs cellId s₁ checkpointDir halt).2.1 = false →
      resurrectState H (createCheckpoint H fs cellId s₁ checkpointDir halt).1 cellId
          checkpointDir = (true, stateImage s₀, "OK") ∨
        resurrectState H (createCheckpoint H fs cellId s₁ checkpointDir halt).1 cellId
          checkpointDir = (true, stateImage s₁, "OK") := by
  intro h
  have hcut : (exampleCut 0).2.1 = false := by decide +kernel
  have hfree : NoCollision exampleHost nextState := fun _ => by decide
  have hfail : (resurrectState exampleHost (exampleCut 0).1 (text "c") (text "/d")).1 = false := by
    decide +kernel
  rcases h _ _ _ _ _ _ _ digestSize_exampleHost hfree resurrected_testState hcut with hok | hok
  · exact absurd ((congrArg Prod.fst hok).symm.trans hfail) (by decide)
  · exact absurd ((congrArg Prod.fst hok).symm.trans hfail) (by decide)

end Resurrection
end SovereignSeed
