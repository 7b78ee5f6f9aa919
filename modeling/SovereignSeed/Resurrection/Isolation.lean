import SovereignSeed.Foundation.Machine
import SovereignSeed.Resurrection.Interruption

/-!
# Cells and their files

An id becomes part of a path as it is, and different paths may lead to one file; the
`cell_id` inside it is never compared.  What one cell does is hidden from another as long
as their paths lead to different places.

## Main definitions

* `cellMachine` — calls for any ids, one after the other, with the state that each cell
  has saved last.
* `Apart` — the call touches nothing on the way to the file of `b`.
* `Faithful` — what is resurrected under `b` was saved under `b`.

## Main results

* `resurrectState_apart` — a call for another cell, apart from `b`, is hidden from `b`.
* `cells_isolated` — **in every run of calls apart from `b` the cell `b` is isolated.**
* `apart_of_plain` — ids without slashes and surrogates are apart.
-/

namespace SovereignSeed
namespace Resurrection

open Python Json Tollbridge

/-! ### Runs -/

/-- A call of the engine. -/
inductive Call
  | create (cellId : PyStr) (stateData : State) (halt : Halt)
  | resurrect (cellId : PyStr)

/-- The files, and for every cell the state of the last call that opened its file. -/
structure Cells where
  files : Files
  saved : PyStr → Option State

/-- The place of the file that a call opens. -/
def target (H : Host) (fs : Files) (cellId : PyStr) (stateData : State) (checkpointDir : PyStr)
    (halt : Halt) : Option (Place Bytes) :=
  let made := halt.make H fs checkpointDir
  if made.2 && (normalize H.sorter (.dict stateData)).isSome then
    (resolve H.cwd made.1 (filePath checkpointDir cellId)).filter fun p => made.1.Free p
  else none

/-- The calls of all cells, in one checkpoint directory. -/
def cellMachine (H : Host) (checkpointDir : PyStr) : Machine Cells Call where
  init c := c.saved = fun _ => none
  step c call :=
    match call with
    | .create cellId stateData halt => some {
        files := (createCheckpoint H c.files cellId stateData checkpointDir halt).1
        saved := if (target H c.files cellId stateData checkpointDir halt).isSome then
          Function.update c.saved cellId (some stateData) else c.saved }
    | .resurrect _ => some c

/-- The call touches nothing on the way to the file of the cell `b`: the directories that
it makes uncover nothing there, and another cell's file is at another place. -/
def Apart (H : Host) (checkpointDir b : PyStr) (c : Cells) : Call → Prop
  | .create a stateData halt =>
    nodeAt H.cwd (halt.make H c.files checkpointDir).1 (filePath checkpointDir b) =
        nodeAt H.cwd c.files (filePath checkpointDir b) ∧
      (a ≠ b → ∀ p, target H c.files a stateData checkpointDir halt = some p →
        resolve H.cwd (halt.make H c.files checkpointDir).1 (filePath checkpointDir b) ≠ some p)
  | .resurrect _ => True

/-- What is resurrected under `b` is the state that `b` has saved last. -/
def Faithful (H : Host) (checkpointDir b : PyStr) (c : Cells) : Prop :=
  ∀ d, resurrectState H c.files b checkpointDir = (true, d, "OK") →
    ∃ s, c.saved b = some s ∧ d = stateImage s

section Steps

variable {H : Host} {fs fs' : Files} {checkpointDir a b : PyStr} {stateData : State} {halt : Halt}
  {c c' : Cells} {p : Place Bytes}

theorem target_eq_some_iff : target H fs a stateData checkpointDir halt = some p ↔
    ∃ normalizedState, Opens H fs a stateData checkpointDir halt normalizedState p := by
  unfold target
  extract_lets made
  split
  · next hok =>
    obtain ⟨hmade, hnorm⟩ := Bool.and_eq_true_iff.mp hok
    obtain ⟨normalizedState, hnorm⟩ := Option.isSome_iff_exists.mp hnorm
    rw [Option.filter_eq_some_iff]
    constructor
    · exact fun h => ⟨normalizedState, hmade, hnorm, h.1, of_decide_eq_true h.2⟩
    · exact fun ⟨_, h⟩ => ⟨h.resolved, decide_eq_true h.free⟩
  · next hok =>
    refine ⟨nofun, fun ⟨normalizedState, h⟩ => absurd (Bool.and_eq_true_iff.mpr ⟨h.made, ?_⟩) hok⟩
    rw [h.normalized]
    rfl

theorem resurrectState_congr (h : nodeAt H.cwd fs' (filePath checkpointDir b) =
    nodeAt H.cwd fs (filePath checkpointDir b)) :
    resurrectState H fs' b checkpointDir = resurrectState H fs b checkpointDir := by
  rw [resurrectState, h, resurrectState]

/-- **A call for another cell, apart from `b`, is hidden from `b`.** -/
theorem resurrectState_apart (hab : a ≠ b)
    (h : Apart H checkpointDir b c (.create a stateData halt)) :
    resurrectState H (createCheckpoint H c.files a stateData checkpointDir halt).1 b checkpointDir =
      resurrectState H c.files b checkpointDir := by
  obtain ⟨hnode, hplace⟩ := h
  rw [← resurrectState_congr hnode]
  rcases createCheckpoint_cases H c.files a stateData checkpointDir halt with
    ⟨normalizedState, p, fs', hopens, hwrite, heq⟩ | ⟨-, heq⟩
  · rw [files_of_create heq]
    refine resurrectState_congr ?_
    rw [nodeAt, nodeAt, resolve_writeFile hwrite]
    have hne := hplace hab p (target_eq_some_iff.mpr ⟨_, hopens⟩)
    -- a file of `b` is at another place than the one written
    cases hb : resolve H.cwd (halt.make H c.files checkpointDir).1 (filePath checkpointDir b) with
    | none => rfl
    | some q =>
      rw [hb] at hne
      exact FileSystem.node_writeFile_of_ne hwrite fun hqp => hne (congrArg some hqp)
  · rw [heq]

/-- A call that is apart from `b` keeps `b` faithful. -/
theorem faithful_create (hfaithful : Faithful H checkpointDir b c)
    (hapart : Apart H checkpointDir b c (.create a stateData halt))
    (hstep : (cellMachine H checkpointDir).step c (.create a stateData halt) = some c') :
    Faithful H checkpointDir b c' := by
  obtain rfl := Option.some.inj hstep
  intro d hok
  dsimp only at hok ⊢
  by_cases hab : a = b
  · subst hab
    rcases createCheckpoint_cases H c.files a stateData checkpointDir halt with
      ⟨normalizedState, p, fs', hopens, hwrite, heq⟩ | ⟨hnever, heq⟩
    · -- the file of `a` has been opened
      rw [target_eq_some_iff.mpr ⟨_, hopens⟩, if_pos Option.isSome_some, Function.update_self]
      rw [files_of_create heq, hopens.resurrect hwrite] at hok
      exact ⟨stateData, rfl, eq_of_verify_written halt (normalize_eq_some hopens.normalized).2 hok⟩
    · -- no file has been opened, and the new directories do not matter to `a`
      have hnone : target H c.files a stateData checkpointDir halt = none := by
        refine Option.eq_none_iff_forall_ne_some.mpr fun p hp => ?_
        obtain ⟨normalizedState, hopens⟩ := target_eq_some_iff.mp hp
        exact hnever _ _ hopens
      rw [hnone, Option.isSome_none, if_neg Bool.false_ne_true]
      rw [heq, resurrectState_congr hapart.1] at hok
      exact hfaithful d hok
  · rw [resurrectState_apart hab hapart] at hok
    obtain ⟨s, hs, hd⟩ := hfaithful d hok
    refine ⟨s, ?_, hd⟩
    split
    · rw [Function.update_of_ne (Ne.symm hab), hs]
    · exact hs

/-- **In every run of calls apart from `b` the cell `b` is isolated**: what is resurrected
under `b` is the state that `b` has saved last, and no call for another cell changes it. -/
theorem cells_isolated (H : Host) (checkpointDir b : PyStr) {c c' : Cells} {calls : List Call}
    (hstart : Faithful H checkpointDir b c)
    (hrun : (cellMachine H checkpointDir).Path (Apart H checkpointDir b) c calls c') :
    Faithful H checkpointDir b c' ∧
      ∀ a s halt, a ≠ b → Apart H checkpointDir b c' (.create a s halt) →
        resurrectState H (createCheckpoint H c'.files a s checkpointDir halt).1 b checkpointDir =
          resurrectState H c'.files b checkpointDir := by
  refine ⟨hrun.invariant (fun c call c' hc hapart hstep => ?_) hstart,
    fun a s halt hab hapart => resurrectState_apart hab hapart⟩
  cases call with
  | create a stateData halt => exact faithful_create hc hapart hstep
  | resurrect a =>
    obtain rfl := Option.some.inj hstep
    exact hc

end Steps

/-! ### Plain ids -/

/-- An id without slashes and surrogates. -/
def plainId (cellId : PyStr) : Bool := cellId.all fun c => c != slash && !isSurrogate c

/-- The ids of a call are plain. -/
def Call.plain : Call → Bool
  | .create a _ _ => plainId a
  | .resurrect _ => true

/-- The checkpoint directory is there. -/
def DirThere (H : Host) (checkpointDir : PyStr) (fs : Files) : Prop :=
  ∃ q, resolve H.cwd fs checkpointDir = some q ∧ fs.isDir q = true

section Plain

variable {H : Host} {fs : Files} {checkpointDir a b : PyStr} {stateData : State} {halt : Halt}
  {c c' : Cells} {p : Place Bytes}

/-- The name of the file of a plain id. -/
theorem plain_name (h : plainId a = true) : slash ∉ a ++ text "_checkpoint.json" ∧
    (a ++ text "_checkpoint.json").any isSurrogate = false := by
  have hsuffix : plainId (text "_checkpoint.json") = true := by decide
  have hall : plainId (a ++ text "_checkpoint.json") = true := by
    rw [plainId, List.all_append]
    exact Bool.and_eq_true_iff.mpr ⟨h, hsuffix⟩
  rw [plainId, List.all_eq_true] at hall
  constructor
  · intro hmem
    exact absurd (hall slash hmem) (by decide)
  · rw [List.any_eq_false]
    intro c hc hsurrogate
    have hplain := hall c hc
    rw [hsurrogate, Bool.not_true, Bool.and_false] at hplain
    cases hplain

/-- The file of a plain id is in the checkpoint directory, under the bytes of its name. -/
theorem resolve_plain (h : plainId a = true)
    (hp : resolve H.cwd fs (filePath checkpointDir a) = some p) :
    ∃ b q, fsencode (a ++ text "_checkpoint.json") = some b ∧ p = b :: q ∧
      resolve H.cwd fs checkpointDir = some q := by
  rw [filePath, resolve_joinPath _ _ _ (plain_name h).1] at hp
  obtain ⟨c, hc, hp⟩ := Option.bind_eq_some_iff.mp hp
  obtain ⟨q, hq, hp⟩ := Option.bind_eq_some_iff.mp hp
  -- the name is longer than `""`, `"."` and `".."`
  have hlen : 16 ≤ (a ++ text "_checkpoint.json").length := by
    rw [List.length_append, show (text "_checkpoint.json").length = 16 by decide]
    omega
  have hshort : ∀ s : PyStr, s.length < 16 → a ++ text "_checkpoint.json" ≠ s := by
    rintro s hs rfl
    omega
  rw [component, if_neg (not_or.mpr ⟨hshort _ (by decide), hshort _ (by decide)⟩),
    if_neg (hshort _ (by decide))] at hc
  obtain ⟨b, hb, rfl⟩ := Option.map_eq_some_iff.mp hc
  split at hp
  · exact ⟨b, q, hb, (Option.some.inj hp).symm, hq⟩
  · cases hp

/-- **Plain ids have files at different places.** -/
theorem ne_of_plain {q : Place Bytes} (ha : plainId a = true) (hb : plainId b = true) (hab : a ≠ b)
    (hp : resolve H.cwd fs (filePath checkpointDir a) = some p)
    (hq : resolve H.cwd fs (filePath checkpointDir b) = some q) : p ≠ q := by
  obtain ⟨n, -, hn, rfl, -⟩ := resolve_plain ha hp
  obtain ⟨m, -, hm, rfl, -⟩ := resolve_plain hb hq
  intro heq
  -- one directory, so the names are the same bytes
  obtain rfl : n = m := (List.cons.inj heq).1
  exact hab (List.append_cancel_right
    (fsencode_injective (plain_name ha).2 (plain_name hb).2 hn hm))

/-- The directories of a call are there. -/
theorem make_of_dirThere (h : DirThere H checkpointDir fs) (halt : Halt) :
    (halt.make H fs checkpointDir).1 = fs := by
  obtain ⟨q, hq, hdir⟩ := h
  obtain ⟨hall, hsome⟩ := makedirs_of_resolve hq hdir
  cases halt with
  | none => exact hall
  | making k => exact hsome k
  | writing n => exact hall

/-- **Plain ids are apart**, in a directory that is there. -/
theorem apart_of_plain (hdir : DirThere H checkpointDir c.files) (hb : plainId b = true)
    {call : Call} (hcall : call.plain = true) : Apart H checkpointDir b c call := by
  cases call with
  | resurrect a => trivial
  | create a stateData halt =>
    rw [Apart, make_of_dirThere hdir]
    refine ⟨rfl, fun hab p hp hq => ?_⟩
    obtain ⟨normalizedState, hopens⟩ := target_eq_some_iff.mp hp
    have hres := hopens.resolved
    rw [make_of_dirThere hdir] at hres
    exact ne_of_plain hcall hb hab hres hq rfl

/-- A directory stays there. -/
theorem dirThere_step {call : Call} (h : DirThere H checkpointDir c.files)
    (hstep : (cellMachine H checkpointDir).step c call = some c') :
    DirThere H checkpointDir c'.files := by
  cases call with
  | resurrect a =>
    obtain rfl := Option.some.inj hstep
    exact h
  | create a stateData halt =>
    obtain rfl := Option.some.inj hstep
    have hmake := make_of_dirThere h halt
    rcases createCheckpoint_cases H c.files a stateData checkpointDir halt with
      ⟨normalizedState, p, fs', hopens, hwrite, heq⟩ | ⟨-, heq⟩
    · obtain ⟨q, hq, hdir⟩ := h
      rw [hmake] at hwrite
      show DirThere H checkpointDir (createCheckpoint H c.files a stateData checkpointDir halt).1
      rw [files_of_create heq]
      exact ⟨q, (resolve_writeFile hwrite _).trans hq,
        (FileSystem.isDir_writeFile hwrite q).trans hdir⟩
    · show DirThere H checkpointDir (createCheckpoint H c.files a stateData checkpointDir halt).1
      rw [heq, hmake]
      exact h

/-- **Runs of plain ids are apart from every plain id.** -/
theorem path_apart_of_plain {calls : List Call} (hb : plainId b = true)
    (hrun : (cellMachine H checkpointDir).Path (fun _ call => call.plain = true) c calls c') :
    DirThere H checkpointDir c.files →
      (cellMachine H checkpointDir).Path (Apart H checkpointDir b) c calls c' := by
  induction hrun with
  | nil => exact fun _ => .nil _
  | cons hplain hstep _ ih =>
    exact fun hdir => .cons (apart_of_plain hdir hb hplain) hstep (ih (dirThere_step hdir hstep))

end Plain

/-! ### Ids that are paths -/

/-- A checkpoint directory `/d` with nothing in it. -/
def exampleCells : Cells where
  files := (makedirs exampleHost.cwd .empty (text "/d")).1
  saved _ := none

theorem dirThere_exampleCells : DirThere exampleHost (text "/d") exampleCells.files :=
  ⟨[[0x64]], by decide, by decide⟩

/-- A checkpoint, and one for another cell that is cut short. -/
def exampleCalls : List Call :=
  [.create (text "c") testState .none, .create (text "a") countsState (.writing 1)]

theorem cells_isolated_plain : ∃ c', (cellMachine exampleHost (text "/d")).Path
      (Apart exampleHost (text "/d") (text "c")) exampleCells exampleCalls c' ∧
    Faithful exampleHost (text "/d") (text "c") c' ∧
    ∀ a s halt, a ≠ text "c" → Apart exampleHost (text "/d") (text "c") c' (.create a s halt) →
      resurrectState exampleHost (createCheckpoint exampleHost c'.files a s (text "/d") halt).1
        (text "c") (text "/d") = resurrectState exampleHost c'.files (text "c") (text "/d") := by
  have hfail : (resurrectState exampleHost exampleCells.files (text "c") (text "/d")).1 =
      false := by decide
  have hstart : Faithful exampleHost (text "/d") (text "c") exampleCells := fun d hok =>
    absurd ((congrArg Prod.fst hok).symm.trans hfail) Bool.noConfusion
  obtain ⟨c', hexec⟩ : ∃ c', (cellMachine exampleHost (text "/d")).exec
      (fun _ call => call.plain) exampleCells exampleCalls = some c' :=
    Option.isSome_iff_exists.mp (by decide)
  have hc : plainId (text "c") = true := by decide
  have hrun := path_apart_of_plain hc (Machine.path_of_exec hexec) dirThere_exampleCells
  exact ⟨c', hrun, cells_isolated exampleHost (text "/d") (text "c") hstart hrun⟩

/-- A call for the cell `./c` writes the file of the cell `c`. -/
theorem path_ids_are_not_isolated :
    ¬∀ (H : Host) (checkpointDir a b : PyStr) (calls : List Call) (c c' : Cells) (s : State),
      (cellMachine H checkpointDir).init c →
      (cellMachine H checkpointDir).Path Machine.free c calls c' → a ≠ b →
      resurrectState H (createCheckpoint H c'.files a s checkpointDir .none).1 b checkpointDir =
        resurrectState H c'.files b checkpointDir := by
  intro h
  have hsame := h exampleHost (text "/d") (text "./c") (text "c") [] exampleCells _ testState rfl
    (.nil _) (by decide)
  have hbefore : (resurrectState exampleHost exampleCells.files (text "c") (text "/d")).1 =
      false := by decide
  have hafter : (resurrectState exampleHost (createCheckpoint exampleHost exampleCells.files
      (text "./c") testState (text "/d") .none).1 (text "c") (text "/d")).1 = true := by
    decide +kernel
  rw [hsame, hbefore] at hafter
  cases hafter

end Resurrection
end SovereignSeed
