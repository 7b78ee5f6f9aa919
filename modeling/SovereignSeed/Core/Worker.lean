import SovereignSeed.Python.FloatText
import SovereignSeed.Python.JsonLoaded
import SovereignSeed.Python.JsonPrefix
import SovereignSeed.Python.OsPath

/-!
# The worker of a cell

`execute_task` of `worker.py` behind `enforce_sandbox` of `sandbox.py`: outside a container the
process ends, without a master key the call returns `False`, and otherwise `evidence_return.json` is
opened, which empties it, and written.  A call may be cut short while it writes.

## Main definitions

* `Call`, `executeTask` — a call with what is in the environment, and what it does to the files.
* `writes` — the calls that come to open the file.
* `readEvidence` — what is loaded from the file.

## Main results

* `executeTask_cases` — what a call does.
* `writes_executeTask` — no call changes whether another one comes to open the file.
* `evidence_of_runs` — **what can be read behind any row of calls is the evidence of the last one
  that came to open the file, if it came to its end.**
-/

namespace SovereignSeed
namespace Core

open Python Json

/-! ### The call -/

/-- A call of `execute_task`, in the environment that `load_dotenv` leaves. -/
structure Call where
  /-- `SIP_ALLOW_UNSANDBOXED`. -/
  allowUnsandboxed : Option PyStr
  /-- `SIP_MASTER_KEY`. -/
  masterKey : Option PyStr
  /-- `time.time()`. -/
  now : PyFloat
  /-- How many characters are written where the call is cut short. -/
  cut : Option ℕ

/-- How a call ends. -/
inductive Outcome
  /-- `sys.exit(1)`. -/
  | exited
  /-- `return False`. -/
  | refused
  /-- An `OSError`. -/
  | raised
  /-- It returns `None`. -/
  | completed
  /-- It is cut short. -/
  | interrupted
  deriving DecidableEq

/-- `s.lower() == "true"`; no letter beyond ASCII has one of these for its small letter. -/
def isTrue (s : PyStr) : Bool := s.map lower == text "true"

/-- `is_containerized`. -/
def isContainerized (cwd : Place Bytes) (fs : Files) : Bool :=
  (nodeAt cwd fs (text "/.dockerenv")).isSome || (nodeAt cwd fs (text "/run/.containerenv")).isSome

/-- `enforce_sandbox` returns. -/
def sandboxed (cwd : Place Bytes) (fs : Files) (c : Call) : Bool :=
  isContainerized cwd fs || isTrue (c.allowUnsandboxed.getD (text "false"))

/-- The evidence. -/
def evidence (now : PyFloat) : Members :=
  [(text "status", .str (text "SUCCESS")), (text "timestamp", .float now),
    (text "sandbox_verified", .bool true),
    (text "proof_type", .str (text "Ed25519-Signed-Execution"))]

/-- What `json.dump(evidence, f, indent=2)` writes. -/
def evidenceText (now : PyFloat) : PyStr := (Value.obj (evidence now)).render .indented 0

/-- The name of the file. -/
def evidencePath : PyStr := text "evidence_return.json"

/-- What is left in the file. -/
def Call.written (c : Call) : PyStr :=
  c.cut.elim (evidenceText c.now) fun n => (evidenceText c.now).take n

/-- `execute_task`: the files behind it, and how it ends. -/
def executeTask (cwd : Place Bytes) (fs : Files) (c : Call) : Files × Outcome :=
  if sandboxed cwd fs c = false then (fs, .exited)
  else if c.masterKey.getD [] = [] then (fs, .refused)
  else
    match (resolve cwd fs evidencePath).bind fun p => fs.writeFile p c.written with
    | none => (fs, .raised)
    | some fs' => (fs', if c.cut.isSome then .interrupted else .completed)

/-- The files behind a row of calls. -/
def runs (cwd : Place Bytes) (fs : Files) (calls : List Call) : Files :=
  calls.foldl (fun fs c => (executeTask cwd fs c).1) fs

/-- What is loaded from the file. -/
def readEvidence (cwd : Place Bytes) (fs : Files) : Option Value :=
  ((resolve cwd fs evidencePath).bind fs.contents).bind load

/-- The call comes to open the file. -/
def writes (cwd : Place Bytes) (fs : Files) (c : Call) : Bool :=
  sandboxed cwd fs c && decide (c.masterKey.getD [] ≠ []) &&
    (resolve cwd fs evidencePath).any fun p => decide (fs.Free p)

/-- The evidence is written to its end. -/
def Call.complete (c : Call) : Bool :=
  c.cut.elim true fun n => decide ((evidenceText c.now).length ≤ n)

/-! ### The evidence -/

theorem loaded_evidence (now : PyFloat) : (Value.obj (evidence now)).Loaded := by
  have hkeys : ([text "status", text "timestamp", text "sandbox_verified", text "proof_type"] :
      List PyStr).Nodup := by decide
  have hkey : ∀ k ∈ [text "status", text "timestamp", text "sandbox_verified", text "proof_type"],
      hasPair k = false := by decide
  refine .obj hkeys (fun m hm => hkey m.1 (List.mem_map_of_mem hm)) fun m hm => ?_
  simp only [evidence, List.mem_cons, List.not_mem_nil, or_false] at hm
  rcases hm with rfl | rfl | rfl | rfl
  · exact .str rfl
  · exact .float now
  · exact .bool true
  · exact .str (by decide)

/-- What is loaded from what a call has written. -/
theorem load_written (c : Call) :
    load c.written = if c.complete then some (.obj (evidence c.now)) else none := by
  have hwhole : load (evidenceText c.now) = some (.obj (evidence c.now)) :=
    (loaded_evidence c.now).load_render .indented
  cases hcut : c.cut with
  | none => rw [Call.written, Call.complete, hcut, Option.elim, Option.elim, hwhole, if_pos rfl]
  | some n =>
    rw [Call.written, Call.complete, hcut, Option.elim, Option.elim]
    by_cases hn : (evidenceText c.now).length ≤ n
    · rw [List.take_of_length_le hn, hwhole, if_pos (decide_eq_true hn)]
    · have hrest : (evidenceText c.now).drop n ≠ [] := by
        rw [ne_eq, List.drop_eq_nil_iff]
        exact hn
      have hparse : parse ((evidenceText c.now).take n) = none :=
        parse_eq_none_of_append (L := .indented) (loaded_evidence c.now).printable
          (List.take_append_drop n _) hrest
      rw [load, hparse, if_neg (by simpa using hn)]
      rfl

/-! ### One call -/

section Calls

variable {cwd : Place Bytes} {fs fs' : Files} {p : Place Bytes}

/-- What a call does: it writes the file, or it leaves the files as they are. -/
theorem executeTask_cases (cwd : Place Bytes) (fs : Files) (c : Call) :
    (writes cwd fs c = true ∧ ∃ p fs', resolve cwd fs evidencePath = some p ∧
      fs.writeFile p c.written = some fs' ∧
      executeTask cwd fs c = (fs', if c.cut.isSome then .interrupted else .completed)) ∨
    (writes cwd fs c = false ∧ (executeTask cwd fs c).1 = fs ∧
      (executeTask cwd fs c).2 ≠ .completed ∧ (executeTask cwd fs c).2 ≠ .interrupted) := by
  unfold executeTask
  split
  · next hbox =>
    refine .inr ⟨?_, rfl, nofun, nofun⟩
    rw [writes, hbox, Bool.false_and, Bool.false_and]
  next hbox =>
  have hbox : sandboxed cwd fs c = true := by simpa using hbox
  split
  · next hkey =>
    refine .inr ⟨?_, rfl, nofun, nofun⟩
    rw [writes, hkey, decide_eq_false (by simp), Bool.and_false, Bool.false_and]
  next hkey =>
  have hwrites : writes cwd fs c =
      (resolve cwd fs evidencePath).any fun p => decide (fs.Free p) := by
    rw [writes, hbox, decide_eq_true hkey, Bool.true_and, Bool.true_and]
  rw [hwrites]
  cases hp : resolve cwd fs evidencePath with
  | none => exact .inr ⟨rfl, rfl, nofun, nofun⟩
  | some p =>
    by_cases hfree : fs.Free p
    · obtain ⟨fs', hwrite⟩ := FileSystem.exists_writeFile hfree c.written
      refine .inl ⟨decide_eq_true hfree, p, fs', rfl, hwrite, ?_⟩
      simp only [Option.bind_some, hwrite]
    · have hnone : fs.writeFile p c.written = none := dif_neg hfree
      refine .inr ⟨decide_eq_false hfree, ?_⟩
      simp only [Option.bind_some, hnone]
      exact ⟨trivial, nofun, nofun⟩

/-- The evidence has a place in the working directory. -/
theorem resolve_evidencePath : resolve cwd fs evidencePath =
    if fs.isDir cwd then some (utf8 evidencePath :: cwd) else none := by
  rfl

/-- The marks of a container have places of other names. -/
theorem ne_of_resolve {path : PyStr} {q : Place Bytes}
    (hpath : path = text "/.dockerenv" ∨ path = text "/run/.containerenv")
    (hq : resolve cwd fs path = some q) (hp : resolve cwd fs evidencePath = some p) : q ≠ p := by
  have hroot : fs.isDir [] = true := FileSystem.isDir_iff.mpr fs.root
  have hname : ∃ ns, p = utf8 evidencePath :: ns := by
    rw [resolve_evidencePath] at hp
    split at hp
    · exact ⟨cwd, (Option.some.inj hp).symm⟩
    · cases hp
  obtain ⟨ns, rfl⟩ := hname
  rcases hpath with rfl | rfl
  · have hdocker : resolve cwd fs (text "/.dockerenv") =
        if fs.isDir [] then if fs.isDir [] then some [utf8 (text ".dockerenv")] else none
        else none := rfl
    rw [hdocker, if_pos hroot, if_pos hroot] at hq
    cases hq
    exact fun heq => absurd (List.cons.inj heq).1 (by decide)
  · have hcontainer : resolve cwd fs (text "/run/.containerenv") =
        if fs.isDir [] then if fs.isDir [] then if fs.isDir [utf8 (text "run")] then
          some [utf8 (text ".containerenv"), utf8 (text "run")] else none else none else none := rfl
    rw [hcontainer, if_pos hroot, if_pos hroot] at hq
    split at hq
    · cases hq
      exact fun heq => absurd (List.cons.inj heq).1 (by decide)
    · cases hq

/-- Where the file is written, the marks of a container stay. -/
theorem isContainerized_writeFile {contents : PyStr} (hp : resolve cwd fs evidencePath = some p)
    (hwrite : fs.writeFile p contents = some fs') :
    isContainerized cwd fs' = isContainerized cwd fs := by
  have hnode : ∀ path, path = text "/.dockerenv" ∨ path = text "/run/.containerenv" →
      nodeAt cwd fs' path = nodeAt cwd fs path := by
    intro path hpath
    rw [nodeAt, nodeAt, resolve_writeFile hwrite]
    cases hq : resolve cwd fs path with
    | none => rfl
    | some q => exact FileSystem.node_writeFile_of_ne hwrite (ne_of_resolve hpath hq hp)
  rw [isContainerized, isContainerized, hnode _ (.inl rfl), hnode _ (.inr rfl)]

/-- No call changes whether another one comes to open the file. -/
theorem writes_executeTask (c c' : Call) :
    writes cwd (executeTask cwd fs c).1 c' = writes cwd fs c' := by
  rcases executeTask_cases cwd fs c with ⟨-, p, fs', hp, hwrite, htask⟩ | ⟨-, hsame, -⟩
  · have hfree : ∀ q, fs'.Free q ↔ fs.Free q := fun q => by
      rw [FileSystem.Free, FileSystem.Free, FileSystem.isDir_writeFile hwrite,
        FileSystem.isDir_writeFile hwrite]
    rw [htask, writes, writes, sandboxed, sandboxed, isContainerized_writeFile hp hwrite,
      resolve_writeFile hwrite]
    simp only [hfree]
  · rw [hsame]

/-- What can be read behind a call. -/
theorem readEvidence_executeTask (c : Call) : readEvidence cwd (executeTask cwd fs c).1 =
    if writes cwd fs c then if c.complete then some (.obj (evidence c.now)) else none
    else readEvidence cwd fs := by
  rcases executeTask_cases cwd fs c with ⟨hwrites, p, fs', hp, hwrite, htask⟩ | ⟨hno, hsame, -⟩
  · rw [htask, readEvidence, resolve_writeFile hwrite, hp, Option.bind_some,
      FileSystem.contents_writeFile_self hwrite, Option.bind_some, load_written, if_pos hwrites]
  · rw [hsame, hno, if_neg Bool.false_ne_true]

/-- A call leaves everything but the file. -/
theorem node_executeTask {q : Place Bytes} (c : Call) (hq : resolve cwd fs evidencePath ≠ some q) :
    (executeTask cwd fs c).1.node q = fs.node q := by
  rcases executeTask_cases cwd fs c with ⟨-, p, fs', hp, hwrite, htask⟩ | ⟨-, hsame, -⟩
  · rw [htask]
    refine FileSystem.node_writeFile_of_ne hwrite ?_
    rintro rfl
    exact hq hp
  · rw [hsame]

theorem resolve_executeTask (c : Call) (path : PyStr) :
    resolve cwd (executeTask cwd fs c).1 path = resolve cwd fs path := by
  rcases executeTask_cases cwd fs c with ⟨-, p, fs', -, hwrite, htask⟩ | ⟨-, hsame, -⟩
  · rw [htask]
    exact resolve_writeFile hwrite path
  · rw [hsame]

/-! ### Rows of calls -/

theorem runs_append_singleton (calls : List Call) (c : Call) :
    runs cwd fs (calls ++ [c]) = (executeTask cwd (runs cwd fs calls) c).1 := by
  rw [runs, runs, List.foldl_append]
  rfl

/-- Behind any calls the same ones come to open the file. -/
theorem writes_runs (calls : List Call) (c : Call) :
    writes cwd (runs cwd fs calls) c = writes cwd fs c := by
  induction calls using List.reverseRecOn with
  | nil => rfl
  | append_singleton calls c' ih => rw [runs_append_singleton, writes_executeTask, ih]

theorem readEvidence_runs (calls : List Call) : readEvidence cwd (runs cwd fs calls) =
    (calls.filter (writes cwd fs)).getLast?.elim (readEvidence cwd fs) fun c =>
      if c.complete then some (.obj (evidence c.now)) else none := by
  induction calls using List.reverseRecOn with
  | nil => rfl
  | append_singleton calls c ih =>
    rw [runs_append_singleton, readEvidence_executeTask, writes_runs, List.filter_append]
    cases hwrites : writes cwd fs c with
    | true =>
      -- the last call decides
      have hone : [c].filter (writes cwd fs) = [c] := by simp [hwrites]
      rw [if_pos rfl, hone, List.getLast?_append, List.getLast?_singleton, Option.some_or]
      rfl
    | false =>
      have hnone : [c].filter (writes cwd fs) = [] := by simp [hwrites]
      rw [if_neg Bool.false_ne_true, hnone, List.append_nil, ih]

theorem node_runs {q : Place Bytes} (calls : List Call)
    (hq : resolve cwd fs evidencePath ≠ some q) : (runs cwd fs calls).node q = fs.node q := by
  have hrun : ∀ calls, resolve cwd (runs cwd fs calls) evidencePath = resolve cwd fs evidencePath ∧
      (runs cwd fs calls).node q = fs.node q := by
    intro calls
    induction calls using List.reverseRecOn with
    | nil => exact ⟨rfl, rfl⟩
    | append_singleton calls c ih =>
      rw [runs_append_singleton, resolve_executeTask]
      exact ⟨ih.1, (node_executeTask c (ih.1 ▸ hq)).trans ih.2⟩
  exact (hrun calls).2

/-- A call returns `None` exactly if it comes to open the file and is not cut short. -/
theorem completed_iff (c : Call) :
    (executeTask cwd fs c).2 = .completed ↔ writes cwd fs c = true ∧ c.cut = none := by
  rcases executeTask_cases cwd fs c with ⟨hwrites, p, fs', -, -, htask⟩ | ⟨hno, -, hcompleted, -⟩
  · rw [htask]
    cases hcut : c.cut with
    | none => exact iff_of_true rfl ⟨hwrites, rfl⟩
    | some n => exact iff_of_false nofun fun h => nomatch h.2
  · exact iff_of_false hcompleted fun h => by simp [hno] at h

/-- **Behind any row of calls, whole or cut short, there is the evidence of the last one that came
to open the file, if it was written to its end, and no evidence if it was not.**  Only calls in a
sandbox with a master key come that far, whatever the others have left; nothing else is written; and
a call that returns leaves its own evidence. -/
theorem evidence_of_runs (cwd : Place Bytes) (fs : Files) (calls : List Call) :
    (readEvidence cwd (runs cwd fs calls) =
      (calls.filter (writes cwd fs)).getLast?.elim (readEvidence cwd fs) fun c =>
        if c.complete then some (.obj (evidence c.now)) else none) ∧
    (∀ c, writes cwd fs c = true → sandboxed cwd fs c = true ∧ c.masterKey.getD [] ≠ []) ∧
    (∀ q, resolve cwd fs evidencePath ≠ some q → (runs cwd fs calls).node q = fs.node q) ∧
    ∀ c, (executeTask cwd (runs cwd fs calls) c).2 = .completed →
      writes cwd fs c = true ∧
        readEvidence cwd (runs cwd fs (calls ++ [c])) = some (.obj (evidence c.now)) := by
  refine ⟨readEvidence_runs calls, fun c hwrites => ?_, fun q hq => node_runs calls hq, ?_⟩
  · rw [writes, Bool.and_eq_true, Bool.and_eq_true, decide_eq_true_eq] at hwrites
    exact hwrites.1
  · intro c hcompleted
    obtain ⟨hwrites, hcut⟩ := (completed_iff c).mp hcompleted
    rw [writes_runs] at hwrites
    have hcomplete : c.complete = true := by rw [Call.complete, hcut, Option.elim]
    rw [runs_append_singleton, readEvidence_executeTask, writes_runs, if_pos hwrites,
      if_pos hcomplete]
    exact ⟨hwrites, rfl⟩

end Calls

end Core
end SovereignSeed
