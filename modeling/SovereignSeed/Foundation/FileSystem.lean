import Mathlib.Data.List.Basic
import Mathlib.Logic.Function.Basic

/-!
# File systems

A tree of directories and files, without links.  A path is resolved component by
component from a place in the tree: each step leaves a directory, so a path may end
where nothing is yet, but does not go on from there.

## Main definitions

* `FileSystem` — the tree: every entry is in a directory.
* `FileSystem.walk` — the resolution of a path.
* `FileSystem.writeFile`, `FileSystem.makeDirs` — a file is written, the directories
  of a path are made.

## Main results

* `walk_writeFile` — **writing a file changes the way to no place.**
* `grows_makeDirs`, `Grows.walk` — making directories changes no file, and no way that
  was there.
-/

namespace SovereignSeed

/-- What is at a place. -/
inductive Node (κ : Type*)
  | dir
  | file (contents : κ)

/-- A component of a path: `.`, `..` or a name. -/
inductive Component (ν : Type*)
  | self
  | up
  | name (n : ν)

/-- A place in the tree: the names on the way to it, the last one first. -/
abbrev Place (ν : Type*) := List ν

/-- Where a component leads. -/
def Component.from {ν : Type*} (p : Place ν) : Component ν → Place ν
  | .self => p
  | .up => p.tail
  | .name n => n :: p

/-- A tree of directories and files. -/
structure FileSystem (ν κ : Type*) where
  node : Place ν → Option (Node κ)
  root : node [] = some .dir
  /-- An entry is in a directory. -/
  parent : ∀ n p, node (n :: p) ≠ none → node p = some .dir

namespace FileSystem

/-- The tree with nothing in it. -/
def empty {ν κ : Type*} : FileSystem ν κ where
  node p := if p.isEmpty then some .dir else none
  root := rfl
  parent _ _ h := absurd rfl h

variable {ν κ : Type*} {fs fs' : FileSystem ν κ} {p q : Place ν} {c : κ} {cs : List (Component ν)}

/-- A directory is there. -/
def isDir (fs : FileSystem ν κ) (p : Place ν) : Bool :=
  match fs.node p with
  | some .dir => true
  | _ => false

/-- The contents of the file that is there. -/
def contents (fs : FileSystem ν κ) (p : Place ν) : Option κ :=
  match fs.node p with
  | some (.file c) => some c
  | _ => none

/-- The place a path leads to, from a place; it need not be there itself. -/
def walk (fs : FileSystem ν κ) : Place ν → List (Component ν) → Option (Place ν)
  | p, [] => some p
  | p, c :: cs => if fs.isDir p then fs.walk (c.from p) cs else none

theorem isDir_iff : fs.isDir p = true ↔ fs.node p = some .dir := by
  unfold isDir
  split
  · next h => simp [h]
  · next h => simpa using h

theorem contents_eq_some_iff : fs.contents p = some c ↔ fs.node p = some (.file c) := by
  unfold contents
  split
  · next h => simp [h]
  · next h => simpa using h c

theorem eq_of_node_eq (h : fs.node = fs'.node) : fs = fs' := by
  cases fs
  cases fs'
  cases h
  rfl

/-! ### Ways -/

/-- Ways lead through directories alone. -/
theorem walk_congr (h : ∀ q, fs'.isDir q = fs.isDir q) : ∀ {cs : List (Component ν)} {p : Place ν},
    fs'.walk p cs = fs.walk p cs := by
  intro cs
  induction cs with
  | nil => exact fun {p} => rfl
  | cons c cs ih =>
    intro p
    rw [walk, walk, h, ih]

/-- Making directories leaves what is there and adds directories alone. -/
structure Grows (fs fs' : FileSystem ν κ) : Prop where
  isDir : ∀ p, fs.isDir p = true → fs'.isDir p = true
  contents : ∀ p, fs'.contents p = fs.contents p

/-- A way that is there stays. -/
theorem Grows.walk (h : Grows fs fs') : ∀ {cs : List (Component ν)} {p q : Place ν},
    fs.walk p cs = some q → fs'.walk p cs = some q := by
  intro cs
  induction cs with
  | nil => exact fun hq => hq
  | cons c cs ih =>
    intro p q hq
    rw [FileSystem.walk] at hq ⊢
    split at hq
    · next hdir =>
      rw [if_pos (h.isDir p hdir)]
      exact ih hq
    · cases hq

theorem walk_append (c : Component ν) : ∀ {cs : List (Component ν)} {p : Place ν},
    fs.walk p (cs ++ [c]) =
      (fs.walk p cs).bind fun q => if fs.isDir q then some (c.from q) else none := by
  intro cs
  induction cs with
  | nil => exact fun {p} => rfl
  | cons c' cs ih =>
    intro p
    rw [List.cons_append, FileSystem.walk, ih, FileSystem.walk]
    split <;> rfl

/-- A way to a directory starts in one. -/
theorem isDir_of_walk (h : fs.walk p cs = some q) (hq : fs.isDir q = true) : fs.isDir p = true := by
  cases cs with
  | nil =>
    obtain rfl := Option.some.inj h
    exact hq
  | cons c cs =>
    rw [FileSystem.walk] at h
    split at h
    · next hp => exact hp
    · cases h

/-! ### Changes -/

/-- A new entry, or a new file for an old one, can be put there. -/
def Free (fs : FileSystem ν κ) (p : Place ν) : Prop :=
  p ≠ [] ∧ fs.isDir p.tail = true ∧ fs.isDir p = false

instance [DecidableEq ν] (fs : FileSystem ν κ) (p : Place ν) : Decidable (fs.Free p) :=
  inferInstanceAs (Decidable (_ ∧ _ ∧ _))

/-- Where a file is, another one can be put. -/
theorem free_of_file (h : fs.node p = some (.file c)) : fs.Free p := by
  cases p with
  | nil =>
    rw [fs.root] at h
    cases h
  | cons n p =>
    have hparent := fs.parent n p (by rw [h]; nofun)
    refine ⟨nofun, isDir_iff.mpr hparent, ?_⟩
    rw [isDir, h]

section Changes

variable [DecidableEq ν]

/-- An entry put at a free place. -/
def put (fs : FileSystem ν κ) (p : Place ν) (x : Node κ) (h : fs.Free p) : FileSystem ν κ where
  node := Function.update fs.node p (some x)
  root := by
    rw [Function.update_of_ne (Ne.symm h.1)]
    exact fs.root
  parent n q hq := by
    have hne : q ≠ p := by
      rintro rfl
      have hnq : n :: q ≠ q := fun heq => absurd (congrArg List.length heq) (by simp)
      rw [Function.update_of_ne hnq] at hq
      have hdir := isDir_iff.mpr (fs.parent n q hq)
      rw [h.2.2] at hdir
      cases hdir
    rw [Function.update_of_ne hne]
    by_cases hp : n :: q = p
    · subst hp
      exact isDir_iff.mp h.2.1
    · rw [Function.update_of_ne hp] at hq
      exact fs.parent n q hq

/-- A file opened for writing and left with contents, unless there is a directory or no
way to it. -/
def writeFile (fs : FileSystem ν κ) (p : Place ν) (c : κ) : Option (FileSystem ν κ) :=
  if h : fs.Free p then some (fs.put p (.file c) h) else none

/-- The directories on a path from a place are made, as far as they are not there. -/
def makeDirs : FileSystem ν κ → Place ν → List (Component ν) → FileSystem ν κ × Option (Place ν)
  | fs, p, [] => (fs, some p)
  | fs, p, c :: cs =>
    if fs.isDir p = false then (fs, none)
    else if fs.isDir (c.from p) then fs.makeDirs (c.from p) cs
    else if h : fs.Free (c.from p) ∧ (fs.node (c.from p)).isNone then
      (fs.put (c.from p) .dir h.1).makeDirs (c.from p) cs
    else (fs, none)

theorem node_put_self {x : Node κ} (h : fs.Free p) : (fs.put p x h).node p = some x :=
  Function.update_self _ _ _

theorem node_put_of_ne {x : Node κ} (h : fs.Free p) (hq : q ≠ p) :
    (fs.put p x h).node q = fs.node q :=
  Function.update_of_ne hq _ _

/-! ### Writing a file -/

theorem free_of_writeFile (h : fs.writeFile p c = some fs') : fs.Free p := by
  unfold writeFile at h
  split at h
  · next hfree => exact hfree
  · cases h

theorem contents_writeFile_self (h : fs.writeFile p c = some fs') : fs'.contents p = some c := by
  unfold writeFile at h
  split at h
  · next hfree =>
    cases h
    exact contents_eq_some_iff.mpr (node_put_self hfree)
  · cases h

theorem node_writeFile_of_ne (h : fs.writeFile p c = some fs') (hq : q ≠ p) :
    fs'.node q = fs.node q := by
  unfold writeFile at h
  split at h
  · next hfree =>
    cases h
    exact node_put_of_ne hfree hq
  · cases h

theorem contents_writeFile_of_ne (h : fs.writeFile p c = some fs') (hq : q ≠ p) :
    fs'.contents q = fs.contents q := by
  rw [contents, node_writeFile_of_ne h hq, contents]

/-- Where a place is free, a file can be written. -/
theorem exists_writeFile (h : fs.Free p) (c : κ) : ∃ fs', fs.writeFile p c = some fs' :=
  ⟨_, dif_pos h⟩

theorem isDir_writeFile (h : fs.writeFile p c = some fs') (q : Place ν) :
    fs'.isDir q = fs.isDir q := by
  by_cases hq : q = p
  · subst hq
    have hfile := contents_eq_some_iff.mp (contents_writeFile_self h)
    rw [(free_of_writeFile h).2.2, isDir, hfile]
  · rw [isDir, node_writeFile_of_ne h hq, isDir]

/-- A file written as it is. -/
theorem writeFile_self (h : fs.contents p = some c) : fs.writeFile p c = some fs := by
  have hnode := contents_eq_some_iff.mp h
  have hfree := free_of_file hnode
  have hupdate : (fs.put p (.file c) hfree).node = fs.node := by
    change Function.update fs.node p (some (.file c)) = fs.node
    rw [← hnode, Function.update_eq_self]
  rw [writeFile, dif_pos hfree, eq_of_node_eq hupdate]

/-- **Writing a file changes the way to no place.** -/
theorem walk_writeFile (h : fs.writeFile p c = some fs') (q : Place ν) (cs : List (Component ν)) :
    fs'.walk q cs = fs.walk q cs :=
  walk_congr (isDir_writeFile h)

/-! ### Making directories -/

theorem grows_put (h : fs.Free p) (hnone : fs.node p = none) : Grows fs (fs.put p .dir h) where
  isDir q hq := by
    by_cases hqp : q = p
    · subst hqp
      exact isDir_iff.mpr (node_put_self h)
    · exact isDir_iff.mpr ((node_put_of_ne h hqp).trans (isDir_iff.mp hq))
  contents q := by
    by_cases hqp : q = p
    · subst hqp
      rw [FileSystem.contents, node_put_self, FileSystem.contents, hnone]
    · rw [FileSystem.contents, node_put_of_ne h hqp, FileSystem.contents]

theorem grows_makeDirs : ∀ {cs : List (Component ν)} (fs : FileSystem ν κ) (p : Place ν),
    Grows fs (fs.makeDirs p cs).1 := by
  intro cs
  induction cs with
  | nil => exact fun fs p => ⟨fun _ h => h, fun _ => rfl⟩
  | cons c cs ih =>
    intro fs p
    have hsame : Grows fs fs := ⟨fun _ h => h, fun _ => rfl⟩
    rw [makeDirs]
    split
    · exact hsame
    split
    · exact ih fs (c.from p)
    split
    · next h =>
      have hput := grows_put h.1 (Option.isNone_iff_eq_none.mp h.2)
      have hrest := ih (fs.put (c.from p) .dir h.1) (c.from p)
      exact ⟨fun q hq => hrest.isDir q (hput.isDir q hq),
        fun q => (hrest.contents q).trans (hput.contents q)⟩
    · exact hsame

/-- Directories that are there are not made. -/
theorem makeDirs_of_walk : ∀ {cs : List (Component ν)} {p : Place ν}, fs.walk p cs = some q →
    fs.isDir q = true → ∀ k, (fs.makeDirs p (cs.take k)).1 = fs := by
  intro cs
  induction cs with
  | nil => exact fun _ _ k => by rw [List.take_nil, makeDirs]
  | cons c cs ih =>
    intro p h hq k
    cases k with
    | zero => rfl
    | succ k =>
      have hp := isDir_of_walk h hq
      rw [FileSystem.walk, if_pos hp] at h
      rw [List.take_succ_cons, makeDirs, if_neg (by simp [hp]), if_pos (isDir_of_walk h hq)]
      exact ih h hq k

end Changes

end FileSystem
end SovereignSeed
