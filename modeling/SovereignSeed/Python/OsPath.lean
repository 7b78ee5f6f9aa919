import SovereignSeed.Foundation.FileSystem
import SovereignSeed.Python.Text
import Mathlib.Data.List.ReduceOption

/-!
# Paths of the operating system

What `open`, `os.path` and `os.makedirs` make of a string.  A path is a row of names
between slashes; each name is a string of bytes, UTF-8 for the most part, and some
strings have none.  Links, permissions and lengths of names are left out.

## Main definitions

* `fsencode` — the bytes of a name; `components` — the parts of a path.
* `joinPath` — `os.path.join`.
* `resolve`, `makedirs` — the place a path leads to, and its directories made.

## Main results

* `resolve_writeFile`, `resolve_grows` — writing a file changes no way, making
  directories keeps those that are there.
* `resolve_joinPath` — **a name joined to a directory is found in it.**
* `fsencode_injective` — names without surrogates have different bytes.
-/

namespace SovereignSeed
namespace Python

/-- Files by their text; the names of entries are bytes. -/
abbrev Files := FileSystem Bytes PyStr

/-! ### Names -/

/-- The slash. -/
def slash : CodePoint := 0x2f

/-- A character in a name: U+DC80 to U+DCFF stand for single bytes, the other
surrogates and the null character for nothing. -/
def encodeChar (c : CodePoint) : Option Bytes :=
  if c = 0 then none
  else if 0xdc80 ≤ c.val ∧ c.val < 0xdd00 then some [UInt8.ofNat (c.val - 0xdc00)]
  else encode [c]

/-- `os.fsencode(s)`, or `none` where no path can have the name. -/
def fsencode : PyStr → Option Bytes
  | [] => some []
  | c :: s => (encodeChar c).bind fun b => (fsencode s).map (b ++ ·)

/-- A part of a path, if it has an encoding. -/
def component (s : PyStr) : Option (Component Bytes) :=
  if s = [] ∨ s = text "." then some .self
  else if s = text ".." then some .up
  else (fsencode s).map .name

/-- The parts of a path. -/
def components (path : PyStr) : List (Option (Component Bytes)) :=
  (path.splitOn slash).map component

/-- `os.path.join(a, b)`. -/
def joinPath (a b : PyStr) : PyStr :=
  if b.head? = some slash then b
  else if a = [] ∨ a.getLast? = some slash then a ++ b
  else a ++ slash :: b

/-! ### Places -/

section Places

variable {cwd p : Place Bytes} {fs fs' : Files} {path : PyStr}

/-- Where a path starts: at the root, or in the working directory. -/
def start (cwd : Place Bytes) (path : PyStr) : Place Bytes :=
  if path.head? = some slash then [] else cwd

/-- The place a path leads to. -/
def resolve (cwd : Place Bytes) (fs : Files) (path : PyStr) : Option (Place Bytes) :=
  if (components path).all Option.isSome then
    fs.walk (start cwd path) (components path).reduceOption
  else none

/-- `os.makedirs(path, exist_ok=True)`, and whether it returns.  The parts are made one
by one; one without an encoding is found out behind those before it. -/
def makedirs (cwd : Place Bytes) (fs : Files) (path : PyStr) : Files × Bool :=
  if path = [] then (fs, false)
  else
    let parts := components path
    let made := fs.makeDirs (start cwd path) (parts.takeWhile Option.isSome).reduceOption
    (made.1, made.2.isSome && parts.all Option.isSome)

/-- The first `k` steps of `makedirs`. -/
def makedirsUpTo (k : ℕ) (cwd : Place Bytes) (fs : Files) (path : PyStr) : Files :=
  if path = [] then fs
  else (fs.makeDirs (start cwd path)
    (((components path).takeWhile Option.isSome).reduceOption.take k)).1

/-- What is where the path leads. -/
def nodeAt (cwd : Place Bytes) (fs : Files) (path : PyStr) : Option (Node PyStr) :=
  (resolve cwd fs path).bind fs.node

/-- Writing a file changes no way. -/
theorem resolve_writeFile {c : PyStr} (h : fs.writeFile p c = some fs') (path : PyStr) :
    resolve cwd fs' path = resolve cwd fs path := by
  rw [resolve, resolve, FileSystem.walk_writeFile h]

theorem grows_makedirs (cwd : Place Bytes) (fs : Files) (path : PyStr) :
    FileSystem.Grows fs (makedirs cwd fs path).1 := by
  unfold makedirs
  split
  · exact ⟨fun _ h => h, fun _ => rfl⟩
  · exact FileSystem.grows_makeDirs fs _

theorem grows_makedirsUpTo (k : ℕ) (cwd : Place Bytes) (fs : Files) (path : PyStr) :
    FileSystem.Grows fs (makedirsUpTo k cwd fs path) := by
  unfold makedirsUpTo
  split
  · exact ⟨fun _ h => h, fun _ => rfl⟩
  · exact FileSystem.grows_makeDirs fs _

/-- A way that is there stays where directories are added. -/
theorem resolve_grows (h : FileSystem.Grows fs fs') (hp : resolve cwd fs path = some p) :
    resolve cwd fs' path = some p := by
  unfold resolve at hp ⊢
  split at hp
  · next hparts => rw [if_pos hparts, h.walk hp]
  · cases hp

/-- A file that is found stays where directories are added. -/
theorem nodeAt_grows {c : PyStr} (h : FileSystem.Grows fs fs')
    (hfile : nodeAt cwd fs path = some (.file c)) : nodeAt cwd fs' path = some (.file c) := by
  obtain ⟨p, hp, hnode⟩ := Option.bind_eq_some_iff.mp hfile
  have hcontents := FileSystem.contents_eq_some_iff.mpr hnode
  rw [← h.contents p] at hcontents
  rw [nodeAt, resolve_grows h hp]
  exact FileSystem.contents_eq_some_iff.mp hcontents

/-- The last part of a way is a step from where the others lead. -/
theorem walk_parts (fs : Files) (p : Place Bytes) (parts : List (Option (Component Bytes)))
    (part : Option (Component Bytes)) :
    (if (parts ++ [part]).all Option.isSome then fs.walk p (parts ++ [part]).reduceOption
      else none) =
      part.bind fun c => (if parts.all Option.isSome then fs.walk p parts.reduceOption
        else none).bind fun q => if fs.isDir q then some (c.from q) else none := by
  cases part with
  | none => simp
  | some c =>
    rw [List.all_append, Option.bind_some, List.reduceOption_append]
    by_cases hparts : parts.all Option.isSome = true
    · simp only [hparts, List.all_cons, Option.isSome_some, List.all_nil, Bool.and_self, if_true]
      exact FileSystem.walk_append c
    · simp [hparts]

/-- **A name joined to a directory is found in it.** -/
theorem resolve_joinPath (cwd : Place Bytes) (fs : Files) (dir : PyStr) {name : PyStr}
    (h : slash ∉ name) : resolve cwd fs (joinPath dir name) =
      (component name).bind fun c => (resolve cwd fs dir).bind fun q =>
        if fs.isDir q then some (c.from q) else none := by
  have hhead : name.head? ≠ some slash := fun heq => h (List.mem_of_mem_head? heq)
  -- the parts of a directory, with a name behind it
  have hparts : ∀ front name : PyStr, slash ∉ name → components (front ++ slash :: name) =
      components front ++ [component name] := fun front name h => by
    rw [components, List.splitOn_append_cons_self, List.splitOn_eq_singleton h, List.map_append]
    rfl
  unfold joinPath
  rw [if_neg hhead]
  split
  · next hdir =>
    rcases hdir with rfl | hlast
    · -- the working directory
      have hname : components name = [] ++ [component name] := by
        rw [components, List.splitOn_eq_singleton h]
        rfl
      have hempty : resolve cwd fs [] = if fs.isDir cwd then some cwd else none := rfl
      rw [List.nil_append, resolve, hname, walk_parts, hempty, start, if_neg hhead]
      have hwalk : fs.walk cwd [] = some cwd := rfl
      congr 1
      funext c
      by_cases hcwd : fs.isDir cwd = true
      · simp [hcwd, hwalk]
      · simp [hcwd, hwalk]
    · -- there is a slash already
      obtain ⟨front, rfl⟩ : ∃ front, dir = front ++ [slash] :=
        ⟨_, (List.dropLast_append_getLast? _ hlast).symm⟩
      have hstart : start cwd (front ++ slash :: name) = start cwd (front ++ [slash]) := by
        rw [start, start]
        cases front <;> rfl
      rw [List.append_assoc, List.singleton_append, resolve, resolve, hparts front name h,
        hparts front [] List.not_mem_nil, walk_parts, walk_parts, hstart]
      congr 1
      funext c
      rw [show component [] = some .self from rfl, Option.bind_some, Option.bind_assoc]
      congr 1
      funext q
      by_cases hq : fs.isDir q = true
      · simp [hq, Component.from]
      · simp [hq]
  · next hdir =>
    have hne : dir ≠ [] := fun heq => hdir (.inl heq)
    have hstart : start cwd (dir ++ slash :: name) = start cwd dir := by
      rw [start, start, List.head?_append_of_ne_nil _ hne]
    rw [resolve, resolve, hparts dir name h, walk_parts, hstart]

/-- A directory that is there is not made. -/
theorem makedirs_of_resolve (hp : resolve cwd fs path = some p) (hdir : fs.isDir p = true) :
    (makedirs cwd fs path).1 = fs ∧ ∀ k, makedirsUpTo k cwd fs path = fs := by
  unfold resolve at hp
  split at hp
  · next hparts =>
    have htake : (components path).takeWhile Option.isSome = components path :=
      List.takeWhile_eq_self_iff.mpr fun c hc => List.all_eq_true.mp hparts c hc
    have hmake := FileSystem.makeDirs_of_walk hp hdir
    constructor
    · unfold makedirs
      split
      · rfl
      · have hall := hmake (components path).reduceOption.length
        rw [List.take_length] at hall
        simpa only [htake] using hall
    · intro k
      unfold makedirsUpTo
      split
      · rfl
      · rw [htake]
        exact hmake k
  · cases hp

/-! ### Names without surrogates -/

theorem fsencode_eq_utf8 {s : PyStr} {b : Bytes} (hs : s.any isSurrogate = false)
    (h : fsencode s = some b) : b = utf8 s := by
  induction s generalizing b with
  | nil => exact (Option.some.inj h).symm
  | cons c s ih =>
    obtain ⟨hc, hs⟩ := Bool.or_eq_false_iff.mp hs
    rw [fsencode] at h
    obtain ⟨b₁, h₁, h⟩ := Option.bind_eq_some_iff.mp h
    obtain ⟨b₂, h₂, rfl⟩ := Option.map_eq_some_iff.mp h
    have hb₁ : b₁ = utf8 [c] := by
      unfold encodeChar at h₁
      split at h₁
      · cases h₁
      split at h₁
      · next hlow =>
        -- these are surrogates
        simp only [isSurrogate, isHigh, isLow, Bool.or_eq_false_iff, Bool.and_eq_false_iff,
          decide_eq_false_iff_not] at hc
        omega
      · unfold encode at h₁
        rw [List.any_cons, hc, List.any_nil, Bool.or_false, if_neg Bool.false_ne_true] at h₁
        exact (Option.some.inj h₁).symm
    rw [hb₁, ih hs h₂, utf8, utf8, utf8, ← List.map_append, ← List.flatMap_append]
    rfl

/-- Names without surrogates have different bytes. -/
theorem fsencode_injective {s t : PyStr} {b : Bytes} (hs : s.any isSurrogate = false)
    (ht : t.any isSurrogate = false) (h : fsencode s = some b) (h' : fsencode t = some b) : s = t :=
  utf8_injective ((fsencode_eq_utf8 hs h).symm.trans (fsencode_eq_utf8 ht h'))

end Places

end Python
end SovereignSeed
