import SovereignSeed.Foundation.FileSystem

/-!
# Trees with links

A tree of directories, files, symbolic links and the rest.  A path is resolved
component by component, and a link is replaced by its target.  There are two ways to do
this: the operating system goes from directory to directory, and stops where none is; a
program that only wants to know where a path leads reads links and goes on in any case.
Where both find a place, it is the same.

Work on a tree keeps a list of the places that were written to.

## Main definitions

* `LinkedTree` — the tree; `resolve` — the ways through it: `follow`, `real`.
* `Work` — a tree under work; `mkdir`, `makedirs`, `writeFile` — the calls.
* `makeWay`, `missing` — the directories of a path made in turn, and those it makes.

## Main results

* `follow_eq_real` — **where the system finds a place, it is the one foretold.**
* `makedirs_eq_makeWay` — **making a path makes what is missing of it, front to back.**
* `Follows` — what is not written to stays, and no link comes or goes.
-/

namespace SovereignSeed

deriving instance DecidableEq for Component

/-- The component is a dot. -/
def Component.isSelf {ν : Type*} : Component ν → Bool
  | .self => true
  | _ => false

/-- What is at a place. -/
inductive Entry (ν κ : Type*)
  | dir
  | file (contents : κ)
  /-- A symbolic link, to a path from the root or from its own directory. -/
  | link (absolute : Bool) (target : List (Component ν))
  /-- A device, a pipe or a socket. -/
  | special

/-- A tree of directories, files and links. -/
structure LinkedTree (ν κ : Type*) where
  entry : Place ν → Option (Entry ν κ)
  root : entry [] = some .dir
  /-- An entry is in a directory. -/
  parent : ∀ n p, entry (n :: p) ≠ none → entry p = some .dir

namespace LinkedTree

/-- The tree with nothing in it. -/
def empty {ν κ : Type*} : LinkedTree ν κ where
  entry p := if p.isEmpty then some .dir else none
  root := rfl
  parent _ _ h := absurd rfl h

variable {ν κ : Type*} {t t' : LinkedTree ν κ} {p q r : Place ν} {c : Component ν}
  {cs rcs : List (Component ν)} {limit m : ℕ} {strict : Bool}

/-- A directory is there. -/
def isDir (t : LinkedTree ν κ) (p : Place ν) : Bool :=
  match t.entry p with
  | some .dir => true
  | _ => false

/-- The link that is there. -/
def linkAt (t : LinkedTree ν κ) (p : Place ν) : Option (Bool × List (Component ν)) :=
  match t.entry p with
  | some (.link absolute target) => some (absolute, target)
  | _ => none

theorem isDir_iff : t.isDir p = true ↔ t.entry p = some .dir := by
  unfold isDir
  split
  · next h => simp [h]
  · next h => simpa using h

theorem isDir_of_some {n : ν} (h : t.entry (n :: p) ≠ none) : t.isDir p = true :=
  isDir_iff.mpr (t.parent n p h)

theorem linkAt_of_isDir (h : t.isDir p = true) : t.linkAt p = none := by
  rw [linkAt, isDir_iff.mp h]

theorem linkAt_of_none (h : t.entry p = none) : t.linkAt p = none := by
  rw [linkAt, h]

theorem isDir_root : t.isDir [] = true := isDir_iff.mpr t.root

/-- A directory is in one. -/
theorem isDir_tail (h : t.isDir p = true) : t.isDir p.tail = true := by
  cases p with
  | nil => exact h
  | cons n p =>
    have hsome : t.entry (n :: p) ≠ none := by
      rw [isDir_iff.mp h]
      nofun
    exact isDir_of_some hsome

/-! ### Ways -/

/-- The link a component stands for. -/
def leads (t : LinkedTree ν κ) (p : Place ν) : Component ν → Option (Bool × List (Component ν))
  | .name n => t.linkAt (n :: p)
  | _ => none

/-- A path up to its first link; that, and what is behind it, is left to `expand`. -/
def pass (t : LinkedTree ν κ) (strict : Bool)
    (expand : Place ν → List (Component ν) → Option (Place ν)) :
    Place ν → List (Component ν) → Option (Place ν)
  | p, [] => some p
  | p, c :: cs =>
    if strict && !t.isDir p then none
    else
      match t.leads p c with
      | some (absolute, target) => expand (if absolute then [] else p) (target ++ cs)
      | none => pass t strict expand (c.from p) cs

/-- The place a path leads to over at most `limit` links.  If `strict`, there has to be
a directory before every component. -/
def resolve (t : LinkedTree ν κ) (strict : Bool) :
    ℕ → Place ν → List (Component ν) → Option (Place ν)
  | 0 => t.pass strict fun _ _ => none
  | limit + 1 => t.pass strict (t.resolve strict limit)

/-- The place the operating system finds. -/
abbrev follow (t : LinkedTree ν κ) (limit : ℕ) (p : Place ν) (cs : List (Component ν)) :
    Option (Place ν) := t.resolve true limit p cs

/-- The place a path leads to, whether something is there or not. -/
abbrev real (t : LinkedTree ν κ) (limit : ℕ) (p : Place ν) (cs : List (Component ν)) :
    Option (Place ν) := t.resolve false limit p cs

@[simp] theorem resolve_nil : t.resolve strict limit p [] = some p := by
  cases limit <;> rfl

/-- A component that is no link. -/
theorem resolve_cons (hdir : strict = true → t.isDir p = true) (h : t.leads p c = none) :
    t.resolve strict limit p (c :: cs) = t.resolve strict limit (c.from p) cs := by
  have hguard : (strict && !t.isDir p) = false := by
    cases strict with
    | false => rfl
    | true => rw [hdir rfl]; rfl
  cases limit <;> simp only [resolve, pass, hguard, h, Bool.false_eq_true, if_false]

/-- The first component of a way: no link, or one that is followed. -/
theorem resolve_cons_eq_some (h : t.resolve strict limit p (c :: cs) = some q) :
    (strict = true → t.isDir p = true) ∧
      ((t.leads p c = none ∧ t.resolve strict limit (c.from p) cs = some q) ∨
        ∃ m absolute target, limit = m + 1 ∧ t.leads p c = some (absolute, target) ∧
          t.resolve strict m (if absolute then [] else p) (target ++ cs) = some q) := by
  have hdir : strict = true → t.isDir p = true := by
    intro hstrict
    by_contra hno
    cases limit <;> simp [resolve, pass, hstrict, hno] at h
  refine ⟨hdir, ?_⟩
  cases hl : t.leads p c with
  | none => exact .inl ⟨rfl, (resolve_cons hdir hl).symm.trans h⟩
  | some link =>
    have hguard : (strict && !t.isDir p) = false := by
      cases strict with
      | false => rfl
      | true => rw [hdir rfl]; rfl
    cases limit with
    | zero => simp [resolve, pass, hguard, hl] at h
    | succ m =>
      simp only [resolve, pass, hguard, hl, Bool.false_eq_true, if_false] at h
      exact .inr ⟨m, link.1, link.2, rfl, rfl, h⟩

/-- Two ways of the same path end at one place, however many links each may take. -/
theorem resolve_eq {strict' : Bool} : ∀ {limit m : ℕ} {p : Place ν} {cs : List (Component ν)},
    t.resolve strict limit p cs = some q → t.resolve strict' m p cs = some r → q = r := by
  intro limit
  induction limit using Nat.strongRecOn with
  | ind limit ihLimit =>
    intro m p cs
    induction cs generalizing p with
    | nil =>
      intro h h'
      rw [resolve_nil] at h h'
      exact Option.some.inj (h.symm.trans h')
    | cons c cs ih =>
      intro h h'
      obtain ⟨-, ⟨hl, h⟩ | ⟨n, absolute, target, rfl, hl, h⟩⟩ := resolve_cons_eq_some h
      · obtain ⟨-, ⟨-, h'⟩ | ⟨n', absolute', target', -, hl', -⟩⟩ := resolve_cons_eq_some h'
        · exact ih h h'
        · rw [hl] at hl'
          cases hl'
      · obtain ⟨-, ⟨hl', -⟩ | ⟨n', absolute', target', -, hl', h'⟩⟩ := resolve_cons_eq_some h'
        · rw [hl] at hl'
          cases hl'
        · rw [hl] at hl'
          cases hl'
          exact ihLimit n (Nat.lt_succ_self n) h h'

/-- **Where the system finds a place, it is the one foretold.** -/
theorem follow_eq_real (h : t.follow limit p cs = some q) (h' : t.real m p cs = some r) : q = r :=
  resolve_eq h h'

/-- Where a path leads depends on links alone. -/
theorem real_congr (h : ∀ q, t'.linkAt q = t.linkAt q) :
    t'.real limit p cs = t.real limit p cs := by
  have hleads : ∀ p c, t'.leads p c = t.leads p c := by
    intro p c
    cases c with
    | self => rfl
    | up => rfl
    | name n => exact h (n :: p)
  have hpass : ∀ {expand expand' : Place ν → List (Component ν) → Option (Place ν)}
      (_ : ∀ p cs, expand' p cs = expand p cs) (cs : List (Component ν)) (p : Place ν),
      t'.pass false expand' p cs = t.pass false expand p cs := by
    intro expand expand' hexpand cs
    induction cs with
    | nil => exact fun p => rfl
    | cons c cs ih =>
      intro p
      simp only [pass, hleads, Bool.false_and, hexpand, ih]
  have hresolve : ∀ (limit : ℕ) (p : Place ν) (cs : List (Component ν)),
      t'.resolve false limit p cs = t.resolve false limit p cs := by
    intro limit
    induction limit with
    | zero => exact fun p cs => hpass (fun _ _ => rfl) cs p
    | succ limit ih => exact fun p cs => hpass ih cs p
  exact hresolve limit p cs

/-- What the system finds is no link itself. -/
theorem linkAt_of_follow : ∀ {limit : ℕ} {p : Place ν} {cs : List (Component ν)},
    t.linkAt p = none → t.follow limit p cs = some q → t.linkAt q = none := by
  intro limit
  induction limit using Nat.strongRecOn with
  | ind limit ihLimit =>
    intro p cs
    induction cs generalizing p with
    | nil =>
      intro hp h
      rw [follow, resolve_nil] at h
      rwa [← Option.some.inj h]
    | cons c cs ih =>
      intro hp h
      obtain ⟨hdir, ⟨hl, h⟩ | ⟨n, absolute, target, rfl, -, h⟩⟩ := resolve_cons_eq_some h
      · refine ih ?_ h
        cases c with
        | self => exact hp
        | up => exact linkAt_of_isDir (isDir_tail (hdir rfl))
        | name n => exact hl
      · refine ihLimit n (Nat.lt_succ_self n) ?_ h
        cases absolute with
        | false => exact hp
        | true => exact linkAt_of_isDir isDir_root

/-- A way that goes on comes by a directory. -/
theorem exists_of_follow_snoc : ∀ {limit : ℕ} {p : Place ν} {cs : List (Component ν)},
    t.follow limit p (cs ++ [c]) = some q →
      ∃ r, t.follow limit p cs = some r ∧ t.isDir r = true := by
  intro limit
  induction limit using Nat.strongRecOn with
  | ind limit ihLimit =>
    intro p cs
    induction cs generalizing p with
    | nil =>
      intro h
      exact ⟨p, resolve_nil, (resolve_cons_eq_some h).1 rfl⟩
    | cons c' cs ih =>
      intro h
      rw [List.cons_append] at h
      obtain ⟨hdir, ⟨hl, h⟩ | ⟨n, absolute, target, rfl, hl, h⟩⟩ := resolve_cons_eq_some h
      · obtain ⟨r, hr, hrdir⟩ := ih h
        exact ⟨r, (resolve_cons hdir hl).trans hr, hrdir⟩
      · rw [← List.append_assoc] at h
        obtain ⟨r, hr, hrdir⟩ := ihLimit n (Nat.lt_succ_self n) h
        refine ⟨r, ?_, hrdir⟩
        simp only [follow, resolve, pass, hdir rfl, hl, Bool.not_true, Bool.and_false,
          Bool.false_eq_true, if_false]
        exact hr

/-- A way is lengthened by a component that is no link. -/
theorem resolve_snoc : ∀ {limit : ℕ} {p : Place ν} {cs : List (Component ν)},
    t.resolve strict limit p cs = some q → (strict = true → t.isDir q = true) →
      t.leads q c = none → t.resolve strict limit p (cs ++ [c]) = some (c.from q) := by
  intro limit
  induction limit using Nat.strongRecOn with
  | ind limit ihLimit =>
    intro p cs
    induction cs generalizing p with
    | nil =>
      intro h hq hc
      rw [resolve_nil] at h
      cases h
      exact (resolve_cons hq hc).trans resolve_nil
    | cons c' cs ih =>
      intro h hq hc
      obtain ⟨hdir, ⟨hl, h⟩ | ⟨n, absolute, target, rfl, hl, h⟩⟩ := resolve_cons_eq_some h
      · exact (resolve_cons hdir hl).trans (ih h hq hc)
      · have hrest := ihLimit n (Nat.lt_succ_self n) h hq hc
        have hguard : (strict && !t.isDir p) = false := by
          cases strict with
          | false => rfl
          | true => rw [hdir rfl]; rfl
        simp only [List.cons_append, resolve, pass, hguard, hl, Bool.false_eq_true, if_false]
        rw [← List.append_assoc]
        exact hrest

/-- The path of a place leads to the place, if it goes through no link, and for the system
through directories. -/
theorem resolve_place (limit : ℕ) : ∀ {p : Place ν}, (∀ q, q <:+ p → t.linkAt q = none) →
    (strict = true → t.isDir p.tail = true) →
      t.resolve strict limit [] (p.reverse.map .name) = some p := by
  intro p
  induction p with
  | nil => exact fun _ _ => resolve_nil
  | cons n p ih =>
    intro hlinks hdir
    have hp : t.resolve strict limit [] (p.reverse.map .name) = some p :=
      ih (fun q hq => hlinks q (hq.trans (List.suffix_cons n p))) fun h => isDir_tail (hdir h)
    rw [List.reverse_cons, List.map_append]
    exact resolve_snoc (c := .name n) hp hdir (hlinks _ List.suffix_rfl)

/-- There is no link on the way to a directory. -/
theorem isDir_of_suffix (h : q <:+ p) (hp : t.isDir p = true) : t.isDir q = true := by
  induction p with
  | nil => rwa [List.suffix_nil.mp h]
  | cons n p ih =>
    rcases List.suffix_cons_iff.mp h with rfl | h
    · exact hp
    · exact ih h (isDir_tail hp)

/-- The system finds a directory by its path, whatever limit there is. -/
theorem follow_place (limit : ℕ) (h : t.isDir p = true) :
    t.follow limit [] (p.reverse.map .name) = some p :=
  resolve_place limit (fun _ hq => linkAt_of_isDir (isDir_of_suffix hq h)) fun _ => isDir_tail h

/-- Something is where the path leads. -/
def found (t : LinkedTree ν κ) (limit : ℕ) (cs : List (Component ν)) : Bool :=
  (t.follow limit [] cs).any fun q => (t.entry q).isSome

/-- A directory is where the path leads. -/
def foundDir (t : LinkedTree ν κ) (limit : ℕ) (cs : List (Component ν)) : Bool :=
  (t.follow limit [] cs).any t.isDir

theorem found_iff : t.found limit cs = true ↔ ∃ q, t.follow limit [] cs = some q ∧
    t.entry q ≠ none := by
  rw [found, Option.any_eq_true]
  simp only [Option.isSome_iff_ne_none]

theorem foundDir_iff : t.foundDir limit cs = true ↔ ∃ q, t.follow limit [] cs = some q ∧
    t.isDir q = true := by
  rw [foundDir, Option.any_eq_true]

/-- A path behind one that is no directory is none either. -/
theorem not_foundDir_snoc (h : t.foundDir limit cs = false) (c : Component ν) :
    t.foundDir limit (cs ++ [c]) = false := by
  rw [Bool.eq_false_iff, ne_eq, foundDir_iff] at h ⊢
  rintro ⟨q, hq, -⟩
  exact h (exists_of_follow_snoc hq)

/-! ### Changes -/

/-- A new entry, or a file for one that is no directory, can be put there. -/
def Free (t : LinkedTree ν κ) (p : Place ν) : Prop :=
  p ≠ [] ∧ t.isDir p.tail = true ∧ t.isDir p = false

instance [DecidableEq ν] (t : LinkedTree ν κ) (p : Place ν) : Decidable (t.Free p) :=
  inferInstanceAs (Decidable (_ ∧ _ ∧ _))

theorem free_of_none {n : ν} (hp : t.isDir p = true) (h : t.entry (n :: p) = none) :
    t.Free (n :: p) := by
  refine ⟨nofun, hp, ?_⟩
  rw [isDir, h]

variable [DecidableEq ν]

/-- An entry put at a free place. -/
def put (t : LinkedTree ν κ) (p : Place ν) (x : Entry ν κ) (h : t.Free p) : LinkedTree ν κ where
  entry := Function.update t.entry p (some x)
  root := by
    rw [Function.update_of_ne (Ne.symm h.1)]
    exact t.root
  parent n q hq := by
    have hne : q ≠ p := by
      rintro rfl
      have hnq : n :: q ≠ q := fun heq => absurd (congrArg List.length heq) (by simp)
      rw [Function.update_of_ne hnq] at hq
      have hdir := isDir_of_some hq
      rw [h.2.2] at hdir
      cases hdir
    rw [Function.update_of_ne hne]
    by_cases hp : n :: q = p
    · subst hp
      exact isDir_iff.mp h.2.1
    · rw [Function.update_of_ne hp] at hq
      exact t.parent n q hq

theorem entry_put_self {x : Entry ν κ} (h : t.Free p) : (t.put p x h).entry p = some x :=
  Function.update_self _ _ _

theorem entry_put_of_ne {x : Entry ν κ} (h : t.Free p) (hq : q ≠ p) :
    (t.put p x h).entry q = t.entry q :=
  Function.update_of_ne hq _ _

end LinkedTree

/-! ### Work -/

/-- A tree under work, and the places written to so far, the last one first. -/
structure Work (ν κ : Type*) where
  tree : LinkedTree ν κ
  written : List (Place ν)

/-- How a call that makes a directory ends. -/
inductive Made
  | done
  | fileExists
  | failed
  deriving DecidableEq

namespace Work

open LinkedTree

variable {ν κ : Type*} {w w' w'' : Work ν κ} {p q : Place ν} {c : Component ν}
  {front rcs : List (Component ν)} {limit : ℕ} {existOk : Bool}

/-- The work goes on: what is not written to stays, no link comes or goes, and no
directory goes. -/
structure Follows (w w' : Work ν κ) : Prop where
  written : ∃ new, w'.written = new ++ w.written ∧ ∀ q, q ∉ new → w'.tree.entry q = w.tree.entry q
  links : ∀ q, w'.tree.linkAt q = w.tree.linkAt q
  dirs : ∀ q, w.tree.isDir q = true → w'.tree.isDir q = true

theorem Follows.refl (w : Work ν κ) : Follows w w :=
  ⟨⟨[], rfl, fun _ _ => rfl⟩, fun _ => rfl, fun _ h => h⟩

theorem Follows.trans (h : Follows w w') (h' : Follows w' w'') : Follows w w'' := by
  obtain ⟨new, hnew, hkept⟩ := h.written
  obtain ⟨new', hnew', hkept'⟩ := h'.written
  refine ⟨⟨new' ++ new, ?_, fun q hq => ?_⟩, fun q => (h'.links q).trans (h.links q),
    fun q hq => h'.dirs q (h.dirs q hq)⟩
  · rw [hnew', hnew, List.append_assoc]
  · rw [List.mem_append, not_or] at hq
    exact (hkept' q hq.1).trans (hkept q hq.2)

/-! ### Calls -/

variable [DecidableEq ν]

/-- An entry is put at a free place. -/
def put (w : Work ν κ) (p : Place ν) (x : Entry ν κ) (h : w.tree.Free p) : Work ν κ :=
  ⟨w.tree.put p x h, p :: w.written⟩

/-- `mkdir` of the component `c` behind the path `front`. -/
def mkdir (limit : ℕ) (w : Work ν κ) (front : List (Component ν)) (c : Component ν) :
    Work ν κ × Made :=
  match w.tree.follow limit [] front with
  | none => (w, .failed)
  | some q =>
    if w.tree.isDir q = false then (w, .failed)
    else
      match c with
      | .name n =>
        if h : (w.tree.entry (n :: q)).isNone ∧ w.tree.Free (n :: q) then
          (w.put (n :: q) .dir h.2, .done)
        else (w, .fileExists)
      | _ => (w, .fileExists)

/-- `os.makedirs(path, exist_ok=existOk)`, the components of the path in reverse. -/
def makedirs (limit : ℕ) (existOk : Bool) (w : Work ν κ) : List (Component ν) → Work ν κ × Made
  | [] => (w, if existOk then .done else .fileExists)
  | c :: rcs =>
    let head := if w.tree.found limit rcs.reverse then (w, .done) else makedirs limit existOk w rcs
    if head.2 = .failed then head
    else
      -- behind a head that had to be made, a dot is there already
      if w.tree.found limit rcs.reverse = false ∧ c.isSelf then (head.1, .done)
      else
        let made := mkdir limit head.1 rcs.reverse c
        if made.2 ≠ .done ∧ existOk ∧ made.1.tree.foundDir limit (rcs.reverse ++ [c]) then
          (made.1, .done)
        else made

/-- A file opened for writing and given contents; a special file takes them in. -/
def writeFile (limit : ℕ) (w : Work ν κ) (cs : List (Component ν)) (contents : κ) :
    Work ν κ × Bool :=
  match w.tree.follow limit [] cs with
  | none => (w, false)
  | some q =>
    if h : w.tree.Free q then
      match w.tree.entry q with
      | some .special => (⟨w.tree, q :: w.written⟩, true)
      | _ => (w.put q (.file contents) h, true)
    else (w, false)

/-- The directories of a path made in turn, as far as they are not there. -/
def makeWay (limit : ℕ) (w : Work ν κ) : List (Component ν) → Work ν κ
  | [] => w
  | c :: rcs => (mkdir limit (makeWay limit w rcs) rcs.reverse c).1

/-- The directories that are missing on a path, the last one first. -/
def missing (limit : ℕ) (t : LinkedTree ν κ) (rcs : List (Component ν)) : List (Place ν) :=
  (makeWay limit ⟨t, []⟩ rcs).written

/-! ### What a call does -/

/-- Something that is no link is put where no link was. -/
theorem follows_put {x : Entry ν κ} (h : w.tree.Free p) (hp : w.tree.linkAt p = none)
    (hx : ∀ absolute target, x ≠ .link absolute target) : Follows w (w.put p x h) := by
  refine ⟨⟨[p], rfl, fun q hq => ?_⟩, fun q => ?_, fun q hq => ?_⟩
  · exact entry_put_of_ne h fun heq => hq (heq ▸ List.mem_singleton_self p)
  · by_cases hqp : q = p
    · subst hqp
      rw [hp, put, linkAt, entry_put_self]
      split
      · next heq => exact absurd (Option.some.inj heq) (hx _ _)
      · rfl
    · rw [put, linkAt, entry_put_of_ne h hqp, linkAt]
  · have hqp : q ≠ p := by
      rintro rfl
      rw [h.2.2] at hq
      cases hq
    rw [put, isDir, entry_put_of_ne h hqp]
    exact hq

/-- What `mkdir` does: it puts a directory where nothing was, or nothing. -/
theorem mkdir_cases (limit : ℕ) (w : Work ν κ) (front : List (Component ν)) (c : Component ν) :
    ((mkdir limit w front c).1 = w ∧ (mkdir limit w front c).2 ≠ .done) ∨
      ∃ n q h, c = .name n ∧ w.tree.follow limit [] front = some q ∧ w.tree.isDir q = true ∧
        w.tree.entry (n :: q) = none ∧ mkdir limit w front c = (w.put (n :: q) .dir h, .done) := by
  unfold mkdir
  split
  · exact .inl ⟨rfl, nofun⟩
  next q hq =>
  split
  · exact .inl ⟨rfl, nofun⟩
  next hdir =>
  cases c with
  | self => exact .inl ⟨rfl, nofun⟩
  | up => exact .inl ⟨rfl, nofun⟩
  | name n =>
    by_cases h : (w.tree.entry (n :: q)).isNone ∧ w.tree.Free (n :: q)
    · refine .inr ⟨n, q, h.2, rfl, hq, by simpa using hdir, by simpa using h.1, dif_pos h⟩
    · refine .inl ?_
      simp only [dif_neg h]
      exact ⟨trivial, nofun⟩

theorem follows_mkdir (limit : ℕ) (w : Work ν κ) (front : List (Component ν)) (c : Component ν) :
    Follows w (mkdir limit w front c).1 := by
  rcases mkdir_cases limit w front c with ⟨h, -⟩ | ⟨n, q, hfree, -, -, -, hnone, h⟩
  · rw [h]
    exact .refl w
  · rw [h]
    exact follows_put hfree (linkAt_of_none hnone) nofun

/-- Where `mkdir` fails, no way goes on. -/
theorem not_foundDir_of_failed (h : (mkdir limit w front c).2 = .failed) :
    w.tree.foundDir limit front = false := by
  unfold mkdir at h
  split at h
  · next hnone =>
    rw [foundDir, hnone]
    rfl
  next q hq =>
  rw [foundDir, hq]
  split at h
  · next hdir => exact hdir
  · split at h
    · split at h <;> cases h
    · cases h

/-- `mkdir` does nothing where there is no directory to make one in. -/
theorem mkdir_of_not_foundDir (h : w.tree.foundDir limit front = false) (c : Component ν) :
    mkdir limit w front c = (w, .failed) := by
  unfold foundDir at h
  unfold mkdir
  split
  · rfl
  · next q hq =>
    rw [hq, Option.any_some] at h
    rw [if_pos h]

/-- `mkdir` does nothing where something is. -/
theorem mkdir_of_found (h : w.tree.found limit (front ++ [c]) = true) :
    mkdir limit w front c = (w, .fileExists) := by
  obtain ⟨q, hq, hsome⟩ := found_iff.mp h
  obtain ⟨r, hr, hdir⟩ := exists_of_follow_snoc hq
  rcases mkdir_cases limit w front c with ⟨hw, hdone⟩ | ⟨n, r', -, rfl, hr', -, hnone, -⟩
  · have hfailed : (mkdir limit w front c).2 ≠ .failed := by
      intro hfailed
      have hno := not_foundDir_of_failed hfailed
      rw [foundDir, hr, Option.any_some, hdir] at hno
      cases hno
    refine Prod.ext hw ?_
    cases hmade : (mkdir limit w front c).2 with
    | done => exact absurd hmade hdone
    | fileExists => rfl
    | failed => exact absurd hmade hfailed
  · -- nothing is at the place that is made, but something is where the path leads
    rw [hr] at hr'
    cases hr'
    have hsnoc := resolve_snoc (c := .name n) hr (fun _ => hdir) (linkAt_of_none hnone)
    rw [show w.tree.resolve true limit [] (front ++ [.name n]) = some q from hq] at hsnoc
    cases hsnoc
    exact absurd hnone hsome

/-- Nothing is made of a path that is there. -/
theorem makeWay_of_found : ∀ {rcs : List (Component ν)}, w.tree.found limit rcs.reverse = true →
    makeWay limit w rcs = w := by
  intro rcs
  induction rcs with
  | nil => exact fun _ => rfl
  | cons c rcs ih =>
    intro h
    rw [List.reverse_cons] at h
    obtain ⟨q, hq, -⟩ := found_iff.mp h
    obtain ⟨r, hr, hdir⟩ := exists_of_follow_snoc hq
    have hfront : w.tree.found limit rcs.reverse = true := by
      refine found_iff.mpr ⟨r, hr, ?_⟩
      rw [isDir_iff.mp hdir]
      nofun
    rw [makeWay, ih hfront, mkdir_of_found h]

theorem follows_makeWay (limit : ℕ) (w : Work ν κ) (rcs : List (Component ν)) :
    Follows w (makeWay limit w rcs) := by
  induction rcs with
  | nil => exact .refl w
  | cons c rcs ih => exact ih.trans (follows_mkdir limit _ _ c)

/-- **Making a path makes what is missing of it, front to back.**  Where it fails, there
is no way to go on. -/
theorem makedirs_eq_makeWay (limit : ℕ) (existOk : Bool) (w : Work ν κ) :
    ∀ rcs, (makedirs limit existOk w rcs).1 = makeWay limit w rcs ∧
      ((makedirs limit existOk w rcs).2 = .failed →
        (makeWay limit w rcs).tree.foundDir limit rcs.reverse = false) := by
  intro rcs
  induction rcs with
  | nil =>
    refine ⟨rfl, fun h => ?_⟩
    rw [makedirs] at h
    split at h <;> cases h
  | cons c rcs ih =>
    rw [makedirs, makeWay, List.reverse_cons]
    -- the head, there or made, is what `makeWay` makes of it
    obtain ⟨head, hhead, hmade, hfailed⟩ : ∃ head : Work ν κ × Made,
        (if w.tree.found limit rcs.reverse then (w, Made.done) else makedirs limit existOk w rcs)
          = head ∧ head.1 = makeWay limit w rcs ∧
          (head.2 = .failed → head.1.tree.foundDir limit rcs.reverse = false) := by
      refine ⟨_, rfl, ?_⟩
      split
      · next h => exact ⟨(makeWay_of_found h).symm, nofun⟩
      · exact ⟨ih.1, fun h => by rw [ih.1]; exact ih.2 h⟩
    rw [hhead]
    simp only [← hmade]
    split
    · next h =>
      have hno := hfailed h
      rw [mkdir_of_not_foundDir hno c]
      exact ⟨rfl, fun _ => not_foundDir_snoc hno c⟩
    split
    · next h =>
      -- `mkdir` of a dot would make nothing
      refine ⟨?_, nofun⟩
      rcases mkdir_cases limit head.1 rcs.reverse c with ⟨hw, -⟩ | ⟨_, _, _, rfl, -⟩
      · exact hw.symm
      · cases h.2
    · split
      · exact ⟨rfl, nofun⟩
      · refine ⟨rfl, fun h => ?_⟩
        have hno := not_foundDir_of_failed h
        rw [mkdir_of_not_foundDir hno c]
        exact not_foundDir_snoc hno c

/-- What `mkdir` does depends on the tree alone. -/
theorem mkdir_written (limit : ℕ) (t : LinkedTree ν κ) (old : List (Place ν))
    (front : List (Component ν)) (c : Component ν) :
    mkdir limit ⟨t, old⟩ front c = (⟨(mkdir limit ⟨t, []⟩ front c).1.tree,
      (mkdir limit ⟨t, []⟩ front c).1.written ++ old⟩, (mkdir limit ⟨t, []⟩ front c).2) := by
  cases hfollow : t.follow limit [] front with
  | none => simp only [mkdir, hfollow, List.nil_append]
  | some q =>
    by_cases hdir : t.isDir q = false
    · simp only [mkdir, hfollow, hdir, if_true, List.nil_append]
    · cases c with
      | self => simp only [mkdir, hfollow, if_neg hdir, List.nil_append]
      | up => simp only [mkdir, hfollow, if_neg hdir, List.nil_append]
      | name n =>
        by_cases h : (t.entry (n :: q)).isNone ∧ t.Free (n :: q)
        · simp only [mkdir, hfollow, if_neg hdir, dif_pos h]
          rfl
        · simp only [mkdir, hfollow, if_neg hdir, dif_neg h, List.nil_append]

/-- A path that is made is written to where it is missing. -/
theorem written_makeWay (limit : ℕ) (w : Work ν κ) (rcs : List (Component ν)) :
    (makeWay limit w rcs).written = missing limit w.tree rcs ++ w.written := by
  have hsplit : makeWay limit w rcs =
      ⟨(makeWay limit ⟨w.tree, []⟩ rcs).tree, missing limit w.tree rcs ++ w.written⟩ := by
    induction rcs with
    | nil => rfl
    | cons c rcs ih =>
      rcases hw : makeWay limit ⟨w.tree, []⟩ rcs with ⟨t', new⟩
      rw [missing, makeWay, makeWay, ih, missing, hw, mkdir_written limit t' (new ++ w.written),
        mkdir_written limit t' new, List.append_assoc]
  rw [hsplit]

/-- What `writeFile` does: it writes to the place where the path leads, or nothing. -/
theorem writeFile_cases (limit : ℕ) (w : Work ν κ) (cs : List (Component ν)) (contents : κ) :
    writeFile limit w cs contents = (w, false) ∨
      ∃ q, w.tree.follow limit [] cs = some q ∧ (writeFile limit w cs contents).2 = true ∧
        (writeFile limit w cs contents).1.written = q :: w.written ∧
        Follows w (writeFile limit w cs contents).1 := by
  unfold writeFile
  split
  · exact .inl rfl
  next q hq =>
  split
  · next h =>
    have hlink := linkAt_of_follow (linkAt_of_isDir isDir_root) hq
    refine .inr ⟨q, hq, ?_⟩
    split
    · exact ⟨rfl, rfl, ⟨[q], rfl, fun _ _ => rfl⟩, fun _ => rfl, fun _ h => h⟩
    · exact ⟨rfl, rfl, follows_put h hlink nofun⟩
  · exact .inl rfl

end Work
end SovereignSeed
