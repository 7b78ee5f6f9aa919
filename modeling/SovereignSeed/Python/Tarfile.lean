import SovereignSeed.Foundation.LinkedTree
import SovereignSeed.Python.OsPath
import Mathlib.Logic.Equiv.List
import Mathlib.Tactic.DeriveEncodable

/-!
# Archives

What `tarfile` packs and unpacks.  `add` walks through a tree and gives a member for
each entry; a file whose inode it has packed before becomes a link to the first name.
`extractall` makes the directories above each member that are not there, and then the
member.  Times, owners and modes are left out but for the places they are set at.

## Main definitions

* `TarInfo` — a member; `Tree`, `Tree.add` — what is packed, and the packing.
* `joinedParts` — where a member goes.
* `extractMember`, `extractall` — the unpacking.

## Main results

* `extractMember_cases` — **a member is written where its path leads, and above it what
  was missing.**
* `follows_extractall` — what is not written to stays, and links are left alone.
-/

namespace SovereignSeed
namespace Python

/-! ### Members -/

/-- What the unpacking writes: the octets of a file, or a directory. -/
inductive Payload
  | data (contents : Bytes)
  | dir
  deriving DecidableEq

/-- The type of a member. -/
inductive MemberType
  /-- A file, or what is unpacked as one, or a directory. -/
  | plain (payload : Payload)
  /-- A symbolic link. -/
  | sym
  /-- A link to a member before it. -/
  | lnk
  | chr
  | blk
  | fifo

/-- A member of an archive. -/
structure TarInfo where
  name : PyStr
  type : MemberType

/-! ### Packing -/

/-- A name as `os.listdir` gives it. -/
structure FileName where
  text : PyStr
  bytes : Bytes
  noSlash : slash ∉ text
  component : component text = some (.name bytes)

mutual

/-- What is found at a path that is to be packed. -/
inductive Tree
  | file (inode : ℕ) (contents : Bytes)
  /-- A directory, and `sorted(os.listdir(name))`. -/
  | dir (entries : Forest)
  /-- A symbolic link, and whether something is where it leads. -/
  | link (leads : Bool)
  | fifo
  | chr
  | blk
  | socket

/-- The entries of a directory. -/
inductive Forest
  | nil
  | cons (name : FileName) (tree : Tree) (rest : Forest)

end

/-- `tar.inodes`: the name each inode was packed under. -/
abbrev Inodes := List (ℕ × PyStr)

mutual

/-- `tar.add(name)`: the members it adds.  A socket is passed over. -/
def Tree.add (inodes : Inodes) (name : PyStr) : Tree → List TarInfo × Inodes
  | .file inode contents =>
    match inodes.lookup inode with
    | some first =>
      if first ≠ name then ([⟨name, .lnk⟩], inodes)
      else ([⟨name, .plain (.data contents)⟩], inodes)
    | none => ([⟨name, .plain (.data contents)⟩], (inode, name) :: inodes)
  | .dir entries =>
    let below := entries.add inodes name
    (⟨name, .plain .dir⟩ :: below.1, below.2)
  | .link _ => ([⟨name, .sym⟩], inodes)
  | .fifo => ([⟨name, .fifo⟩], inodes)
  | .chr => ([⟨name, .chr⟩], inodes)
  | .blk => ([⟨name, .blk⟩], inodes)
  | .socket => ([], inodes)

/-- The entries of the directory `name` are added. -/
def Forest.add (inodes : Inodes) (name : PyStr) : Forest → List TarInfo × Inodes
  | .nil => ([], inodes)
  | .cons f tree rest =>
    let first := tree.add inodes (joinPath name f.text)
    let others := rest.add first.2 name
    (first.1 ++ others.1, others.2)

end

/-- `Path.exists` of what is found: a link is followed. -/
def Tree.isThere : Tree → Bool
  | .link leads => leads
  | _ => true

/-- `if path.exists(): tar.add(path)`. -/
def addPath (inodes : Inodes) (path : String × Option Tree) : List TarInfo × Inodes :=
  match path.2 with
  | some tree => if tree.isThere then tree.add inodes (text path.1) else ([], inodes)
  | none => ([], inodes)

/-- Some paths are added, as far as they exist. -/
def addPaths (inodes : Inodes) : List (String × Option Tree) → List TarInfo × Inodes
  | [] => ([], inodes)
  | path :: rest =>
    let first := addPath inodes path
    let others := addPaths first.2 rest
    (first.1 ++ others.1, others.2)

/-- The archives themselves: the octets of a row of members, and the members read from
octets. -/
structure Archiver where
  write : List TarInfo → Bytes
  read : Bytes → Option (List TarInfo)
  /-- What was written is read back; names end before a null character or a slash at the
  end. -/
  read_write : ∀ ms, (∀ m ∈ ms, m.name ≠ [] ∧ m.name.getLast? ≠ some slash ∧
    (fsencode m.name).isSome) → read (write ms) = some ms

instance encodableUInt8 : Encodable UInt8 :=
  Encodable.ofLeftInjection UInt8.toNat (fun n => some (UInt8.ofNat n)) fun b => by simp

deriving instance Encodable for Payload, MemberType, TarInfo

/-- An archiver whose octets only count: their number stands for the members. -/
def countingArchiver : Archiver where
  write ms := List.replicate (Encodable.encode ms) 0
  read data := Encodable.decode data.length
  read_write ms _ := by rw [List.length_replicate, Encodable.encodek]

/-! ### Unpacking -/

/-- Directories, files and links. -/
abbrev LinkedFiles := LinkedTree Bytes Bytes

/-- What differs between systems and releases. -/
structure Release where
  /-- The links the system follows on one path. -/
  maxLinks : ℕ
  /-- The links `os.path.realpath` gets through. -/
  maxReal : ℕ
  /-- Directories above a member are made with `exist_ok=True`. -/
  existOk : Bool
  /-- A member that is a directory may be there already only as a directory. -/
  checksDir : Bool

/-- The components of a path, or `none` where a part has no encoding. -/
def pathParts (path : PyStr) : Option (List (Component Bytes)) :=
  let parts := ((path.splitOn slash).filter fun part => part ≠ []).map component
  if parts.all Option.isSome then some parts.reduceOption else none

/-- The components of the path of a place. -/
def placeParts (p : Place Bytes) : List (Component Bytes) := p.reverse.map .name

/-- The components of `os.path.join(path, name)`, where `path` is that of a place. -/
def joinedParts (target : Place Bytes) (name : PyStr) : Option (List (Component Bytes)) :=
  (pathParts name).map fun parts =>
    if name.head? = some slash then parts else placeParts target ++ parts

/-- A member on its way out: where it goes, and what it is. -/
abbrev Unpacked := List (Component Bytes) × Payload

/-- `tar.extract(member, path)`, and whether it returns. -/
def extractMember (R : Release) (w : Work Bytes Bytes) (m : Unpacked) : Work Bytes Bytes × Bool :=
  match m.1.reverse with
  | [] => (w, false)
  | last :: upper =>
    let way := if w.tree.found R.maxLinks upper.reverse then (w, .done)
      else w.makedirs R.maxLinks R.existOk upper
    if way.2 ≠ .done then (way.1, false)
    else
      match m.2 with
      | .data contents => way.1.writeFile R.maxLinks m.1 contents
      | .dir =>
        let made := way.1.mkdir R.maxLinks upper.reverse last
        (made.1, made.2 = .done ∨
          made.2 = .fileExists ∧ (R.checksDir → made.1.tree.foundDir R.maxLinks m.1))

/-- A run of `extractall`: the members that were reached, each with the work before it, and
the work at the end. -/
structure Extraction where
  reached : List (Work Bytes Bytes × Unpacked)
  work : Work Bytes Bytes
  returns : Bool

/-- The members one after another, up to one that raises. -/
def extractEach (R : Release) (w : Work Bytes Bytes) : List Unpacked → Extraction
  | [] => ⟨[], w, true⟩
  | m :: ms =>
    let one := extractMember R w m
    if one.2 then
      let rest := extractEach R one.1 ms
      ⟨(w, m) :: rest.reached, rest.work, rest.returns⟩
    else ⟨[(w, m)], one.1, false⟩

/-- Owners, times and modes are set at the directories of the archive. -/
def setAttributes (R : Release) (w : Work Bytes Bytes) (ms : List Unpacked) : Work Bytes Bytes :=
  { w with
    written := (ms.filterMap fun m =>
      match m.2 with
      | .dir => w.tree.follow R.maxLinks [] m.1
      | .data _ => none) ++ w.written }

/-- `tar.extractall(path)`. -/
def extractall (R : Release) (w : Work Bytes Bytes) (ms : List Unpacked) : Extraction :=
  let run := extractEach R w ms
  if run.returns then { run with work := setAttributes R run.work ms } else run

/-! ### What unpacking writes -/

open Work LinkedTree

variable {R : Release} {w w' : Work Bytes Bytes} {m : Unpacked} {ms : List Unpacked}

/-- The places above a member that are not there yet. -/
def missingAbove (R : Release) (t : LinkedFiles) (parts : List (Component Bytes)) :
    List (Place Bytes) := missing R.maxLinks t parts.reverse.tail

/-- The directories above a member are made as far as they are missing. -/
theorem way_eq (R : Release) (w : Work Bytes Bytes) (upper : List (Component Bytes)) :
    (if w.tree.found R.maxLinks upper.reverse then (w, Made.done)
      else w.makedirs R.maxLinks R.existOk upper).1 = makeWay R.maxLinks w upper := by
  split
  · next h => exact (makeWay_of_found h).symm
  · exact (makedirs_eq_makeWay R.maxLinks R.existOk w upper).1

/-- **A member is written where its path leads, and above it what was missing.** -/
theorem extractMember_cases (R : Release) (w : Work Bytes Bytes) (m : Unpacked) :
    Follows w (extractMember R w m).1 ∧ ∃ own : List (Place Bytes),
      (extractMember R w m).1.written = own ++ missingAbove R w.tree m.1 ++ w.written ∧
      ∀ q ∈ own, ∃ t' : LinkedFiles, (∀ p, t'.linkAt p = w.tree.linkAt p) ∧
        t'.follow R.maxLinks [] m.1 = some q := by
  unfold extractMember missingAbove
  split
  · next h =>
    rw [h]
    exact ⟨.refl w, [], rfl, nofun⟩
  next last upper h =>
  have hparts : m.1 = upper.reverse ++ [last] := by
    rw [← List.reverse_reverse m.1, h, List.reverse_cons]
  obtain ⟨way, hway, hmade⟩ : ∃ way : Work Bytes Bytes × Made,
      (if w.tree.found R.maxLinks upper.reverse then (w, Made.done)
        else w.makedirs R.maxLinks R.existOk upper) = way ∧
      way.1 = makeWay R.maxLinks w upper := ⟨_, rfl, way_eq R w upper⟩
  have hfollows : Follows w way.1 := hmade ▸ follows_makeWay R.maxLinks w upper
  have hwritten : way.1.written = missing R.maxLinks w.tree upper ++ w.written := by
    rw [hmade]
    exact written_makeWay R.maxLinks w upper
  rw [hway, h, List.tail_cons]
  dsimp only
  split
  · exact ⟨hfollows, [], hwritten, nofun⟩
  split
  · next contents _ =>
    rcases writeFile_cases R.maxLinks way.1 m.1 contents with hno | ⟨q, hq, -, hnew, hfile⟩
    · rw [hno]
      exact ⟨hfollows, [], hwritten, nofun⟩
    · refine ⟨hfollows.trans hfile, [q], hnew.trans (congrArg _ hwritten), fun q' hq' => ?_⟩
      rw [List.mem_singleton.mp hq']
      exact ⟨way.1.tree, hfollows.links, hq⟩
  · refine ⟨hfollows.trans (follows_mkdir _ _ _ _), ?_⟩
    rcases mkdir_cases R.maxLinks way.1 upper.reverse last with
      ⟨hno, -⟩ | ⟨n, q, hfree, rfl, hq, hdir, hnone, hput⟩
    · rw [hno]
      exact ⟨[], hwritten, nofun⟩
    · rw [hput]
      refine ⟨[n :: q], congrArg (_ :: ·) hwritten, fun q' hq' => ?_⟩
      rw [List.mem_singleton.mp hq', hparts]
      exact ⟨way.1.tree, hfollows.links, resolve_snoc hq (fun _ => hdir) (linkAt_of_none hnone)⟩

/-- **What is written** by the members that are reached: the members themselves, where
their paths lead, and above each what was missing when its turn came. -/
theorem extractEach_cases (R : Release) : ∀ (ms : List Unpacked) (w : Work Bytes Bytes),
    Follows w (extractEach R w ms).work ∧ ∃ own : List (Place Bytes),
      (∀ q, q ∈ (extractEach R w ms).work.written ↔ q ∈ w.written ∨ q ∈ own ∨
        ∃ r ∈ (extractEach R w ms).reached, q ∈ missingAbove R r.1.tree r.2.1) ∧
      ∀ q ∈ own, ∃ m ∈ ms, ∃ t' : LinkedFiles, (∀ p, t'.linkAt p = w.tree.linkAt p) ∧
        t'.follow R.maxLinks [] m.1 = some q := by
  intro ms
  induction ms with
  | nil => exact fun w => ⟨.refl w, [], fun q => by simp [extractEach], nofun⟩
  | cons m ms ih =>
    intro w
    obtain ⟨hone, own, hwritten, hown⟩ := extractMember_cases R w m
    rw [extractEach]
    by_cases hreturns : (extractMember R w m).2 = true
    · obtain ⟨hrest, own', hwritten', hown'⟩ := ih (extractMember R w m).1
      simp only [hreturns, if_true]
      refine ⟨hone.trans hrest, own' ++ own, fun q => ?_, ?_⟩
      · rw [hwritten', hwritten]
        simp only [List.mem_append, List.mem_cons, exists_eq_or_imp]
        tauto
      · refine List.forall_mem_append.mpr ⟨fun q hq => ?_, fun q hq => ?_⟩
        · obtain ⟨m', hm', t', hlinks, ht'⟩ := hown' q hq
          exact ⟨m', .tail _ hm', t', fun p => (hlinks p).trans (hone.links p), ht'⟩
        · obtain ⟨t', ht'⟩ := hown q hq
          exact ⟨m, .head _, t', ht'⟩
    · simp only [hreturns, Bool.false_eq_true, if_false]
      refine ⟨hone, own, fun q => ?_, fun q hq => ?_⟩
      · rw [hwritten]
        simp only [List.mem_append, List.mem_singleton, exists_eq_left]
        tauto
      · obtain ⟨t', ht'⟩ := hown q hq
        exact ⟨m, .head _, t', ht'⟩

/-- The same of `extractall`. -/
theorem extractall_cases (R : Release) (w : Work Bytes Bytes) (ms : List Unpacked) :
    Follows w (extractall R w ms).work ∧ ∃ own : List (Place Bytes),
      (∀ q, q ∈ (extractall R w ms).work.written ↔ q ∈ w.written ∨ q ∈ own ∨
        ∃ r ∈ (extractall R w ms).reached, q ∈ missingAbove R r.1.tree r.2.1) ∧
      ∀ q ∈ own, ∃ m ∈ ms, ∃ t' : LinkedFiles, (∀ p, t'.linkAt p = w.tree.linkAt p) ∧
        t'.follow R.maxLinks [] m.1 = some q := by
  obtain ⟨hrun, own, hwritten, hown⟩ := extractEach_cases R ms w
  unfold extractall
  by_cases hreturns : (extractEach R w ms).returns = true
  · simp only [hreturns, if_true]
    -- attributes change no entry
    obtain ⟨places, hplaces, hplace⟩ : ∃ places : List (Place Bytes),
        (setAttributes R (extractEach R w ms).work ms).written =
          places ++ (extractEach R w ms).work.written ∧
        ∀ q ∈ places, ∃ m ∈ ms,
          (extractEach R w ms).work.tree.follow R.maxLinks [] m.1 = some q := by
      refine ⟨_, rfl, fun q hq => ?_⟩
      obtain ⟨m, hm, hmq⟩ := List.mem_filterMap.mp hq
      split at hmq
      · exact ⟨m, hm, hmq⟩
      · cases hmq
    have hattributes : Follows (extractEach R w ms).work
        (setAttributes R (extractEach R w ms).work ms) :=
      ⟨⟨places, hplaces, fun _ _ => rfl⟩, fun _ => rfl, fun _ h => h⟩
    refine ⟨hrun.trans hattributes, places ++ own, fun q => ?_, ?_⟩
    · rw [hplaces, List.mem_append, hwritten, List.mem_append]
      tauto
    · refine List.forall_mem_append.mpr ⟨fun q hq => ?_, hown⟩
      obtain ⟨m, hm, hmq⟩ := hplace q hq
      exact ⟨m, hm, _, hrun.links, hmq⟩
  · simp only [hreturns, Bool.false_eq_true, if_false]
    exact ⟨hrun, own, hwritten, hown⟩

end Python
end SovereignSeed
