import SovereignSeed.Migration.Restore
import SovereignSeed.Python.TarRoundTrip

/-!
# Export and restore

What `export_state` packs, and whether `verify_and_resurrect` puts it together again in
an empty directory.  The packer takes what it finds, links and second names of a file
included; the restorer takes files and directories only.

## Main definitions

* `Source` — a repository to be exported, and `Repository.forest`, what is packed of it.
* `EmptyTarget` — an empty directory to restore into.
* `Restored` — the run succeeds, and the directory looks like what was packed.

## Main results

* `checkMembers_unpacked` — the restorer accepts the members of plain trees.
* `restored_iff` — **a bundle is restored exactly if there is no link, pipe or device in
  it and no file under two names.**
-/

namespace SovereignSeed
namespace Migration

open Python LinkedTree

/-! ### What is packed -/

/-- The tree at a path, as far as it is packed; nothing is packed of a socket. -/
def packedTree : Option Tree → Tree
  | some tree => if tree.isThere then tree else .socket
  | none => .socket

/-- The names at the top of a bundle. -/
def governanceName : FileName :=
  ⟨text "governance", utf8 (text "governance"), by decide, by decide⟩

@[inherit_doc governanceName]
def votingLedgerName : FileName :=
  ⟨text "voting_ledger.json", utf8 (text "voting_ledger.json"), by decide,
    by decide⟩

@[inherit_doc governanceName]
def executionPlanName : FileName :=
  ⟨text "SOVEREIGN_SEED_MASTER_EXECUTION_PLAN.md",
    utf8 (text "SOVEREIGN_SEED_MASTER_EXECUTION_PLAN.md"), by decide, by decide⟩

@[inherit_doc governanceName]
def constitutionName : FileName :=
  ⟨text "constitution.md", utf8 (text "constitution.md"), by decide, by decide⟩

@[inherit_doc governanceName]
def upperConstitutionName : FileName :=
  ⟨text "CONSTITUTION.md", utf8 (text "CONSTITUTION.md"), by decide, by decide⟩

@[inherit_doc governanceName]
def memoryName : FileName :=
  ⟨text "memory", utf8 (text "memory"), by decide, by decide⟩

/-- The constitution that is packed, and its name. -/
def Repository.chosenConstitution (r : Repository) : FileName × Option Tree :=
  if pathExists r.constitution then (constitutionName, r.constitution)
  else (upperConstitutionName, r.upperConstitution)

/-- What is packed beside the ledger. -/
def Repository.otherTrees (r : Repository) : Forest :=
  .cons executionPlanName (packedTree r.executionPlan)
    (.cons r.chosenConstitution.1 (packedTree r.chosenConstitution.2)
      (.cons memoryName (packedTree r.memory) .nil))

/-- The directory `governance` with the ledger in it, if something is packed of that, and the
others. -/
def withLedger (ledger : Tree) (others : Forest) : Forest :=
  match ledger with
  | .socket => others
  | _ => .cons governanceName (.dir (.cons votingLedgerName ledger .nil)) others

/-- What is packed. -/
def Repository.forest (r : Repository) : Forest :=
  withLedger (packedTree r.votingLedger) r.otherTrees

/-- A repository as the system can have it: the entries of each directory have different
names. -/
structure Source extends Repository where
  valid : ∀ path ∈ toRepository.paths, ∀ tree ∈ path.2, tree.Valid

/-- An empty directory, and the path by which it is named. -/
structure EmptyTarget (H : Host) where
  tree : LinkedFiles
  dir : PyStr
  place : Place Bytes
  resolves : resolveTarget H tree dir = some place
  isDir : tree.isDir place = true
  empty : ∀ q n, tree.entry (q ++ n :: place) = none

/-- The run on what has just been exported succeeds, the target looks like what was packed,
and nothing else has changed. -/
def Restored (H : Host) (s : Source) (timestamp : PyStr) (e : EmptyTarget H) : Prop :=
  ∃ run, verifyAndResurrect H (exportState H s.toRepository timestamp) e.tree e.dir =
      .extracted e.tree run ∧ run.returns = true ∧
    (∀ q, run.work.tree.entry (q ++ e.place) = (Tree.dir s.forest).at q.reverse) ∧
    ∀ q, ¬e.place <:+ q → run.work.tree.entry q = e.tree.entry q

/-! ### The members of a bundle -/

theorem addPath_eq (inodes : Inodes) (path : String × Option Tree) :
    addPath inodes path = (packedTree path.2).add inodes (text path.1) := by
  obtain ⟨path, tree⟩ := path
  cases tree with
  | none => rfl
  | some tree =>
    by_cases h : tree.isThere = true
    · simp only [addPath, packedTree, h, if_true]
    · simp only [addPath, packedTree, h]
      rfl

theorem valid_packedTree {tree : Option Tree} (h : ∀ t ∈ tree, t.Valid) :
    (packedTree tree).Valid := by
  cases tree with
  | none => trivial
  | some tree =>
    rw [packedTree]
    split
    · exact h tree rfl
    · trivial

/-- Paths that do not lead below each other. -/
def Apart (paths : List String) : Prop :=
  paths.Pairwise fun a b => ∀ s, Below (text a) s → ¬Below (text b) s

/-- The members of some paths have names an archive keeps. -/
theorem storable_addPaths : ∀ (paths : List (String × Option Tree)) (inodes : Inodes),
    (∀ path ∈ paths, Storable (text path.1)) →
      ∀ m ∈ (addPaths inodes paths).1, Storable m.name := by
  intro paths
  induction paths with
  | nil => exact fun _ _ => nofun
  | cons path paths ih =>
    intro inodes h
    obtain ⟨hpath, hpaths⟩ := List.forall_mem_cons.mp h
    rw [addPaths, addPath_eq]
    exact List.forall_mem_append.mpr ⟨((packedTree path.2).add_names inodes hpath).1,
      ih _ hpaths⟩

/-- The members of some paths are files and directories exactly if their trees are plain
and no inode comes twice. -/
theorem packs_addPaths : ∀ (paths : List (String × Option Tree)) (inodes : Inodes),
    (∀ path ∈ paths, Storable (text path.1)) → (∀ path ∈ paths, ∀ tree ∈ path.2, tree.Valid) →
    Apart (paths.map Prod.fst) → (∀ e ∈ inodes, ∀ path ∈ paths, ¬Below (text path.1) e.2) →
      Packs inodes (addPaths inodes paths) (paths.all fun path => (packedTree path.2).isPlain)
        (paths.flatMap fun path => (packedTree path.2).inodes) := by
  intro paths
  induction paths with
  | nil => exact fun inodes _ _ _ _ => packs_nil inodes
  | cons path paths ih =>
    intro inodes hnames hvalid hapart hold
    obtain ⟨hname, hnames⟩ := List.forall_mem_cons.mp hnames
    obtain ⟨htree, htrees⟩ := List.forall_mem_cons.mp hvalid
    obtain ⟨hfirst, hothers⟩ := List.pairwise_cons.mp hapart
    have hpack := (packedTree path.2).packs_add inodes hname (valid_packedTree htree)
      fun e he => hold e he path (.head _)
    rw [addPaths, addPath_eq, List.all_cons, List.flatMap_cons]
    refine hpack.append (ih _ hnames htrees hothers fun e he path' hpath' hbelow => ?_)
    rcases ((packedTree path.2).add_names inodes hname).2 e he with he | hbelow'
    · exact hold e he path' (.tail _ hpath') hbelow
    · exact hfirst path'.1 (List.mem_map_of_mem hpath') e.2 hbelow' hbelow

/-- The members of some paths stand for the items of their trees. -/
theorem forall₂_addPaths {target : Place Bytes} : ∀ (paths : List (String × Option Tree))
    (places : List (Place Bytes)) (inodes : Inodes),
    List.Forall₂ (fun path p => Storable (text path.1) ∧
      joinedParts target (text path.1) = some (placeParts p)) paths places →
    (∀ m ∈ (addPaths inodes paths).1, m.isPlain = true) →
      List.Forall₂ (StandsFor target) (addPaths inodes paths).1
        ((paths.zip places).flatMap fun z => (packedTree z.1.2).items z.2) := by
  intro paths places inodes h
  induction h generalizing inodes with
  | nil => exact fun _ => .nil
  | cons hfirst _ ih =>
    intro hplain
    obtain ⟨hname, hplace⟩ := hfirst
    rw [addPaths, addPath_eq] at hplain ⊢
    obtain ⟨htree, hothers⟩ := List.forall_mem_append.mp hplain
    exact List.rel_append ((packedTree _).forall₂_add inodes hname hplace htree) (ih _ hothers)

/-! ### The check -/

/-- The restorer accepts members that stand for items inside the target. -/
theorem checkMembers_unpacked {R : Release} {t : LinkedFiles} {target : Place Bytes} :
    ∀ {members : List TarInfo} {items : List (Place Bytes × Payload)},
      List.Forall₂ (StandsFor target) members items →
      (∀ i ∈ items, target <:+ i.1 ∧ t.real R.maxReal [] (placeParts i.1) = some i.1) →
        checkMembers R t target members = some (unpacked items) := by
  intro members items h
  induction h with
  | nil => exact fun _ => rfl
  | cons hfirst _ ih =>
    intro hitems
    obtain ⟨⟨hinside, hreal⟩, hitems⟩ := List.forall_mem_cons.mp hitems
    obtain ⟨htype, hplace⟩ := hfirst
    rw [checkMembers]
    simp only [htype, hplace, Option.bind_some, hreal, if_pos hinside, ih hitems]
    rfl

/-- The restorer refuses a bundle with a member that is not a file or directory. -/
theorem isPlain_of_checkMembers {R : Release} {t : LinkedFiles} {target : Place Bytes} :
    ∀ {members : List TarInfo} {ms : List Unpacked},
      checkMembers R t target members = some ms → ∀ m ∈ members, m.isPlain = true := by
  intro members
  induction members with
  | nil => exact fun _ => nofun
  | cons member rest ih =>
    intro ms h
    rw [checkMembers] at h
    split at h
    · next payload htype =>
      obtain ⟨parts, -, h⟩ := Option.bind_eq_some_iff.mp h
      obtain ⟨place, -, h⟩ := Option.bind_eq_some_iff.mp h
      split at h
      · obtain ⟨ms', hms', -⟩ := Option.map_eq_some_iff.mp h
        refine List.forall_mem_cons.mpr ⟨?_, ih hms'⟩
        rw [TarInfo.isPlain, htype]
      · cases h
    · cases h

/-! ### The paths of an export -/

/-- The places of the paths. -/
def Repository.places (r : Repository) (target : Place Bytes) : List (Place Bytes) :=
  [votingLedgerName.bytes :: governanceName.bytes :: target, executionPlanName.bytes :: target,
    r.chosenConstitution.1.bytes :: target, memoryName.bytes :: target]

theorem joinedParts_eq {target place : Place Bytes} {path : PyStr}
    (hparts : pathParts path = some (placeParts place)) (hhead : path.head? ≠ some slash) :
    joinedParts target path = some (placeParts (place ++ target)) := by
  rw [joinedParts, hparts, Option.map_some, if_neg hhead, placeParts, placeParts, placeParts,
    List.reverse_append, List.map_append]

/-- Every path leads to its place. -/
theorem forall₂_paths (r : Repository) (target : Place Bytes) :
    List.Forall₂ (fun path p => Storable (text path.1) ∧
      joinedParts target (text path.1) = some (placeParts p)) r.paths (r.places target) := by
  have hledger : Storable (text "governance/voting_ledger.json") ∧
      pathParts (text "governance/voting_ledger.json") =
        some (placeParts [votingLedgerName.bytes, governanceName.bytes]) ∧
      (text "governance/voting_ledger.json").head? ≠ some slash := by
    decide
  have hothers : ∀ path ∈ [("SOVEREIGN_SEED_MASTER_EXECUTION_PLAN.md", executionPlanName.bytes),
      ("constitution.md", constitutionName.bytes), ("CONSTITUTION.md", upperConstitutionName.bytes),
      ("memory", memoryName.bytes)], Storable (text path.1) ∧
        pathParts (text path.1) = some (placeParts [path.2]) ∧
        (text path.1).head? ≠ some slash := by
    decide
  have hother : ∀ path ∈ [("SOVEREIGN_SEED_MASTER_EXECUTION_PLAN.md", executionPlanName.bytes),
      ("constitution.md", constitutionName.bytes), ("CONSTITUTION.md", upperConstitutionName.bytes),
      ("memory", memoryName.bytes)], Storable (text path.1) ∧
        joinedParts target (text path.1) = some (placeParts (path.2 :: target)) :=
    fun path hpath => ⟨(hothers path hpath).1,
      joinedParts_eq (hothers path hpath).2.1 (hothers path hpath).2.2⟩
  have hchosen : Storable (text (if pathExists r.constitution then ("constitution.md",
      r.constitution) else ("CONSTITUTION.md", r.upperConstitution)).1) ∧
      joinedParts target (text (if pathExists r.constitution then ("constitution.md",
        r.constitution) else ("CONSTITUTION.md", r.upperConstitution)).1) =
          some (placeParts (r.chosenConstitution.1.bytes :: target)) := by
    rw [Repository.chosenConstitution]
    split
    · exact hother _ (.tail _ (.head _))
    · exact hother _ (.tail _ (.tail _ (.head _)))
  exact .cons ⟨hledger.1, joinedParts_eq hledger.2.1 hledger.2.2⟩
    (.cons (hother _ (.head _)) (.cons hchosen
      (.cons (hother _ (.tail _ (.tail _ (.tail _ (.head _))))) .nil)))

/-- No path leads below another. -/
theorem apart_paths (r : Repository) : Apart (r.paths.map Prod.fst) := by
  -- the paths differ before their first slash
  have hhead : ∀ {a s : PyStr}, Below a s → (s.splitOn slash).head? = (a.splitOn slash).head? := by
    rintro a s (rfl | ⟨rest, rfl⟩)
    · rfl
    · rw [List.splitOn_append_cons_self, List.head?_append_of_ne_nil]
      exact List.splitOn_ne_nil _ _
  have hapart : ∀ paths : List String,
      (paths.map fun path => ((text path).splitOn slash).head?).Nodup → Apart paths := by
    intro paths hnodup
    refine (List.pairwise_map.mp hnodup).imp fun {a b} hne s ha hb => ?_
    exact hne ((hhead ha).symm.trans (hhead hb))
  have hlower : (["governance/voting_ledger.json", "SOVEREIGN_SEED_MASTER_EXECUTION_PLAN.md",
      "constitution.md", "memory"].map fun path => ((text path).splitOn slash).head?).Nodup := by
    decide
  have hupper : (["governance/voting_ledger.json", "SOVEREIGN_SEED_MASTER_EXECUTION_PLAN.md",
      "CONSTITUTION.md", "memory"].map fun path => ((text path).splitOn slash).head?).Nodup := by
    decide
  rw [Repository.paths]
  split
  · exact hapart _ hlower
  · exact hapart _ hupper

/-- What the members of an export stand for, and when they are files and directories. -/
theorem paths_eq (r : Repository) : ∃ path, r.paths =
    [("governance/voting_ledger.json", r.votingLedger),
      ("SOVEREIGN_SEED_MASTER_EXECUTION_PLAN.md", r.executionPlan),
      (path, r.chosenConstitution.2), ("memory", r.memory)] := by
  rw [Repository.paths, Repository.chosenConstitution]
  split
  · exact ⟨_, rfl⟩
  · exact ⟨_, rfl⟩

theorem items_paths (r : Repository) (target : Place Bytes) :
    ((r.paths.zip (r.places target)).flatMap fun z => (packedTree z.1.2).items z.2) =
      (packedTree r.votingLedger).items
        (votingLedgerName.bytes :: governanceName.bytes :: target) ++
          r.otherTrees.items target := by
  obtain ⟨path, hpaths⟩ := paths_eq r
  rw [hpaths, Repository.places]
  simp only [List.zip_cons_cons, List.zip_nil_right, List.flatMap_cons, List.flatMap_nil,
    Repository.otherTrees, Forest.items]

/-- The forest is plain if the trees at the paths are, and has their inodes. -/
theorem forest_paths (r : Repository) :
    (r.paths.all fun path => (packedTree path.2).isPlain) = r.forest.isPlain ∧
      (r.paths.flatMap fun path => (packedTree path.2).inodes) = r.forest.inodes := by
  have hledger : ∀ (ledger : Tree) (others : Forest),
      (withLedger ledger others).isPlain = (ledger.isPlain && others.isPlain) ∧
        (withLedger ledger others).inodes = ledger.inodes ++ others.inodes := by
    intro ledger others
    cases ledger <;>
      simp [withLedger, Forest.isPlain, Tree.isPlain, Forest.inodes, Tree.inodes]
  obtain ⟨path, hpaths⟩ := paths_eq r
  obtain ⟨hplain, hinodes⟩ := hledger (packedTree r.votingLedger) r.otherTrees
  rw [hpaths, Repository.forest, hplain, hinodes]
  simp [Repository.otherTrees, Forest.isPlain, Forest.inodes]

theorem valid_forest (s : Source) : s.forest.Valid := by
  have hvalid : ∀ path ∈ s.paths, (packedTree path.2).Valid := fun path hpath =>
    valid_packedTree (s.valid path hpath)
  obtain ⟨path, hpaths⟩ := paths_eq s.toRepository
  rw [hpaths] at hvalid
  have hnames : ∀ chosen ∈ [constitutionName.bytes, upperConstitutionName.bytes],
      [governanceName.bytes, executionPlanName.bytes, chosen, memoryName.bytes].Nodup := by
    decide
  have hchosen : s.chosenConstitution.1.bytes ∈
      [constitutionName.bytes, upperConstitutionName.bytes] := by
    rw [Repository.chosenConstitution]
    split
    · exact .head _
    · exact .tail _ (.head _)
  obtain ⟨hgovernance, hothers⟩ := List.nodup_cons.mp (hnames _ hchosen)
  obtain ⟨hplan, hothers⟩ := List.nodup_cons.mp hothers
  obtain ⟨hconstitution, hmemory⟩ := List.nodup_cons.mp hothers
  have hotherTrees : s.otherTrees.Valid :=
    ⟨hplan, hvalid _ (.tail _ (.head _)), hconstitution, hvalid _ (.tail _ (.tail _ (.head _))),
      (List.nodup_cons.mp hmemory).1, hvalid _ (.tail _ (.tail _ (.tail _ (.head _)))), trivial⟩
  have hledger := hvalid _ (.head _)
  unfold Repository.forest withLedger
  split
  · exact hotherTrees
  · exact ⟨hgovernance, ⟨List.not_mem_nil, hledger, trivial⟩, hotherTrees⟩

/-! ### The round trip -/

variable {H : Host}

/-- In an empty directory, the path of a place below leads to the place. -/
theorem EmptyTarget.real_place (e : EmptyTarget H) (limit : ℕ) {p : Place Bytes}
    (h : e.place <:+ p) : e.tree.real limit [] (placeParts p) = some p := by
  refine resolve_place limit (fun q hq => ?_) nofun
  rcases List.suffix_or_suffix_of_suffix hq h with hup | hbelow
  · exact linkAt_of_isDir (isDir_of_suffix hup e.isDir)
  · obtain ⟨front, rfl⟩ := hbelow
    rcases List.eq_nil_or_concat' front with rfl | ⟨front, n, rfl⟩
    · exact linkAt_of_isDir e.isDir
    · refine linkAt_of_none ?_
      rw [List.append_assoc]
      exact e.empty front n

theorem EmptyTarget.makeTarget_eq (e : EmptyTarget H) :
    makeTarget e.tree e.place = some e.tree := by
  have hdir := e.isDir
  cases hplace : e.place with
  | nil => rfl
  | cons n p =>
    rw [hplace] at hdir
    exact if_pos hdir

/-- The run comes to the members of the export. -/
theorem verifyAndResurrect_exportState (s : Source) (timestamp : PyStr) (e : EmptyTarget H) :
    verifyAndResurrect H (exportState H s.toRepository timestamp) e.tree e.dir =
      match checkMembers H.release e.tree e.place (addPaths [] s.paths).1 with
      | none => .aborted e.tree
      | some ms => .extracted e.tree (extractall H.release ⟨e.tree, []⟩ ms) := by
  have hnames : ∀ path ∈ s.paths, Storable (text path.1) :=
    ((List.forall₂_and_left _ _).mp (forall₂_paths s.toRepository [])).1
  have hread : H.tar.read (H.tar.write (addPaths [] s.paths).1) = some (addPaths [] s.paths).1 :=
    H.tar.read_write _ (storable_addPaths s.paths [] hnames)
  have hbundle : ((exportState H s.toRepository timestamp).bundle.bind H.tar.read).bind
      (checkMembers H.release e.tree e.place) =
        checkMembers H.release e.tree e.place (addPaths [] s.paths).1 := by
    rw [exportState, sealBundle, Option.bind_some, hread, Option.bind_some]
  have hmanifest : checkManifest H (exportState H s.toRepository timestamp) = true :=
    checkManifest_sealBundle H _ timestamp
  unfold verifyAndResurrect
  rw [hmanifest, if_neg (by decide)]
  cases hmembers : checkMembers H.release e.tree e.place (addPaths [] s.paths).1 with
  | none => simp only [e.resolves, e.makeTarget_eq, hbundle, hmembers]
  | some ms => simp only [e.resolves, e.makeTarget_eq, hbundle, hmembers]

/-- The members that an export packs are files and directories exactly if nothing of another
kind is packed, and no file under two names. -/
theorem packs_paths (s : Source) : (∀ m ∈ (addPaths [] s.paths).1, m.isPlain = true) ↔
    s.forest.isPlain = true ∧ s.forest.inodes.Nodup := by
  have hnames : ∀ path ∈ s.paths, Storable (text path.1) :=
    ((List.forall₂_and_left _ _).mp (forall₂_paths s.toRepository [])).1
  have hpacks := packs_addPaths s.paths [] hnames s.valid (apart_paths s.toRepository) nofun
  obtain ⟨hplain, hinodes⟩ := forest_paths s.toRepository
  rw [hpacks.iff, hplain, hinodes]
  exact and_congr_right fun _ => and_iff_left fun _ _ => List.not_mem_nil

/-- **The items of an export put what was packed together in an empty directory.** -/
theorem rebuilt_forest (s : Source) (e : EmptyTarget H) (hplain : s.forest.isPlain = true) :
    ∃ run : Extraction, run = extractEach H.release ⟨e.tree, []⟩ (unpacked
        ((packedTree s.votingLedger).items
          (votingLedgerName.bytes :: governanceName.bytes :: e.place) ++
            s.otherTrees.items e.place)) ∧
      run.returns = true ∧
      (∀ q, run.work.tree.entry (q ++ e.place) = (Tree.dir s.forest).at q.reverse) ∧
      ∀ q, ¬e.place <:+ q → run.work.tree.entry q = e.tree.entry q := by
  have hrebuilt := s.forest.extract_items (R := H.release) (w := ⟨e.tree, []⟩) (valid_forest s)
    e.isDir fun m _ q => e.empty q m
  have hlook := hrebuilt.look_dir e.isDir e.empty
  have hframe : ∀ q, ¬e.place <:+ q → (extractEach H.release ⟨e.tree, []⟩
      (unpacked (s.forest.items e.place))).work.tree.entry q = e.tree.entry q := fun q hq =>
    hrebuilt.frame q fun m _ hsuffix => hq ((List.suffix_cons m e.place).trans hsuffix)
  have hreturns := hrebuilt.returns
  -- the packer does not name the directory `governance`
  have hsame : (extractEach H.release ⟨e.tree, []⟩ (unpacked (s.forest.items e.place))).work =
        (extractEach H.release ⟨e.tree, []⟩ (unpacked ((packedTree s.votingLedger).items
          (votingLedgerName.bytes :: governanceName.bytes :: e.place) ++
            s.otherTrees.items e.place))).work ∧
      (extractEach H.release ⟨e.tree, []⟩ (unpacked (s.forest.items e.place))).returns =
        (extractEach H.release ⟨e.tree, []⟩ (unpacked ((packedTree s.votingLedger).items
          (votingLedgerName.bytes :: governanceName.bytes :: e.place) ++
            s.otherTrees.items e.place))).returns := by
    have hledger : s.forest = withLedger (packedTree s.votingLedger) s.otherTrees := rfl
    have hplain' := hplain
    rw [hledger] at hplain' ⊢
    have hnone : e.tree.entry (governanceName.bytes :: e.place) = none :=
      e.empty [] governanceName.bytes
    cases hl : packedTree s.votingLedger with
    | file inode contents =>
      have h := extractEach_above (w := ⟨e.tree, []⟩) H.release votingLedgerName.bytes
        (.data contents) (s.otherTrees.items e.place) e.isDir hnone
      simpa [withLedger, Forest.items, Tree.items] using h
    | dir entries =>
      have h := extractEach_above (w := ⟨e.tree, []⟩) H.release votingLedgerName.bytes .dir
        (entries.items (votingLedgerName.bytes :: governanceName.bytes :: e.place) ++
          s.otherTrees.items e.place) e.isDir hnone
      simpa [withLedger, Forest.items, Tree.items] using h
    | socket => exact ⟨rfl, rfl⟩
    | _ =>
      rw [hl] at hplain'
      cases hplain'
  rw [hsame.1] at hlook hframe
  rw [hsame.2] at hreturns
  exact ⟨_, rfl, hreturns, hlook, hframe⟩

/-- **A bundle is restored exactly if there is no link, pipe or device in it and no file
under two names.** -/
theorem restored_iff (H : Host) (s : Source) (timestamp : PyStr) (e : EmptyTarget H) :
    Restored H s timestamp e ↔ s.forest.isPlain = true ∧ s.forest.inodes.Nodup := by
  unfold Restored
  rw [verifyAndResurrect_exportState]
  constructor
  · rintro ⟨run, hrun, -⟩
    split at hrun
    · cases hrun
    · next ms hms => exact (packs_paths s).mp (isPlain_of_checkMembers hms)
  · intro h
    have hplain := (packs_paths s).mpr h
    have hmembers := forall₂_addPaths s.paths (s.places e.place) [] (forall₂_paths _ _) hplain
    rw [items_paths] at hmembers
    have hcheck := checkMembers_unpacked (R := H.release) (t := e.tree) hmembers fun i hi => by
      have hinside : e.place <:+ i.1 := by
        rcases List.mem_append.mp hi with hi | hi
        · exact (((List.suffix_cons _ _).trans (List.suffix_cons _ _))).trans
            ((packedTree s.votingLedger).suffix_of_mem_items i hi)
        · exact s.otherTrees.suffix_of_mem_items i hi
      exact ⟨hinside, e.real_place H.release.maxReal hinside⟩
    obtain ⟨run, hrun, hreturns, hlook, hframe⟩ := rebuilt_forest s e h.1
    rw [hcheck]
    refine ⟨extractall H.release ⟨e.tree, []⟩ _, rfl, ?_⟩
    unfold extractall
    simp only [← hrun, hreturns, if_true]
    exact ⟨trivial, hlook, hframe⟩

/-! ### A link in the memory -/

/-- A repository with nothing but a link in `memory`. -/
def linkedSource : Source where
  toRepository := ⟨none, none, none, none, some (.dir (.cons memoryName (.link true) .nil)), none⟩
  valid := by
    intro path hpath tree htree
    simp only [Repository.paths, List.mem_cons, List.not_mem_nil, or_false] at hpath
    rcases hpath with rfl | rfl | rfl | rfl
    · cases htree
    · cases htree
    · cases htree
    · cases htree
      exact ⟨List.not_mem_nil, trivial, trivial⟩

/-- The empty directory `/t`. -/
def slashT (tar : Archiver) : EmptyTarget (toolHost tar) where
  tree := emptyTarget
  dir := text "/t"
  place := [[0x74]]
  resolves := resolveTarget_emptyTarget tar
  isDir := by decide
  empty q n := by
    refine (entry_put_of_ne _ append_cons_ne_self).trans ?_
    cases q <;> rfl

/-- The packer packs the link, and the restorer refuses it. -/
theorem linked_memory_is_not_restored : ¬Restored (toolHost countingArchiver) linkedSource
    (text "2026-01-01T00:00:00Z") (slashT countingArchiver) := by
  rintro ⟨run, hrun, -⟩
  rw [verifyAndResurrect_exportState] at hrun
  split at hrun
  · cases hrun
  · next ms hms =>
    have hplain := ((packs_paths linkedSource).mp (isPlain_of_checkMembers hms)).1
    exact absurd hplain (by decide)

end Migration
end SovereignSeed
