import SovereignSeed.Python.Tarfile
import SovereignSeed.Runner.Mutation

/-!
# The two packagers

`tools/resurrection.py` and the command `package` of `tools/cell_runner.py` write the
same two files: a bundle, and a manifest beside it.  The manifest of the first has the
SHA-256 of the bundle in it, the manifest of the second has the commit.  What restores a
bundle asks its manifest for the hash.

## Main definitions

* `Repository`, `Site` — what is packed, and what a command finds around it.
* `exportState`, `cmdPackage` — the two packagers.
* `checkManifest` — the check of the restorer.

## Main results

* `checkManifest_sealBundle`, `checkManifest_cmdPackage` — a sealed bundle passes, a
  packaged one does not.
* `packagers_agree_iff` — **after any commands, what is left passes exactly if the last
  one was an export.**
-/

namespace SovereignSeed
namespace Migration

open Python Json Tollbridge

/-- What the tools run on. -/
structure Host extends Runner.Host where
  tar : Archiver
  release : Release
  /-- The working directory. -/
  cwd : Place Bytes

/-- What is there to be packed. -/
structure Repository where
  /-- `governance/voting_ledger.json`. -/
  votingLedger : Option Tree
  /-- `SOVEREIGN_SEED_MASTER_EXECUTION_PLAN.md`. -/
  executionPlan : Option Tree
  /-- `constitution.md`. -/
  constitution : Option Tree
  /-- `CONSTITUTION.md`. -/
  upperConstitution : Option Tree
  memory : Option Tree
  tools : Option Tree

/-- What a command finds around it. -/
structure Site where
  repository : Repository
  /-- The output of `git status --porcelain`, or `none` where the call raises. -/
  gitStatus : Option PyStr
  /-- The output of `git rev-parse HEAD`, or `none` where this or `--show-toplevel` raises. -/
  head : Option PyStr
  /-- The time, as `strftime("%Y-%m-%dT%H:%M:%SZ")` has it. -/
  timestamp : PyStr

/-- The files `genesis/resurrection_bundle.tar.gz` and `genesis/resurrection_manifest.json`. -/
structure Genesis where
  bundle : Option Bytes
  manifest : Option Bytes

/-- What `json.dump(d, f, indent=2)` writes for a `dict` of strings. -/
def stringsFile (d : List (PyStr × PyStr)) : Bytes :=
  utf8 ((Value.obj (d.map fun m => (m.1, .str m.2))).render .indented 0)

/-! ### `tools/resurrection.py` -/

/-- Something is at the path. -/
def pathExists (tree : Option Tree) : Bool := tree.any Tree.isThere

/-- `required_paths`, and behind them the memory. -/
def Repository.paths (r : Repository) : List (String × Option Tree) :=
  [("governance/voting_ledger.json", r.votingLedger),
    ("SOVEREIGN_SEED_MASTER_EXECUTION_PLAN.md", r.executionPlan),
    if pathExists r.constitution then ("constitution.md", r.constitution)
    else ("CONSTITUTION.md", r.upperConstitution),
    ("memory", r.memory)]

/-- The manifest of an export. -/
def exportManifest (bundleHash timestamp : PyStr) : List (PyStr × PyStr) :=
  [(text "protocol", text "Sovereign Seed Commons"),
    (text "phase", text "P11 Migration and Resurrection"),
    (text "bundle_sha256", bundleHash), (text "timestamp", timestamp)]

/-- A bundle with its manifest. -/
def sealBundle (H : Host) (bundle : Bytes) (timestamp : PyStr) : Genesis :=
  ⟨some bundle, some (stringsFile (exportManifest (H.crypto.hexdigest bundle) timestamp))⟩

/-- `export_state`. -/
def exportState (H : Host) (r : Repository) (timestamp : PyStr) : Genesis :=
  sealBundle H (H.tar.write (addPaths [] r.paths).1) timestamp

/-- The first part of `verify_and_resurrect`: the bundle has the hash its manifest says. -/
def checkManifest (H : Host) (g : Genesis) : Bool :=
  match g.bundle, g.manifest with
  | some bundle, some manifest =>
    match (readText false manifest).bind load with
    | some (.obj d) => isStr (field d "bundle_sha256") (H.crypto.hexdigest bundle)
    | _ => false
  | _, _ => false

/-! ### `tools/cell_runner.py` -/

/-- The manifest of a package. -/
def packageManifest (head : PyStr) : List (PyStr × PyStr) :=
  [(text "commit", strip head), (text "status", text "packaged")]

/-- `cmd_package`, or `none` where it does not come to its end. -/
def cmdPackage (H : Host) (S : Site) : Option Genesis :=
  match Runner.verifyCleanCheckout { H.toHost with gitStatus := S.gitStatus } with
  | .error _ => none
  | .ok () =>
    match S.head, S.repository.tools with
    | some head, some tools =>
      some ⟨some (H.tar.write (tools.add [] (text "tools")).1),
        some (stringsFile (packageManifest head))⟩
    | _, _ => none

/-! ### Commands -/

/-- The commands that write the two files. -/
inductive Command
  /-- `cell_runner.py package`. -/
  | package
  /-- `resurrection.py`. -/
  | exportState
  deriving DecidableEq

/-- What a command leaves, or `none` if it does not succeed. -/
def Command.run (H : Host) (S : Site) : Command → Option Genesis
  | .package => cmdPackage H S
  | .exportState => some (Migration.exportState H S.repository S.timestamp)

/-- What a row of commands leaves, each with what it finds, if all of them succeed. -/
def runAll (H : Host) (g : Genesis) : List (Command × Site) → Option Genesis
  | [] => some g
  | (command, S) :: rest => (command.run H S).bind fun g' => runAll H g' rest

/-! ### What the check says -/

variable {H : Host} {S : Site} {g g' : Genesis}

/-- The files of the two packagers are read as they were written. -/
theorem load_stringsFile {d : List (PyStr × PyStr)} (hnodup : (d.map Prod.fst).Nodup)
    (hkeys : ∀ m ∈ d, hasPair m.1 = false) : (readText false (stringsFile d)).bind load =
      some (.obj (d.map fun m => (m.1, .str (joinPairs m.2)))) := by
  have hprintable : (Value.obj (d.map fun m => (m.1, .str m.2))).printable = true := by
    refine printable_obj.mpr fun m hm => ?_
    obtain ⟨m', -, rfl⟩ := List.mem_map.mp hm
    rfl
  have hread : readText false (stringsFile d) =
      some ((Value.obj (d.map fun m => (m.1, .str m.2))).render .indented 0) :=
    readText_utf8 (render_ascii _ 0).isScalar (Runner.ne_return_of_mem_render _ 0) false
  -- the keys stay as they are, so they stay different
  have hjoined : (Value.obj (d.map fun m => (m.1, .str m.2))).joined =
      .obj (d.map fun m => (m.1, .str (joinPairs m.2))) := by
    rw [Value.joined, rebuild_obj]
    refine congrArg Value.obj ((List.map_map ..).trans (List.map_congr_left fun m hm => ?_))
    exact Prod.ext ((joinPairs_eq_self_iff m.1).mpr (hkeys m hm)) rfl
  have hdict : (Value.obj (d.map fun m => (m.1, .str (joinPairs m.2)))).dict =
      .obj (d.map fun m => (m.1, .str (joinPairs m.2))) := by
    rw [Value.dict, rebuild_obj]
    refine congrArg Value.obj ((congrArg dictOf (List.map_map ..)).trans (dictOf_eq_self ?_))
    rw [List.map_map]
    exact hnodup
  rw [hread, Option.bind_some, load, parse_render .indented hprintable, Option.map_some, hjoined,
    hdict]

/-- **A sealed bundle passes the check.** -/
theorem checkManifest_sealBundle (H : Host) (bundle : Bytes) (timestamp : PyStr) :
    checkManifest H (sealBundle H bundle timestamp) = true := by
  have hnodup : ∀ hash, ((exportManifest hash timestamp).map Prod.fst).Nodup := fun hash => by
    have hkeys : [text "protocol", text "phase", text "bundle_sha256", text "timestamp"].Nodup := by
      decide
    exact hkeys
  have hkeys : ∀ hash, ∀ m ∈ exportManifest hash timestamp, hasPair m.1 = false := by
    have hall : [text "protocol", text "phase", text "bundle_sha256", text "timestamp"].all
        (fun k => !hasPair k) = true := by
      decide
    intro hash m hm
    have hmem : m.1 ∈ [text "protocol", text "phase", text "bundle_sha256", text "timestamp"] :=
      List.mem_map_of_mem (f := Prod.fst) hm
    simpa using List.all_eq_true.mp hall _ hmem
  generalize hhash : H.crypto.hexdigest bundle = hash
  have hjoin : joinPairs hash = hash := by
    rw [← hhash]
    exact (joinPairs_eq_self_iff _).mpr (hasPair_of_isScalar (Runner.isAscii_hexOf _).isScalar)
  unfold checkManifest sealBundle
  simp only [hhash, load_stringsFile (hnodup hash) (hkeys hash)]
  rw [isStr_eq_true_iff]
  refine field_of_mem ?_ ?_
  · rw [List.map_map]
    exact hnodup hash
  · refine List.mem_map.mpr ⟨(text "bundle_sha256", hash), ?_, by rw [hjoin]⟩
    exact .tail _ (.tail _ (.head _))

/-- **A packaged bundle does not pass the check**: there is no hash in its manifest. -/
theorem checkManifest_cmdPackage (h : cmdPackage H S = some g) : checkManifest H g = false := by
  have hkeys : [text "commit", text "status"].Nodup ∧
      [text "commit", text "status"].all (fun k => !hasPair k) = true ∧
      text "bundle_sha256" ≠ text "commit" ∧ text "bundle_sha256" ≠ text "status" := by
    decide
  obtain ⟨hnodup, hpairs, hcommit, hstatus⟩ := hkeys
  unfold cmdPackage at h
  split at h
  · cases h
  split at h
  · next head tools _ _ =>
    cases h
    have hload := load_stringsFile (d := packageManifest head) hnodup fun m hm => by
      have hmem : m.1 ∈ [text "commit", text "status"] := List.mem_map_of_mem (f := Prod.fst) hm
      simpa using List.all_eq_true.mp hpairs _ hmem
    unfold checkManifest
    simp only [hload]
    have hfield : field ((packageManifest head).map fun m => (m.1, Value.str (joinPairs m.2)))
        "bundle_sha256" = .null := by
      simp only [field, packageManifest, List.map_cons, List.map_nil, List.lookup_cons,
        beq_false_of_ne hcommit, beq_false_of_ne hstatus, List.lookup_nil, Option.getD_none]
    rw [hfield]
    rfl
  · cases h

/-- The last command decides what is left. -/
theorem runAll_append (H : Host) : ∀ (runs : List (Command × Site)) (g : Genesis)
    (last : Command × Site), runAll H g (runs ++ [last]) =
      (runAll H g runs).bind fun _ => last.1.run H last.2 := by
  intro runs
  induction runs with
  | nil =>
    intro g last
    rw [List.nil_append, runAll, runAll, Option.bind_some]
    exact Option.bind_fun_some _
  | cons first runs ih =>
    intro g last
    rw [List.cons_append, runAll, runAll, Option.bind_assoc]
    congr 1
    funext g'
    exact ih g' last

/-- **After any commands, what is left passes exactly if the last one was an export.** -/
theorem packagers_agree_iff (H : Host) (g g' : Genesis) (runs : List (Command × Site))
    (last : Command × Site) (h : runAll H g (runs ++ [last]) = some g') :
    checkManifest H g' = true ↔ last.1 = .exportState := by
  rw [runAll_append] at h
  obtain ⟨-, -, hlast⟩ := Option.bind_eq_some_iff.mp h
  obtain ⟨command, S⟩ := last
  cases command with
  | package =>
    rw [checkManifest_cmdPackage hlast]
    exact ⟨nofun, nofun⟩
  | exportState =>
    obtain rfl := Option.some.inj hlast
    exact ⟨fun _ => rfl, fun _ => checkManifest_sealBundle H _ S.timestamp⟩

/-! ### A package -/

/-- Linux with Python 3.11. -/
def toolRelease : Release := ⟨40, 1000, false, false⟩

/-- A host for the tools, at the root of its tree. -/
def toolHost (tar : Archiver) : Host where
  toHost := Runner.cellHost
  tar := tar
  release := toolRelease
  cwd := []

/-- A clean checkout with no file in `tools`. -/
def cleanSite : Site where
  repository := ⟨none, none, none, none, none, some (.dir .nil)⟩
  gitStatus := some []
  head := some (text "3f0c2a91")
  timestamp := text "2026-01-01T00:00:00Z"

theorem cmdPackage_cleanSite (tar : Archiver) : ∃ g, cmdPackage (toolHost tar) cleanSite = some g :=
  ⟨_, rfl⟩

/-- An export over a package. -/
theorem packagers_agree_iff_export :
    ∃ g, runAll (toolHost countingArchiver) ⟨none, none⟩
        [(.package, cleanSite), (.exportState, cleanSite)] = some g ∧
      checkManifest (toolHost countingArchiver) g = true := by
  obtain ⟨packaged, hpackaged⟩ := cmdPackage_cleanSite countingArchiver
  obtain ⟨g, hexported⟩ : ∃ g,
      Command.run (toolHost countingArchiver) cleanSite .exportState = some g :=
    ⟨_, rfl⟩
  have hfirst : runAll (toolHost countingArchiver) ⟨none, none⟩ ([] ++ [(.package, cleanSite)]) =
      some packaged := by
    rw [runAll_append]
    exact hpackaged
  have hrun : runAll (toolHost countingArchiver) ⟨none, none⟩
      ([] ++ [(.package, cleanSite)] ++ [(.exportState, cleanSite)]) = some g := by
    rw [runAll_append, hfirst]
    exact hexported
  exact ⟨g, hrun, (packagers_agree_iff (toolHost countingArchiver) ⟨none, none⟩ g
    [(.package, cleanSite)] (.exportState, cleanSite) hrun).mpr rfl⟩

/-- After a package alone, the restorer refuses what is left. -/
theorem packaged_bundle_is_refused :
    ∃ g, runAll (toolHost countingArchiver) ⟨none, none⟩ [(.package, cleanSite)] = some g ∧
      checkManifest (toolHost countingArchiver) g = false := by
  obtain ⟨g, hg⟩ := cmdPackage_cleanSite countingArchiver
  refine ⟨g, ?_, checkManifest_cmdPackage hg⟩
  exact (runAll_append (toolHost countingArchiver) [] ⟨none, none⟩ (.package, cleanSite)).trans hg

end Migration
end SovereignSeed
