import SovereignSeed.Foundation.FileSystem
import SovereignSeed.Foundation.Machine
import SovereignSeed.Migration.Packagers

/-!
# The clean checkout

Each command of `tools/cell_runner.py` asks `git status` first and stops if anything has
changed.  `package` puts two files into `genesis` that the rules of `.gitignore` do not cover.

`git` is not part of the repository.  It enters by what it documents: the status is empty
exactly if every file is as it was committed or is ignored.  The packet of `run` is taken to
leave the tree alone.

## Main definitions

* `gitignore`, `ignored` — the rules, and what they cover.
* `Repository.Clean`, `ReportsChanges` — a clean checkout, and what `git` says of one.
* `cmdVerify`, `cmdDryRun`, `writeGenesis` — the other commands, and the files of a package.
* `Call.Refused`, `gate` — a refused call, and a row of calls.
* `Repository.Harmless` — a package that leaves the checkout clean.

## Main results

* `clean_after_iff` — what a call leaves.
* `clean_gate_iff` — **no call is refused exactly if no harmful package is followed by
  another call.**
-/

namespace SovereignSeed
namespace Runner

open Python Json

/-- A place in the working tree. -/
abbrev Path := Place PyStr

/-- The files and directories below the top of the checkout. -/
abbrev WorkTree := FileSystem PyStr Bytes

/-! ### What is ignored -/

/-- A pattern without a slash inside. -/
inductive Glob
  | name (s : PyStr)
  /-- A star and the end of a name. -/
  | ending (s : PyStr)

/-- The name fits the pattern. -/
def Glob.fits : Glob → PyStr → Bool
  | .name s, n => n = s
  | .ending s, n => s.isSuffixOf n

/-- A line of `.gitignore`. -/
structure Rule where
  glob : Glob
  /-- There is a slash at the end of the line. -/
  dirOnly : Bool

/-- The file `.gitignore`. -/
def gitignore : List Rule :=
  [⟨.name (text "venv"), true⟩, ⟨.name (text "__pycache__"), true⟩, ⟨.ending (text ".pyc"), false⟩,
    ⟨.ending (text ".pyo"), false⟩, ⟨.ending (text ".pyd"), false⟩, ⟨.name (text ".env"), false⟩,
    ⟨.ending (text ".db"), false⟩, ⟨.name (text "logs"), true⟩, ⟨.ending (text ".pid"), false⟩,
    ⟨.name (text ".DS_Store"), false⟩, ⟨.name (text "cloudflare.log"), false⟩,
    ⟨.name (text "ingress_8003.log"), false⟩, ⟨.name (text "ingress_production.log"), false⟩,
    ⟨.ending (text ".log"), false⟩]

/-- A file is ignored by its name, or with a directory on the way to it. -/
def ignored : Path → Bool
  | [] => false
  | n :: dirs => gitignore.any (fun r => !r.dirOnly && r.glob.fits n) ||
      dirs.any fun d => gitignore.any fun r => r.glob.fits d

/-- `genesis`. -/
def genesisDir : Path := [text "genesis"]

/-- `genesis/resurrection_manifest.json`. -/
def manifestPath : Path := text "resurrection_manifest.json" :: genesisDir

/-- `genesis/resurrection_bundle.tar.gz`. -/
def bundlePath : Path := text "resurrection_bundle.tar.gz" :: genesisDir

/-- **The files of a package are not ignored.** -/
theorem ignored_genesis : ignored manifestPath = false ∧ ignored bundlePath = false := by
  decide

theorem bundlePath_ne : bundlePath ≠ manifestPath := by
  decide

/-! ### The repository -/

/-- What `git` knows. -/
structure Repository where
  /-- The files of the commit. -/
  committed : Path → Option Bytes
  /-- The output of `git rev-parse HEAD`. -/
  head : PyStr
  /-- The output of `git status --porcelain`, or `none` where the call raises. -/
  gitStatus : WorkTree → Option PyStr

/-- Every file is as it was committed, or is not and is ignored. -/
def Unchanged (committed : Path → Option Bytes) (fs : WorkTree) : Prop :=
  ∀ p, fs.contents p = committed p ∨ (committed p = none ∧ ignored p = true)

/-- A clean checkout. -/
def Repository.Clean (G : Repository) (fs : WorkTree) : Prop := Unchanged G.committed fs

/-- What `git status --porcelain` documents: it prints what has changed. -/
def ReportsChanges (G : Repository) : Prop :=
  ∀ fs, ∃ stdout, G.gitStatus fs = some stdout ∧ (strip stdout = [] ↔ G.Clean fs)

/-! ### The commands -/

/-- `cmd_verify`. -/
def cmdVerify (H : Host) : Except Abort Unit :=
  match getSecret H with
  | .error e => .error e
  | .ok _ => verifyCleanCheckout H

/-- `cmd_dry_run`, given the octets of the file. -/
def cmdDryRun (H : Host) (file : Option Bytes) : Except Abort Unit :=
  match verifyCleanCheckout H with
  | .error e => .error e
  | .ok () =>
    match verifyMutation H file with
    | .error e => .error e
    | .ok mutation =>
      match mutation.lookup (text "objective") with
      | none => .error .raised
      | some objective => if H.prints objective = false then .error .raised else .ok ()

/-- The part of `cmd_package` that writes, and how it ends: a directory that is not made or a
file that is not opened ends it. -/
def writeGenesis (fs : WorkTree) (manifest bundle : Bytes) : WorkTree × Except Abort Unit :=
  let made := fs.makeDirs [] [.name (text "genesis")]
  match made.2 with
  | none => (made.1, .error .raised)
  | some _ =>
    match made.1.writeFile manifestPath manifest with
    | none => (made.1, .error .raised)
    | some fs' =>
      match fs'.writeFile bundlePath bundle with
      | none => (fs', .error .raised)
      | some fs'' => (fs'', .ok ())

/-- A command of the runner. -/
inductive CellCommand
  | verify
  /-- `package`, and what is found at `tools`. -/
  | package (tools : Tree)
  | dryRun (mutation : Path)
  | run (mutation : Path)

/-- A command, and what it finds around it besides the checkout. -/
structure Call where
  command : CellCommand
  host : Migration.Host

namespace Call

variable (G : Repository) (fs : WorkTree) (c : Call)

/-- What the command finds, with the status of the checkout. -/
def found : Host := { c.host.toHost with gitStatus := G.gitStatus fs }

/-- What a package finds. -/
def site (tools : Tree) : Migration.Site where
  repository := ⟨none, none, none, none, none, some tools⟩
  gitStatus := G.gitStatus fs
  head := some G.head
  timestamp := []

/-- What the command leaves, and how it ends. -/
def exec : WorkTree × Except Abort Unit :=
  match c.command with
  | .verify => (fs, cmdVerify (c.found G fs))
  | .package tools =>
    match Migration.cmdPackage c.host (site G fs tools) with
    | some ⟨some bundle, some manifest⟩ => writeGenesis fs manifest bundle
    | _ => (fs, verifyCleanCheckout (c.found G fs))
  | .dryRun mutation => (fs, cmdDryRun (c.found G fs) (fs.contents mutation))
  | .run mutation => (fs, (cmdRun (c.found G fs) (fs.contents mutation)).2)

/-- The command is refused for a dirty checkout: it gets to the check, and that exits. -/
def Refused : Prop :=
  (c.command = .verify → ∃ secret, getSecret (c.found G fs) = .ok secret) ∧
    verifyCleanCheckout (c.found G fs) = .error (.exit 1)

end Call

/-- The runner, one call after another. -/
def gate (G : Repository) : Machine WorkTree Call where
  init fs := G.Clean fs
  step fs c := some (c.exec G fs).1

/-! ### What is refused -/

section Calls

variable {G : Repository} {fs : WorkTree} {c : Call}

/-- The check passes in a clean checkout. -/
theorem check_of_clean (hgit : ReportsChanges G) (hclean : G.Clean fs) :
    verifyCleanCheckout (c.found G fs) = .ok () := by
  obtain ⟨stdout, hstatus, hiff⟩ := hgit fs
  simp [verifyCleanCheckout, Call.found, hstatus, hiff.mpr hclean]

/-- The check exits in any other. -/
theorem check_of_not_clean (hgit : ReportsChanges G) (hclean : ¬G.Clean fs) :
    verifyCleanCheckout (c.found G fs) = .error (.exit 1) := by
  obtain ⟨stdout, hstatus, hiff⟩ := hgit fs
  simp [verifyCleanCheckout, Call.found, hstatus, mt hiff.mp hclean]

/-- **With the secret, a call is refused exactly in a checkout that is not clean.** -/
theorem refused_iff (hgit : ReportsChanges G)
    (hsecret : ∃ secret, getSecret c.host.toHost = .ok secret) :
    c.Refused G fs ↔ ¬G.Clean fs := by
  constructor
  · rintro ⟨-, hexit⟩ hclean
    rw [check_of_clean hgit hclean] at hexit
    cases hexit
  · exact fun hclean => ⟨fun _ => hsecret, check_of_not_clean hgit hclean⟩

/-- The manifest a package writes. -/
def Repository.manifest (G : Repository) : Bytes :=
  Migration.stringsFile (Migration.packageManifest G.head)

/-- The bundle a package writes. -/
def Call.bundle (c : Call) (tools : Tree) : Bytes :=
  c.host.tar.write (tools.add [] (text "tools")).1

theorem cmdPackage_site (tools : Tree) : Migration.cmdPackage c.host (Call.site G fs tools) =
    match verifyCleanCheckout (c.found G fs) with
    | .error _ => none
    | .ok () => some ⟨some (c.bundle tools), some G.manifest⟩ := rfl

theorem exec_package {tools : Tree} (hcommand : c.command = .package tools)
    (hcheck : verifyCleanCheckout (c.found G fs) = .ok ()) :
    c.exec G fs = writeGenesis fs G.manifest (c.bundle tools) := by
  rw [Call.exec, hcommand]
  dsimp only
  rw [cmdPackage_site, hcheck]

/-- A call that is no package leaves the checkout as it was. -/
theorem exec_of_ne_package (h : ∀ tools, c.command ≠ .package tools) : (c.exec G fs).1 = fs := by
  unfold Call.exec
  split
  · rfl
  · next hcommand => exact absurd hcommand (h _)
  · rfl
  · rfl

end Calls

/-! ### What a package leaves -/

section Packages

variable {fs : WorkTree} {manifest bundle : Bytes}

/-- No file of a package can be put there. -/
def Blocked (fs : WorkTree) (p : Path) : Prop :=
  (∃ contents, fs.contents genesisDir = some contents) ∨ fs.isDir p = true

/-- `genesis_dir.mkdir(parents=True, exist_ok=True)`. -/
theorem makeDirs_genesis (fs : WorkTree) : fs.makeDirs [] [.name (text "genesis")] =
    if fs.isDir genesisDir then (fs, some genesisDir)
    else if h : fs.Free genesisDir ∧ (fs.node genesisDir).isNone then
      (fs.put genesisDir .dir h.1, some genesisDir)
    else (fs, none) := by
  have hroot : fs.isDir [] = true := FileSystem.isDir_iff.mpr fs.root
  rw [FileSystem.makeDirs, if_neg (by simp [hroot])]
  rfl

/-- A directory or nothing at `genesis` becomes a directory. -/
theorem exists_makeDirs (h : ¬∃ contents, fs.contents genesisDir = some contents) :
    ∃ fs', fs.makeDirs [] [.name (text "genesis")] = (fs', some genesisDir) ∧
      fs'.isDir genesisDir = true ∧ (∀ p, fs'.contents p = fs.contents p) ∧
        ∀ p, p ≠ genesisDir → fs'.isDir p = fs.isDir p := by
  rw [makeDirs_genesis]
  by_cases hdir : fs.isDir genesisDir = true
  · rw [if_pos hdir]
    exact ⟨fs, rfl, hdir, fun _ => rfl, fun _ _ => rfl⟩
  have hnone : fs.node genesisDir = none := by
    cases hnode : fs.node genesisDir with
    | none => rfl
    | some x =>
      cases x with
      | dir => exact absurd (FileSystem.isDir_iff.mpr hnode) hdir
      | file contents => exact absurd ⟨contents, FileSystem.contents_eq_some_iff.mpr hnode⟩ h
  have hroot : fs.isDir [] = true := FileSystem.isDir_iff.mpr fs.root
  have hfree : fs.Free genesisDir := ⟨nofun, hroot, by simpa using hdir⟩
  have hgrows := FileSystem.grows_put hfree hnone
  rw [if_neg hdir, dif_pos ⟨hfree, Option.isNone_iff_eq_none.mpr hnone⟩]
  refine ⟨_, rfl, FileSystem.isDir_iff.mpr (FileSystem.node_put_self hfree), hgrows.contents,
    fun p hp => ?_⟩
  rw [FileSystem.isDir, FileSystem.node_put_of_ne hfree hp, FileSystem.isDir]

/-- A file is not put where a directory is. -/
theorem writeFile_of_isDir {p : Path} {contents : Bytes} (h : fs.isDir p = true) :
    fs.writeFile p contents = none := by
  rw [FileSystem.writeFile, dif_neg]
  rintro ⟨-, -, hno⟩
  rw [h] at hno
  cases hno

/-- What is at the manifest's place is in a directory. -/
theorem isDir_genesis {x : Node Bytes} (h : fs.node manifestPath = some x) :
    fs.isDir genesisDir = true := by
  have hne : fs.node manifestPath ≠ none := by
    rw [h]
    nofun
  exact FileSystem.isDir_iff.mpr (fs.parent _ _ hne)

/-- **A package that is blocked leaves everything as it was.** -/
theorem writeGenesis_of_blocked (h : Blocked fs manifestPath) :
    (writeGenesis fs manifest bundle).1 = fs := by
  rw [writeGenesis, makeDirs_genesis]
  rcases h with ⟨contents, hfile⟩ | hmanifest
  · have hnode := FileSystem.contents_eq_some_iff.mp hfile
    rw [if_neg (by rw [FileSystem.isDir_iff, hnode]; nofun), dif_neg (by simp [hnode])]
  · have hgenesis := isDir_genesis (FileSystem.isDir_iff.mp hmanifest)
    rw [if_pos hgenesis]
    dsimp only
    rw [writeFile_of_isDir hmanifest]

/-- **A package that writes what is there leaves everything as it was.** -/
theorem writeGenesis_self (hmanifest : fs.contents manifestPath = some manifest)
    (hbundle : Blocked fs bundlePath ∨ fs.contents bundlePath = some bundle) :
    (writeGenesis fs manifest bundle).1 = fs := by
  have hgenesis := isDir_genesis (FileSystem.contents_eq_some_iff.mp hmanifest)
  rw [writeGenesis, makeDirs_genesis, if_pos hgenesis]
  dsimp only
  rw [FileSystem.writeFile_self hmanifest]
  dsimp only
  rcases hbundle with (⟨contents, hfile⟩ | hdir) | hbundle
  · rw [FileSystem.isDir, FileSystem.contents_eq_some_iff.mp hfile] at hgenesis
    cases hgenesis
  · rw [writeFile_of_isDir hdir]
  · rw [FileSystem.writeFile_self hbundle]

/-- **A package that is not blocked writes its manifest, and its bundle if that is not
blocked.** -/
theorem contents_writeGenesis (h : ¬Blocked fs manifestPath) (manifest bundle : Bytes) :
    (writeGenesis fs manifest bundle).1.contents manifestPath = some manifest ∧
      (¬Blocked fs bundlePath →
        (writeGenesis fs manifest bundle).1.contents bundlePath = some bundle) ∧
        ∀ p, p ≠ manifestPath → p ≠ bundlePath →
          (writeGenesis fs manifest bundle).1.contents p = fs.contents p := by
  rw [Blocked, not_or] at h
  obtain ⟨fs₁, hmade, hgenesis, hcontents, hdirs⟩ := exists_makeDirs h.1
  have hmanifest : fs₁.Free manifestPath := by
    refine ⟨nofun, hgenesis, ?_⟩
    rw [hdirs _ (by decide)]
    simpa using h.2
  obtain ⟨fs₂, hwrite⟩ := FileSystem.exists_writeFile hmanifest manifest
  have hself := FileSystem.contents_writeFile_self hwrite
  have hothers : ∀ p, p ≠ manifestPath → fs₂.contents p = fs.contents p := fun p hp => by
    rw [FileSystem.contents_writeFile_of_ne hwrite hp, hcontents]
  rw [writeGenesis, hmade]
  dsimp only
  rw [hwrite]
  dsimp only
  cases hbundle : fs₂.writeFile bundlePath bundle with
  | none =>
    refine ⟨hself, fun hblocked => ?_, fun p hp _ => hothers p hp⟩
    -- then there is a directory in the way
    rw [Blocked, not_or] at hblocked
    have hfree : fs₂.Free bundlePath := by
      refine ⟨nofun, ?_, ?_⟩
      · rw [FileSystem.isDir_writeFile hwrite]
        exact hgenesis
      · rw [FileSystem.isDir_writeFile hwrite, hdirs _ (by decide)]
        simpa using hblocked.2
    obtain ⟨fs₃, hsome⟩ := FileSystem.exists_writeFile hfree bundle
    rw [hbundle] at hsome
    cases hsome
  | some fs₃ =>
    refine ⟨?_, fun _ => FileSystem.contents_writeFile_self hbundle, fun p hp hp' => ?_⟩
    · rw [FileSystem.contents_writeFile_of_ne hbundle bundlePath_ne.symm]
      exact hself
    · rw [FileSystem.contents_writeFile_of_ne hbundle hp']
      exact hothers p hp

end Packages

section Runs

variable {G : Repository} {fs : WorkTree} {c : Call}

/-- What a package writes is what was committed, as far as it can write it. -/
def Repository.Harmless (G : Repository) (fs : WorkTree) (c : Call) (tools : Tree) : Prop :=
  Blocked fs manifestPath ∨ (G.committed manifestPath = some G.manifest ∧
    (Blocked fs bundlePath ∨ G.committed bundlePath = some (c.bundle tools)))

/-- The call leaves what was committed as it is. -/
def Call.Harmless (G : Repository) (fs : WorkTree) (c : Call) : Prop :=
  ∀ tools, c.command = .package tools → G.Harmless fs c tools

/-- A file that is committed is there in a clean checkout. -/
theorem Repository.Clean.contents (h : G.Clean fs) {p : Path} {contents : Bytes}
    (hcommitted : G.committed p = some contents) : fs.contents p = some contents := by
  rcases h p with heq | ⟨hnone, -⟩
  · rw [heq, hcommitted]
  · rw [hcommitted] at hnone
    cases hnone

/-- A file that is not ignored is what was committed. -/
theorem Repository.Clean.committed (h : G.Clean fs) {p : Path} (hp : ignored p = false) :
    fs.contents p = G.committed p := by
  rcases h p with heq | ⟨-, hignored⟩
  · exact heq
  · rw [hp] at hignored
    cases hignored

/-- Where no manifest is committed, a package is harmful unless it is blocked. -/
theorem harmless_iff_of_not_committed (hnone : G.committed manifestPath = none)
    (hfree : ¬Blocked fs manifestPath) :
    c.Harmless G fs ↔ ∀ tools, c.command ≠ .package tools := by
  constructor
  · intro h tools hcommand
    obtain ⟨hmanifest, -⟩ := (h tools hcommand).resolve_left hfree
    rw [hnone] at hmanifest
    cases hmanifest
  · exact fun h tools hcommand => absurd hcommand (h tools)

/-- A harmless call leaves everything as it was. -/
theorem exec_of_harmless (hgit : ReportsChanges G) (hclean : G.Clean fs)
    (h : c.Harmless G fs) : (c.exec G fs).1 = fs := by
  by_cases hcommand : ∃ tools, c.command = .package tools
  · obtain ⟨tools, hcommand⟩ := hcommand
    rw [exec_package hcommand (check_of_clean hgit hclean)]
    rcases h tools hcommand with hblocked | ⟨hmanifest, hbundle⟩
    · exact writeGenesis_of_blocked hblocked
    · exact writeGenesis_self (hclean.contents hmanifest) (hbundle.imp_right hclean.contents)
  · exact exec_of_ne_package fun tools hpackage => hcommand ⟨tools, hpackage⟩

/-- **A call leaves a clean checkout clean exactly if it is harmless.** -/
theorem clean_after_iff (hgit : ReportsChanges G) (hclean : G.Clean fs) :
    G.Clean (c.exec G fs).1 ↔ c.Harmless G fs := by
  constructor
  · intro hafter tools hcommand
    rw [exec_package hcommand (check_of_clean hgit hclean)] at hafter
    by_cases hblocked : Blocked fs manifestPath
    · exact .inl hblocked
    obtain ⟨hmanifest, hbundle, -⟩ := contents_writeGenesis hblocked G.manifest
      (c.bundle tools)
    refine .inr ⟨?_, or_iff_not_imp_left.mpr fun hfree => ?_⟩
    · rw [← hafter.committed ignored_genesis.1, hmanifest]
    · rw [← hafter.committed ignored_genesis.2, hbundle hfree]
  · intro h
    rw [exec_of_harmless hgit hclean h]
    exact hclean

/-- **No call is refused exactly if every package that another call follows is harmless.** -/
theorem clean_gate_iff (hgit : ReportsChanges G) (hclean : G.Clean fs) {calls : List Call}
    (hsecret : ∀ c ∈ calls, ∃ secret, getSecret c.host.toHost = .ok secret) :
    (∃ fs', (gate G).Path (fun fs c => ¬c.Refused G fs) fs calls fs') ↔
      ∀ c ∈ calls.dropLast, c.Harmless G fs := by
  induction calls with
  | nil => exact iff_of_true ⟨fs, .nil fs⟩ nofun
  | cons c calls ih =>
    obtain ⟨hfirst, hothers⟩ := List.forall_mem_cons.mp hsecret
    have hpass : ¬c.Refused G fs := by
      rw [refused_iff hgit hfirst]
      exact not_not_intro hclean
    cases calls with
    | nil => exact iff_of_true ⟨_, .cons hpass rfl (.nil _)⟩ nofun
    | cons d calls =>
      rw [List.dropLast_cons_cons, List.forall_mem_cons, ← ih hothers]
      constructor
      · rintro ⟨fs', hpath⟩
        obtain ⟨t, -, hstep, hrest⟩ := hpath.head
        cases hstep
        -- the next call passes in what this one leaves
        obtain ⟨-, hnext, -, -⟩ := hrest.head
        have hafter : G.Clean (c.exec G fs).1 := by
          rw [refused_iff hgit (hothers d (.head _)), not_not] at hnext
          exact hnext
        have hharmless := (clean_after_iff hgit hclean).mp hafter
        rw [exec_of_harmless hgit hclean hharmless] at hrest
        exact ⟨hharmless, fs', hrest⟩
      · rintro ⟨hharmless, fs', hrest⟩
        refine ⟨fs', .cons hpass rfl ?_⟩
        rw [exec_of_harmless hgit hclean hharmless]
        exact hrest

end Runs

/-! ### A small checkout -/

/-- The archive of the genesis directory, a script and the rules. -/
def smallNode : Path → Option (Node Bytes)
  | [] => some .dir
  | [n] =>
    if n = text "genesis" ∨ n = text "tools" then some .dir
    else if n = text ".gitignore" then some (.file (utf8 (text "venv/\n"))) else none
  | [n, d] =>
    if d = text "genesis" ∧ n = text "release_archive.json" then some (.file (utf8 (text "{}")))
    else if d = text "tools" ∧ n = text "cell_runner.py" then
      some (.file (utf8 (text "import os\n")))
    else none
  | _ => none

/-- A checkout with these files. -/
def smallTree : WorkTree where
  node := smallNode
  root := rfl
  parent n p h := by
    match p with
    | [] => rfl
    | [d] =>
      have hd : d = text "genesis" ∨ d = text "tools" := by
        by_contra hno
        rw [not_or] at hno
        exact h (by simp [smallNode, hno.1, hno.2])
      simp [smallNode, hd]
    | [_, _] => exact absurd rfl h
    | _ :: _ :: _ :: _ => exact absurd rfl h

open Classical in
/-- The repository of these files. -/
noncomputable def smallRepository : Repository where
  committed := smallTree.contents
  head := text "3f0c2a91\n"
  gitStatus fs :=
    if Unchanged smallTree.contents fs then some []
    else some (text "?? genesis/resurrection_manifest.json\n")

theorem clean_smallTree : smallRepository.Clean smallTree := fun _ => .inl rfl

theorem reportsChanges_smallRepository : ReportsChanges smallRepository := by
  have hline : strip (text "?? genesis/resurrection_manifest.json\n") ≠ [] := by decide
  intro fs
  by_cases hclean : Unchanged smallTree.contents fs
  · exact ⟨[], if_pos hclean, iff_of_true rfl hclean⟩
  · exact ⟨_, if_neg hclean, iff_of_false hline hclean⟩

/-- Nothing is in the way of a package. -/
theorem not_blocked_smallTree : ¬Blocked smallTree manifestPath := by
  have hnone : smallTree.contents genesisDir = none ∧ smallTree.isDir manifestPath = false := by
    decide
  rintro (⟨contents, hfile⟩ | hdir)
  · rw [hnone.1] at hfile
    cases hfile
  · rw [hnone.2] at hdir
    cases hdir

/-- Two calls with the secret of `setup_p12.py`. -/
def verifyCall : Call := ⟨.verify, Migration.toolHost countingArchiver⟩

@[inherit_doc verifyCall]
def packageCall : Call := ⟨.package (.dir .nil), Migration.toolHost countingArchiver⟩

theorem hasSecret_calls : ∀ c ∈ [verifyCall, packageCall],
    ∃ secret, getSecret c.host.toHost = .ok secret := by
  simp only [List.mem_cons, List.not_mem_nil, or_false]
  rintro c (rfl | rfl) <;> exact ⟨_, getSecret_cellHost⟩

theorem clean_gate_iff_verify_package :
    ∃ fs', (gate smallRepository).Path (fun fs c => ¬c.Refused smallRepository fs) smallTree
      [verifyCall, packageCall] fs' := by
  refine (clean_gate_iff reportsChanges_smallRepository clean_smallTree hasSecret_calls).mpr ?_
  intro c hc tools hcommand
  rw [List.mem_singleton.mp hc] at hcommand
  cases hcommand

/-- After a package the next call is refused. -/
theorem package_dirties_checkout :
    ¬∀ (G : Repository) (fs : WorkTree) (calls : List Call), ReportsChanges G → G.Clean fs →
      (∀ c ∈ calls, ∃ secret, getSecret c.host.toHost = .ok secret) →
        ∃ fs', (gate G).Path (fun fs c => ¬c.Refused G fs) fs calls fs' := by
  intro hclaim
  have hsecret : ∀ c ∈ [packageCall, verifyCall],
      ∃ secret, getSecret c.host.toHost = .ok secret :=
    fun c hc => hasSecret_calls c (by simpa [or_comm] using hc)
  obtain ⟨fs', hpath⟩ := hclaim smallRepository smallTree [packageCall, verifyCall]
    reportsChanges_smallRepository clean_smallTree hsecret
  obtain ⟨t, -, hstep, hrest⟩ := hpath.head
  cases hstep
  obtain ⟨-, hnext, -, -⟩ := hrest.head
  rw [refused_iff reportsChanges_smallRepository (hsecret _ (.tail _ (.head _))), not_not,
    clean_after_iff reportsChanges_smallRepository clean_smallTree,
    harmless_iff_of_not_committed (by decide) not_blocked_smallTree] at hnext
  exact hnext _ rfl

end Runner
end SovereignSeed
