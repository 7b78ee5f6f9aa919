import SovereignSeed.Python.Tarfile

/-!
# Packing and unpacking

A tree is packed member by member, each directory before what is in it.  Unpacked into
an empty place, the members put the tree together again.  What stands in the way is the
type of a member: links and devices are packed, and so is a file with a second name, as
a link to the first.

## Main definitions

* `Tree.at` — what is at a path below a tree.
* `Tree.items` — the files and directories of a tree, with their places.
* `Tree.isPlain`, `Tree.inodes` — no links or devices, and the inodes of the files.

## Main results

* `Tree.packs_add` — **all members are files and directories exactly if the tree is
  plain and no inode comes twice.**
* `Tree.forall₂_add` — the members of a plain tree are its items.
* `Tree.extract_items` — **the items put the tree together where nothing was.**
-/

namespace SovereignSeed
namespace Python

open LinkedTree

/-! ### Trees -/

/-- The member can be unpacked safely. -/
def TarInfo.isPlain (m : TarInfo) : Bool :=
  match m.type with
  | .plain _ => true
  | _ => false

mutual

/-- What is at a path below the tree. -/
def Tree.at : Tree → List Bytes → Option (Entry Bytes Bytes)
  | .file _ contents, [] => some (.file contents)
  | .dir _, [] => some .dir
  | .dir entries, n :: path => entries.at n path
  | _, _ => none

/-- What is at a path below the entry `n`. -/
def Forest.at : Forest → Bytes → List Bytes → Option (Entry Bytes Bytes)
  | .nil, _, _ => none
  | .cons f tree rest, n, path => if f.bytes = n then tree.at path else rest.at n path

end

mutual

/-- The files and directories of the tree at `p`. -/
def Tree.items (p : Place Bytes) : Tree → List (Place Bytes × Payload)
  | .file _ contents => [(p, .data contents)]
  | .dir entries => (p, .dir) :: entries.items p
  | _ => []

/-- The files and directories of the entries of `p`. -/
def Forest.items (p : Place Bytes) : Forest → List (Place Bytes × Payload)
  | .nil => []
  | .cons f tree rest => tree.items (f.bytes :: p) ++ rest.items p

end

mutual

/-- There are no links, pipes or devices in the tree. -/
def Tree.isPlain : Tree → Bool
  | .file _ _ => true
  | .dir entries => entries.isPlain
  | .socket => true
  | _ => false

@[inherit_doc Tree.isPlain]
def Forest.isPlain : Forest → Bool
  | .nil => true
  | .cons _ tree rest => tree.isPlain && rest.isPlain

end

mutual

/-- The inodes of the files, in the order of packing. -/
def Tree.inodes : Tree → List ℕ
  | .file inode _ => [inode]
  | .dir entries => entries.inodes
  | _ => []

@[inherit_doc Tree.inodes]
def Forest.inodes : Forest → List ℕ
  | .nil => []
  | .cons _ tree rest => tree.inodes ++ rest.inodes

end

/-- The names of the entries. -/
def Forest.names : Forest → List Bytes
  | .nil => []
  | .cons f _ rest => f.bytes :: rest.names

mutual

/-- The entries of each directory have different names. -/
def Tree.Valid : Tree → Prop
  | .dir entries => entries.Valid
  | _ => True

@[inherit_doc Tree.Valid]
def Forest.Valid : Forest → Prop
  | .nil => True
  | .cons f tree rest => f.bytes ∉ rest.names ∧ tree.Valid ∧ rest.Valid

end

/-! ### Names -/

/-- A name that an archive keeps. -/
def Storable (name : PyStr) : Prop :=
  name ≠ [] ∧ name.getLast? ≠ some slash ∧ (fsencode name).isSome

instance (name : PyStr) : Decidable (Storable name) := inferInstanceAs (Decidable (_ ∧ _ ∧ _))

theorem fsencode_append (a b : PyStr) :
    fsencode (a ++ b) = (fsencode a).bind fun x => (fsencode b).map (x ++ ·) := by
  induction a with
  | nil =>
    rw [List.nil_append, fsencode, Option.bind_some]
    exact Option.map_id'.symm
  | cons c a ih =>
    rw [List.cons_append, fsencode, fsencode, ih]
    cases encodeChar c with
    | none => rfl
    | some x =>
      cases fsencode a with
      | none => rfl
      | some y =>
        cases fsencode b with
        | none => rfl
        | some z => simp

/-- A name of a directory entry is neither empty nor a dot. -/
theorem FileName.text_ne_nil (f : FileName) : f.text ≠ [] := by
  intro h
  have hc := f.component
  rw [h] at hc
  cases hc

theorem FileName.fsencode_text (f : FileName) : fsencode f.text = some f.bytes := by
  have hc := f.component
  unfold Python.component at hc
  split at hc
  · cases hc
  split at hc
  · cases hc
  · obtain ⟨b, hb, heq⟩ := Option.map_eq_some_iff.mp hc
    cases heq
    exact hb

theorem joinPath_of_storable {name : PyStr} (h : Storable name) (f : FileName) :
    joinPath name f.text = name ++ slash :: f.text := by
  have hhead : f.text.head? ≠ some slash := fun heq => f.noSlash (List.mem_of_mem_head? heq)
  rw [joinPath, if_neg hhead, if_neg]
  exact not_or.mpr ⟨h.1, h.2.1⟩

theorem storable_joinPath {name : PyStr} (h : Storable name) (f : FileName) :
    Storable (joinPath name f.text) := by
  rw [joinPath_of_storable h]
  refine ⟨by simp, ?_, ?_⟩
  · rw [List.getLast?_append_of_ne_nil _ (List.cons_ne_nil _ _), List.getLast?_cons]
    intro heq
    obtain ⟨c, hc⟩ := List.getLast?_isSome.mpr f.text_ne_nil |> Option.isSome_iff_exists.mp
    rw [hc] at heq
    obtain rfl : c = slash := Option.some.inj heq
    exact f.noSlash (List.mem_of_getLast? hc)
  · obtain ⟨x, hx⟩ := Option.isSome_iff_exists.mp h.2.2
    have hslash : fsencode (slash :: f.text) = some (0x2f :: f.bytes) := by
      rw [fsencode, f.fsencode_text]
      rfl
    rw [fsencode_append, hx, hslash]
    rfl

/-- The parts of a joined path. -/
theorem pathParts_joinPath {name : PyStr} {parts : List (Component Bytes)} (h : Storable name)
    (f : FileName) (hparts : pathParts name = some parts) :
    pathParts (joinPath name f.text) = some (parts ++ [.name f.bytes]) := by
  rw [joinPath_of_storable h]
  have hsplit : ((name ++ slash :: f.text).splitOn slash).filter (fun part => part ≠ []) =
      ((name.splitOn slash).filter fun part => part ≠ []) ++ [f.text] := by
    rw [List.splitOn_append_cons_self, List.splitOn_eq_singleton f.noSlash, List.filter_append]
    congr 1
    exact List.filter_cons_of_pos (by simpa using f.text_ne_nil)
  unfold pathParts at hparts ⊢
  dsimp only at hparts
  simp only [hsplit, List.map_append, List.map_cons, List.map_nil, f.component]
  split at hparts
  · next hall =>
    obtain rfl := Option.some.inj hparts
    rw [if_pos]
    · rw [List.reduceOption_append]
      rfl
    · rw [List.all_append, hall]
      rfl
  · cases hparts

/-- Where a joined name goes. -/
theorem joinedParts_joinPath {target p : Place Bytes} {name : PyStr} (h : Storable name)
    (f : FileName) (hp : joinedParts target name = some (placeParts p)) :
    joinedParts target (joinPath name f.text) = some (placeParts (f.bytes :: p)) := by
  obtain ⟨parts, hparts, heq⟩ := Option.map_eq_some_iff.mp hp
  have hhead : (joinPath name f.text).head? = name.head? := by
    rw [joinPath_of_storable h, List.head?_append_of_ne_nil _ h.1]
  have hplace : placeParts (f.bytes :: p) = placeParts p ++ [.name f.bytes] := by
    rw [placeParts, List.reverse_cons, List.map_append]
    rfl
  rw [joinedParts, pathParts_joinPath h f hparts, Option.map_some, hhead, hplace, ← heq]
  split
  · rfl
  · rw [List.append_assoc]

/-! ### What is packed -/

/-- The name itself, or one below it. -/
def Below (name s : PyStr) : Prop := s = name ∨ ∃ rest, s = name ++ slash :: rest

theorem below_joinPath {name s : PyStr} (h : Storable name) (f : FileName)
    (hs : Below (joinPath name f.text) s) : Below name s := by
  rw [joinPath_of_storable h] at hs
  rcases hs with rfl | ⟨rest, rfl⟩
  · exact .inr ⟨f.text, rfl⟩
  · exact .inr ⟨f.text ++ slash :: rest, by simp⟩

/-- Names below different entries are different. -/
theorem bytes_eq_of_below {name s : PyStr} (h : Storable name) {f g : FileName}
    (hf : Below (joinPath name f.text) s) (hg : Below (joinPath name g.text) s) :
    f.bytes = g.bytes := by
  -- the entry is what comes before the next slash
  have hentry : ∀ f : FileName, Below (joinPath name f.text) s →
      ((s.drop (name.length + 1)).splitOn slash).head? = some f.text := by
    intro f hf
    rw [joinPath_of_storable h] at hf
    rcases hf with rfl | ⟨rest, rfl⟩
    · have hdrop : (name ++ slash :: f.text).drop (name.length + 1) = f.text := by simp
      rw [hdrop, List.splitOn_eq_singleton f.noSlash]
      rfl
    · have hdrop : (name ++ slash :: f.text ++ slash :: rest).drop (name.length + 1) =
          f.text ++ slash :: rest := by simp
      rw [hdrop, List.splitOn_append_cons_self, List.splitOn_eq_singleton f.noSlash]
      rfl
  have htext := (hentry f hf).symm.trans (hentry g hg)
  have hbytes : some f.bytes = some g.bytes := by
    rw [← f.fsencode_text, ← g.fsencode_text, Option.some.inj htext]
  exact Option.some.inj hbytes

mutual

/-- What is added has names an archive keeps, and the table gets names below. -/
theorem Tree.add_names : ∀ (tree : Tree) (inodes : Inodes) {name : PyStr}, Storable name →
    (∀ m ∈ (tree.add inodes name).1, Storable m.name) ∧
      ∀ e ∈ (tree.add inodes name).2, e ∈ inodes ∨ Below name e.2
  | .file inode contents, inodes, name, h => by
    rw [Tree.add]
    split
    · split
      · exact ⟨List.forall_mem_singleton.mpr h, fun e he => .inl he⟩
      · exact ⟨List.forall_mem_singleton.mpr h, fun e he => .inl he⟩
    · refine ⟨List.forall_mem_singleton.mpr h, fun e he => ?_⟩
      rcases List.mem_cons.mp he with rfl | he
      · exact .inr (.inl rfl)
      · exact .inl he
  | .dir entries, inodes, name, h => by
    obtain ⟨hnames, htable⟩ := entries.add_names inodes h
    exact ⟨List.forall_mem_cons.mpr ⟨h, hnames⟩, htable⟩
  | .link _, inodes, name, h => ⟨List.forall_mem_singleton.mpr h, fun e he => .inl he⟩
  | .fifo, inodes, name, h => ⟨List.forall_mem_singleton.mpr h, fun e he => .inl he⟩
  | .chr, inodes, name, h => ⟨List.forall_mem_singleton.mpr h, fun e he => .inl he⟩
  | .blk, inodes, name, h => ⟨List.forall_mem_singleton.mpr h, fun e he => .inl he⟩
  | .socket, inodes, name, h => ⟨nofun, fun e he => .inl he⟩

@[inherit_doc Tree.add_names]
theorem Forest.add_names : ∀ (entries : Forest) (inodes : Inodes) {name : PyStr}, Storable name →
    (∀ m ∈ (entries.add inodes name).1, Storable m.name) ∧
      ∀ e ∈ (entries.add inodes name).2, e ∈ inodes ∨ Below name e.2
  | .nil, inodes, name, h => ⟨nofun, fun e he => .inl he⟩
  | .cons f tree rest, inodes, name, h => by
    obtain ⟨hfirst, htable⟩ := tree.add_names inodes (storable_joinPath h f)
    obtain ⟨hrest, htable'⟩ := rest.add_names (tree.add inodes (joinPath name f.text)).2 h
    refine ⟨List.forall_mem_append.mpr ⟨hfirst, hrest⟩, fun e he => ?_⟩
    rcases htable' e he with he | hbelow
    · rcases htable e he with he | hbelow
      · exact .inl he
      · exact .inr (below_joinPath h f hbelow)
    · exact .inr hbelow

end

theorem not_forall_isPlain (ms : List TarInfo) {m : TarInfo} (hm : m ∈ ms)
    (h : m.isPlain = false) : ¬∀ m ∈ ms, m.isPlain = true := by
  intro hall
  rw [hall m hm] at h
  cases h

/-- The members that have been added are files and directories exactly if the tree is plain
and its inodes are new; the table then has its inodes. -/
structure Packs (inodes : Inodes) (added : List TarInfo × Inodes) (plain : Bool)
    (own : List ℕ) : Prop where
  iff : (∀ m ∈ added.1, m.isPlain = true) ↔
    plain = true ∧ own.Nodup ∧ ∀ i ∈ own, i ∉ inodes.map Prod.fst
  table : (∀ m ∈ added.1, m.isPlain = true) →
    ∀ i, i ∈ added.2.map Prod.fst ↔ i ∈ own ∨ i ∈ inodes.map Prod.fst

theorem packs_nil (inodes : Inodes) : Packs inodes ([], inodes) true [] :=
  ⟨⟨fun _ => ⟨rfl, List.nodup_nil, nofun⟩, fun _ => nofun⟩, fun _ i => by simp⟩

/-- A member that is refused. -/
theorem packs_refused {inodes : Inodes} {m : TarInfo} (h : m.isPlain = false) (own : List ℕ) :
    Packs inodes ([m], inodes) false own := by
  have hno := not_forall_isPlain [m] (.head _) h
  exact ⟨⟨fun hall => absurd hall hno, nofun⟩, fun hall => absurd hall hno⟩

/-- Two parts that are added one after the other. -/
theorem Packs.append {inodes inodes' inodes'' : Inodes} {ms ms' : List TarInfo}
    {plain plain' : Bool} {own own' : List ℕ} (h : Packs inodes (ms, inodes') plain own)
    (h' : Packs inodes' (ms', inodes'') plain' own') :
    Packs inodes (ms ++ ms', inodes'') (plain && plain') (own ++ own') := by
  constructor
  · rw [List.forall_mem_append, Bool.and_eq_true]
    constructor
    · rintro ⟨hfirst, hothers⟩
      obtain ⟨hplain, hnodup, hfresh⟩ := h.iff.mp hfirst
      obtain ⟨hplain', hnodup', hfresh'⟩ := h'.iff.mp hothers
      have hout : ∀ i ∈ own', i ∉ own ∧ i ∉ inodes.map Prod.fst := by
        intro i hi
        have hno := hfresh' i hi
        rwa [h.table hfirst, not_or] at hno
      refine ⟨⟨hplain, hplain'⟩, ?_, ?_⟩
      · refine List.nodup_append.mpr ⟨hnodup, hnodup', ?_⟩
        rintro i hi j hj rfl
        exact (hout i hj).1 hi
      · exact List.forall_mem_append.mpr ⟨hfresh, fun i hi => (hout i hi).2⟩
    · rintro ⟨⟨hplain, hplain'⟩, hnodup, hfresh⟩
      obtain ⟨hnodup, hnodup', hdisjoint⟩ := List.nodup_append.mp hnodup
      obtain ⟨hfresh, hfresh'⟩ := List.forall_mem_append.mp hfresh
      have hfirst := h.iff.mpr ⟨hplain, hnodup, hfresh⟩
      refine ⟨hfirst, h'.iff.mpr ⟨hplain', hnodup', fun i hi => ?_⟩⟩
      rw [h.table hfirst, not_or]
      exact ⟨fun hi' => hdisjoint i hi' i hi rfl, hfresh' i hi⟩
  · rw [List.forall_mem_append]
    rintro ⟨hfirst, hothers⟩ i
    rw [h'.table hothers, h.table hfirst, List.mem_append]
    tauto

mutual

/-- **All members are files and directories exactly if the tree is plain and no inode
comes twice.** -/
theorem Tree.packs_add : ∀ (tree : Tree) (inodes : Inodes) {name : PyStr}, Storable name →
    tree.Valid → (∀ e ∈ inodes, ¬Below name e.2) →
      Packs inodes (tree.add inodes name) tree.isPlain tree.inodes
  | .file inode contents, inodes, name, h, hvalid, hapart => by
    rw [Tree.add, Tree.isPlain, Tree.inodes]
    cases hl : inodes.lookup inode with
    | none =>
      have hno : inode ∉ inodes.map Prod.fst := by
        intro hmem
        obtain ⟨e, he, rfl⟩ := List.mem_map.mp hmem
        have hsome := List.lookup_isSome_iff.mpr ⟨e, he, beq_self_eq_true e.1⟩
        rw [hl] at hsome
        cases hsome
      refine ⟨⟨fun _ => ⟨rfl, List.nodup_singleton _, ?_⟩, fun _ => ?_⟩, fun _ i => ?_⟩
      · exact List.forall_mem_singleton.mpr hno
      · exact List.forall_mem_singleton.mpr rfl
      · rw [List.map_cons, List.mem_cons, List.mem_singleton]
    | some first =>
      obtain ⟨before, after, heq, -⟩ := List.lookup_eq_some_iff.mp hl
      have hmem : (inode, first) ∈ inodes := by simp [heq]
      -- the first name is not this one
      have hne : first ≠ name := fun heq => hapart _ hmem (.inl heq)
      simp only [if_pos hne]
      have hlink := not_forall_isPlain [⟨name, .lnk⟩] (.head _) rfl
      refine ⟨⟨fun hall => absurd hall hlink, ?_⟩, fun hall => absurd hall hlink⟩
      rintro ⟨-, -, hno⟩
      exact absurd (List.mem_map_of_mem (f := Prod.fst) hmem) (hno inode (.head _))
  | .dir entries, inodes, name, h, hvalid, hapart => by
    have hbelow := entries.packs_add inodes h hvalid fun e he f _ hbelow =>
      hapart e he (below_joinPath h f hbelow)
    have hcons : (∀ m ∈ ((Tree.dir entries).add inodes name).1, m.isPlain = true) ↔
        ∀ m ∈ (entries.add inodes name).1, m.isPlain = true := by
      rw [Tree.add]
      exact List.forall_mem_cons.trans (and_iff_right rfl)
    exact ⟨hcons.trans hbelow.iff, fun hall => hbelow.table (hcons.mp hall)⟩
  | .link _, _, _, _, _, _ => packs_refused rfl _
  | .fifo, _, _, _, _, _ => packs_refused rfl _
  | .chr, _, _, _, _, _ => packs_refused rfl _
  | .blk, _, _, _, _, _ => packs_refused rfl _
  | .socket, inodes, _, _, _, _ => packs_nil inodes

@[inherit_doc Tree.packs_add]
theorem Forest.packs_add : ∀ (entries : Forest) (inodes : Inodes) {name : PyStr},
    Storable name → entries.Valid →
    (∀ e ∈ inodes, ∀ f : FileName, f.bytes ∈ entries.names → ¬Below (joinPath name f.text) e.2) →
      Packs inodes (entries.add inodes name) entries.isPlain entries.inodes
  | .nil, inodes, _, _, _, _ => packs_nil inodes
  | .cons f tree rest, inodes, name, h, hvalid, hapart => by
    obtain ⟨hnew, htree, hrest⟩ := hvalid
    have hfirst := tree.packs_add inodes (storable_joinPath h f) htree
      fun e he => hapart e he f (.head _)
    -- the names the tree has added to the table are not below the other entries
    have hapart' : ∀ e ∈ (tree.add inodes (joinPath name f.text)).2, ∀ g : FileName,
        g.bytes ∈ rest.names → ¬Below (joinPath name g.text) e.2 := by
      intro e he g hg hbelow
      rcases (tree.add_names inodes (storable_joinPath h f)).2 e he with he | hbelow'
      · exact hapart e he g (.tail _ hg) hbelow
      · exact hnew (bytes_eq_of_below h hbelow' hbelow ▸ hg)
    exact hfirst.append (rest.packs_add _ h hrest hapart')

end

/-- A member stands for an item: it has its payload, and its name leads to its place. -/
def StandsFor (target : Place Bytes) (m : TarInfo) (i : Place Bytes × Payload) : Prop :=
  m.type = .plain i.2 ∧ joinedParts target m.name = some (placeParts i.1)

mutual

/-- **The members of a plain tree are its items.** -/
theorem Tree.forall₂_add {target : Place Bytes} : ∀ (tree : Tree) (inodes : Inodes) {name : PyStr}
    {p : Place Bytes}, Storable name → joinedParts target name = some (placeParts p) →
    (∀ m ∈ (tree.add inodes name).1, m.isPlain = true) →
      List.Forall₂ (StandsFor target) (tree.add inodes name).1 (tree.items p)
  | .file inode contents, inodes, name, p, h, hp, hplain => by
    rw [Tree.add] at hplain ⊢
    split
    · next first hl =>
      by_cases hne : first ≠ name
      · simp only [hl, if_pos hne] at hplain
        exact absurd hplain (not_forall_isPlain _ (.head _) rfl)
      · rw [if_neg hne]
        exact .cons ⟨rfl, hp⟩ .nil
    · exact .cons ⟨rfl, hp⟩ .nil
  | .dir entries, inodes, name, p, h, hp, hplain =>
    .cons ⟨rfl, hp⟩ (entries.forall₂_add inodes h hp (List.forall_mem_cons.mp hplain).2)
  | .link _, inodes, name, p, h, hp, hplain =>
    absurd hplain (not_forall_isPlain _ (.head _) rfl)
  | .fifo, inodes, name, p, h, hp, hplain =>
    absurd hplain (not_forall_isPlain _ (.head _) rfl)
  | .chr, inodes, name, p, h, hp, hplain =>
    absurd hplain (not_forall_isPlain _ (.head _) rfl)
  | .blk, inodes, name, p, h, hp, hplain =>
    absurd hplain (not_forall_isPlain _ (.head _) rfl)
  | .socket, inodes, name, p, h, hp, hplain => .nil

@[inherit_doc Tree.forall₂_add]
theorem Forest.forall₂_add {target : Place Bytes} : ∀ (entries : Forest) (inodes : Inodes)
    {name : PyStr} {p : Place Bytes}, Storable name →
    joinedParts target name = some (placeParts p) →
    (∀ m ∈ (entries.add inodes name).1, m.isPlain = true) →
      List.Forall₂ (StandsFor target) (entries.add inodes name).1 (entries.items p)
  | .nil, inodes, name, p, h, hp, hplain => .nil
  | .cons f tree rest, inodes, name, p, h, hp, hplain => by
    obtain ⟨hfirst, hothers⟩ := List.forall_mem_append.mp hplain
    exact List.rel_append
      (tree.forall₂_add inodes (storable_joinPath h f) (joinedParts_joinPath h f hp) hfirst)
      (rest.forall₂_add _ h hp hothers)

end

mutual

/-- The items of a tree are at its place or below. -/
theorem Tree.suffix_of_mem_items : ∀ (tree : Tree) {p : Place Bytes},
    ∀ i ∈ tree.items p, p <:+ i.1
  | .file _ _, _ => List.forall_mem_singleton.mpr List.suffix_rfl
  | .dir entries, _ => List.forall_mem_cons.mpr ⟨List.suffix_rfl, entries.suffix_of_mem_items⟩
  | .link _, _ => nofun
  | .fifo, _ => nofun
  | .chr, _ => nofun
  | .blk, _ => nofun
  | .socket, _ => nofun

@[inherit_doc Tree.suffix_of_mem_items]
theorem Forest.suffix_of_mem_items : ∀ (entries : Forest) {p : Place Bytes},
    ∀ i ∈ entries.items p, p <:+ i.1
  | .nil, _ => nofun
  | .cons f tree rest, p => by
    refine List.forall_mem_append.mpr ⟨fun i hi => ?_, rest.suffix_of_mem_items⟩
    exact (List.suffix_cons f.bytes p).trans (tree.suffix_of_mem_items i hi)

end

/-! ### What is unpacked -/

/-- The entry a payload makes. -/
def Payload.entry : Payload → Entry Bytes Bytes
  | .data contents => .file contents
  | .dir => .dir

/-- Items on their way out. -/
def unpacked (items : List (Place Bytes × Payload)) : List Unpacked :=
  items.map fun i => (placeParts i.1, i.2)

section Unpacking

variable {R : Release} {w : Work Bytes Bytes} {n : Bytes} {p : Place Bytes}

theorem placeParts_cons (n : Bytes) (p : Place Bytes) :
    placeParts (n :: p) = placeParts p ++ [.name n] := by
  rw [placeParts, List.reverse_cons, List.map_append]
  rfl

theorem found_place (limit : ℕ) {t : LinkedFiles} (hp : t.isDir p = true) :
    t.found limit (placeParts p) = true := by
  refine found_iff.mpr ⟨p, follow_place limit hp, ?_⟩
  rw [isDir_iff.mp hp]
  nofun

/-- `mkdir` of what is not there in a directory. -/
theorem mkdir_fresh (limit : ℕ) (hp : w.tree.isDir p = true)
    (hnone : w.tree.entry (n :: p) = none) : w.mkdir limit (placeParts p) (.name n) =
      (w.put (n :: p) .dir (free_of_none hp hnone), .done) := by
  have hfollow : w.tree.follow limit [] (placeParts p) = some p := follow_place limit hp
  have hfree : (w.tree.entry (n :: p)).isNone ∧ w.tree.Free (n :: p) :=
    ⟨Option.isNone_iff_eq_none.mpr hnone, free_of_none hp hnone⟩
  simp only [Work.mkdir, hfollow, hp, Bool.true_eq_false, if_false, dif_pos hfree]

/-- A member is put where nothing is in a directory. -/
theorem extractMember_fresh (R : Release) (hp : w.tree.isDir p = true)
    (hnone : w.tree.entry (n :: p) = none) (x : Payload) :
    extractMember R w (placeParts (n :: p), x) =
      (w.put (n :: p) x.entry (free_of_none hp hnone), true) := by
  have hreverse : (placeParts (n :: p)).reverse = .name n :: (placeParts p).reverse := by
    rw [placeParts_cons, List.reverse_append]
    rfl
  have hfollow : w.tree.follow R.maxLinks [] (placeParts (n :: p)) = some (n :: p) := by
    rw [placeParts_cons]
    exact resolve_snoc (c := .name n) (follow_place R.maxLinks hp) (fun _ => hp)
      (linkAt_of_none hnone)
  unfold extractMember
  simp only [hreverse, List.reverse_reverse, found_place R.maxLinks hp, if_true, ne_eq,
    not_true_eq_false, if_false]
  cases x with
  | data contents =>
    simp only [Work.writeFile, hfollow, dif_pos (free_of_none hp hnone), hnone]
    rfl
  | dir =>
    simp only [mkdir_fresh R.maxLinks hp hnone, true_or, decide_true]
    rfl

/-- The directory above a member is made, if it is missing in a directory. -/
theorem extractMember_above (R : Release) {m : Bytes} (hp : w.tree.isDir p = true)
    (hnone : w.tree.entry (n :: p) = none) (x : Payload) :
    extractMember R w (placeParts (m :: n :: p), x) =
      extractMember R (w.put (n :: p) .dir (free_of_none hp hnone))
        (placeParts (m :: n :: p), x) := by
  have hreverse : (placeParts (m :: n :: p)).reverse =
      .name m :: (placeParts (n :: p)).reverse := by
    rw [placeParts_cons, List.reverse_append]
    rfl
  have hupper : (placeParts (n :: p)).reverse = .name n :: (placeParts p).reverse := by
    rw [placeParts_cons, List.reverse_append]
    rfl
  have hdir : (w.put (n :: p) .dir (free_of_none hp hnone)).tree.isDir (n :: p) = true :=
    isDir_iff.mpr (entry_put_self (free_of_none hp hnone))
  have hmissing : w.tree.found R.maxLinks (placeParts (n :: p)) = false := by
    rw [Bool.eq_false_iff, ne_eq, found_iff]
    rintro ⟨q, hq, hsome⟩
    have hfollow : w.tree.follow R.maxLinks [] (placeParts (n :: p)) = some (n :: p) := by
      rw [placeParts_cons]
      exact resolve_snoc (c := .name n) (follow_place R.maxLinks hp) (fun _ => hp)
        (linkAt_of_none hnone)
    rw [hfollow] at hq
    cases hq
    exact hsome hnone
  have hmake : w.makedirs R.maxLinks R.existOk (placeParts (n :: p)).reverse =
      (w.put (n :: p) .dir (free_of_none hp hnone), .done) := by
    rw [hupper, Work.makedirs]
    simp only [List.reverse_reverse, found_place R.maxLinks hp, if_true, Bool.true_eq_false,
      false_and, if_false, mkdir_fresh R.maxLinks hp hnone, ne_eq, not_true_eq_false, reduceCtorEq]
  unfold extractMember
  simp only [hreverse, List.reverse_reverse, hmissing, hmake, found_place R.maxLinks hdir, if_true,
    Bool.false_eq_true, if_false]

/-- The directory above the first member is made in any case. -/
theorem extractEach_above (R : Release) (m : Bytes) (x : Payload)
    (items : List (Place Bytes × Payload)) (hp : w.tree.isDir p = true)
    (hnone : w.tree.entry (n :: p) = none) :
    (extractEach R w (unpacked ((n :: p, .dir) :: (m :: n :: p, x) :: items))).work =
        (extractEach R w (unpacked ((m :: n :: p, x) :: items))).work ∧
      (extractEach R w (unpacked ((n :: p, .dir) :: (m :: n :: p, x) :: items))).returns =
        (extractEach R w (unpacked ((m :: n :: p, x) :: items))).returns := by
  have hfirst : extractEach R w (unpacked ((n :: p, .dir) :: (m :: n :: p, x) :: items)) =
      ⟨(w, (placeParts (n :: p), .dir)) :: (extractEach R (w.put (n :: p) .dir
        (free_of_none hp hnone)) (unpacked ((m :: n :: p, x) :: items))).reached,
        (extractEach R (w.put (n :: p) .dir (free_of_none hp hnone))
          (unpacked ((m :: n :: p, x) :: items))).work,
        (extractEach R (w.put (n :: p) .dir (free_of_none hp hnone))
          (unpacked ((m :: n :: p, x) :: items))).returns⟩ := by
    rw [unpacked, List.map_cons, extractEach]
    simp only [extractMember_fresh R hp hnone .dir, if_true]
    rfl
  rw [hfirst]
  dsimp only
  rw [unpacked, List.map_cons, extractEach, extractEach, extractMember_above R hp hnone x]
  split
  · exact ⟨rfl, rfl⟩
  · exact ⟨rfl, rfl⟩

/-- A row of members is unpacked part by part. -/
theorem extractEach_append (ms' : List Unpacked) : ∀ {ms : List Unpacked} {w : Work Bytes Bytes},
    (extractEach R w ms).returns = true →
      (extractEach R w (ms ++ ms')).work = (extractEach R (extractEach R w ms).work ms').work ∧
      (extractEach R w (ms ++ ms')).returns =
        (extractEach R (extractEach R w ms).work ms').returns := by
  intro ms
  induction ms with
  | nil => exact fun _ => ⟨rfl, rfl⟩
  | cons m ms ih =>
    intro w h
    rw [extractEach] at h
    rw [List.cons_append, extractEach, extractEach]
    split at h
    · next hone =>
      simp only [hone, if_true]
      exact ih h
    · cases h

/-- Places of different entries lie apart. -/
theorem eq_of_suffix {a b : Bytes} {q p : Place Bytes} (h : (a :: p) <:+ q ++ b :: p) : a = b := by
  have hb : (b :: p) <:+ q ++ b :: p := List.suffix_append q (b :: p)
  have hsuffix := List.suffix_of_suffix_length_le h hb (by simp)
  have heq := hsuffix.eq_of_length (by simp)
  exact (List.cons.inj heq).1

theorem append_cons_ne_self {a : Bytes} {q p : Place Bytes} : q ++ a :: p ≠ p := by
  intro h
  have := congrArg List.length h
  simp only [List.length_append, List.length_cons] at this
  omega

theorem not_suffix_self {a : Bytes} {p : Place Bytes} : ¬(a :: p) <:+ p := by
  intro h
  have := h.length_le
  simp at this

/-- There is nothing at a name that no entry has. -/
theorem Forest.at_eq_none {m : Bytes} {path : List Bytes} : ∀ (entries : Forest),
    m ∉ entries.names → entries.at m path = none
  | .nil, _ => rfl
  | .cons f tree rest, h => by
    rw [Forest.names, List.mem_cons, not_or] at h
    rw [Forest.at, if_neg (Ne.symm h.1), rest.at_eq_none h.2]

/-- What unpacking items in the directory `p` comes to: it returns, at the given names the
tree looks as it should, and nothing else has changed. -/
structure Rebuilt (R : Release) (w : Work Bytes Bytes) (p : Place Bytes)
    (items : List (Place Bytes × Payload)) (names : Bytes → Prop)
    (look : Bytes → List Bytes → Option (Entry Bytes Bytes)) : Prop where
  returns : (extractEach R w (unpacked items)).returns = true
  entry : ∀ m, names m → ∀ q,
    (extractEach R w (unpacked items)).work.tree.entry (q ++ m :: p) = look m q.reverse
  frame : ∀ q, (∀ m, names m → ¬(m :: p) <:+ q) →
    (extractEach R w (unpacked items)).work.tree.entry q = w.tree.entry q

/-- The directory itself stays. -/
theorem Rebuilt.isDir {items : List (Place Bytes × Payload)} {names : Bytes → Prop}
    {look : Bytes → List Bytes → Option (Entry Bytes Bytes)} (h : Rebuilt R w p items names look)
    (hp : w.tree.isDir p = true) :
    (extractEach R w (unpacked items)).work.tree.isDir p = true := by
  rw [isDir_iff, h.frame p fun m _ => not_suffix_self]
  exact isDir_iff.mp hp

/-- An empty directory in which entries are put together looks like a directory of them. -/
theorem Rebuilt.look_dir {items : List (Place Bytes × Payload)} {entries : Forest}
    (h : Rebuilt R w p items (· ∈ entries.names) entries.at) (hp : w.tree.isDir p = true)
    (hempty : ∀ q a, w.tree.entry (q ++ a :: p) = none) (q : Place Bytes) :
    (extractEach R w (unpacked items)).work.tree.entry (q ++ p) =
      (Tree.dir entries).at q.reverse := by
  rcases List.eq_nil_or_concat' q with rfl | ⟨q, a, rfl⟩
  · exact isDir_iff.mp (h.isDir hp)
  · rw [List.append_assoc, List.singleton_append, List.reverse_append]
    by_cases ha : a ∈ entries.names
    · exact h.entry a ha q
    · have hframe := h.frame (q ++ a :: p) fun m hm hsuffix => ha (by
        rwa [← eq_of_suffix hsuffix])
      exact hframe.trans ((hempty q a).trans (entries.at_eq_none ha).symm)

/-- Nothing is unpacked of an empty row. -/
theorem rebuilt_nil {names : Bytes → Prop}
    {look : Bytes → List Bytes → Option (Entry Bytes Bytes)}
    (h : ∀ m, names m → ∀ q, w.tree.entry (q ++ m :: p) = look m q.reverse) :
    Rebuilt R w p [] names look :=
  ⟨rfl, h, fun _ _ => rfl⟩

mutual

/-- **The items put the tree together where nothing was.** -/
theorem Tree.extract_items {R : Release} : ∀ (tree : Tree) {w : Work Bytes Bytes} {n : Bytes}
    {p : Place Bytes}, tree.Valid → w.tree.isDir p = true →
    (∀ q, w.tree.entry (q ++ n :: p) = none) →
      Rebuilt R w p (tree.items (n :: p)) (· = n) fun _ => tree.at
  | .file inode contents, w, n, p, hvalid, hp, hnone => by
    have hfree := free_of_none hp (hnone [])
    have hrun : extractEach R w (unpacked ((Tree.file inode contents).items (n :: p))) =
        ⟨[(w, (placeParts (n :: p), .data contents))], w.put (n :: p) (.file contents) hfree,
          true⟩ := by
      rw [Tree.items, unpacked, List.map_singleton, extractEach]
      simp only [extractMember_fresh R hp (hnone []) (.data contents), if_true]
      rfl
    refine ⟨by rw [hrun], ?_, fun q hq => ?_⟩
    · intro m hm q
      subst hm
      rw [hrun]
      rcases List.eq_nil_or_concat' q with rfl | ⟨q, a, rfl⟩
      · exact entry_put_self hfree
      · rw [List.append_assoc, List.singleton_append, List.reverse_append]
        refine (entry_put_of_ne hfree append_cons_ne_self).trans ?_
        rw [List.append_cons]
        exact hnone (q ++ [a])
    · rw [hrun]
      refine entry_put_of_ne hfree ?_
      rintro rfl
      exact hq n rfl List.suffix_rfl
  | .dir entries, w, n, p, hvalid, hp, hnone => by
    have hfree := free_of_none hp (hnone [])
    have hput : ∀ q, q ≠ n :: p →
        (w.put (n :: p) .dir hfree).tree.entry q = w.tree.entry q := fun q hq =>
      entry_put_of_ne hfree hq
    have hdir : (w.put (n :: p) .dir hfree).tree.isDir (n :: p) = true :=
      isDir_iff.mpr (entry_put_self hfree)
    have hempty : ∀ q m, (w.put (n :: p) .dir hfree).tree.entry (q ++ m :: n :: p) = none := by
      intro q m
      rw [hput _ append_cons_ne_self, List.append_cons]
      exact hnone (q ++ [m])
    have hbelow := entries.extract_items (R := R) hvalid hdir fun m _ q => hempty q m
    -- the directory is put first, then its entries
    obtain ⟨hwork, hreturns⟩ : (extractEach R w (unpacked ((Tree.dir entries).items (n :: p)))).work =
          (extractEach R (w.put (n :: p) .dir hfree) (unpacked (entries.items (n :: p)))).work ∧
        (extractEach R w (unpacked ((Tree.dir entries).items (n :: p)))).returns =
          (extractEach R (w.put (n :: p) .dir hfree)
            (unpacked (entries.items (n :: p)))).returns := by
      rw [Tree.items, unpacked, List.map_cons, extractEach]
      simp only [extractMember_fresh R hp (hnone []) .dir, if_true]
      exact ⟨rfl, rfl⟩
    refine ⟨hreturns.trans hbelow.returns, ?_, fun q hq => ?_⟩
    · intro m hm q
      subst hm
      rw [hwork]
      exact hbelow.look_dir hdir hempty q
    · rw [hwork, hbelow.frame q fun m _ hsuffix =>
        hq n rfl ((List.suffix_cons m (n :: p)).trans hsuffix)]
      refine hput q ?_
      rintro rfl
      exact hq n rfl List.suffix_rfl
  | .link _, _, _, _, _, _, hnone => rebuilt_nil fun m hm q => by
    rw [hm, hnone]
    cases q.reverse <;> rfl
  | .fifo, _, _, _, _, _, hnone => rebuilt_nil fun m hm q => by
    rw [hm, hnone]
    cases q.reverse <;> rfl
  | .chr, _, _, _, _, _, hnone => rebuilt_nil fun m hm q => by
    rw [hm, hnone]
    cases q.reverse <;> rfl
  | .blk, _, _, _, _, _, hnone => rebuilt_nil fun m hm q => by
    rw [hm, hnone]
    cases q.reverse <;> rfl
  | .socket, _, _, _, _, _, hnone => rebuilt_nil fun m hm q => by
    rw [hm, hnone]
    cases q.reverse <;> rfl

@[inherit_doc Tree.extract_items]
theorem Forest.extract_items {R : Release} : ∀ (entries : Forest) {w : Work Bytes Bytes}
    {p : Place Bytes}, entries.Valid → w.tree.isDir p = true →
    (∀ m ∈ entries.names, ∀ q, w.tree.entry (q ++ m :: p) = none) →
      Rebuilt R w p (entries.items p) (· ∈ entries.names) entries.at
  | .nil, _, _, _, _, _ => rebuilt_nil nofun
  | .cons f tree rest, w, p, hvalid, hp, hnone => by
    obtain ⟨hnew, htree, hrest⟩ := hvalid
    have hfirst := tree.extract_items (R := R) htree hp (hnone f.bytes (.head _))
    -- the first tree is apart from the others
    have hapart : ∀ m ∈ rest.names, ∀ q, ¬(f.bytes :: p) <:+ q ++ m :: p :=
      fun m hm q hsuffix => hnew (eq_of_suffix hsuffix ▸ hm)
    have hothers := rest.extract_items (R := R) hrest (hfirst.isDir hp) fun m hm q => by
      rw [hfirst.frame _ fun m' hm' => hm' ▸ hapart m hm q]
      exact hnone m (.tail _ hm) q
    have hitems : unpacked ((Forest.cons f tree rest).items p) =
        unpacked (tree.items (f.bytes :: p)) ++ unpacked (rest.items p) := by
      rw [Forest.items, unpacked, List.map_append]
      rfl
    obtain ⟨hwork, hreturns⟩ := extractEach_append (unpacked (rest.items p)) hfirst.returns
    rw [← hitems] at hwork hreturns
    refine ⟨hreturns.trans hothers.returns, fun m hm q => ?_, fun q hq => ?_⟩
    · rw [hwork, Forest.at]
      by_cases hmf : f.bytes = m
      · subst hmf
        have hframe := hothers.frame (q ++ f.bytes :: p) fun m hm hsuffix => hnew (by
          rwa [← eq_of_suffix hsuffix])
        rw [if_pos rfl, hframe]
        exact hfirst.entry f.bytes rfl q
      · rw [if_neg hmf]
        exact hothers.entry m ((List.mem_cons.mp hm).resolve_left (Ne.symm hmf)) q
    · rw [hwork, hothers.frame q fun m hm => hq m (.tail _ hm)]
      exact hfirst.frame q fun m hm => hm ▸ hq f.bytes (.head _)

end

end Unpacking

end Python
end SovereignSeed
