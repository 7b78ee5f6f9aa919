import SovereignSeed.Python.JsonLoaded
import Mathlib.Data.Prod.Lex

/-!
# Cell states

A state is a Python object that `json.dumps` takes: the keys of its `dict`s are
strings, numbers, truth values or `None`.  The encoder writes each key as a string;
with `sort_keys` it sorts the keys first, as they are, and raises a `TypeError` where
two of them cannot be compared.

## Main definitions

* `Key`, `PyData` — keys and objects; `PyData.induct` is their induction.
* `Sorter` — what `sorted` promises; `PyData.sortKeys` — the `dict`s of an object sorted.
* `PyData.value`, `PyData.image` — the JSON value of an object, and what is loaded from it.
* `normalize` — `json.dumps(…, sort_keys=True, separators=(",", ":"))`.

## Main results

* `render_sortKeys_eq_iff` — **the sorted texts agree exactly when the keys, sorted as
  they are, are sorted as strings.**
* `ordered_of_plainKeys` — which they are where all of them are different strings.
-/

namespace SovereignSeed
namespace Resurrection

open Python Json

/-! ### Keys -/

/-- A key that `json.dumps` takes. -/
inductive Key
  | str (s : PyStr)
  | int (n : ℤ)
  | float (x : PyFloat)
  | bool (b : Bool)
  | none
  deriving DecidableEq

/-- The key as a string. -/
def Key.text : Key → PyStr
  | .str s => s
  | .int n => decimalInt n
  | .float x => jsonFloat x
  | .bool b => if b then Python.text "true" else Python.text "false"
  | .none => Python.text "null"

/-- The key has a text: an integer may be too long. -/
def Key.printable : Key → Bool
  | .int n => n.natAbs < 10 ^ maxStrDigits
  | _ => true

/-- A number as the order of numbers sees it, in units of `2 ^ -unitExp`. -/
inductive Num
  | nan
  | negInf
  | units (z : ℤ)
  | posInf

/-- `x < y` of numbers. -/
def Num.lt : Num → Num → Bool
  | .negInf, .units _ => true
  | .negInf, .posInf => true
  | .units a, .units b => a < b
  | .units _, .posInf => true
  | _, _ => false

/-- The number a key is, if it is one. -/
def Key.num : Key → Option Num
  | .int n => some (.units (n * 2 ^ unitExp))
  | .bool b => some (.units ((if b then 1 else 0) * 2 ^ unitExp))
  | .float .nan => some .nan
  | .float (.inf neg) => some (if neg then .negInf else .posInf)
  | .float x => some (.units x.scaled)
  | _ => Option.none

/-- `k < k'`, or `none` where it raises `TypeError`. -/
def Key.lt : Key → Key → Option Bool
  | .str s, .str t => some (s < t)
  | k, k' =>
    match k.num, k'.num with
    | some x, some y => some (x.lt y)
    | _, _ => Option.none

/-- Every two of the keys can be compared, which is what `sorted` comes to need. -/
def sortable (ks : List Key) : Bool :=
  decide (ks.length ≤ 1) || ks.all fun k => ks.all fun k' => (k.lt k').isSome

/-- `sorted` of the items of a `dict`: a row of the same items, and where there is
no NaN no item is less than one before it. -/
structure Sorter where
  run : {α : Type} → List (Key × α) → List (Key × α)
  perm : ∀ {α : Type} (ms : List (Key × α)), (run ms).Perm ms
  ordered : ∀ {α : Type} (ms : List (Key × α)), sortable (ms.map Prod.fst) = true →
    (∀ m ∈ ms, m.1 ≠ .float .nan) → (run ms).Pairwise fun m m' => m'.1.lt m.1 ≠ some true

/-- A place for every number in one order, NaN behind the others. -/
def Num.rank : Num → ℤ ×ₗ ℤ
  | .negInf => toLex (0, 0)
  | .units z => toLex (1, z)
  | .posInf => toLex (2, 0)
  | .nan => toLex (3, 0)

/-- A place for every key in one order: the numbers, the strings, the others. -/
def Key.rank : Key → (ℤ ×ₗ ℤ) ×ₗ PyStr
  | .str s => toLex (toLex (4, 0), s)
  | k => toLex ((k.num.map Num.rank).getD (toLex (5, 0)), [])

theorem Num.rank_lt {x y : Num} (h : x.lt y = true) : x.rank < y.rank := by
  cases x <;> cases y <;> simp_all [Num.lt, Num.rank, Prod.Lex.toLex_lt_toLex]

theorem Key.rank_of_num {k : Key} {x : Num} (h : k.num = some x) :
    k.rank = toLex (x.rank, []) := by
  cases k with
  | str s => cases h
  | none => cases h
  | int n => simp [Key.rank, h]
  | float x => simp [Key.rank, h]
  | bool b => simp [Key.rank, h]

theorem Key.rank_lt {k k' : Key} (h : k.lt k' = some true) : k.rank < k'.rank := by
  unfold Key.lt at h
  split at h
  · exact Prod.Lex.toLex_lt_toLex.mpr (.inr ⟨rfl, by simpa using h⟩)
  split at h
  · next hx hy =>
    rw [Key.rank_of_num hx, Key.rank_of_num hy]
    exact Prod.Lex.toLex_lt_toLex.mpr (.inl (Num.rank_lt (by simpa using h)))
  · cases h

/-- A sort by insertion. -/
def Sorter.insertion : Sorter where
  run ms := ms.insertionSort fun m m' => m.1.rank ≤ m'.1.rank
  perm ms := List.perm_insertionSort _ ms
  ordered {α} ms _ _ := by
    -- the ranks are in one order, and `<` of keys is `<` of their ranks
    have htotal : Std.Total fun m m' : Key × α => m.1.rank ≤ m'.1.rank :=
      ⟨fun m m' => le_total m.1.rank m'.1.rank⟩
    have htrans : IsTrans (Key × α) fun m m' => m.1.rank ≤ m'.1.rank := ⟨fun _ _ _ => le_trans⟩
    exact (List.pairwise_insertionSort _ ms).imp fun hle hlt => absurd (Key.rank_lt hlt) hle.not_gt

example : (Sorter.insertion.run [(Key.int 10, ()), (Key.int 9, ())]).map Prod.fst =
    [.int 9, .int 10] := by
  decide +kernel

/-! ### Objects -/

/-- An object that `json.dumps` takes; a tuple is written as a list is. -/
inductive PyData
  | none
  | bool (b : Bool)
  | int (n : ℤ)
  | float (x : PyFloat)
  | str (s : PyStr)
  | list (vs : List PyData)
  | dict (ms : List (Key × PyData))

/-- `Dict[str, Any]` of a state. -/
abbrev State := List (Key × PyData)

/-- Induction on an object: over the items of a list, the values of a `dict`. -/
@[elab_as_elim, induction_eliminator]
theorem PyData.induct {P : PyData → Prop} (none : P .none) (bool : ∀ b, P (.bool b))
    (int : ∀ n, P (.int n)) (float : ∀ x, P (.float x)) (str : ∀ s, P (.str s))
    (list : ∀ vs, (∀ v ∈ vs, P v) → P (.list vs))
    (dict : ∀ ms : State, (∀ m ∈ ms, P m.2) → P (.dict ms)) (v : PyData) : P v :=
  PyData.rec (motive_1 := P) (motive_2 := fun vs => ∀ v ∈ vs, P v)
    (motive_3 := fun ms => ∀ m ∈ ms, P m.2) (motive_4 := fun m => P m.2)
    none bool int float str list dict (List.forall_mem_nil _)
    (fun _ _ hv hvs => List.forall_mem_cons.mpr ⟨hv, hvs⟩) (List.forall_mem_nil _)
    (fun _ _ hm hms => List.forall_mem_cons.mpr ⟨hm, hms⟩) (fun _ _ hv => hv) v

mutual

/-- The JSON value of an object: its keys as strings, in the order they stand in. -/
def PyData.value : PyData → Value
  | .none => .null
  | .bool b => .bool b
  | .int n => .int n
  | .float x => .float x
  | .str s => .str s
  | .list vs => .arr (itemValues vs)
  | .dict ms => .obj (memberValues ms)

@[inherit_doc PyData.value]
def itemValues : List PyData → List Value
  | [] => []
  | v :: vs => v.value :: itemValues vs

@[inherit_doc PyData.value]
def memberValues : State → Members
  | [] => []
  | (k, v) :: ms => (k.text, v.value) :: memberValues ms

end

mutual

/-- The `dict`s of an object sorted, from the inside out. -/
def PyData.sortKeys (S : Sorter) : PyData → PyData
  | .list vs => .list (sortItems S vs)
  | .dict ms => .dict (S.run (sortValues S ms))
  | v => v

@[inherit_doc PyData.sortKeys]
def sortItems (S : Sorter) : List PyData → List PyData
  | [] => []
  | v :: vs => v.sortKeys S :: sortItems S vs

@[inherit_doc PyData.sortKeys]
def sortValues (S : Sorter) : State → State
  | [] => []
  | (k, v) :: ms => (k, v.sortKeys S) :: sortValues S ms

end

mutual

/-- The keys of every `dict` in the object, as they stand, satisfy `p`. -/
def PyData.allKeys (p : List Key → Bool) : PyData → Bool
  | .list vs => allKeysItems p vs
  | .dict ms => p (ms.map Prod.fst) && allKeysMembers p ms
  | _ => true

@[inherit_doc PyData.allKeys]
def allKeysItems (p : List Key → Bool) : List PyData → Bool
  | [] => true
  | v :: vs => v.allKeys p && allKeysItems p vs

@[inherit_doc PyData.allKeys]
def allKeysMembers (p : List Key → Bool) : State → Bool
  | [] => true
  | (_, v) :: ms => v.allKeys p && allKeysMembers p ms

end

section Unfolding

variable {S : Sorter} {p : List Key → Bool} {vs : List PyData} {ms : State}

@[simp] theorem value_list : (PyData.list vs).value = .arr (vs.map PyData.value) := by
  rw [PyData.value]
  congr 1
  induction vs with
  | nil => rfl
  | cons v vs ih => rw [itemValues, ih, List.map_cons]

@[simp] theorem value_dict :
    (PyData.dict ms).value = .obj (ms.map fun m => (m.1.text, m.2.value)) := by
  rw [PyData.value]
  congr 1
  induction ms with
  | nil => rfl
  | cons m ms ih => rw [memberValues, ih, List.map_cons]

@[simp] theorem sortKeys_list :
    (PyData.list vs).sortKeys S = .list (vs.map (PyData.sortKeys S)) := by
  rw [PyData.sortKeys]
  congr 1
  induction vs with
  | nil => rfl
  | cons v vs ih => rw [sortItems, ih, List.map_cons]

@[simp] theorem sortKeys_dict :
    (PyData.dict ms).sortKeys S = .dict (S.run (ms.map fun m => (m.1, m.2.sortKeys S))) := by
  rw [PyData.sortKeys]
  congr 2
  induction ms with
  | nil => rfl
  | cons m ms ih => rw [sortValues, ih, List.map_cons]

@[simp] theorem allKeys_list :
    (PyData.list vs).allKeys p = true ↔ ∀ v ∈ vs, v.allKeys p = true := by
  rw [PyData.allKeys]
  induction vs with
  | nil => simp [allKeysItems]
  | cons v vs ih => simp [allKeysItems, ih]

@[simp] theorem allKeys_dict : (PyData.dict ms).allKeys p = true ↔
    p (ms.map Prod.fst) = true ∧ ∀ m ∈ ms, m.2.allKeys p = true := by
  have hmembers : allKeysMembers p ms = true ↔ ∀ m ∈ ms, m.2.allKeys p = true := by
    induction ms with
    | nil => simp [allKeysMembers]
    | cons m ms ih => simp [allKeysMembers, ih]
  rw [PyData.allKeys, Bool.and_eq_true, hmembers]

end Unfolding

/-- Every integer in the object has a text, also among the keys. -/
def PyData.printable (v : PyData) : Bool :=
  v.value.printable && v.allKeys fun ks => ks.all Key.printable

/-- What `json.loads` makes of the text of the object. -/
def PyData.image (v : PyData) : Value := v.value.joined.dict

/-- `json.dumps(v, sort_keys=True, separators=(",", ":"))`, or `none` where it raises. -/
def normalize (S : Sorter) (v : PyData) : Option PyStr :=
  if v.allKeys sortable && v.printable then some ((v.sortKeys S).value.render .compact 0) else none

/-! ### The sorted texts -/

/-- The keys, as the strings that are loaded from their texts, ascend. -/
def ascending (ks : List Key) : Bool := decide ((ks.map fun k => joinPairs k.text).Pairwise (· < ·))

/-- Sorted as they are, the keys of every `dict` are sorted as strings. -/
def Ordered (S : Sorter) (v : PyData) : Prop := (v.sortKeys S).allKeys ascending = true

instance (S : Sorter) (v : PyData) : Decidable (Ordered S v) := inferInstanceAs (Decidable (_ = _))

theorem image_list (vs : List PyData) :
    (PyData.list vs).image = .arr (vs.map PyData.image) := by
  simp only [PyData.image, value_list, Value.joined, Value.dict, rebuild_arr, List.map_map]
  rfl

theorem image_dict (ms : State) : (PyData.dict ms).image =
    .obj (dictOf (ms.map fun m => (joinPairs m.1.text, m.2.image))) := by
  simp only [PyData.image, value_dict, Value.joined, Value.dict, rebuild_obj, List.map_map, id_eq]
  rfl

/-- What is loaded from a text that is written. -/
theorem loaded_image {v : PyData} (h : v.value.printable = true) : v.image.Loaded := by
  have hload : load (v.value.render .compact 0) = some v.image := by
    rw [load, parse_render _ h]
    rfl
  exact loaded_of_load hload

/-- An object whose JSON value has sorted keys has its keys in the order of strings. -/
theorem allKeys_ascending_of_eq (v : PyData) : ∀ {w : Value}, w.Loaded →
    v.value.joined = w.sortKeys → v.allKeys ascending = true := by
  induction v with
  | none => exact fun _ _ => rfl
  | bool b => exact fun _ _ => rfl
  | int n => exact fun _ _ => rfl
  | float x => exact fun _ _ => rfl
  | str s => exact fun _ _ => rfl
  | list vs ih =>
    intro w hw heq
    rw [value_list, Value.joined, rebuild_arr] at heq
    cases hw with
    | @arr ws hws =>
      rw [Value.sortKeys, rebuild_arr, Value.arr.injEq, List.map_map] at heq
      refine allKeys_list.mpr fun v hv => ?_
      have hmem : v.value.joined ∈ ws.map Value.sortKeys := heq ▸ List.mem_map_of_mem hv
      -- each item comes from an item that is loaded
      obtain ⟨w, hw, hvw⟩ := List.mem_map.mp hmem
      exact ih v hv (hws w hw) hvw.symm
    | obj => rw [Value.sortKeys, rebuild_obj] at heq; cases heq
    | _ => cases heq
  | dict ms ih =>
    intro w hw heq
    rw [value_dict, Value.joined, rebuild_obj, List.map_map] at heq
    cases hw with
    | @obj ws hnodup hkeys hws =>
      rw [Value.sortKeys, rebuild_obj, Value.obj.injEq] at heq
      have hsorted : (sortMembers (ws.map fun m => (m.1, m.2.sortKeys))).Pairwise
          fun m m' => m.1 < m'.1 := by
        refine pairwise_sortMembers ?_
        rw [List.map_map]
        exact hnodup
      -- the members stand in the order that sorting them as strings gives
      have hmap : (ms.map fun m => (joinPairs m.1.text, m.2.value.joined)) =
          sortMembers (ws.map fun m => (m.1, m.2.sortKeys)) := heq
      refine allKeys_dict.mpr ⟨decide_eq_true ?_, fun m hm => ?_⟩
      · rw [← hmap, List.pairwise_map] at hsorted
        rw [List.map_map, List.pairwise_map]
        exact hsorted
      · have hmem := List.mem_map_of_mem (f := fun m : Key × PyData =>
          (joinPairs m.1.text, m.2.value.joined)) hm
        rw [hmap, mem_sortMembers] at hmem
        obtain ⟨m', hm', hvalue⟩ := List.mem_map.mp hmem
        exact ih m hm (hws m' hm') (congrArg Prod.snd hvalue).symm
    | arr => rw [Value.sortKeys, rebuild_arr] at heq; cases heq
    | _ => cases heq

/-- Objects whose keys are sorted as strings are loaded with their members sorted. -/
theorem joined_sortKeys {S : Sorter} (v : PyData) (h : Ordered S v) :
    (v.sortKeys S).value.joined = v.image.sortKeys := by
  induction v with
  | none => rfl
  | bool b => rfl
  | int n => rfl
  | float x => rfl
  | str s => rfl
  | list vs ih =>
    rw [Ordered, sortKeys_list, allKeys_list, List.forall_mem_map] at h
    rw [sortKeys_list, value_list, Value.joined, rebuild_arr, image_list, Value.sortKeys,
      rebuild_arr, List.map_map, List.map_map, List.map_map]
    exact congrArg Value.arr (List.map_congr_left fun v hv => ih v hv (h v hv))
  | dict ms ih =>
    rw [Ordered, sortKeys_dict, allKeys_dict] at h
    obtain ⟨hkeys, hvalues⟩ := h
    have hperm := S.perm (ms.map fun m => (m.1, m.2.sortKeys S))
    have hmem : ∀ m ∈ ms, (m.2.sortKeys S).value.joined = m.2.image.sortKeys := fun m hm =>
      ih m hm (hvalues _ (hperm.mem_iff.mpr (List.mem_map_of_mem hm)))
    -- the row as it is written, with its members in the order of the sorted keys
    let F : Key × PyData → PyStr × Value := fun m => (joinPairs m.1.text, m.2.value.joined)
    have hsorted : ((S.run (ms.map fun m => (m.1, m.2.sortKeys S))).map F).Pairwise
        fun m m' => m.1 < m'.1 := by
      have hpair := of_decide_eq_true hkeys
      rw [List.map_map, List.pairwise_map] at hpair
      exact List.pairwise_map.mpr hpair
    have hrow : (ms.map fun m => (joinPairs m.1.text, m.2.image)).map
        (fun m => (m.1, m.2.sortKeys)) = (ms.map fun m => (m.1, m.2.sortKeys S)).map F := by
      rw [List.map_map, List.map_map]
      exact List.map_congr_left fun m hm => Prod.ext rfl (hmem m hm).symm
    have hnodup : ((ms.map fun m => (joinPairs m.1.text, m.2.image)).map Prod.fst).Nodup := by
      have hfst : (ms.map fun m => (joinPairs m.1.text, m.2.image)).map Prod.fst =
          ((ms.map fun m => (m.1, m.2.sortKeys S)).map F).map Prod.fst := by
        rw [← hrow, List.map_map, List.map_map, List.map_map]
        rfl
      rw [hfst, ← ((hperm.map F).map Prod.fst).nodup_iff]
      exact List.pairwise_map.mpr (hsorted.imp ne_of_lt)
    rw [sortKeys_dict, value_dict, Value.joined, rebuild_obj, image_dict, dictOf_eq_self hnodup,
      Value.sortKeys, rebuild_obj, List.map_map]
    -- both rows are sorted and have the same members
    refine congrArg Value.obj (eq_of_perm_of_sorted ?_ hsorted (pairwise_sortMembers ?_))
    · refine ((hperm.map F).trans ?_).trans (perm_sortMembers _).symm
      exact .of_eq hrow.symm
    · rw [List.map_map]
      exact hnodup

/-- Sorting the keys leaves the integers. -/
theorem printable_sortKeys {S : Sorter} {v : PyData} (h : v.value.printable = true) :
    (v.sortKeys S).value.printable = true := by
  induction v with
  | none => exact h
  | bool b => exact h
  | int n => exact h
  | float x => exact h
  | str s => exact h
  | list vs ih =>
    rw [value_list, printable_arr, List.forall_mem_map] at h
    rw [sortKeys_list, value_list, printable_arr, List.forall_mem_map, List.forall_mem_map]
    exact fun v hv => ih v hv (h v hv)
  | dict ms ih =>
    rw [value_dict, printable_obj, List.forall_mem_map] at h
    rw [sortKeys_dict, value_dict, printable_obj, List.forall_mem_map]
    intro m hm
    obtain ⟨m', hm', rfl⟩ := List.mem_map.mp ((S.perm _).mem_iff.mp hm)
    exact ih m' hm' (h m' hm')

/-- **The text with sorted keys is that of what is loaded**, sorted again, exactly when
the order of the keys is that of their strings. -/
theorem render_sortKeys_eq_iff (S : Sorter) {v : PyData} (h : v.value.printable = true) :
    (v.sortKeys S).value.render .compact 0 = v.image.sortKeys.render .compact 0 ↔ Ordered S v := by
  constructor
  · intro htext
    -- the texts are read back: equal texts are equal values
    have hloaded := (loaded_image h).sortKeys
    have hparse := parse_render .compact (printable_sortKeys (S := S) h)
    rw [htext, parse_render .compact hloaded.printable, hloaded.joined] at hparse
    exact allKeys_ascending_of_eq _ (loaded_image h) (Option.some.inj hparse).symm
  · intro hordered
    rw [← joined_sortKeys v hordered, render_joined]

/-! ### Strings for keys -/

/-- A string with nothing to join in it. -/
def Key.plain : Key → Bool
  | .str s => !hasPair s
  | _ => false

/-- The keys are different strings with nothing to join in them. -/
def plainKeys (ks : List Key) : Bool := ks.all Key.plain && decide ks.Nodup

theorem Key.eq_of_plain {k : Key} (h : k.plain = true) : k = .str (joinPairs k.text) := by
  cases k with
  | str s => rw [Key.text, (joinPairs_eq_self_iff s).mpr (by simpa [Key.plain] using h)]
  | _ => cases h

/-- Where all keys are different strings they are sorted as strings. -/
theorem ascending_run {α : Type} (S : Sorter) {ms : List (Key × α)}
    (h : plainKeys (ms.map Prod.fst) = true) : ascending ((S.run ms).map Prod.fst) = true := by
  obtain ⟨hall, hnodup⟩ := Bool.and_eq_true_iff.mp h
  have hstr : ∀ m ∈ ms, m.1 = .str (joinPairs m.1.text) := fun m hm =>
    Key.eq_of_plain (List.all_eq_true.mp hall _ (List.mem_map_of_mem hm))
  have hlt : ∀ m ∈ ms, ∀ m' ∈ ms,
      m.1.lt m'.1 = some (decide (joinPairs m.1.text < joinPairs m'.1.text)) := by
    intro m hm m' hm'
    conv_lhs => rw [hstr m hm, hstr m' hm', Key.lt]
  have hsortable : sortable (ms.map Prod.fst) = true := by
    refine Bool.or_eq_true_iff.mpr (.inr ?_)
    simp only [List.all_eq_true, List.forall_mem_map]
    exact fun m hm m' hm' => by rw [hlt m hm m' hm']; rfl
  -- a string is no NaN, so `sorted` does put them in order
  have hnan : ∀ m ∈ ms, m.1 ≠ .float .nan := fun m hm heq => by
    have := hstr m hm
    rw [heq] at this
    cases this
  have hle := S.ordered ms hsortable hnan
  have hne := List.pairwise_map.mp
    (((S.perm ms).map Prod.fst).nodup_iff.mpr (of_decide_eq_true hnodup))
  refine decide_eq_true (List.pairwise_map.mpr (List.pairwise_map.mpr ?_))
  refine (hle.and hne).imp_of_mem fun {m m'} hm hm' hmm => ?_
  rw [hlt m' ((S.perm ms).mem_iff.mp hm') m ((S.perm ms).mem_iff.mp hm)] at hmm
  refine lt_of_le_of_ne (le_of_not_gt (by simpa using hmm.1)) fun heq => hmm.2 ?_
  rw [hstr m ((S.perm ms).mem_iff.mp hm), hstr m' ((S.perm ms).mem_iff.mp hm'), heq]

/-- **Where all keys are different strings the order is that of their strings.** -/
theorem ordered_of_plainKeys (S : Sorter) {v : PyData} (h : v.allKeys plainKeys = true) :
    Ordered S v := by
  induction v with
  | none => rfl
  | bool b => rfl
  | int n => rfl
  | float x => rfl
  | str s => rfl
  | list vs ih =>
    rw [Ordered, sortKeys_list, allKeys_list, List.forall_mem_map]
    exact fun v hv => ih v hv (allKeys_list.mp h v hv)
  | dict ms ih =>
    obtain ⟨hkeys, hvalues⟩ := allKeys_dict.mp h
    rw [Ordered, sortKeys_dict, allKeys_dict]
    refine ⟨ascending_run S (by rw [List.map_map]; exact hkeys), fun m hm => ?_⟩
    obtain ⟨m', hm', rfl⟩ := List.mem_map.mp ((S.perm _).mem_iff.mp hm)
    exact ih m' hm' (hvalues m' hm')

end Resurrection
end SovereignSeed
