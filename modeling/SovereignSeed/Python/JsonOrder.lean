import SovereignSeed.Python.JsonBytes

/-!
# Values up to the order of keys

Two values are equal up to the order of keys if one comes from the other by moving
members about, in any object at any depth.  Sorting the keys is one way of moving
them, and it forgets where they stood: values with `dict`s for their objects are
equal up to order exactly if they are the same once sorted.

## Main definitions

* `Value.Plain` — values as a program holds them: unique keys, texts over scalar values.
* `Reordered` — equality up to the order of keys.

## Main results

* `same_iff_reordered` — **sorting decides equality up to order.**
* `Value.Plain.loaded_iff` — a plain value is one the reader gives exactly if it has a text.
-/

namespace SovereignSeed
namespace Python
namespace Json

/-! ### Plain values -/

/-- A value with a `dict` for each object, and texts over Unicode scalar values. -/
inductive Value.Plain : Value → Prop
  | null : Plain .null
  | bool (b : Bool) : Plain (.bool b)
  | int (n : ℤ) : Plain (.int n)
  | float (x : PyFloat) : Plain (.float x)
  | str {s : PyStr} : IsScalar s → Plain (.str s)
  | arr {vs : List Value} : (∀ v ∈ vs, Plain v) → Plain (.arr vs)
  | obj {ms : Members} : (ms.map Prod.fst).Nodup → (∀ m ∈ ms, IsScalar m.1) →
      (∀ m ∈ ms, Plain m.2) → Plain (.obj ms)

theorem plain_arr {vs : List Value} : (Value.arr vs).Plain ↔ ∀ v ∈ vs, v.Plain :=
  ⟨fun | .arr h => h, .arr⟩

theorem plain_obj {ms : Members} : (Value.obj ms).Plain ↔
    (ms.map Prod.fst).Nodup ∧ (∀ m ∈ ms, IsScalar m.1) ∧ ∀ m ∈ ms, m.2.Plain :=
  ⟨fun | .obj h h' h'' => ⟨h, h', h''⟩, fun h => .obj h.1 h.2.1 h.2.2⟩

/-- **A plain value with a text is one the reader gives.** -/
theorem Value.Plain.loaded_iff {v : Value} (h : v.Plain) : v.Loaded ↔ v.printable = true := by
  refine ⟨Loaded.printable, fun hp => ?_⟩
  induction h with
  | null => exact .null
  | bool b => exact .bool b
  | int n => exact .int (by simpa [Value.printable] using hp)
  | float x => exact .float x
  | str hs => exact .str (hasPair_of_isScalar hs)
  | arr _ ih =>
    have hitems := printable_arr.mp hp
    exact .arr fun v hv => ih v hv (hitems v hv)
  | obj hnodup hkeys _ ih =>
    have hvalues := printable_obj.mp hp
    exact .obj hnodup (fun m hm => hasPair_of_isScalar (hkeys m hm))
      fun m hm => ih m hm (hvalues m hm)

theorem sortKeys_arr (vs : List Value) : (Value.arr vs).sortKeys = .arr (vs.map Value.sortKeys) :=
  rebuild_arr vs

theorem sortKeys_obj (ms : Members) :
    (Value.obj ms).sortKeys = .obj (sortMembers (ms.map fun m => (m.1, m.2.sortKeys))) :=
  rebuild_obj ms

/-- Sorting keys changes no number. -/
theorem printable_sortKeys_iff (v : Value) : v.sortKeys.printable = true ↔ v.printable = true := by
  induction v with
  | null => exact Iff.rfl
  | bool => exact Iff.rfl
  | int => exact Iff.rfl
  | float => exact Iff.rfl
  | str => exact Iff.rfl
  | arr vs ih =>
    rw [sortKeys_arr, printable_arr, printable_arr, List.forall_mem_map]
    exact forall₂_congr ih
  | obj ms ih =>
    rw [sortKeys_obj, printable_obj, printable_obj]
    simp only [mem_sortMembers, List.forall_mem_map]
    exact forall₂_congr ih

/-! ### Moving members -/

/-- The values are equal up to the order of keys, at every depth. -/
inductive Reordered : Value → Value → Prop
  | refl (v : Value) : Reordered v v
  | trans {u v w : Value} : Reordered u v → Reordered v w → Reordered u w
  | moved {ms ms' : Members} : ms.Perm ms' → Reordered (.obj ms) (.obj ms')
  | item {v w : Value} (us vs : List Value) : Reordered v w →
      Reordered (.arr (us ++ v :: vs)) (.arr (us ++ w :: vs))
  | member {v w : Value} (k : PyStr) (ms ms' : Members) : Reordered v w →
      Reordered (.obj (ms ++ (k, v) :: ms')) (.obj (ms ++ (k, w) :: ms'))

theorem Reordered.symm {v w : Value} (h : Reordered v w) : Reordered w v := by
  induction h with
  | refl v => exact .refl v
  | trans _ _ ih ih' => exact .trans ih' ih
  | moved h => exact .moved h.symm
  | item us vs _ ih => exact .item us vs ih
  | member k ms ms' _ ih => exact .member k ms ms' ih

section Pointwise

variable {f : Value → Value}

theorem reordered_items {vs : List Value} (h : ∀ v ∈ vs, Reordered v (f v)) :
    ∀ us, Reordered (.arr (us ++ vs)) (.arr (us ++ vs.map f)) := by
  induction vs with
  | nil => exact fun us => .refl _
  | cons v vs ih =>
    intro us
    -- the first item moves, then the others behind it
    have hrest := ih (fun u hu => h u (.tail _ hu)) (us ++ [f v])
    simp only [List.append_assoc, List.cons_append, List.nil_append] at hrest
    exact .trans (.item us vs (h v (.head _))) hrest

theorem reordered_members {ms : Members} (h : ∀ m ∈ ms, Reordered m.2 (f m.2)) :
    ∀ es, Reordered (.obj (es ++ ms)) (.obj (es ++ ms.map fun m => (m.1, f m.2))) := by
  induction ms with
  | nil => exact fun es => .refl _
  | cons m ms ih =>
    intro es
    have hrest := ih (fun e he => h e (.tail _ he)) (es ++ [(m.1, f m.2)])
    simp only [List.append_assoc, List.cons_append, List.nil_append] at hrest
    exact .trans (.member m.1 es ms (h m (.head _))) hrest

end Pointwise

/-- Sorting the keys moves members only. -/
theorem reordered_sortKeys (v : Value) : Reordered v v.sortKeys := by
  induction v with
  | null => exact .refl _
  | bool => exact .refl _
  | int => exact .refl _
  | float => exact .refl _
  | str => exact .refl _
  | arr vs ih =>
    rw [sortKeys_arr]
    exact reordered_items ih []
  | obj ms ih =>
    rw [sortKeys_obj]
    exact .trans (reordered_members ih []) (.moved (perm_sortMembers _).symm)

/-- **Sorting forgets where the members stood**, and moving them keeps a value plain. -/
theorem Reordered.same {v w : Value} (h : Reordered v w) (hv : v.Plain) : Same v w ∧ w.Plain := by
  induction h with
  | refl v => exact ⟨rfl, hv⟩
  | trans _ _ ih ih' =>
    obtain ⟨hsame, hplain⟩ := ih hv
    obtain ⟨hsame', hplain'⟩ := ih' hplain
    exact ⟨hsame.trans hsame', hplain'⟩
  | moved h =>
    obtain ⟨hnodup, hkeys, hvalues⟩ := plain_obj.mp hv
    refine ⟨?_, .obj ((h.map _).nodup_iff.mp hnodup) (fun m hm => hkeys m (h.mem_iff.mpr hm))
      fun m hm => hvalues m (h.mem_iff.mpr hm)⟩
    rw [Same, sortKeys_obj, sortKeys_obj, sortMembers_eq_of_perm (h.map _)]
    rw [List.map_map]
    exact hnodup
  | item us vs _ ih =>
    have hitems := plain_arr.mp hv
    obtain ⟨hsame, hplain⟩ := ih (hitems _ (by simp))
    refine ⟨?_, .arr fun u hu => ?_⟩
    · rw [Same, sortKeys_arr, sortKeys_arr, List.map_append, List.map_append, List.map_cons,
        List.map_cons, hsame]
    · simp only [List.mem_append, List.mem_cons] at hu
      rcases hu with hu | rfl | hu
      · exact hitems u (by simp [hu])
      · exact hplain
      · exact hitems u (by simp [hu])
  | @member u u' k ms ms' _ ih =>
    obtain ⟨hnodup, hkeys, hvalues⟩ := plain_obj.mp hv
    obtain ⟨hsame, hplain⟩ := ih (hvalues (k, u) (by simp))
    refine ⟨?_, .obj (by simpa using hnodup) (fun m hm => ?_) fun m hm => ?_⟩
    · rw [Same, sortKeys_obj, sortKeys_obj, List.map_append, List.map_append, List.map_cons,
        List.map_cons, hsame]
    · simp only [List.mem_append, List.mem_cons] at hm
      rcases hm with hm | rfl | hm
      · exact hkeys m (by simp [hm])
      · exact hkeys (k, u) (by simp)
      · exact hkeys m (by simp [hm])
    · simp only [List.mem_append, List.mem_cons] at hm
      rcases hm with hm | rfl | hm
      · exact hvalues m (by simp [hm])
      · exact hplain
      · exact hvalues m (by simp [hm])

/-- Values that are the same once sorted are equal up to order. -/
theorem reordered_of_same {v w : Value} (h : Same v w) : Reordered v w := by
  have hsorted : Reordered v w.sortKeys := h ▸ reordered_sortKeys v
  exact hsorted.trans (reordered_sortKeys w).symm

/-- **Sorting decides equality up to the order of keys.** -/
theorem same_iff_reordered {v w : Value} (hv : v.Plain) : Same v w ↔ Reordered v w :=
  ⟨reordered_of_same, fun h => (h.same hv).1⟩

/-- Objects that are the same have the same members. -/
theorem exists_mem_of_same {ms ms' : Members} {k : PyStr} {v : Value}
    (h : Same (.obj ms) (.obj ms')) (hmem : (k, v) ∈ ms) : ∃ w, (k, w) ∈ ms' ∧ Same v w := by
  rw [Same, sortKeys_obj, sortKeys_obj, Value.obj.injEq] at h
  have hsorted : (k, v.sortKeys) ∈ sortMembers (ms.map fun m => (m.1, m.2.sortKeys)) :=
    mem_sortMembers.mpr (List.mem_map.mpr ⟨_, hmem, rfl⟩)
  rw [h, mem_sortMembers] at hsorted
  obtain ⟨⟨k', w⟩, hw, heq⟩ := List.mem_map.mp hsorted
  obtain ⟨rfl, hsame⟩ := Prod.mk.inj heq
  exact ⟨w, hw, hsame.symm⟩

end Json
end Python
end SovereignSeed
