import Mathlib.Algebra.BigOperators.Group.Finset.Piecewise
import Mathlib.Algebra.BigOperators.Group.List.Basic
import Mathlib.Data.List.Nodup

/-!
# Lists shared out among owners

A log to which several parties have contributed is a list whose entries each
have an owner.  What is true of every owner's *share* — the sublist of its
entries, in order — adds up to a statement about the list.

## Main definitions

* `share` — the entries of one owner.

## Main results

* `sum_share` — a sum over the list is the sum over the owners of their shares.
* `nodup_of_share` — entries are distinct if those of each owner are.
* `exists_labels` — a list whose shares are enumerations can be labelled by
  owner and index.
* `eq_of_keys_eq` — a list is determined by its keys within another list.
* `prefix_of_keys_prefix` — and so is a beginning of a list.
-/

namespace SovereignSeed

variable {α β τ : Type*}

/-- The entries of owner `t`, in order. -/
def share [DecidableEq τ] (owner : α → τ) (as : List α) (t : τ) : List α :=
  as.filter fun a => owner a = t

section Share

variable [DecidableEq τ] {owner : α → τ}

@[simp] theorem share_nil (t : τ) : share owner [] t = [] := rfl

@[simp] theorem share_cons (a : α) (as : List α) (t : τ) :
    share owner (a :: as) t = if owner a = t then a :: share owner as t else share owner as t := by
  simp [share, List.filter_cons]

@[simp] theorem share_append (as bs : List α) (t : τ) :
    share owner (as ++ bs) t = share owner as t ++ share owner bs t :=
  List.filter_append ..

/-- Sharing out a mapped list is mapping the shares. -/
theorem share_map (f : β → α) (bs : List β) (t : τ) :
    share owner (bs.map f) t = (share (owner ∘ f) bs t).map f := by
  rw [share, List.filter_map]
  rfl

/-- A share of owned values is given by the values. -/
theorem map_share (g : τ × β → α) (as : List (τ × β)) (t : τ) :
    (share Prod.fst as t).map g = ((share Prod.fst as t).map Prod.snd).map fun b => g (t, b) := by
  rw [List.map_map]
  apply List.map_congr_left
  intro a ha
  obtain rfl : a.1 = t := by simpa using (List.mem_filter.mp ha).2
  rfl

/-- **A sum over a list is the sum of the sums over its shares.** -/
theorem sum_share [Fintype τ] {M : Type*} [AddCommMonoid M] (owner : α → τ) (g : α → M)
    (as : List α) :
    (as.map g).sum = ∑ t, ((share owner as t).map g).sum := by
  induction as with
  | nil => simp
  | cons a as ih =>
    have hone : ∀ t, ((share owner (a :: as) t).map g).sum =
        (if owner a = t then g a else 0) + ((share owner as t).map g).sum := by
      intro t
      rw [share_cons]
      split <;> simp
    rw [List.map_cons, List.sum_cons, ih, Finset.sum_congr rfl fun t _ => hone t,
      Finset.sum_add_distrib, Finset.sum_ite_eq, if_pos (Finset.mem_univ _)]

/-- The lengths of the shares add up to the length of the list. -/
theorem length_share [Fintype τ] (owner : α → τ) (as : List α) :
    as.length = ∑ t, (share owner as t).length := by
  have h := sum_share owner (fun _ => 1) as
  simpa using h

/-- Entries are distinct if those of each owner are. -/
theorem nodup_of_share (owner : α → τ) {as : List α} (h : ∀ t, (share owner as t).Nodup) :
    as.Nodup := by
  induction as with
  | nil => exact List.nodup_nil
  | cons a as ih =>
    have hself := h (owner a)
    rw [share_cons, if_pos rfl, List.nodup_cons] at hself
    refine List.nodup_cons.mpr ⟨fun hmem => hself.1 ?_, ih fun t => ?_⟩
    · exact List.mem_filter.mpr ⟨hmem, decide_eq_true rfl⟩
    · have ht := h t
      rw [share_cons] at ht
      split at ht
      · exact ht.of_cons
      · exact ht

/-- **Labelling.**  If each owner's share of a list of owned values is an initial
segment of that owner's enumeration, the list is the image of a list of labels
in which every owner counts up from zero. -/
theorem exists_labels (f : τ → ℕ → β) : ∀ (as : List (τ × β)) (n : τ → ℕ),
    (∀ t, (share Prod.fst as t).map Prod.snd = (List.range (n t)).map (f t)) →
      ∃ ls : List (τ × ℕ), as = ls.map (fun l => (l.1, f l.1 l.2)) ∧
        ∀ t, (share Prod.fst ls t).map Prod.snd = List.range (n t) := by
  intro as
  induction as using List.reverseRecOn with
  | nil =>
    intro n h
    refine ⟨[], rfl, fun t => ?_⟩
    have hlen := congrArg List.length (h t)
    simp only [share_nil, List.map_nil, List.length_nil, List.length_map, List.length_range] at hlen
    simp [← hlen]
  | append_singleton as a ih =>
    obtain ⟨t, d⟩ := a
    intro n h
    -- the last entry is the last of its owner
    have ht := h t
    simp only [share_append, share_cons, share_nil, if_pos, List.map_append, List.map_cons,
      List.map_nil] at ht
    obtain ⟨k, hk⟩ : ∃ k, n t = k + 1 := by
      apply Nat.exists_eq_succ_of_ne_zero
      intro h0
      simp [h0] at ht
    rw [hk, List.range_succ, List.map_append] at ht
    obtain ⟨hinit, hlast⟩ := List.append_inj' ht rfl
    obtain ⟨rfl⟩ : d = f t k := by simpa using hlast
    obtain ⟨ls, hls, hshare⟩ := ih (Function.update n t k) (by
      intro u
      by_cases hu : u = t
      · rw [hu, Function.update_self, hinit]
      · rw [Function.update_of_ne hu, ← h u]
        simp [Ne.symm hu])
    refine ⟨ls ++ [(t, k)], by simp [hls], fun u => ?_⟩
    by_cases hu : u = t
    · subst hu
      have hshare := hshare u
      rw [Function.update_self] at hshare
      simp [hshare, hk, List.range_succ]
    · have hshare := hshare u
      rw [Function.update_of_ne hu] at hshare
      simp [hshare, Ne.symm hu]

/-- A beginning of a list in which an owner counts up from zero is such a list. -/
theorem exists_share_take {ls : List (τ × ℕ)} {t : τ} {c : ℕ}
    (h : (share Prod.fst ls t).map Prod.snd = List.range c) (n : ℕ) :
    ∃ d ≤ c, (share Prod.fst (ls.take n) t).map Prod.snd = List.range d := by
  have hbegin : (share Prod.fst (ls.take n) t).map Prod.snd <+: List.range c := by
    rw [← h]
    exact ((List.take_prefix n ls).filter _).map Prod.snd
  have htake := List.prefix_iff_eq_take.mp hbegin
  rw [List.take_range] at htake
  exact ⟨_, Nat.min_le_right _ _, htake⟩

end Share

/-- **Keys determine entries.**  Two lists with the same duplicate-free keys are
equal if every entry of the one is an entry of the other. -/
theorem eq_of_keys_eq (key : α → β) : ∀ {as bs : List α}, as.map key = bs.map key →
    (bs.map key).Nodup → (∀ a ∈ as, a ∈ bs) → as = bs := by
  intro as
  induction as with
  | nil => intro bs h _ _; exact (List.map_eq_nil_iff.mp h.symm).symm
  | cons a as ih =>
    intro bs h hnodup hmem
    cases bs with
    | nil => simp at h
    | cons b bs =>
      obtain ⟨hkey, hkeys⟩ : key a = key b ∧ as.map key = bs.map key := by simpa using h
      obtain ⟨hnew, hrest⟩ := List.nodup_cons.mp hnodup
      obtain rfl : a = b := by
        refine (List.mem_cons.mp (hmem a (.head _))).resolve_right fun hin => hnew ?_
        exact hkey ▸ List.mem_map_of_mem hin
      rw [ih hkeys hrest fun c hc => ?_]
      apply (List.mem_cons.mp (hmem c (.tail _ hc))).resolve_left
      rintro rfl
      exact hnew (hkeys ▸ List.mem_map_of_mem hc)

/-- Entries of a list whose keys are its first ones are its first entries. -/
theorem prefix_of_keys_prefix (key : α → β) {as bs : List α}
    (hkeys : as.map key <+: bs.map key) (hnodup : (bs.map key).Nodup) (hmem : ∀ a ∈ as, a ∈ bs) :
    as <+: bs := by
  have htake : as.map key = (bs.take as.length).map key := by
    have hprefix := List.prefix_iff_eq_take.mp hkeys
    rwa [List.length_map, ← List.map_take] at hprefix
  have hsub : (bs.take as.length).map key <+: bs.map key := (List.take_prefix _ _).map key
  have heq : as = bs.take as.length := by
    refine eq_of_keys_eq key htake (hnodup.sublist hsub.sublist) fun a ha => ?_
    -- the entry with the key of `a` is `a`
    obtain ⟨b, hb, hkey⟩ := List.mem_map.mp (htake ▸ List.mem_map_of_mem ha)
    have hsame := List.inj_on_of_nodup_map hnodup (List.mem_of_mem_take hb) (hmem a ha) hkey
    exact hsame ▸ hb
  exact List.prefix_iff_eq_take.mpr heq

end SovereignSeed
