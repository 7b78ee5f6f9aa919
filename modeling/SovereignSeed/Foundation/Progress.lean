import SovereignSeed.Foundation.Machine
import Mathlib.Data.Fintype.Card

/-!
# What a machine can still do

Safety says what no schedule leads to; here is what some schedule does.  A guard may keep the
other threads still, and a bound counts the steps: that a thread gets there *alone* within `n`
steps of its own is a statement about guarded paths of a length.

A machine that never gets into a trap is one that can finish from every reachable state.  The
rule for it is a measure: whenever it is not done, some path leads to less.

## Main definitions

* `Machine.Within` — a guarded path of at most `n` steps to a state with a property.
* `Machine.Can` — a path of any length.

## Main results

* `Within.cons`, `Within.trans`, `Can.trans` — paths composed.
* `can_of_measure` — **the measure rule.**
* `Path.length_add_le` — every path is as short as its measure.
-/

namespace SovereignSeed
namespace Machine

variable {σ α : Type*} {M : Machine σ α} {ok : σ → α → Prop} {P R : σ → Prop} {s t : σ} {a : α}
  {m n : ℕ}

/-- Within `n` steps that pass the guard, the machine can get to a state with `P`. -/
def Within (M : Machine σ α) (ok : σ → α → Prop) (n : ℕ) (P : σ → Prop) (s : σ) : Prop :=
  ∃ as t, as.length ≤ n ∧ M.Path ok s as t ∧ P t

/-- The machine can get to a state with `P` by steps that pass the guard. -/
def Can (M : Machine σ α) (ok : σ → α → Prop) (P : σ → Prop) (s : σ) : Prop :=
  ∃ as t, M.Path ok s as t ∧ P t

/-! ### Bounded paths -/

namespace Within

theorem now (h : P s) : M.Within ok n P s := ⟨[], s, Nat.zero_le n, .nil s, h⟩

/-- A step, and a path behind it. -/
theorem cons (hok : ok s a) (hst : M.step s a = some t) (h : M.Within ok n P t) :
    M.Within ok (n + 1) P s := by
  obtain ⟨as, u, hlen, hpath, hu⟩ := h
  exact ⟨a :: as, u, Nat.succ_le_succ hlen, .cons hok hst hpath, hu⟩

theorem mono (h : M.Within ok n P s) (hle : n ≤ m) : M.Within ok m P s := by
  obtain ⟨as, u, hlen, hpath, hu⟩ := h
  exact ⟨as, u, hlen.trans hle, hpath, hu⟩

theorem imp (h : M.Within ok n P s) (himp : ∀ t, P t → R t) : M.Within ok n R s := by
  obtain ⟨as, u, hlen, hpath, hu⟩ := h
  exact ⟨as, u, hlen, hpath, himp u hu⟩

theorem trans (h : M.Within ok m P s) (h' : ∀ t, P t → M.Within ok n R t) :
    M.Within ok (m + n) R s := by
  obtain ⟨as, u, hlen, hpath, hu⟩ := h
  obtain ⟨bs, v, hlen', hpath', hv⟩ := h' u hu
  refine ⟨as ++ bs, v, ?_, hpath.trans hpath', hv⟩
  rw [List.length_append]
  exact Nat.add_le_add hlen hlen'

/-- **A set is filled up within as many steps as elements are missing**, if every element can be
put in by a step. -/
theorem fill {ι : Type*} [Fintype ι] [DecidableEq ι] {I : Finset ι → σ → Prop}
    (hstep : ∀ done i s, I done s → ∃ a t, ok s a ∧ M.step s a = some t ∧ I (insert i done) t) :
    ∀ (n : ℕ) (done : Finset ι) (s : σ), I done s → doneᶜ.card ≤ n →
      M.Within ok n (I Finset.univ) s := by
  intro n
  induction n with
  | zero =>
    intro done s h hcard
    have hall : done = Finset.univ := by
      rw [← Finset.compl_eq_empty_iff]
      exact Finset.card_eq_zero.mp (Nat.le_zero.mp hcard)
    exact now (hall ▸ h)
  | succ n ih =>
    intro done s h hcard
    rcases doneᶜ.eq_empty_or_nonempty with hempty | ⟨i, hi⟩
    · exact now ((Finset.compl_eq_empty_iff done).mp hempty ▸ h)
    · obtain ⟨a, t, hok, hst, ht⟩ := hstep done i s h
      refine cons hok hst (ih _ t ht ?_)
      have hless : (insert i done)ᶜ.card < doneᶜ.card := by
        rw [Finset.compl_insert]
        exact Finset.card_erase_lt_of_mem hi
      omega

end Within

/-! ### Paths of any length -/

namespace Can

theorem now (h : P s) : M.Can ok P s := ⟨[], s, .nil s, h⟩

theorem cons (hok : ok s a) (hst : M.step s a = some t) (h : M.Can ok P t) : M.Can ok P s := by
  obtain ⟨as, u, hpath, hu⟩ := h
  exact ⟨a :: as, u, .cons hok hst hpath, hu⟩

theorem imp (h : M.Can ok P s) (himp : ∀ t, P t → R t) : M.Can ok R s := by
  obtain ⟨as, u, hpath, hu⟩ := h
  exact ⟨as, u, hpath, himp u hu⟩

/-- Under a weaker guard no less can be reached. -/
theorem mono {ok' : σ → α → Prop} (h : M.Can ok P s) (himp : ∀ s a, ok s a → ok' s a) :
    M.Can ok' P s := by
  obtain ⟨as, u, hpath, hu⟩ := h
  exact ⟨as, u, hpath.mono himp, hu⟩

theorem trans (h : M.Can ok P s) (h' : ∀ t, P t → M.Can ok R t) : M.Can ok R s := by
  obtain ⟨as, u, hpath, hu⟩ := h
  obtain ⟨bs, v, hpath', hv⟩ := h' u hu
  exact ⟨as ++ bs, v, hpath.trans hpath', hv⟩

/-- What a step under the guard preserves, a path does on its way. -/
theorem invariant {I : σ → Prop} (h : M.Can ok P s)
    (hstep : ∀ u a v, I u → ok u a → M.step u a = some v → I v) (hs : I s) :
    M.Can ok (fun t => I t ∧ P t) s := by
  obtain ⟨as, u, hpath, hu⟩ := h
  exact ⟨as, u, hpath, hpath.invariant hstep hs, hu⟩

end Can

/-- **The measure rule**: if a path leads to less whenever the goal is not reached, the goal can
be reached. -/
theorem can_of_measure {I : σ → Prop} (μ : σ → ℕ)
    (hstep : ∀ s, I s → ¬P s → M.Can ok (fun t => I t ∧ μ t < μ s) s) (hs : I s) :
    M.Can ok (fun t => I t ∧ P t) s := by
  obtain ⟨n, hn⟩ : ∃ n, μ s ≤ n := ⟨_, le_rfl⟩
  induction n generalizing s with
  | zero =>
    by_cases hP : P s
    · exact .now ⟨hs, hP⟩
    · refine (hstep s hs hP).trans fun t ht => ?_
      have hlt := ht.2
      omega
  | succ n ih =>
    by_cases hP : P s
    · exact .now ⟨hs, hP⟩
    · refine (hstep s hs hP).trans fun t ht => ih ht.1 ?_
      have hlt := ht.2
      omega

/-- **A path is not longer than the measure that its steps use up.** -/
theorem Path.length_add_le {I : σ → Prop} {μ : σ → ℕ} {as : List α}
    (hstep : ∀ u a v, I u → ok u a → M.step u a = some v → I v ∧ μ v < μ u)
    (h : M.Path ok s as t) (hs : I s) : I t ∧ as.length + μ t ≤ μ s := by
  induction h with
  | nil s => exact ⟨hs, (Nat.zero_add _).le⟩
  | cons hok hst _ ih =>
    obtain ⟨hI, hlt⟩ := hstep _ _ _ hs hok hst
    obtain ⟨ht, hle⟩ := ih hI
    refine ⟨ht, ?_⟩
    rw [List.length_cons]
    omega

end Machine
end SovereignSeed
