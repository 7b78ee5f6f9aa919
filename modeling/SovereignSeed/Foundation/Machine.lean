import Mathlib.Algebra.GroupWithZero.Nat
import Mathlib.Logic.Basic
import Mathlib.Data.List.Basic

/-!
# Labelled machines

A concurrent program is embedded here as a *machine*: a type of states, a type
of actions and a partial step function.  All the freedom of the environment —
which thread moves, which fault strikes, what the clock reads — sits in the
action, so a schedule is a list of actions and a concrete one can be evaluated.

Two views of a schedule are used.  `Machine.exec` runs it; `Machine.Path` is the
relation it induces, with a guard `ok` that every step has to satisfy in the
state before it.  A property that holds "in every run whose steps all meet a
condition" is a statement about guarded paths.

## Main definitions

* `Machine`, `Machine.Path`, `Machine.Reachable` — machines and their runs.
* `Machine.stateAt` — the state of a schedule before the first action of a kind.
* `Machine.exec` — the evaluation of a schedule under a boolean guard.

## Main results

* `Machine.Path.invariant`, `Machine.Reachable.invariant` — **the invariant rules.**
* `Machine.path_of_exec` — an evaluated schedule is a guarded path.
-/

namespace SovereignSeed

/-- The threads of a small schedule are numbered by literals. -/
instance neZero_two : NeZero (2 : ℕ) := ⟨by decide⟩

/-- A machine: its start states and its partial, labelled step. -/
structure Machine (σ α : Type*) where
  /-- The start states. -/
  init : σ → Prop
  /-- The state after an action, or `none` where the action is not enabled. -/
  step : σ → α → Option σ

namespace Machine

variable {σ α : Type*} {M : Machine σ α}

/-- `M.Path ok s as s'` says the schedule `as` leads from `s` to `s'`, and each
of its actions satisfies `ok` in the state it is taken from. -/
inductive Path (M : Machine σ α) (ok : σ → α → Prop) : σ → List α → σ → Prop
  | nil (s : σ) : Path M ok s [] s
  | cons {s t u : σ} {a : α} {as : List α} :
      ok s a → M.step s a = some t → Path M ok t as u → Path M ok s (a :: as) u

/-- The guard that lets every step pass. -/
def free : σ → α → Prop := fun _ _ => True

/-- The states some schedule leads to from a start state. -/
inductive Reachable (M : Machine σ α) : σ → Prop
  | init {s : σ} : M.init s → Reachable M s
  | step {s t : σ} {a : α} : Reachable M s → M.step s a = some t → Reachable M t

/-! ### The invariant rules -/

/-- **What a step preserves, a path preserves.** -/
theorem Path.invariant {ok : σ → α → Prop} {P : σ → Prop} {s t : σ} {as : List α}
    (h : M.Path ok s as t)
    (hstep : ∀ u a v, P u → ok u a → M.step u a = some v → P v) : P s → P t := by
  induction h with
  | nil => exact id
  | cons hok hst _ ih => exact fun h0 => ih (hstep _ _ _ h0 hok hst)

/-- **What holds at the start and is preserved by a step holds at every
reachable state.** -/
theorem Reachable.invariant {P : σ → Prop} {s : σ} (h : M.Reachable s)
    (h0 : ∀ s, M.init s → P s) (hstep : ∀ u a v, P u → M.step u a = some v → P v) : P s := by
  induction h with
  | init hs => exact h0 _ hs
  | step _ hst ih => exact hstep _ _ _ ih hst

/-- **Behind a join**: where the only way past a point is over what has ended, and what has ended
stays so, it has ended wherever the point is passed. -/
theorem Reachable.ended_of_passed {Passed Ended : σ → Prop} {s : σ} (h : M.Reachable s)
    (hinit : ∀ s, M.init s → ¬Passed s)
    (hpass : ∀ u a v, M.step u a = some v → Passed v → Passed u ∨ Ended u)
    (hstay : ∀ u a v, M.step u a = some v → Ended u → Ended v) : Passed s → Ended s := by
  refine h.invariant (P := fun s => Passed s → Ended s) (fun s hs hp => absurd hp (hinit s hs)) ?_
  intro u a v ih hst hp
  exact hstay u a v hst ((hpass u a v hst hp).elim ih id)

/-! ### Paths -/

/-- A path stays a path under a weaker guard. -/
theorem Path.mono {ok ok' : σ → α → Prop} {s t : σ} {as : List α} (h : M.Path ok s as t)
    (himp : ∀ u a, ok u a → ok' u a) : M.Path ok' s as t := by
  induction h with
  | nil => exact .nil _
  | cons hok hst _ ih => exact .cons (himp _ _ hok) hst ih

/-- What holds of the actions of a schedule is a guard its steps pass. -/
theorem Path.guarded {ok : σ → α → Prop} {p : α → Prop} {s t : σ} {as : List α}
    (h : M.Path ok s as t) (hp : ∀ a ∈ as, p a) : M.Path (fun u a => ok u a ∧ p a) s as t := by
  induction h with
  | nil => exact .nil _
  | cons hok hst _ ih =>
    exact .cons ⟨hok, hp _ List.mem_cons_self⟩ hst (ih fun a ha => hp a (List.mem_cons_of_mem _ ha))

/-- Two paths compose. -/
theorem Path.trans {ok : σ → α → Prop} {s t u : σ} {as bs : List α}
    (h : M.Path ok s as t) (h' : M.Path ok t bs u) : M.Path ok s (as ++ bs) u := by
  induction h with
  | nil => exact h'
  | cons hok hst _ ih => exact .cons hok hst (ih h')

/-- A path from a reachable state ends in one. -/
theorem Path.reachable {ok : σ → α → Prop} {s t : σ} {as : List α} (h : M.Path ok s as t)
    (hs : M.Reachable s) : M.Reachable t :=
  h.invariant (fun _ _ _ hu _ hst => .step hu hst) hs

/-- The first step of a nonempty path. -/
theorem Path.head {ok : σ → α → Prop} {s u : σ} {a : α} {as : List α}
    (h : M.Path ok s (a :: as) u) : ∃ t, ok s a ∧ M.step s a = some t ∧ M.Path ok t as u := by
  cases h with
  | cons hok hst hrest => exact ⟨_, hok, hst, hrest⟩

/-- Splitting a path at a point of its schedule. -/
theorem Path.split {ok : σ → α → Prop} {bs : List α} {u : σ} :
    ∀ {as : List α} {s : σ}, M.Path ok s (as ++ bs) u →
      ∃ t, M.Path ok s as t ∧ M.Path ok t bs u := by
  intro as
  induction as with
  | nil => exact fun h => ⟨_, .nil _, h⟩
  | cons a as ih =>
    intro s h
    obtain ⟨v, hok, hst, hrest⟩ := h.head
    obtain ⟨t, ht, ht'⟩ := ih hrest
    exact ⟨t, .cons hok hst ht, ht'⟩

/-- A schedule leads to one state only, whatever guards it passes. -/
theorem Path.unique {ok ok' : σ → α → Prop} {s t t' : σ} {as : List α} (h : M.Path ok s as t)
    (h' : M.Path ok' s as t') : t = t' := by
  induction h with
  | nil =>
    cases h' with
    | nil => rfl
  | cons _ hst _ ih =>
    obtain ⟨v, -, hst', hrest⟩ := h'.head
    rw [hst] at hst'
    cases hst'
    exact ih hrest

/-- The last step of a path. -/
theorem Path.last {ok : σ → α → Prop} {s u : σ} {a : α} {as : List α}
    (h : M.Path ok s (as ++ [a]) u) : ∃ t, M.Path ok s as t ∧ ok t a ∧ M.step t a = some u := by
  obtain ⟨t, hpath, hlast⟩ := h.split
  obtain ⟨v, hok, hst, hnil⟩ := hlast.head
  cases hnil
  exact ⟨t, hpath, hok, hst⟩

/-! ### A moment of a schedule -/

/-- The state before the first action of the schedule that satisfies `p`, or the last one
if none does. -/
def stateAt (M : Machine σ α) (p : α → Bool) : σ → List α → σ
  | s, [] => s
  | s, a :: as =>
    if p a then s
    else
      match M.step s a with
      | none => s
      | some t => M.stateAt p t as

theorem stateAt_cons {p : α → Bool} {s t : σ} {a : α} (h : M.step s a = some t) (as : List α) :
    M.stateAt p s (a :: as) = if p a then s else M.stateAt p t as := by
  rw [stateAt, h]

/-! ### Evaluating a schedule -/

/-- Run a schedule, refusing an action the guard refuses. -/
def exec (M : Machine σ α) (ok : σ → α → Bool) : σ → List α → Option σ
  | s, [] => some s
  | s, a :: as => if ok s a then (M.step s a).bind fun t => M.exec ok t as else none

/-- **An evaluated schedule is a guarded path.** -/
theorem path_of_exec {ok : σ → α → Bool} :
    ∀ {as : List α} {s t : σ}, M.exec ok s as = some t →
      M.Path (fun u a => ok u a = true) s as t := by
  intro as
  induction as with
  | nil =>
    intro s t h
    obtain rfl : s = t := by simpa [exec] using h
    exact .nil s
  | cons a as ih =>
    intro s t h
    simp only [exec] at h
    split at h
    · next hok =>
      obtain ⟨u, hu, hrest⟩ := Option.bind_eq_some_iff.mp h
      exact .cons hok hu (ih hrest)
    · simp at h

/-- A schedule evaluated for what `q` reads off its last state. -/
theorem exists_path_of_exec {γ : Type*} {ok : σ → α → Bool} {q : σ → γ} {s : σ} {as : List α}
    {r : γ} (h : (M.exec ok s as).map q = some r) :
    ∃ t, M.Path (fun u a => ok u a = true) s as t ∧ q t = r := by
  obtain ⟨t, ht, hq⟩ := Option.map_eq_some_iff.mp h
  exact ⟨t, path_of_exec ht, hq⟩

end Machine
end SovereignSeed
