import SovereignSeed.Foundation.Machine
import Mathlib.Logic.Function.Basic

/-!
# Atomic objects

An object that threads share is *atomic* if each call of it takes effect in one step,
somewhere between the call and its return.  A run of such an object has two histories:
the order in which the calls took effect, and the calls and returns that can be seen from
outside.  A machine whose steps make calls and returns *implements* the object if its
histories are histories of the object, which a simulation establishes step by step.

An effect may look at the other calls in progress, so that an object can say, for
instance, that a call fails only beside another one.

## Main definitions

* `Object`, `Object.Run` — an object, and its runs with their two histories.
* `Timely` — a linear order holds what has returned, and nothing that has not been called.
* `Event`, `trace` — what can be seen of a machine.
* `Linearized` — the effects in a run of a machine, at each moment of it.

## Main results

* `Object.Run.timely` — **a call takes effect after it is made and before it returns.**
* `Object.linearized_of_simulation` — **a machine that simulates an object implements it.**
-/

namespace SovereignSeed
namespace Atomic

variable {Tid V Op Res : Type*}

/-- Where a thread is with its call. -/
inductive Phase (Op Res : Type*)
  | outside
  /-- The call has not taken effect yet. -/
  | called (op : Op)
  /-- The call has taken effect, and has not returned. -/
  | done (op : Op) (res : Res)

/-- A call or a return. -/
inductive Event (Tid Op Res : Type*)
  | call (t : Tid) (op : Op)
  | ret (t : Tid) (res : Res)

/-- An object: its first value, and what a call can do to it beside the calls in
progress. -/
structure Object (Tid V Op Res : Type*) where
  start : V
  effect : (Tid → Phase Op Res) → Tid → V → Op → Res → V → Prop

/-- The calls that took effect, in order. -/
abbrev History (Tid Op Res : Type*) := List (Tid × Op × Res)

section Run

variable [DecidableEq Tid]

/-- `O.Run L es v phase`: a run in which the calls `L` took effect, in this order, and the
calls and returns `es` were seen. -/
inductive Object.Run (O : Object Tid V Op Res) :
    History Tid Op Res → List (Event Tid Op Res) → V → (Tid → Phase Op Res) → Prop
  | start : Run O [] [] O.start fun _ => .outside
  | call {L es v phase} (t : Tid) (op : Op) :
      Run O L es v phase → phase t = .outside →
        Run O L (es ++ [.call t op]) v (Function.update phase t (.called op))
  | effect {L es v phase v'} (t : Tid) (op : Op) (res : Res) :
      Run O L es v phase → phase t = .called op → O.effect phase t v op res v' →
        Run O (L ++ [(t, op, res)]) es v' (Function.update phase t (.done op res))
  | ret {L es v phase} (t : Tid) (op : Op) (res : Res) :
      Run O L es v phase → phase t = .done op res →
        Run O L (es ++ [.ret t res]) v (Function.update phase t .outside)

/-- The calls of a thread that took effect. -/
def effectsOf (t : Tid) (L : History Tid Op Res) : List (Op × Res) :=
  (L.filter fun e => e.1 = t).map Prod.snd

/-- What a thread has called. -/
def callsOf (t : Tid) (es : List (Event Tid Op Res)) : List Op :=
  es.filterMap fun
    | .call u op => if u = t then some op else none
    | .ret _ _ => none

/-- What a thread was returned. -/
def returnsOf (t : Tid) (es : List (Event Tid Op Res)) : List Res :=
  es.filterMap fun
    | .call _ _ => none
    | .ret u res => if u = t then some res else none

section Threads

variable (t u : Tid) (op : Op) (res : Res) (es : List (Event Tid Op Res))

theorem callsOf_call :
    callsOf t (es ++ [.call u op]) = callsOf t es ++ if u = t then [op] else [] := by
  split <;> simp [callsOf, *]

theorem returnsOf_ret :
    returnsOf t (es ++ [.ret u res]) = returnsOf t es ++ if u = t then [res] else [] := by
  split <;> simp [returnsOf, *]

@[simp] theorem callsOf_ret : callsOf t (es ++ [.ret u res]) = callsOf t es := by
  simp [callsOf]

@[simp] theorem returnsOf_call : returnsOf t (es ++ [.call u op]) = returnsOf t es := by
  simp [returnsOf]

theorem effectsOf_append (L : History Tid Op Res) :
    effectsOf t (L ++ [(u, op, res)]) = effectsOf t L ++ if u = t then [(op, res)] else [] := by
  split <;> simp [effectsOf, *]

end Threads

/-- What has returned is in the order, and what is in the order has been called. -/
def Timely (L : History Tid Op Res) (es : List (Event Tid Op Res)) : Prop :=
  ∀ t, returnsOf t es <+: (effectsOf t L).map Prod.snd ∧
    (effectsOf t L).map Prod.fst <+: callsOf t es

/-- A call that has not taken effect. -/
def Phase.pending : Phase Op Res → List Op
  | .called op => [op]
  | _ => []

/-- A result that has not been returned. -/
def Phase.owed : Phase Op Res → List Res
  | .done _ res => [res]
  | _ => []

namespace Object.Run

variable {O : Object Tid V Op Res} {L : History Tid Op Res} {es : List (Event Tid Op Res)}
  {v : V} {phase : Tid → Phase Op Res}

/-- The effects of a thread are its calls and its returns, but for the call it is in. -/
theorem threads (h : O.Run L es v phase) (t : Tid) :
    (effectsOf t L).map Prod.fst ++ (phase t).pending = callsOf t es ∧
      returnsOf t es ++ (phase t).owed = (effectsOf t L).map Prod.snd := by
  induction h with
  | start => exact ⟨rfl, rfl⟩
  | @call L es v phase u op _ hphase ih =>
    rw [callsOf_call, returnsOf_call]
    by_cases hu : u = t
    · subst hu
      rw [hphase] at ih
      rw [Function.update_self, if_pos rfl, ← ih.1, ← ih.2]
      simp [Phase.pending, Phase.owed]
    · rw [Function.update_of_ne (Ne.symm hu), if_neg hu, List.append_nil]
      exact ih
  | @effect L es v phase v' u op res _ hphase _ ih =>
    rw [effectsOf_append]
    by_cases hu : u = t
    · subst hu
      rw [hphase] at ih
      rw [Function.update_self, if_pos rfl, ← ih.1, List.map_append, List.map_append, ← ih.2]
      simp [Phase.pending, Phase.owed]
    · rw [Function.update_of_ne (Ne.symm hu), if_neg hu, List.append_nil]
      exact ih
  | @ret L es v phase u op res _ hphase ih =>
    rw [callsOf_ret, returnsOf_ret]
    by_cases hu : u = t
    · subst hu
      rw [hphase] at ih
      rw [Function.update_self, if_pos rfl, ← ih.1, ← ih.2]
      simp [Phase.pending, Phase.owed]
    · rw [Function.update_of_ne (Ne.symm hu), if_neg hu, List.append_nil]
      exact ih

/-- **A call takes effect after it is made and before it returns.** -/
theorem timely (h : O.Run L es v phase) : Timely L es := by
  intro t
  obtain ⟨hcalls, hreturns⟩ := h.threads t
  exact ⟨⟨_, hreturns⟩, ⟨_, hcalls⟩⟩

end Object.Run

/-! ### Machines that implement an object -/

variable {σ α : Type*} {M : Machine σ α}

/-- What is seen of a schedule, where a step shows the events `see`. -/
def trace (M : Machine σ α) (see : σ → α → σ → List (Event Tid Op Res)) :
    σ → List α → List (Event Tid Op Res)
  | _, [] => []
  | s, a :: as =>
    match M.step s a with
    | none => []
    | some t => see s a t ++ trace M see t as

omit [DecidableEq Tid] in
theorem trace_cons {see : σ → α → σ → List (Event Tid Op Res)} {s t : σ} {a : α}
    (h : M.step s a = some t) (as : List α) :
    trace M see s (a :: as) = see s a t ++ trace M see t as := by
  rw [trace, h]

section Simulation

variable {O : Object Tid V Op Res} {ok : σ → α → Prop} {R : σ → V → (Tid → Phase Op Res) → Prop}
  {see : σ → α → σ → List (Event Tid Op Res)} {s t : σ} {as : List α}

/-- The calls that take effect in a run of a machine, in order: at each moment of the run
those up to then. -/
def Linearized (O : Object Tid V Op Res) (M : Machine σ α)
    (see : σ → α → σ → List (Event Tid Op Res)) (s : σ) (as : List α)
    (L : History Tid Op Res) : Prop :=
  ∀ as₁ as₂, as = as₁ ++ as₂ → ∃ L₁ v phase, L₁ <+: L ∧ O.Run L₁ (trace M see s as₁) v phase

/-- A machine that goes on from a run of the object. -/
theorem Object.Run.extend
    (hstep : ∀ L es v phase s a s', O.Run L es v phase → R s v phase → ok s a →
      M.step s a = some s' → ∃ L' v' phase',
        O.Run (L ++ L') (es ++ see s a s') v' phase' ∧ R s' v' phase')
    {L : History Tid Op Res} {es : List (Event Tid Op Res)} {v : V} {phase : Tid → Phase Op Res}
    (hrun : O.Run L es v phase) (hR : R s v phase) (h : M.Path ok s as t) :
    ∃ L' v' phase', O.Run (L ++ L') (es ++ trace M see s as) v' phase' ∧ R t v' phase' ∧
      ∀ as₁ as₂, as = as₁ ++ as₂ → ∃ L₁ v₁ phase₁, L₁ <+: L' ∧
        O.Run (L ++ L₁) (es ++ trace M see s as₁) v₁ phase₁ := by
  induction h generalizing L es v phase with
  | nil s =>
    refine ⟨[], v, phase, by simpa [trace] using hrun, hR, fun as₁ as₂ heq => ?_⟩
    obtain ⟨rfl, rfl⟩ := List.nil_eq_append_iff.mp heq
    exact ⟨[], v, phase, List.prefix_rfl, by simpa [trace] using hrun⟩
  | @cons s u t a as hok hst _ ih =>
    obtain ⟨L', v', phase', hrun', hR'⟩ := hstep L es v phase s a u hrun hR hok hst
    obtain ⟨L'', v'', phase'', hrun'', hR'', hcut⟩ := ih hrun' hR'
    refine ⟨L' ++ L'', v'', phase'', ?_, hR'', fun as₁ as₂ heq => ?_⟩
    · rw [trace_cons hst, ← List.append_assoc, ← List.append_assoc]
      exact hrun''
    · rcases List.cons_eq_append_iff.mp heq with ⟨rfl, -⟩ | ⟨as₁', rfl, heq'⟩
      · exact ⟨[], v, phase, List.nil_prefix, by simpa [trace] using hrun⟩
      · obtain ⟨L₁, v₁, phase₁, hprefix, hrun₁⟩ := hcut as₁' as₂ heq'
        refine ⟨L' ++ L₁, v₁, phase₁, (List.prefix_append_right_inj L').mpr hprefix, ?_⟩
        rw [trace_cons hst, ← List.append_assoc, ← List.append_assoc]
        exact hrun₁

/-- **A machine that simulates an object implements it.** -/
theorem Object.linearized_of_simulation (h0 : R s O.start fun _ => .outside)
    (hstep : ∀ L es v phase s a s', O.Run L es v phase → R s v phase → ok s a →
      M.step s a = some s' → ∃ L' v' phase',
        O.Run (L ++ L') (es ++ see s a s') v' phase' ∧ R s' v' phase')
    (h : M.Path ok s as t) :
    ∃ L v phase, O.Run L (trace M see s as) v phase ∧ R t v phase ∧ Linearized O M see s as L := by
  obtain ⟨L, v, phase, hrun, hR, hcut⟩ := Object.Run.extend hstep .start h0 h
  exact ⟨L, v, phase, hrun, hR, fun as₁ as₂ heq => hcut as₁ as₂ heq⟩

end Simulation

end Run
end Atomic
end SovereignSeed
