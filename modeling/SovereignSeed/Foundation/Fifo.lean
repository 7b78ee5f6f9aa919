import Mathlib.Data.List.Basic
import Mathlib.Data.List.Infix

/-!
# Bounded queues

What a bounded first-in first-out queue is, said without a ring: a list of
items, and the calls that take effect on it.  A call that pushes finds room or
finds the queue full; a call that pops takes the oldest item or finds the queue
empty.  An implementation is correct when the history of its calls is a *run* of
this queue, with each call placed at the step at which it takes effect.

## Main definitions

* `Fifo.Call`, `Fifo.Step`, `Fifo.Run` — the calls and what they do.
* `Fifo.pushed`, `Fifo.popped` — the items a history put in and took out.

## Main results

* `Fifo.Run.popped_append` — **what came out, and then what is still inside, is
  what went in.**
-/

namespace SovereignSeed
namespace Fifo

variable {α : Type*}

/-- A call on a queue, with what it returns. -/
inductive Call (α : Type*)
  /-- A push of `x`; `ok` tells whether there was room. -/
  | push (x : α) (ok : Bool)
  /-- A pop, with the item it returned, if any. -/
  | pop (r : Option α)

/-- What a call does to a queue of at most `n` items. -/
inductive Step (n : ℕ) : List α → Call α → List α → Prop
  | push (q : List α) (x : α) : q.length < n → Step n q (.push x true) (q ++ [x])
  | full (q : List α) (x : α) : q.length = n → Step n q (.push x false) q
  | pop (x : α) (q : List α) : Step n (x :: q) (.pop (some x)) q
  | empty : Step n [] (.pop none) []

/-- `Run n cs q`: the calls `cs`, in this order, take the empty queue to `q`. -/
inductive Run (n : ℕ) : List (Call α) → List α → Prop
  | start : Run n [] []
  | call {cs : List (Call α)} {q q' : List α} {c : Call α} :
      Run n cs q → Step n q c q' → Run n (cs ++ [c]) q'

/-- The item a call put in. -/
def Call.pushed? : Call α → Option α
  | .push x true => some x
  | _ => none

/-- The item a call took out. -/
def Call.popped? : Call α → Option α
  | .pop r => r
  | _ => none

/-- The items successfully pushed, in order. -/
def pushed (cs : List (Call α)) : List α := cs.filterMap Call.pushed?

/-- The items popped, in order. -/
def popped (cs : List (Call α)) : List α := cs.filterMap Call.popped?

@[simp] theorem pushed_nil : pushed ([] : List (Call α)) = [] := rfl
@[simp] theorem popped_nil : popped ([] : List (Call α)) = [] := rfl

@[simp] theorem pushed_append (cs ds : List (Call α)) :
    pushed (cs ++ ds) = pushed cs ++ pushed ds := List.filterMap_append

@[simp] theorem popped_append (cs ds : List (Call α)) :
    popped (cs ++ ds) = popped cs ++ popped ds := List.filterMap_append

@[simp] theorem pushed_push (x : α) : pushed [Call.push x true] = [x] := rfl
@[simp] theorem pushed_full (x : α) : pushed [Call.push x false] = [] := rfl
@[simp] theorem pushed_pop (r : Option α) : pushed [Call.pop r] = [] := rfl
@[simp] theorem popped_push (x : α) (ok : Bool) : popped [Call.push x ok] = [] := rfl
@[simp] theorem popped_pop (x : α) : popped [Call.pop (some x)] = [x] := rfl
@[simp] theorem popped_empty : popped [Call.pop (none : Option α)] = [] := rfl

/-- **What came out, and then what is still inside, is what went in.** -/
theorem Run.popped_append {n : ℕ} {cs : List (Call α)} {q : List α} (h : Run n cs q) :
    popped cs ++ q = pushed cs := by
  induction h with
  | start => rfl
  | call _ hstep ih =>
    cases hstep with
    | push q x _ => simp [← ih]
    | full q x _ => simpa using ih
    | pop x q => simpa using ih
    | empty => simpa using ih

/-- The items taken out are a prefix of the items put in. -/
theorem Run.popped_prefix {n : ℕ} {cs : List (Call α)} {q : List α} (h : Run n cs q) :
    popped cs <+: pushed cs :=
  ⟨q, h.popped_append⟩

/-- The queue never holds more than its bound. -/
theorem Run.length_le {n : ℕ} {cs : List (Call α)} {q : List α} (h : Run n cs q) :
    q.length ≤ n := by
  induction h with
  | start => exact Nat.zero_le n
  | call _ hstep ih =>
    cases hstep with
    | push q x hlt =>
      rw [List.length_append, List.length_singleton]
      omega
    | full q x _ => exact ih
    | pop x q =>
      rw [List.length_cons] at ih
      omega
    | empty => exact ih

/-- How many items are inside. -/
theorem Run.length_eq {n : ℕ} {cs : List (Call α)} {q : List α} (h : Run n cs q) :
    (popped cs).length + q.length = (pushed cs).length := by
  rw [← h.popped_append, List.length_append]

end Fifo

end SovereignSeed
