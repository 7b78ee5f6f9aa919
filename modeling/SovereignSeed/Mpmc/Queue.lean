import SovereignSeed.Foundation.Machine
import Mathlib.Data.Fintype.Basic
import Mathlib.Data.Nat.Bitwise
import Mathlib.Logic.Function.Basic

/-!
# The multi-producer multi-consumer queue

The ring buffer of `src/sovereign_master.c`, which `audit_engine.c`,
`shadow_arbitrage.c`, `core128_bench.c` and `massive_bench.c` repeat word for
word over their own payloads.  Each cell carries a sequence number beside its
payload; a producer claims a *ticket* by a compare-and-swap on `tail`, a
consumer by one on `head`, and the sequence number of the ticket's cell tells
which of the two may touch the payload.

Every atomic access of the C code is one step of the machine, in sequentially
consistent order; the payload is copied a word at a time, in any order.  A weak
compare-and-swap may fail although the values agree.  The fields `calls`,
`enqs`, `deqs` and `rets` are history: no step reads them.

## Main definitions

* `QueueSize` — a power of two that is at least two and fits a `size_t`.
* `Pc` — where a thread is inside `mpmc_enqueue` or `mpmc_dequeue`.
* `Queue`, `initMasterQueue` — the shared state and its initialisation.
* `step`, `machine` — the atomic steps.

## Main results

* `trans_of_step` — what a step can do, one case per atomic access.
-/

namespace SovereignSeed
namespace Mpmc

/-- `QUEUE_SIZE`: a power of two, at least two, that a 64-bit `size_t` holds. -/
structure QueueSize where
  /-- The binary logarithm of the size. -/
  log : ℕ
  one_le : 1 ≤ log
  lt_word : log < 64

/-- The number of slots. -/
def QueueSize.size (Q : QueueSize) : ℕ := 2 ^ Q.log

/-- `pos & QUEUE_MASK`. -/
def QueueSize.slot (Q : QueueSize) (pos : ℕ) : ℕ := pos &&& (Q.size - 1)

/-- `(intptr_t)x`: the signed reading of a 64-bit word. -/
def toIntptr (x : ℕ) : ℤ := Int.bmod x (2 ^ 64)

/-- `intptr_t dif = (intptr_t)seq - (intptr_t)pos`. -/
def dif (seq pos : ℕ) : ℤ := Int.bmod (toIntptr seq - toIntptr pos) (2 ^ 64)

/-- The successor of a `size_t`. -/
def succWord (x : ℕ) : ℕ := (x + 1) % 2 ^ 64

variable {Tid ι α : Type*}

/-- A payload: one value for each of its words. -/
abbrev Payload (ι α : Type*) := ι → α

/-- The control point of a thread, with the locals that are live there. -/
inductive Pc (ι α : Type*)
  /-- Outside the queue, or back from `mpmc_enqueue`, which always returns 1. -/
  | idle
  /-- Back from `mpmc_dequeue`, with its return value and the caller's buffer. -/
  | dequeued (ret : Bool) (buf : Payload ι α)
  /-- About to load `tail`. -/
  | enqLoadTail (data : Payload ι α)
  /-- In `sched_yield` after a negative `dif`. -/
  | enqYield (data : Payload ι α)
  /-- About to load the sequence number of the cell of `pos`. -/
  | enqLoadSeq (data : Payload ι α) (pos : ℕ)
  /-- About to compare-and-swap `tail` from `pos`. -/
  | enqCas (data : Payload ι α) (pos : ℕ)
  /-- Holding ticket `pos`; the words in `done` are copied. -/
  | enqCopy (data : Payload ι α) (pos : ℕ) (done : Finset ι)
  /-- About to load `head`. -/
  | deqLoadHead (buf : Payload ι α)
  /-- About to load the sequence number of the cell of `pos`. -/
  | deqLoadSeq (buf : Payload ι α) (pos : ℕ)
  /-- About to compare-and-swap `head` from `pos`. -/
  | deqCas (buf : Payload ι α) (pos : ℕ)
  /-- Holding ticket `pos`; the words in `done` are copied. -/
  | deqCopy (buf : Payload ι α) (pos : ℕ) (done : Finset ι)

/-- A thread may call into the queue when it is not already inside. -/
def Pc.ready : Pc ι α → Bool
  | .idle => true
  | .dequeued _ _ => true
  | _ => false

/-- The queue in memory, the control points of its threads, and the history. -/
structure Queue (Tid ι α : Type*) where
  /-- `items[i].sequence`. -/
  seq : ℕ → ℕ
  /-- `items[i].data`. -/
  data : ℕ → Payload ι α
  head : ℕ
  tail : ℕ
  pc : Tid → Pc ι α
  /-- The calls of `mpmc_enqueue`, in order. -/
  calls : List (Tid × Payload ι α)
  /-- The successful swaps of `tail`: ticket, thread and payload, in order. -/
  enqs : List (ℕ × Tid × Payload ι α)
  /-- The successful swaps of `head`: ticket and thread, in order. -/
  deqs : List (ℕ × Tid)
  /-- The dequeues that returned 1: ticket, thread and payload handed over. -/
  rets : List (ℕ × Tid × Payload ι α)

/-- `init_master_queue` over whatever the payload memory holds, before any
thread runs. -/
def initMasterQueue (mem : ℕ → Payload ι α) : Queue Tid ι α where
  seq := fun i => i
  data := mem
  head := 0
  tail := 0
  pc := fun _ => .idle
  calls := []
  enqs := []
  deqs := []
  rets := []

/-- What the scheduler lets a thread do next. -/
inductive Move (ι α : Type*)
  /-- Call `mpmc_enqueue` with a payload. -/
  | callEnqueue (data : Payload ι α)
  /-- Call `mpmc_dequeue` with a buffer. -/
  | callDequeue (buf : Payload ι α)
  /-- Take the next atomic step. -/
  | go
  /-- Let the weak compare-and-swap fail spuriously. -/
  | spurious
  /-- Copy word `i` of the payload. -/
  | copy (i : ι)

/-- A move inside a queue call, as opposed to the call itself. -/
def Move.inner : Move ι α → Bool
  | .callEnqueue _ => false
  | .callDequeue _ => false
  | _ => true

variable [DecidableEq Tid] [Fintype ι] [DecidableEq ι]

/-- Move thread `t` to the control point `p`. -/
def Queue.goto (s : Queue Tid ι α) (t : Tid) (p : Pc ι α) : Queue Tid ι α :=
  { s with pc := Function.update s.pc t p }

section Goto

variable (s : Queue Tid ι α) (t : Tid) (p : Pc ι α)

omit [Fintype ι] [DecidableEq ι]

@[simp] theorem Queue.goto_seq : (s.goto t p).seq = s.seq := rfl
@[simp] theorem Queue.goto_data : (s.goto t p).data = s.data := rfl
@[simp] theorem Queue.goto_head : (s.goto t p).head = s.head := rfl
@[simp] theorem Queue.goto_tail : (s.goto t p).tail = s.tail := rfl
@[simp] theorem Queue.goto_pc : (s.goto t p).pc = Function.update s.pc t p := rfl
@[simp] theorem Queue.goto_calls : (s.goto t p).calls = s.calls := rfl
@[simp] theorem Queue.goto_enqs : (s.goto t p).enqs = s.enqs := rfl
@[simp] theorem Queue.goto_deqs : (s.goto t p).deqs = s.deqs := rfl
@[simp] theorem Queue.goto_rets : (s.goto t p).rets = s.rets := rfl

end Goto

/-- One atomic step of `mpmc_enqueue` or `mpmc_dequeue` by thread `t`. -/
def step (Q : QueueSize) (s : Queue Tid ι α) : Tid × Move ι α → Option (Queue Tid ι α)
  | (t, .callEnqueue d) =>
    if (s.pc t).ready then
      some { s.goto t (.enqLoadTail d) with calls := s.calls ++ [(t, d)] }
    else none
  | (t, .callDequeue buf) => if (s.pc t).ready then some (s.goto t (.deqLoadHead buf)) else none
  | (t, .go) =>
    match s.pc t with
    | .idle => none
    | .dequeued _ _ => none
    | .enqLoadTail d => some (s.goto t (.enqLoadSeq d s.tail))
    | .enqYield d => some (s.goto t (.enqLoadTail d))
    | .enqLoadSeq d pos =>
      if dif (s.seq (Q.slot pos)) pos = 0 then some (s.goto t (.enqCas d pos))
      else if dif (s.seq (Q.slot pos)) pos < 0 then some (s.goto t (.enqYield d))
      else some (s.goto t (.enqLoadTail d))
    | .enqCas d pos =>
      if s.tail = pos then
        some { s.goto t (.enqCopy d pos ∅) with
          tail := succWord pos, enqs := s.enqs ++ [(pos, t, d)] }
      -- a failed swap loads the current value into `pos`
      else some (s.goto t (.enqLoadSeq d s.tail))
    | .enqCopy _ pos done =>
      if done = Finset.univ then
        some { s.goto t .idle with seq := Function.update s.seq (Q.slot pos) (succWord pos) }
      else none
    | .deqLoadHead buf => some (s.goto t (.deqLoadSeq buf s.head))
    | .deqLoadSeq buf pos =>
      if dif (s.seq (Q.slot pos)) (succWord pos) = 0 then some (s.goto t (.deqCas buf pos))
      else if dif (s.seq (Q.slot pos)) (succWord pos) < 0 then
        some (s.goto t (.dequeued false buf))
      else some (s.goto t (.deqLoadHead buf))
    | .deqCas buf pos =>
      if s.head = pos then
        some { s.goto t (.deqCopy buf pos ∅) with
          head := succWord pos, deqs := s.deqs ++ [(pos, t)] }
      else some (s.goto t (.deqLoadSeq buf s.head))
    | .deqCopy buf pos done =>
      if done = Finset.univ then
        some { s.goto t (.dequeued true buf) with
          seq := Function.update s.seq (Q.slot pos) ((pos + Q.size) % 2 ^ 64)
          rets := s.rets ++ [(pos, t, buf)] }
      else none
  | (t, .spurious) =>
    match s.pc t with
    | .enqCas d _ => some (s.goto t (.enqLoadSeq d s.tail))
    | .deqCas buf _ => some (s.goto t (.deqLoadSeq buf s.head))
    | _ => none
  | (t, .copy i) =>
    match s.pc t with
    | .enqCopy d pos done =>
      some { s.goto t (.enqCopy d pos (insert i done)) with
        data := Function.update s.data (Q.slot pos)
          (Function.update (s.data (Q.slot pos)) i (d i)) }
    | .deqCopy buf pos done =>
      some (s.goto t (.deqCopy (Function.update buf i (s.data (Q.slot pos) i)) pos
        (insert i done)))
    | _ => none

/-- The queue under every interleaving of its threads. -/
def machine (Q : QueueSize) : Machine (Queue Tid ι α) (Tid × Move ι α) where
  init s := ∃ mem, s = initMasterQueue mem
  step := step Q

/-! ### What a step can do -/

/-- A step that only moves thread `t` to another control point, with what it
has learnt on the way. -/
inductive Local (Q : QueueSize) (s : Queue Tid ι α) : Pc ι α → Pc ι α → Prop
  | callDequeue {p : Pc ι α} (buf : Payload ι α) :
      p.ready = true → Local Q s p (.deqLoadHead buf)
  | loadTail (d : Payload ι α) : Local Q s (.enqLoadTail d) (.enqLoadSeq d s.tail)
  | yield (d : Payload ι α) : Local Q s (.enqYield d) (.enqLoadTail d)
  | enqSeqEq (d : Payload ι α) (pos : ℕ) :
      dif (s.seq (Q.slot pos)) pos = 0 → Local Q s (.enqLoadSeq d pos) (.enqCas d pos)
  | enqSeqLt (d : Payload ι α) (pos : ℕ) :
      dif (s.seq (Q.slot pos)) pos < 0 → Local Q s (.enqLoadSeq d pos) (.enqYield d)
  | enqSeqGt (d : Payload ι α) (pos : ℕ) :
      0 < dif (s.seq (Q.slot pos)) pos → Local Q s (.enqLoadSeq d pos) (.enqLoadTail d)
  | enqCasFail (d : Payload ι α) (pos : ℕ) : Local Q s (.enqCas d pos) (.enqLoadSeq d s.tail)
  | loadHead (buf : Payload ι α) : Local Q s (.deqLoadHead buf) (.deqLoadSeq buf s.head)
  | deqSeqEq (buf : Payload ι α) (pos : ℕ) :
      dif (s.seq (Q.slot pos)) (succWord pos) = 0 →
        Local Q s (.deqLoadSeq buf pos) (.deqCas buf pos)
  | deqSeqLt (buf : Payload ι α) (pos : ℕ) :
      dif (s.seq (Q.slot pos)) (succWord pos) < 0 →
        Local Q s (.deqLoadSeq buf pos) (.dequeued false buf)
  | deqSeqGt (buf : Payload ι α) (pos : ℕ) :
      0 < dif (s.seq (Q.slot pos)) (succWord pos) →
        Local Q s (.deqLoadSeq buf pos) (.deqLoadHead buf)
  | deqCasFail (buf : Payload ι α) (pos : ℕ) :
      Local Q s (.deqCas buf pos) (.deqLoadSeq buf s.head)
  | read (buf : Payload ι α) (pos : ℕ) (done : Finset ι) (i : ι) :
      Local Q s (.deqCopy buf pos done)
        (.deqCopy (Function.update buf i (s.data (Q.slot pos) i)) pos (insert i done))

/-- The steps of the queue: one local kind and six that touch shared memory or
the history. -/
inductive Trans (Q : QueueSize) (s : Queue Tid ι α) (t : Tid) : Queue Tid ι α → Prop
  | move {p : Pc ι α} : Local Q s (s.pc t) p → Trans Q s t (s.goto t p)
  | callEnqueue (d : Payload ι α) : (s.pc t).ready = true →
      Trans Q s t { s.goto t (.enqLoadTail d) with calls := s.calls ++ [(t, d)] }
  | claimEnqueue (d : Payload ι α) (pos : ℕ) : s.pc t = .enqCas d pos → s.tail = pos →
      Trans Q s t { s.goto t (.enqCopy d pos ∅) with
        tail := succWord pos, enqs := s.enqs ++ [(pos, t, d)] }
  | write (d : Payload ι α) (pos : ℕ) (done : Finset ι) (i : ι) : s.pc t = .enqCopy d pos done →
      Trans Q s t { s.goto t (.enqCopy d pos (insert i done)) with
        data := Function.update s.data (Q.slot pos)
          (Function.update (s.data (Q.slot pos)) i (d i)) }
  | publish (d : Payload ι α) (pos : ℕ) : s.pc t = .enqCopy d pos Finset.univ →
      Trans Q s t { s.goto t .idle with
        seq := Function.update s.seq (Q.slot pos) (succWord pos) }
  | claimDequeue (buf : Payload ι α) (pos : ℕ) : s.pc t = .deqCas buf pos → s.head = pos →
      Trans Q s t { s.goto t (.deqCopy buf pos ∅) with
        head := succWord pos, deqs := s.deqs ++ [(pos, t)] }
  | release (buf : Payload ι α) (pos : ℕ) : s.pc t = .deqCopy buf pos Finset.univ →
      Trans Q s t { s.goto t (.dequeued true buf) with
        seq := Function.update s.seq (Q.slot pos) ((pos + Q.size) % 2 ^ 64)
        rets := s.rets ++ [(pos, t, buf)] }

/-- **Every step of the machine is one of the cases of `Trans`.** -/
theorem trans_of_step {Q : QueueSize} {s s' : Queue Tid ι α} {t : Tid} {m : Move ι α}
    (h : step Q s (t, m) = some s') : Trans Q s t s' := by
  cases m with
  | callEnqueue d =>
    simp only [step] at h
    split at h
    · next hr => cases h; exact .callEnqueue d hr
    · cases h
  | callDequeue buf =>
    simp only [step] at h
    split at h
    · next hr => cases h; exact .move (.callDequeue buf hr)
    · cases h
  | spurious =>
    simp only [step] at h
    split at h
    · next d pos hp => cases h; exact .move (hp ▸ .enqCasFail d pos)
    · next buf pos hp => cases h; exact .move (hp ▸ .deqCasFail buf pos)
    · cases h
  | copy i =>
    simp only [step] at h
    split at h
    · next d pos done hp => cases h; exact .write d pos done i hp
    · next buf pos done hp => cases h; exact .move (hp ▸ .read buf pos done i)
    · cases h
  | go =>
    simp only [step] at h
    split at h
    · cases h
    · cases h
    · next d hp => cases h; exact .move (hp ▸ .loadTail d)
    · next d hp => cases h; exact .move (hp ▸ .yield d)
    · next d pos hp =>
      split at h
      · next h0 => cases h; exact .move (hp ▸ .enqSeqEq d pos h0)
      · split at h
        · next hlt => cases h; exact .move (hp ▸ .enqSeqLt d pos hlt)
        · cases h; exact .move (hp ▸ .enqSeqGt d pos (by omega))
    · next d pos hp =>
      split at h
      · next ht => cases h; exact .claimEnqueue d pos hp ht
      · cases h; exact .move (hp ▸ .enqCasFail d pos)
    · next d pos done hp =>
      split at h
      · next hd => cases h; exact .publish d pos (hd ▸ hp)
      · cases h
    · next buf hp => cases h; exact .move (hp ▸ .loadHead buf)
    · next buf pos hp =>
      split at h
      · next h0 => cases h; exact .move (hp ▸ .deqSeqEq buf pos h0)
      · split at h
        · next hlt => cases h; exact .move (hp ▸ .deqSeqLt buf pos hlt)
        · cases h; exact .move (hp ▸ .deqSeqGt buf pos (by omega))
    · next buf pos hp =>
      split at h
      · next hh => cases h; exact .claimDequeue buf pos hp hh
      · cases h; exact .move (hp ▸ .deqCasFail buf pos)
    · next buf pos done hp =>
      split at h
      · next hd => cases h; exact .release buf pos (hd ▸ hp)
      · cases h

end Mpmc
end SovereignSeed
