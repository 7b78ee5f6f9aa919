import SovereignSeed.Foundation.Machine
import SovereignSeed.Foundation.Fifo
import Mathlib.Data.Fintype.Basic
import Mathlib.Data.Nat.ModEq
import Mathlib.Logic.Function.Basic

/-!
# The single-producer single-consumer ring

`include/sip_mesh/sip_spsc_ring.h`: a producer and a consumer share two
counters and a block of `capacity * element_size` bytes.  Each side owns one
counter, and acts on the copy of the other side's counter that it loaded at the
start of the call.

Every atomic load and store is one step, in sequentially consistent order, and
so is every byte of the two `memcpy` calls, which may copy the bytes in any
order.  The field `calls` is history: each call stands in it at the step that
decides it — the store that publishes the new counter, or the load that finds
the ring full or empty.

## Main definitions

* `Layout` — the capacity and the element size of a ring.
* `PushPc`, `PopPc` — where the two sides are.
* `Ring`, `initRing`, `step`, `machine` — the shared state and its steps.

## Main results

* `trans_of_step` — what a step can do, one case per access.
-/

namespace SovereignSeed
namespace Spsc

/-- The arguments of `sip_spsc_init`.  The memory block is an object of
`capacity * element_size` bytes, so a `size_t` can count them. -/
structure Layout where
  capacity : ℕ
  elementSize : ℕ
  capacity_pos : 0 < capacity
  capacity_lt : capacity < 2 ^ 64
  bytes_lt : capacity * elementSize < 2 ^ 64

/-- An element: its bytes. -/
abbrev Element (n : ℕ) := Fin n → UInt8

/-- Where byte `i` of the element with counter `pos` lies in the storage:
`(pos % capacity) * element_size + i`. -/
def Layout.address (C : Layout) (pos i : ℕ) : ℕ :=
  pos % C.capacity * C.elementSize % 2 ^ 64 + i

/-- `current_tail - current_head`, as a `size_t`. -/
def distance (tail head : ℕ) : ℕ := (tail + 2 ^ 64 - head) % 2 ^ 64

/-- The successor of a `size_t`. -/
def succSize (x : ℕ) : ℕ := (x + 1) % 2 ^ 64

/-- The producer, with the locals of `sip_spsc_push` that are live. -/
inductive PushPc (n : ℕ)
  | idle
  /-- About to load `tail`. -/
  | loadTail (data : Element n)
  /-- About to load `head`. -/
  | loadHead (data : Element n) (currentTail : ℕ)
  /-- In `memcpy`; the bytes in `done` are copied. -/
  | copy (data : Element n) (currentTail : ℕ) (done : Finset (Fin n))
  /-- Back from the call, with its result. -/
  | returned (ok : Bool)

/-- The consumer, with the locals of `sip_spsc_pop` and the buffer it fills. -/
inductive PopPc (n : ℕ)
  | idle
  /-- About to load `head`. -/
  | loadHead (outData : Element n)
  /-- About to load `tail`. -/
  | loadTail (outData : Element n) (currentHead : ℕ)
  /-- In `memcpy`; the bytes in `done` are copied. -/
  | copy (outData : Element n) (currentHead : ℕ) (done : Finset (Fin n))
  /-- Back from the call, with its result and the buffer. -/
  | returned (ok : Bool) (outData : Element n)

/-- The ring in memory, its two sides, and the history of the calls. -/
structure Ring (n : ℕ) where
  storage : ℕ → UInt8
  head : ℕ
  tail : ℕ
  producer : PushPc n
  consumer : PopPc n
  /-- The calls decided so far, in order. -/
  calls : List (Fifo.Call (Element n))

/-- `sip_spsc_init` over whatever the memory holds. -/
def initRing {n : ℕ} (memory : ℕ → UInt8) : Ring n where
  storage := memory
  head := 0
  tail := 0
  producer := .idle
  consumer := .idle
  calls := []

/-- What the scheduler lets happen next. -/
inductive Act (n : ℕ)
  /-- The producer calls `sip_spsc_push`. -/
  | push (data : Element n)
  /-- The producer's next atomic access. -/
  | produce
  /-- The producer copies byte `i` into the storage. -/
  | write (i : Fin n)
  /-- The consumer calls `sip_spsc_pop`. -/
  | pop (outData : Element n)
  /-- The consumer's next atomic access. -/
  | consume
  /-- The consumer copies byte `i` out of the storage. -/
  | read (i : Fin n)

/-- One step of `sip_spsc_push` or `sip_spsc_pop`. -/
def step (C : Layout) (s : Ring C.elementSize) : Act C.elementSize → Option (Ring C.elementSize)
  | .push d =>
    match s.producer with
    | .idle => some { s with producer := .loadTail d }
    | .returned _ => some { s with producer := .loadTail d }
    | _ => none
  | .produce =>
    match s.producer with
    | .loadTail d => some { s with producer := .loadHead d s.tail }
    | .loadHead d t =>
      if C.capacity ≤ distance t s.head then
        some { s with producer := .returned false, calls := s.calls ++ [.push d false] }
      else some { s with producer := .copy d t ∅ }
    | .copy d t done =>
      if done = Finset.univ then
        some { s with
          tail := succSize t, producer := .returned true, calls := s.calls ++ [.push d true] }
      else none
    | _ => none
  | .write i =>
    match s.producer with
    | .copy d t done =>
      some { s with
        storage := Function.update s.storage (C.address t i) (d i)
        producer := .copy d t (insert i done) }
    | _ => none
  | .pop out =>
    match s.consumer with
    | .idle => some { s with consumer := .loadHead out }
    | .returned _ _ => some { s with consumer := .loadHead out }
    | _ => none
  | .consume =>
    match s.consumer with
    | .loadHead out => some { s with consumer := .loadTail out s.head }
    | .loadTail out h =>
      if h = s.tail then
        some { s with consumer := .returned false out, calls := s.calls ++ [.pop none] }
      else some { s with consumer := .copy out h ∅ }
    | .copy out h done =>
      if done = Finset.univ then
        some { s with
          head := succSize h, consumer := .returned true out
          calls := s.calls ++ [.pop (some out)] }
      else none
    | _ => none
  | .read i =>
    match s.consumer with
    | .copy out h done =>
      some { s with
        consumer := .copy (Function.update out i (s.storage (C.address h i))) h (insert i done) }
    | _ => none

/-- The ring under every interleaving of its two sides. -/
def machine (C : Layout) : Machine (Ring C.elementSize) (Act C.elementSize) where
  init s := ∃ memory, s = initRing memory
  step := step C

/-! ### What a step can do -/

/-- The producer's steps that touch nothing but its locals. -/
inductive Pushing (C : Layout) (s : Ring C.elementSize) :
    PushPc C.elementSize → PushPc C.elementSize → Prop
  | call (d : Element C.elementSize) : Pushing C s .idle (.loadTail d)
  | again (ok : Bool) (d : Element C.elementSize) : Pushing C s (.returned ok) (.loadTail d)
  | loadTail (d : Element C.elementSize) : Pushing C s (.loadTail d) (.loadHead d s.tail)
  | room (d : Element C.elementSize) (t : ℕ) :
      distance t s.head < C.capacity → Pushing C s (.loadHead d t) (.copy d t ∅)

/-- The consumer's steps that touch nothing but its locals. -/
inductive Popping (C : Layout) (s : Ring C.elementSize) :
    PopPc C.elementSize → PopPc C.elementSize → Prop
  | call (out : Element C.elementSize) : Popping C s .idle (.loadHead out)
  | again (ok : Bool) (old out : Element C.elementSize) :
      Popping C s (.returned ok old) (.loadHead out)
  | loadHead (out : Element C.elementSize) : Popping C s (.loadHead out) (.loadTail out s.head)
  | some (out : Element C.elementSize) (h : ℕ) :
      h ≠ s.tail → Popping C s (.loadTail out h) (.copy out h ∅)
  | read (out : Element C.elementSize) (h : ℕ) (done : Finset (Fin C.elementSize))
      (i : Fin C.elementSize) :
      Popping C s (.copy out h done)
        (.copy (Function.update out i (s.storage (C.address h i))) h (insert i done))

/-- What a step can do to the ring. -/
inductive Trans (C : Layout) (s : Ring C.elementSize) : Ring C.elementSize → Prop
  | pushing (p' : PushPc C.elementSize) :
      Pushing C s s.producer p' → Trans C s { s with producer := p' }
  | write (d : Element C.elementSize) (t : ℕ) (done : Finset (Fin C.elementSize))
      (i : Fin C.elementSize) :
      s.producer = .copy d t done →
        Trans C s { s with
          storage := Function.update s.storage (C.address t i) (d i)
          producer := .copy d t (insert i done) }
  | full (d : Element C.elementSize) (t : ℕ) :
      s.producer = .loadHead d t → C.capacity ≤ distance t s.head →
        Trans C s { s with producer := .returned false, calls := s.calls ++ [.push d false] }
  | publish (d : Element C.elementSize) (t : ℕ) :
      s.producer = .copy d t Finset.univ →
        Trans C s { s with
          tail := succSize t, producer := .returned true, calls := s.calls ++ [.push d true] }
  | popping (p' : PopPc C.elementSize) :
      Popping C s s.consumer p' → Trans C s { s with consumer := p' }
  | empty (out : Element C.elementSize) (h : ℕ) :
      s.consumer = .loadTail out h → h = s.tail →
        Trans C s { s with consumer := .returned false out, calls := s.calls ++ [.pop none] }
  | release (out : Element C.elementSize) (h : ℕ) :
      s.consumer = .copy out h Finset.univ →
        Trans C s { s with
          head := succSize h, consumer := .returned true out
          calls := s.calls ++ [.pop (some out)] }

theorem trans_of_produce {C : Layout} {s s' : Ring C.elementSize}
    (h : step C s .produce = some s') : Trans C s s' := by
  simp only [step] at h
  split at h
  · next d hp => cases h; exact .pushing _ (hp ▸ .loadTail d)
  · next d t hp =>
    split at h
    · next hfull => cases h; exact .full d t hp hfull
    · next hroom => cases h; exact .pushing _ (hp ▸ .room d t (Nat.lt_of_not_le hroom))
  · next d t done hp =>
    split at h
    · next hdone =>
      subst hdone
      cases h
      exact .publish d t hp
    · cases h
  · cases h

theorem trans_of_consume {C : Layout} {s s' : Ring C.elementSize}
    (h : step C s .consume = some s') : Trans C s s' := by
  simp only [step] at h
  split at h
  · next out hp => cases h; exact .popping _ (hp ▸ .loadHead out)
  · next out hd hp =>
    split at h
    · next hempty => cases h; exact .empty out hd hp hempty
    · next hsome => cases h; exact .popping _ (hp ▸ .some out hd hsome)
  · next out hd done hp =>
    split at h
    · next hdone =>
      subst hdone
      cases h
      exact .release out hd hp
    · cases h
  · cases h

/-- **What a step can do.** -/
theorem trans_of_step {C : Layout} {s s' : Ring C.elementSize} {a : Act C.elementSize}
    (h : step C s a = some s') : Trans C s s' := by
  cases a with
  | push d =>
    simp only [step] at h
    split at h
    · next hp => cases h; exact .pushing _ (hp ▸ .call d)
    · next ok hp => cases h; exact .pushing _ (hp ▸ .again ok d)
    · cases h
  | produce => exact trans_of_produce h
  | write i =>
    simp only [step] at h
    split at h
    · next d t done hp => cases h; exact .write d t done i hp
    · cases h
  | pop out =>
    simp only [step] at h
    split at h
    · next hp => cases h; exact .popping _ (hp ▸ .call out)
    · next ok old hp => cases h; exact .popping _ (hp ▸ .again ok old out)
    · cases h
  | consume => exact trans_of_consume h
  | read i =>
    simp only [step] at h
    split at h
    · next out hd done hp => cases h; exact .popping _ (hp ▸ .read out hd done i)
    · cases h

end Spsc
end SovereignSeed
