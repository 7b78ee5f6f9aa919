import SovereignSeed.Mesh.SpscRefinement

/-!
# The ring stays inside its block

`sip_spsc_init` takes any capacity, zero included, and a call of
`include/sip_mesh/sip_spsc_ring.h` divides by it as soon as its comparison of two
counters has let it pass.  Here the calls run over a block that watches them: a modulus
of zero, a product that a `size_t` does not hold and a byte beyond the end of the block
are faults, and a fault is the last step of a run.

A ring with room for something is that of `Mesh.SpscRing`, from every state.  In a ring
of capacity zero the counters never move, so that no call gets past its comparison.

## Main definitions

* `Block` — the arguments of `sip_spsc_init`, a capacity of zero among them.
* `Fault`, `Block.offset`, `Block.address` — the arithmetic of the calls, watched.
* `Block.step`, `Block.machine` — the steps of `Mesh.SpscRing`, watched.
* `Block.Inside` — all bytes of the element of a counter lie in the block.

## Main results

* `Block.step_eq` — with a capacity above zero nothing is ever caught.
* `Closed.step` — with capacity zero no call passes its comparison.
* `ring_in_bounds` — **no run has a fault, and every copy stays inside the block.**
-/

namespace SovereignSeed
namespace Spsc

open Fifo (pushed)

/-! ### A watched block -/

/-- The arguments of `sip_spsc_init`, which asks nothing of them; the block of memory is
an object, so a `size_t` can count its bytes. -/
structure Block where
  capacity : ℕ
  elementSize : ℕ
  capacity_lt : capacity < 2 ^ 64
  bytes_lt : capacity * elementSize < 2 ^ 64

/-- What must not happen. -/
inductive Fault
  /-- `% capacity` with capacity zero. -/
  | zeroModulus
  /-- `index * element_size` beyond a `size_t`. -/
  | overflow
  /-- A byte outside of the block. -/
  | outOfBounds

namespace Block

/-- `index * element_size` with `index = pos % capacity`. -/
def offset (B : Block) (pos : ℕ) : Except Fault ℕ :=
  if B.capacity = 0 then .error .zeroModulus
  else if 2 ^ 64 ≤ pos % B.capacity * B.elementSize then .error .overflow
  else .ok (pos % B.capacity * B.elementSize)

/-- Where `memcpy` finds byte `i` behind an offset. -/
def byteAt (B : Block) (offset i : ℕ) : Except Fault ℕ :=
  if offset + i < B.capacity * B.elementSize then .ok (offset + i) else .error .outOfBounds

/-- Where byte `i` of the element with counter `pos` lies. -/
def address (B : Block) (pos i : ℕ) : Except Fault ℕ := do
  let offset ← B.offset pos
  B.byteAt offset i

/-- One step of `sip_spsc_push` or `sip_spsc_pop`, or the fault it runs into. -/
def step (B : Block) (s : Ring B.elementSize) :
    Act B.elementSize → Option (Except Fault (Ring B.elementSize))
  | .push d =>
    match s.producer with
    | .idle => some (.ok { s with producer := .loadTail d })
    | .returned _ => some (.ok { s with producer := .loadTail d })
    | _ => none
  | .produce =>
    match s.producer with
    | .loadTail d => some (.ok { s with producer := .loadHead d s.tail })
    | .loadHead d t =>
      if B.capacity ≤ distance t s.head then
        some (.ok { s with producer := .returned false, calls := s.calls ++ [.push d false] })
      else some ((B.offset t).map fun _ => { s with producer := .copy d t ∅ })
    | .copy d t done =>
      if done = Finset.univ then
        some (.ok { s with
          tail := succSize t, producer := .returned true, calls := s.calls ++ [.push d true] })
      else none
    | _ => none
  | .write i =>
    match s.producer with
    | .copy d t done =>
      some ((B.address t i).map fun addr =>
        { s with
          storage := Function.update s.storage addr (d i)
          producer := .copy d t (insert i done) })
    | _ => none
  | .pop out =>
    match s.consumer with
    | .idle => some (.ok { s with consumer := .loadHead out })
    | .returned _ _ => some (.ok { s with consumer := .loadHead out })
    | _ => none
  | .consume =>
    match s.consumer with
    | .loadHead out => some (.ok { s with consumer := .loadTail out s.head })
    | .loadTail out h =>
      if h = s.tail then
        some (.ok { s with consumer := .returned false out, calls := s.calls ++ [.pop none] })
      else some ((B.offset h).map fun _ => { s with consumer := .copy out h ∅ })
    | .copy out h done =>
      if done = Finset.univ then
        some (.ok { s with
          head := succSize h, consumer := .returned true out
          calls := s.calls ++ [.pop (some out)] })
      else none
    | _ => none
  | .read i =>
    match s.consumer with
    | .copy out h done =>
      some ((B.address h i).map fun addr =>
        { s with consumer := .copy (Function.update out i (s.storage addr)) h (insert i done) })
    | _ => none

/-- Every byte of the element with counter `pos` lies in the block, and the offset of the
element in a `size_t`. -/
def Inside (B : Block) (pos : ℕ) : Prop :=
  0 < B.capacity ∧ pos % B.capacity * B.elementSize < 2 ^ 64 ∧
    ∀ i < B.elementSize, pos % B.capacity * B.elementSize + i < B.capacity * B.elementSize

end Block

/-- The counter of the element that a push is copying into the storage. -/
def PushPc.copying {n : ℕ} : PushPc n → Option ℕ
  | .copy _ t _ => some t
  | _ => none

/-- The counter of the element that a pop is copying out of the storage. -/
def PopPc.copying {n : ℕ} : PopPc n → Option ℕ
  | .copy _ h _ => some h
  | _ => none

/-- The ring, and the fault a run has ended in. -/
structure Watched (n : ℕ) where
  ring : Ring n
  fault : Option Fault

/-- What a step leaves: the new ring, or the old one and a fault. -/
def Watched.after {n : ℕ} (s : Ring n) : Except Fault (Ring n) → Watched n
  | .ok s' => ⟨s', none⟩
  | .error f => ⟨s, some f⟩

/-- The ring under every interleaving of its two sides, up to a fault. -/
def Block.machine (B : Block) : Machine (Watched B.elementSize) (Act B.elementSize) where
  init s := ∃ memory, s = ⟨initRing memory, none⟩
  step s a :=
    match s.fault with
    | none => (B.step s.ring a).map (Watched.after s.ring)
    | some _ => none

/-- A step of the watched ring is one that no fault precedes. -/
theorem Block.step_of_machine {B : Block} {s s' : Watched B.elementSize} {a : Act B.elementSize}
    (h : B.machine.step s a = some s') :
    s.fault = none ∧ ∃ r, B.step s.ring a = some r ∧ Watched.after s.ring r = s' := by
  simp only [Block.machine] at h
  split at h
  · next hfault => exact ⟨hfault, Option.map_eq_some_iff.mp h⟩
  · cases h

/-! ### Room for something -/

section Room

variable {B : Block}

/-- The layout of a block that has room for something. -/
@[reducible] def Block.layout (B : Block) (hpos : 0 < B.capacity) : Layout where
  capacity := B.capacity
  elementSize := B.elementSize
  capacity_pos := hpos
  capacity_lt := B.capacity_lt
  bytes_lt := B.bytes_lt

/-- A slot of the ring lies in the block. -/
theorem Block.inside (hpos : 0 < B.capacity) (pos : ℕ) : B.Inside pos := by
  have hslot : pos % B.capacity + 1 ≤ B.capacity := Nat.mod_lt pos hpos
  have hend : pos % B.capacity * B.elementSize + B.elementSize ≤ B.capacity * B.elementSize := by
    rw [← Nat.succ_mul]
    exact Nat.mul_le_mul_right _ hslot
  have hbytes := B.bytes_lt
  exact ⟨hpos, by omega, fun i hi => by omega⟩

theorem Block.offset_eq {pos : ℕ} (h : B.Inside pos) :
    B.offset pos = .ok (pos % B.capacity * B.elementSize) := by
  rw [offset, if_neg h.1.ne', if_neg h.2.1.not_ge]

theorem Block.address_eq {pos : ℕ} (h : B.Inside pos) (i : Fin B.elementSize) :
    B.address pos i = .ok (pos % B.capacity * B.elementSize + i) := by
  have hi := h.2.2 i i.isLt
  rw [address, offset_eq h]
  exact if_pos hi

/-- **With a capacity above zero nothing is ever caught**: a step is that of
`Mesh.SpscRing`. -/
theorem Block.step_eq (hpos : 0 < B.capacity) (s : Ring B.elementSize) (a : Act B.elementSize) :
    B.step s a = (Spsc.step (B.layout hpos) s a).map .ok := by
  have haddr : ∀ pos (i : Fin B.elementSize),
      B.address pos i = .ok ((B.layout hpos).address pos i) := by
    intro pos i
    rw [address_eq (inside hpos pos), Layout.address_eq]
  cases a with
  | push d =>
    simp only [step, Spsc.step]
    cases s.producer <;> rfl
  | produce =>
    simp only [step, Spsc.step]
    cases s.producer with
    | loadHead d t =>
      simp only [offset_eq (inside hpos t)]
      split <;> rfl
    | copy d t done =>
      dsimp only
      split <;> rfl
    | _ => rfl
  | write i =>
    simp only [step, Spsc.step, haddr]
    cases s.producer <;> rfl
  | pop out =>
    simp only [step, Spsc.step]
    cases s.consumer <;> rfl
  | consume =>
    simp only [step, Spsc.step]
    cases s.consumer with
    | loadTail out h =>
      simp only [offset_eq (inside hpos h)]
      split <;> rfl
    | copy out h done =>
      dsimp only
      split <;> rfl
    | _ => rfl
  | read i =>
    simp only [step, Spsc.step, haddr]
    cases s.consumer <;> rfl

/-- **A run of the watched ring is one of the ring**, and has no fault. -/
theorem Block.reachable_ring (hpos : 0 < B.capacity) {s : Watched B.elementSize}
    (hr : B.machine.Reachable s) :
    (Spsc.machine (B.layout hpos)).Reachable s.ring ∧ s.fault = none := by
  refine hr.invariant (P := fun s => (Spsc.machine (B.layout hpos)).Reachable s.ring ∧
    s.fault = none) ?_ ?_
  · rintro _ ⟨memory, rfl⟩
    exact ⟨.init ⟨memory, rfl⟩, rfl⟩
  · rintro u a v ⟨hu, -⟩ hst
    obtain ⟨-, r, hr, rfl⟩ := step_of_machine hst
    rw [step_eq hpos] at hr
    obtain ⟨s', hs', rfl⟩ := Option.map_eq_some_iff.mp hr
    exact ⟨.step hu hs', rfl⟩

end Room

/-! ### No room at all -/

section NoRoom

variable {B : Block}

/-- A ring of capacity zero stays as it was made, and a call in it is before its
comparison or behind it. -/
structure Closed {n : ℕ} (s : Ring n) : Prop where
  head : s.head = 0
  tail : s.tail = 0
  producer : s.producer.copying = none
  consumer : s.consumer.copying = none
  loaded : ∀ out h, s.consumer = .loadTail out h → h = 0

namespace Closed

theorem init {n : ℕ} (memory : ℕ → UInt8) : Closed (initRing memory : Ring n) where
  head := rfl
  tail := rfl
  producer := rfl
  consumer := rfl
  loaded := nofun

/-- A step of the producer that leaves the ring as it was. -/
theorem pushing {n : ℕ} {s : Ring n} (hs : Closed s) {p : PushPc n} (hp : p.copying = none)
    (calls : List (Fifo.Call (Element n))) : Closed { s with producer := p, calls := calls } where
  head := hs.head
  tail := hs.tail
  producer := hp
  consumer := hs.consumer
  loaded := hs.loaded

/-- A step of the consumer that leaves the ring as it was. -/
theorem popping {n : ℕ} {s : Ring n} (hs : Closed s) {p : PopPc n} (hp : p.copying = none)
    (hload : ∀ out h, p = .loadTail out h → h = 0) (calls : List (Fifo.Call (Element n))) :
    Closed { s with consumer := p, calls := calls } where
  head := hs.head
  tail := hs.tail
  producer := hs.producer
  consumer := hp
  loaded := hload

/-- **With capacity zero no call passes its comparison**: a push finds the ring full, and a
pop finds two counters of zero. -/
theorem step {s : Ring B.elementSize} (hs : Closed s) (hzero : B.capacity = 0)
    {a : Act B.elementSize} {r : Except Fault (Ring B.elementSize)} (h : B.step s a = some r) :
    ∃ s', r = .ok s' ∧ Closed s' := by
  have hproducer := hs.producer
  have hconsumer := hs.consumer
  cases a with
  | push d =>
    simp only [Block.step] at h
    split at h
    · cases h
      exact ⟨_, rfl, hs.pushing rfl _⟩
    · cases h
      exact ⟨_, rfl, hs.pushing rfl _⟩
    · cases h
  | produce =>
    simp only [Block.step] at h
    split at h
    · cases h
      exact ⟨_, rfl, hs.pushing rfl _⟩
    · rw [if_pos (hzero ▸ Nat.zero_le _)] at h
      cases h
      exact ⟨_, rfl, hs.pushing rfl _⟩
    · next d t done hp =>
      rw [hp] at hproducer
      cases hproducer
    · cases h
  | write i =>
    simp only [Block.step] at h
    split at h
    · next d t done hp =>
      rw [hp] at hproducer
      cases hproducer
    · cases h
  | pop out =>
    simp only [Block.step] at h
    split at h
    · cases h
      exact ⟨_, rfl, hs.popping rfl (fun out hd hp => by cases hp) _⟩
    · cases h
      exact ⟨_, rfl, hs.popping rfl (fun out hd hp => by cases hp) _⟩
    · cases h
  | consume =>
    simp only [Block.step] at h
    split at h
    · cases h
      refine ⟨_, rfl, hs.popping rfl ?_ _⟩
      rintro out hd ⟨⟩
      exact hs.head
    · next out hd hp =>
      rw [if_pos ((hs.loaded out hd hp).trans hs.tail.symm)] at h
      cases h
      exact ⟨_, rfl, hs.popping rfl (fun out hd hp => by cases hp) _⟩
    · next out hd done hp =>
      rw [hp] at hconsumer
      cases hconsumer
    · cases h
  | read i =>
    simp only [Block.step] at h
    split at h
    · next out hd done hp =>
      rw [hp] at hconsumer
      cases hconsumer
    · cases h

end Closed

/-- The invariant over whole runs. -/
theorem closed_of_reachable (hzero : B.capacity = 0) {s : Watched B.elementSize}
    (hr : B.machine.Reachable s) : Closed s.ring ∧ s.fault = none := by
  refine hr.invariant (P := fun s => Closed s.ring ∧ s.fault = none) ?_ ?_
  · rintro _ ⟨memory, rfl⟩
    exact ⟨.init memory, rfl⟩
  · rintro u a v ⟨hu, -⟩ hst
    obtain ⟨-, r, hr, rfl⟩ := Block.step_of_machine hst
    obtain ⟨s', rfl, hs'⟩ := hu.step hzero hr
    exact ⟨hs', rfl⟩

end NoRoom

/-! ### Every reachable state -/

/-- **The ring stays inside its block**: with any capacity, zero included, and any element
size, no run of fewer than `2 ^ 64` pushes has a fault, the counters are never more than
the capacity apart, and a side that copies does so inside the block. -/
theorem ring_in_bounds {B : Block} {s : Watched B.elementSize} (hr : B.machine.Reachable s)
    (hsize : (pushed s.ring.calls).length < 2 ^ 64) :
    s.fault = none ∧ s.ring.head ≤ s.ring.tail ∧ s.ring.tail ≤ s.ring.head + B.capacity ∧
      (∀ t, s.ring.producer.copying = some t → B.Inside t) ∧
      ∀ h, s.ring.consumer.copying = some h → B.Inside h := by
  rcases Nat.eq_zero_or_pos B.capacity with hzero | hpos
  · obtain ⟨hclosed, hfault⟩ := closed_of_reachable hzero hr
    rw [hclosed.head, hclosed.tail, hclosed.producer, hclosed.consumer]
    exact ⟨hfault, le_rfl, Nat.zero_le _, nofun, nofun⟩
  · obtain ⟨hring, hfault⟩ := Block.reachable_ring hpos hr
    obtain ⟨q, hq⟩ := rep_of_reachable hring hsize
    have htail := hq.tail_eq_add
    have hroom : q.length ≤ B.capacity := hq.run.length_le
    exact ⟨hfault, by omega, by omega, fun t _ => Block.inside hpos t,
      fun h _ => Block.inside hpos h⟩

/-- Two slots of two bytes. -/
def twoSlots : Block where
  capacity := 2
  elementSize := 2
  capacity_lt := by decide
  bytes_lt := by decide

/-- A push, and then a second one that copies beside the pop of the first. -/
def sideBySide : List (Act 2) :=
  [.push ![7, 9], .produce, .produce, .write 1, .write 0, .produce, .push ![1, 2], .produce,
    .produce, .write 0, .pop ![0, 0], .consume, .consume, .read 1]

/-- Both sides are copying, each in its own slot. -/
theorem ring_in_bounds_twoSlots :
    ∃ s : Watched twoSlots.elementSize, twoSlots.machine.Reachable s ∧
      s.ring.producer.copying = some 1 ∧ s.ring.consumer.copying = some 0 ∧
      (s.fault = none ∧ s.ring.head ≤ s.ring.tail ∧
        s.ring.tail ≤ s.ring.head + twoSlots.capacity ∧
        (∀ t, s.ring.producer.copying = some t → twoSlots.Inside t) ∧
        ∀ h, s.ring.consumer.copying = some h → twoSlots.Inside h) := by
  have hexec : (twoSlots.machine.exec (fun _ _ => true) ⟨initRing fun _ => 0, none⟩
      sideBySide).map (fun s => (s.ring.producer.copying, s.ring.consumer.copying,
        (pushed s.ring.calls).length)) = some (some 1, some 0, 1) := by
    decide
  obtain ⟨s, hs, hread⟩ := Machine.exists_path_of_exec hexec
  simp only [Prod.mk.injEq] at hread
  obtain ⟨hproducer, hconsumer, hone⟩ := hread
  have hreach : twoSlots.machine.Reachable s := hs.reachable (.init ⟨_, rfl⟩)
  exact ⟨s, hreach, hproducer, hconsumer, ring_in_bounds hreach (by rw [hone]; decide)⟩

end Spsc
end SovereignSeed
