import SovereignSeed.Foundation.Window
import SovereignSeed.Mesh.SpscRing
import Mathlib.Data.Fin.VecNotation

/-!
# The ring refines a bounded queue

`Rep C s q` says the ring `s` holds the items `q`: they lie, byte for byte, at
the counters from `head` on.  It also says what each side knows in the middle of
a call: the producer's copy of `tail` is current because only the producer
moves it, the slot it writes belongs to no item, and the consumer's copy of
`head` is current for the same reason.  A stale copy of the other side's counter
does no harm, since room does not vanish and items do not.

Each step either leaves the items alone or decides one call, and then does to
them what the queue of `Foundation.Fifo` does.

## Main definitions

* `Rep` — the representation of a queue by a ring.

## Main results

* `rep_step` — a step of the ring is no step, or one call, of the queue.
* `rep_of_reachable` — **every reachable ring represents the queue its calls built.**
* `popped_prefix_pushed` — **the items popped are a prefix of the items pushed.**
-/

namespace SovereignSeed
namespace Spsc

open Fifo (Call Run pushed popped)

variable {C : Layout}

/-! ### Addresses and words -/

theorem Layout.address_eq (C : Layout) (pos i : ℕ) :
    C.address pos i = pos % C.capacity * C.elementSize + i := by
  have hslot : pos % C.capacity ≤ C.capacity := (Nat.mod_lt pos C.capacity_pos).le
  have hle : pos % C.capacity * C.elementSize ≤ C.capacity * C.elementSize :=
    Nat.mul_le_mul_right _ hslot
  rw [Layout.address, Nat.mod_eq_of_lt (hle.trans_lt C.bytes_lt)]

/-- Two addresses inside elements agree only in the same slot. -/
theorem Layout.slot_eq_of_address_eq (C : Layout) {p q i j : ℕ} (hi : i < C.elementSize)
    (hj : j < C.elementSize) (h : C.address p i = C.address q j) :
    p % C.capacity = q % C.capacity ∧ i = j := by
  rw [C.address_eq, C.address_eq] at h
  have hpos : 0 < C.elementSize := by omega
  -- an address divided by the element size is its slot
  have hdiv : ∀ a k : ℕ, k < C.elementSize → (a * C.elementSize + k) / C.elementSize = a := by
    intro a k hk
    rw [Nat.mul_comm, Nat.mul_add_div hpos, Nat.div_eq_of_lt hk, Nat.add_zero]
  have hslot : p % C.capacity = q % C.capacity := by
    rw [← hdiv (p % C.capacity) i hi, h, hdiv (q % C.capacity) j hj]
  rw [hslot] at h
  exact ⟨hslot, by omega⟩

theorem distance_eq {t h : ℕ} (hle : h ≤ t) (ht : t < 2 ^ 64) : distance t h = t - h := by
  have hsum : t + 2 ^ 64 - h = t - h + 2 ^ 64 := by omega
  rw [distance, hsum, Nat.add_mod_right, Nat.mod_eq_of_lt (by omega)]

theorem succSize_eq {x : ℕ} (h : x + 1 < 2 ^ 64) : succSize x = x + 1 := by
  rw [succSize, Nat.mod_eq_of_lt h]

/-! ### The representation -/

/-- What the producer knows at each point of `sip_spsc_push`. -/
def PushInv (C : Layout) (s : Ring C.elementSize) (q : List (Element C.elementSize)) :
    PushPc C.elementSize → Prop
  | .loadHead _ t => t = s.tail
  | .copy d t done =>
    t = s.tail ∧ q.length < C.capacity ∧ ∀ i ∈ done, s.storage (C.address t i) = d i
  | _ => True

/-- What the consumer knows at each point of `sip_spsc_pop`. -/
def PopInv (s : Ring C.elementSize) (q : List (Element C.elementSize)) :
    PopPc C.elementSize → Prop
  | .loadTail _ h => h = s.head
  | .copy out h done => h = s.head ∧ ∃ d r, q = d :: r ∧ ∀ i ∈ done, out i = d i
  | _ => True

/-- The ring `s` holds the items `q`. -/
structure Rep (C : Layout) (s : Ring C.elementSize) (q : List (Element C.elementSize)) :
    Prop where
  run : Run C.capacity s.calls q
  tail_eq : s.tail = (pushed s.calls).length
  head_eq : s.head = (popped s.calls).length
  /-- The items lie in the storage, from `head` on. -/
  stored : ∀ k d, q[k]? = some d → ∀ i : Fin C.elementSize,
    s.storage (C.address (s.head + k) i) = d i
  producer : PushInv C s q s.producer
  consumer : PopInv s q s.consumer

namespace Rep

variable {s : Ring C.elementSize} {q : List (Element C.elementSize)}

theorem tail_eq_add (h : Rep C s q) : s.tail = s.head + q.length := by
  rw [h.tail_eq, h.head_eq, h.run.length_eq]

theorem init (memory : ℕ → UInt8) : Rep C (initRing memory) [] where
  run := .start
  tail_eq := rfl
  head_eq := rfl
  stored := fun k d h => by simp at h
  producer := trivial
  consumer := trivial

/-! ### The steps of the producer -/

theorem pushing (h : Rep C s q) (hsize : (pushed s.calls).length < 2 ^ 64)
    {p' : PushPc C.elementSize} (hp : Pushing C s s.producer p') :
    Rep C { s with producer := p' } q where
  run := h.run
  tail_eq := h.tail_eq
  head_eq := h.head_eq
  stored := h.stored
  producer := by
    have hinv : PushInv C s q s.producer := h.producer
    generalize s.producer = p at hp hinv
    cases hp with
    | call d => exact trivial
    | again ok d => exact trivial
    | loadTail d => exact rfl
    | room d t hroom =>
      obtain rfl : t = s.tail := hinv
      have htail := h.tail_eq_add
      -- only the producer moves `tail`, so the copy it loaded is still right
      rw [distance_eq (by omega) (h.tail_eq ▸ hsize)] at hroom
      exact ⟨rfl, by omega, fun i hi => absurd hi (Finset.notMem_empty i)⟩
  consumer := h.consumer

/-- A byte written at `tail` reaches no item. -/
theorem stored_write (h : Rep C s q) (hroom : q.length < C.capacity) (i : Fin C.elementSize)
    (b : UInt8) {k : ℕ} {d : Element C.elementSize} (hk : q[k]? = some d)
    (j : Fin C.elementSize) :
    Function.update s.storage (C.address s.tail i) b (C.address (s.head + k) j) = d j := by
  have hlt : k < q.length := (List.getElem?_eq_some_iff.mp hk).1
  have htail := h.tail_eq_add
  -- fewer than `capacity` positions apart, so never in one slot
  have hne : C.address (s.head + k) j ≠ C.address s.tail i := by
    intro heq
    have hslot := (C.slot_eq_of_address_eq j.isLt i.isLt heq).1
    have := eq_of_mod_eq hslot (by omega) (by omega)
    omega
  rw [Function.update_of_ne hne]
  exact h.stored k d hk j

theorem write (h : Rep C s q) {d : Element C.elementSize} {t : ℕ}
    {done : Finset (Fin C.elementSize)} (i : Fin C.elementSize)
    (hp : s.producer = .copy d t done) :
    Rep C { s with
      storage := Function.update s.storage (C.address t i) (d i)
      producer := .copy d t (insert i done) } q := by
  have hinv : PushInv C s q (.copy d t done) := hp ▸ h.producer
  obtain ⟨rfl, hroom, hdone⟩ := hinv
  exact
    { run := h.run
      tail_eq := h.tail_eq
      head_eq := h.head_eq
      stored := fun k e hk j => h.stored_write hroom i (d i) hk j
      producer := by
        refine ⟨rfl, hroom, fun j hj => ?_⟩
        by_cases hji : C.address s.tail j = C.address s.tail i
        · have hval := (C.slot_eq_of_address_eq j.isLt i.isLt hji).2
          show Function.update s.storage _ _ _ = _
          rw [hji, Function.update_self, Fin.ext hval]
        · have hne : j ≠ i := fun heq => hji (by rw [heq])
          show Function.update s.storage _ _ _ = _
          rw [Function.update_of_ne hji]
          exact hdone j ((Finset.mem_insert.mp hj).resolve_left hne)
      consumer := h.consumer }

/-- A push that reads a full ring finds the queue full. -/
theorem length_of_full (h : Rep C s q) (hsize : (pushed s.calls).length < 2 ^ 64)
    {d : Element C.elementSize} {t : ℕ} (hp : s.producer = .loadHead d t)
    (hfull : C.capacity ≤ distance t s.head) : q.length = C.capacity := by
  have hinv : PushInv C s q (.loadHead d t) := hp ▸ h.producer
  obtain rfl : t = s.tail := hinv
  have htail := h.tail_eq_add
  have hle := h.run.length_le
  rw [distance_eq (by omega) (h.tail_eq ▸ hsize)] at hfull
  omega

theorem full (h : Rep C s q) (hsize : (pushed s.calls).length < 2 ^ 64)
    {d : Element C.elementSize} {t : ℕ} (hp : s.producer = .loadHead d t)
    (hfull : C.capacity ≤ distance t s.head) :
    Rep C { s with producer := .returned false, calls := s.calls ++ [.push d false] } q where
  run := h.run.call (.full q d (h.length_of_full hsize hp hfull))
  tail_eq := by simpa using h.tail_eq
  head_eq := by simpa using h.head_eq
  stored := h.stored
  producer := trivial
  consumer := h.consumer

theorem publish (h : Rep C s q) (hsize : (pushed s.calls).length + 1 < 2 ^ 64)
    {d : Element C.elementSize} {t : ℕ} (hp : s.producer = .copy d t Finset.univ) :
    Rep C { s with
      tail := succSize t, producer := .returned true, calls := s.calls ++ [.push d true] }
      (q ++ [d]) := by
  have hinv : PushInv C s q (.copy d t Finset.univ) := hp ▸ h.producer
  obtain ⟨rfl, hroom, hdone⟩ := hinv
  have htail : succSize s.tail = s.tail + 1 := succSize_eq (h.tail_eq ▸ hsize)
  exact
    { run := h.run.call (.push q d hroom)
      tail_eq := by simpa [htail] using h.tail_eq
      head_eq := by simpa using h.head_eq
      stored := by
        intro k e hk j
        -- the new item is the one behind all the others
        rcases Nat.lt_or_ge k q.length with hlt | hge
        · rw [List.getElem?_append_left hlt] at hk
          exact h.stored k e hk j
        · rw [List.getElem?_append_right hge, List.getElem?_singleton] at hk
          split at hk
          · next hzero =>
            obtain rfl : d = e := Option.some.inj hk
            have hpos : s.head + k = s.tail := by rw [h.tail_eq_add]; omega
            show s.storage (C.address (s.head + k) j) = _
            rw [hpos]
            exact hdone j (Finset.mem_univ j)
          · cases hk
      producer := trivial
      consumer := by
        have hcons : PopInv s q s.consumer := h.consumer
        show PopInv _ _ s.consumer
        generalize s.consumer = p at hcons
        cases p with
        | copy out hd done =>
          -- the item being copied out stays the first one
          obtain ⟨hhead, e, r, rfl, hout⟩ := hcons
          exact ⟨hhead, e, r ++ [d], rfl, hout⟩
        | idle => exact trivial
        | loadHead out => exact trivial
        | loadTail out hd => exact hcons
        | returned ok out => exact trivial }

/-! ### The steps of the consumer -/

theorem popping (h : Rep C s q) {p' : PopPc C.elementSize}
    (hp : Popping C s s.consumer p') : Rep C { s with consumer := p' } q where
  run := h.run
  tail_eq := h.tail_eq
  head_eq := h.head_eq
  stored := h.stored
  producer := h.producer
  consumer := by
    have hinv : PopInv s q s.consumer := h.consumer
    generalize s.consumer = p at hp hinv
    cases hp with
    | call out => exact trivial
    | again ok old out => exact trivial
    | loadHead out => exact rfl
    | some out hd hne =>
      obtain rfl : hd = s.head := hinv
      cases q with
      | nil => exact absurd h.tail_eq_add.symm hne
      | cons d r => exact ⟨rfl, d, r, rfl, fun i hi => absurd hi (Finset.notMem_empty i)⟩
    | read out hd done i =>
      obtain ⟨rfl, d, r, rfl, hout⟩ := hinv
      refine ⟨rfl, d, r, rfl, fun j hj => ?_⟩
      by_cases hji : j = i
      · subst hji
        rw [Function.update_self]
        exact h.stored 0 d rfl j
      · rw [Function.update_of_ne hji]
        exact hout j ((Finset.mem_insert.mp hj).resolve_left hji)

/-- A pop that reads an empty ring finds the queue empty. -/
theorem eq_nil_of_empty (h : Rep C s q) {out : Element C.elementSize} {hd : ℕ}
    (hp : s.consumer = .loadTail out hd) (hempty : hd = s.tail) : q = [] := by
  have hinv : PopInv s q (.loadTail out hd) := hp ▸ h.consumer
  obtain rfl : hd = s.head := hinv
  have htail := h.tail_eq_add
  exact List.eq_nil_of_length_eq_zero (by omega)

theorem empty (h : Rep C s q) {out : Element C.elementSize} {hd : ℕ}
    (hp : s.consumer = .loadTail out hd) (hempty : hd = s.tail) :
    Rep C { s with consumer := .returned false out, calls := s.calls ++ [.pop none] } q where
  run := by
    obtain rfl := h.eq_nil_of_empty hp hempty
    exact h.run.call .empty
  tail_eq := by simpa using h.tail_eq
  head_eq := by simpa using h.head_eq
  stored := h.stored
  producer := h.producer
  consumer := trivial

theorem release (h : Rep C s q) (hsize : (pushed s.calls).length < 2 ^ 64)
    {out : Element C.elementSize} {hd : ℕ} (hp : s.consumer = .copy out hd Finset.univ) :
    ∃ r, q = out :: r ∧ Rep C { s with
      head := succSize hd, consumer := .returned true out
      calls := s.calls ++ [.pop (some out)] } r := by
  have hinv : PopInv s q (.copy out hd Finset.univ) := hp ▸ h.consumer
  obtain ⟨rfl, d, r, rfl, hout⟩ := hinv
  -- every byte has been copied, so `out` is the first item
  obtain rfl : out = d := funext fun i => hout i (Finset.mem_univ i)
  have htail := h.tail_eq_add
  rw [List.length_cons] at htail
  have hhead : succSize s.head = s.head + 1 :=
    succSize_eq (by have := h.tail_eq; omega)
  refine ⟨r, rfl, ?_⟩
  exact
    { run := h.run.call (.pop out r)
      tail_eq := by simpa using h.tail_eq
      head_eq := by simpa [hhead] using h.head_eq
      stored := by
        intro k e hk j
        have hnext : succSize s.head + k = s.head + (k + 1) := by omega
        show s.storage (C.address (succSize s.head + k) j) = e j
        rw [hnext]
        exact h.stored (k + 1) e hk j
      producer := by
        have hprod : PushInv C s (out :: r) s.producer := h.producer
        show PushInv _ _ _ s.producer
        generalize s.producer = p at hprod
        cases p with
        | copy d t done =>
          -- the room that the producer found can only have grown
          obtain ⟨htl, hroom, hdone⟩ := hprod
          rw [List.length_cons] at hroom
          exact ⟨htl, by omega, hdone⟩
        | idle => exact trivial
        | loadTail d => exact trivial
        | loadHead d t => exact hprod
        | returned ok => exact trivial
      consumer := trivial }

end Rep

/-! ### Whole runs -/

/-- **A step of the ring is no step, or one call, of the queue.** -/
theorem rep_step {s s' : Ring C.elementSize} {q : List (Element C.elementSize)}
    (h : Rep C s q) (ht : Trans C s s') (hsize : (pushed s'.calls).length < 2 ^ 64) :
    ∃ q', Rep C s' q' := by
  cases ht with
  | pushing p' hp => exact ⟨q, h.pushing hsize hp⟩
  | write d t done i hp => exact ⟨q, h.write i hp⟩
  | full d t hp hfull =>
    have hsize' : (pushed s.calls).length < 2 ^ 64 := by simpa using hsize
    exact ⟨q, h.full hsize' hp hfull⟩
  | publish d t hp =>
    have hsize' : (pushed s.calls).length + 1 < 2 ^ 64 := by simpa using hsize
    exact ⟨q ++ [d], h.publish hsize' hp⟩
  | popping p' hp => exact ⟨q, h.popping hp⟩
  | empty out hd hp hempty => exact ⟨q, h.empty hp hempty⟩
  | release out hd hp =>
    have hsize' : (pushed s.calls).length < 2 ^ 64 := by simpa using hsize
    obtain ⟨r, -, hr⟩ := h.release hsize' hp
    exact ⟨r, hr⟩

/-- History only grows. -/
theorem calls_prefix_of_trans {s s' : Ring C.elementSize} (h : Trans C s s') :
    s.calls <+: s'.calls := by
  cases h with
  | full d t _ _ => exact List.prefix_append _ _
  | publish d t _ => exact List.prefix_append _ _
  | empty out hd _ _ => exact List.prefix_append _ _
  | release out hd _ => exact List.prefix_append _ _
  | _ => exact List.prefix_rfl

/-- **Every reachable ring represents the queue its calls built.** -/
theorem rep_of_reachable {s : Ring C.elementSize} (h : (machine C).Reachable s) :
    (pushed s.calls).length < 2 ^ 64 → ∃ q, Rep C s q := by
  induction h with
  | init hs =>
    obtain ⟨memory, rfl⟩ := hs
    exact fun _ => ⟨[], Rep.init memory⟩
  | step _ hst ih =>
    intro hsize
    have ht := trans_of_step hst
    -- there were no more pushes before the step, so the bound carries over
    have hle := ((calls_prefix_of_trans ht).filterMap Call.pushed?).length_le
    obtain ⟨q, hq⟩ := ih (hle.trans_lt hsize)
    exact rep_step hq ht hsize

/-- A step that makes a push return `false` is its load of `head`. -/
theorem full_of_step {s s' : Ring C.elementSize} (h : step C s .produce = some s')
    (hret : s'.producer = .returned false) :
    ∃ d t, s.producer = .loadHead d t ∧ C.capacity ≤ distance t s.head := by
  simp only [step] at h
  split at h
  · cases h; cases hret
  · next d t hp =>
    split at h
    · next hfull => exact ⟨d, t, hp, hfull⟩
    · cases h; cases hret
  · next d t done hp =>
    split at h
    · cases h; cases hret
    · cases h
  · cases h

/-- A step that makes a pop return `false` is its load of `tail`. -/
theorem empty_of_step {s s' : Ring C.elementSize} {old : Element C.elementSize}
    (h : step C s .consume = some s') (hret : s'.consumer = .returned false old) :
    ∃ out hd, s.consumer = .loadTail out hd ∧ hd = s.tail := by
  simp only [step] at h
  split at h
  · cases h; cases hret
  · next out hd hp =>
    split at h
    · next hempty => exact ⟨out, hd, hp, hempty⟩
    · cases h; cases hret
  · next out hd done hp =>
    split at h
    · cases h; cases hret
    · cases h
  · cases h

/-- **The ring is a bounded queue.** In every reachable state with fewer than
`2 ^ 64` successful pushes, the calls made so far are a run of the queue of
`capacity` items, so the elements popped are a prefix of the elements pushed,
byte for byte; a push returns `false` only if `capacity` elements are un-popped
at its load of `head`, and a pop only if the ring is empty at its load of
`tail`. -/
theorem ring_refines_fifo {s : Ring C.elementSize} (h : (machine C).Reachable s)
    (hsize : (pushed s.calls).length < 2 ^ 64) :
    (∃ q, Run C.capacity s.calls q) ∧ popped s.calls <+: pushed s.calls ∧
      (∀ s', step C s .produce = some s' → s'.producer = .returned false →
        (∃ d t, s.producer = .loadHead d t) ∧
          (pushed s.calls).length = (popped s.calls).length + C.capacity) ∧
      ∀ s' old, step C s .consume = some s' → s'.consumer = .returned false old →
        (∃ out hd, s.consumer = .loadTail out hd) ∧ popped s.calls = pushed s.calls := by
  obtain ⟨q, hq⟩ := rep_of_reachable h hsize
  refine ⟨⟨q, hq.run⟩, hq.run.popped_prefix, ?_, ?_⟩
  · intro s' hst hret
    obtain ⟨d, t, hp, hfull⟩ := full_of_step hst hret
    refine ⟨⟨d, t, hp⟩, ?_⟩
    rw [← hq.run.length_eq, hq.length_of_full hsize hp hfull]
  · intro s' old hst hret
    obtain ⟨out, hd, hp, hempty⟩ := empty_of_step hst hret
    refine ⟨⟨out, hd, hp⟩, ?_⟩
    rw [← hq.run.popped_append, hq.eq_nil_of_empty hp hempty, List.append_nil]

/-! ### A run -/

/-- One slot of two bytes. -/
def oneSlot : Layout where
  capacity := 1
  elementSize := 2
  capacity_pos := by decide
  capacity_lt := by decide
  bytes_lt := by decide

/-- A push, and then a second one that loads `head` before the pop beside it
has released the slot. -/
def fullSchedule : List (Act 2) :=
  [.push ![7, 9], .produce, .produce, .write 1, .write 0, .produce, .pop ![0, 0], .consume,
    .consume, .read 0, .push ![1, 2], .produce, .read 1]

/-- The ring is full for the second push, and the pop has both bytes. -/
theorem ring_refines_fifo_oneSlot :
    ∃ s : Ring oneSlot.elementSize, (machine oneSlot).Reachable s ∧
      (pushed s.calls).length = 1 ∧
      ((∃ q, Run oneSlot.capacity s.calls q) ∧ popped s.calls <+: pushed s.calls ∧
        (∀ s', step oneSlot s .produce = some s' → s'.producer = .returned false →
          (∃ d t, s.producer = .loadHead d t) ∧
            (pushed s.calls).length = (popped s.calls).length + oneSlot.capacity) ∧
        ∀ s' old, step oneSlot s .consume = some s' → s'.consumer = .returned false old →
          (∃ out hd, s.consumer = .loadTail out hd) ∧ popped s.calls = pushed s.calls) := by
  have hexec : ((machine oneSlot).exec (fun _ _ => true) (initRing fun _ => 0) fullSchedule).map
      (fun s => (pushed s.calls).length) = some 1 := by
    decide
  obtain ⟨s, hs, hone⟩ := Machine.exists_path_of_exec hexec
  have hreach : (machine oneSlot).Reachable s := hs.reachable (.init ⟨_, rfl⟩)
  exact ⟨s, hreach, hone, ring_refines_fifo hreach (by rw [hone]; decide)⟩

end Spsc
end SovereignSeed
