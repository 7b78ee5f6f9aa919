import SovereignSeed.Foundation.Window
import SovereignSeed.Mesh.SpscRing

/-!
# Counters that wrap

The counters of `include/sip_mesh/sip_spsc_ring.h` are words of `w` bits, and the slot of
a counter is its remainder by the capacity.  The two moduli agree as long as no counter
has wrapped.  From then on they agree only if the capacity divides `2 ^ w`: otherwise the
slot jumps at the wrap, and an element is written over one that is still in the ring.

The calls are taken one after the other here; `Mesh.SpscRefinement` is about calls that
overlap, before the wrap.

## Main definitions

* `Capacity` — what `sip_spsc_init` takes for a capacity.
* `WordRing`, `wordMachine` — the ring with counters of `w` bits, call by call.
* `Consecutive`, `Apart` — slots that follow each other, and slots that are distinct.

## Main results

* `Counted.push`, `Counted.pop` — the counters tell a full ring and an empty one, always.
* `Lap.step` — with a capacity that divides `2 ^ w` the elements lie in a window.
* `ring_continuity_iff` — **the ring survives a wrap exactly if its capacity divides
  `2 ^ w`.**
-/

namespace SovereignSeed
namespace Spsc

open Fifo (Call Run pushed popped)

/-! ### The ring, call by call -/

/-- A capacity for counters of `w` bits: `sip_spsc_init` asks for nothing, and a call
divides by it. -/
structure Capacity (w : ℕ) where
  size : ℕ
  size_pos : 0 < size
  size_lt : size < 2 ^ w

/-- The ring, and the history of its calls. -/
structure WordRing (n : ℕ) where
  slots : ℕ → Element n
  head : ℕ
  tail : ℕ
  calls : List (Call (Element n))

variable {w n : ℕ} {C : Capacity w} {s s' : WordRing n} {x : Element n}

namespace WordRing

/-- `sip_spsc_init` over whatever the memory holds. -/
def init (memory : ℕ → Element n) : WordRing n := ⟨memory, 0, 0, []⟩

/-- `sip_spsc_push`. -/
def push (C : Capacity w) (data : Element n) (s : WordRing n) : WordRing n :=
  if C.size ≤ subWord w s.tail s.head then { s with calls := s.calls ++ [.push data false] }
  else
    { s with
      slots := Function.update s.slots (s.tail % C.size) data
      tail := addWord w s.tail 1
      calls := s.calls ++ [.push data true] }

/-- `sip_spsc_pop`. -/
def pop (C : Capacity w) (s : WordRing n) : WordRing n :=
  if s.head = s.tail then { s with calls := s.calls ++ [.pop none] }
  else
    { s with
      head := addWord w s.head 1
      calls := s.calls ++ [.pop (some (s.slots (s.head % C.size)))] }

end WordRing

/-- A call. -/
inductive WordAct (n : ℕ)
  | push (data : Element n)
  | pop

/-- The ring under every sequence of calls. -/
def wordMachine (C : Capacity w) (n : ℕ) : Machine (WordRing n) (WordAct n) where
  init s := ∃ memory, s = .init memory
  step
    | s, .push data => some (s.push C data)
    | s, .pop => some (s.pop C)

/-- With 64 bits the counters are those of `Mesh.SpscRing`. -/
theorem distance_eq_subWord (tail head : ℕ) : distance tail head = subWord 64 tail head := rfl

@[inherit_doc distance_eq_subWord]
theorem succSize_eq_addWord (x : ℕ) : succSize x = addWord 64 x 1 := rfl

/-! ### What is to survive a wrap -/

/-- The next element goes into the slot behind that of the last, and comes from the slot
behind it. -/
def Consecutive (C : Capacity w) (s : WordRing n) : Prop :=
  addWord w s.tail 1 % C.size = (s.tail % C.size + 1) % C.size ∧
    addWord w s.head 1 % C.size = (s.head % C.size + 1) % C.size

/-- No two elements in the ring have one slot. -/
def Apart (C : Capacity w) (s : WordRing n) : Prop :=
  ∀ i j, i < j → j < subWord w s.tail s.head →
    addWord w s.head i % C.size ≠ addWord w s.head j % C.size

/-! ### The counters -/

/-- The ring holds the elements `q`, and its counters are the remainders of the numbers of
elements popped and pushed. -/
structure Counted (C : Capacity w) (s : WordRing n) (q : List (Element n)) : Prop where
  run : Run C.size s.calls q
  head : s.head = (popped s.calls).length % 2 ^ w
  tail : s.tail = (pushed s.calls).length % 2 ^ w

namespace Counted

variable {q : List (Element n)}

theorem init (memory : ℕ → Element n) : Counted C (.init memory) [] where
  run := .start
  head := (Nat.zero_mod _).symm
  tail := (Nat.zero_mod _).symm

/-- The counters are as far apart as the elements are many. -/
theorem subWord_eq (h : Counted C s q) : subWord w s.tail s.head = q.length := by
  have hlen := h.run.length_eq
  have hle := h.run.length_le
  have hlt := C.size_lt
  rw [h.tail, h.head, subWord_mod (by omega) (by omega)]
  omega

/-- The counters of an empty ring are equal, and of no other. -/
theorem head_eq_tail_iff (h : Counted C s q) : s.head = s.tail ↔ q = [] := by
  have hdist := h.subWord_eq
  constructor
  · intro heq
    have hhead : s.head < 2 ^ w := h.head ▸ Nat.mod_lt _ (Nat.two_pow_pos w)
    rw [← heq, subWord, Nat.add_sub_cancel_left, Nat.mod_self] at hdist
    exact List.eq_nil_of_length_eq_zero hdist.symm
  · rintro rfl
    have hlen := h.run.length_eq
    rw [List.length_nil, Nat.add_zero] at hlen
    rw [h.head, h.tail, hlen]

/-- A push finds the ring full, or adds its element. -/
theorem push (h : Counted C s q) (data : Element n) :
    (C.size ≤ subWord w s.tail s.head ∧ Counted C (s.push C data) q) ∨
      (q.length < C.size ∧ ¬C.size ≤ subWord w s.tail s.head ∧
        Counted C (s.push C data) (q ++ [data])) := by
  have hdist := h.subWord_eq
  have hle := h.run.length_le
  by_cases hfull : C.size ≤ subWord w s.tail s.head
  · refine .inl ⟨hfull, ?_⟩
    rw [WordRing.push, if_pos hfull]
    refine ⟨h.run.call (.full q data (by omega)), ?_, ?_⟩
    · simpa using h.head
    · simpa using h.tail
  · refine .inr ⟨by omega, hfull, ?_⟩
    rw [WordRing.push, if_neg hfull]
    refine ⟨h.run.call (.push q data (by omega)), ?_, ?_⟩
    · simpa using h.head
    · simp [h.tail, addWord_mod]

/-- A pop finds the ring empty, or takes an element out, the first one if the slot of
`head` has it. -/
theorem pop (h : Counted C s q) :
    (q = [] ∧ s.head = s.tail ∧ Counted C (s.pop C) []) ∨
      ∃ d r, q = d :: r ∧ s.head ≠ s.tail ∧
        (s.slots (s.head % C.size) = d → Counted C (s.pop C) r) := by
  cases q with
  | nil =>
    have hempty := h.head_eq_tail_iff.mpr rfl
    refine .inl ⟨rfl, hempty, ?_⟩
    rw [WordRing.pop, if_pos hempty]
    refine ⟨h.run.call .empty, ?_, ?_⟩
    · simpa using h.head
    · simpa using h.tail
  | cons d r =>
    have hsome : s.head ≠ s.tail := mt h.head_eq_tail_iff.mp (List.cons_ne_nil d r)
    refine .inr ⟨d, r, rfl, hsome, fun hslot => ?_⟩
    rw [WordRing.pop, if_neg hsome]
    refine ⟨?_, ?_, ?_⟩
    · simp only [hslot]
      exact h.run.call (.pop d r)
    · simp [h.head, addWord_mod]
    · simpa using h.tail

end Counted

/-- Elements of no bytes: whatever the slots, the calls are those of a queue. -/
theorem counted_of_no_bytes {s : WordRing 0} (h : (wordMachine C 0).Reachable s) :
    ∃ q, Counted C s q := by
  refine h.invariant (P := fun s => ∃ q, Counted C s q) ?_ ?_
  · rintro s ⟨memory, rfl⟩
    exact ⟨[], .init memory⟩
  · rintro u a v ⟨q, hq⟩ hst
    cases a with
    | push data =>
      cases hst
      rcases hq.push data with ⟨-, hfull⟩ | ⟨-, -, hroom⟩
      · exact ⟨_, hfull⟩
      · exact ⟨_, hroom⟩
    | pop =>
      cases hst
      rcases hq.pop with ⟨-, -, hempty⟩ | ⟨d, r, -, -, hpop⟩
      · exact ⟨_, hempty⟩
      · exact ⟨_, hpop (funext nofun)⟩

/-! ### Capacities that divide the range of the counters -/

/-- The elements lie in the slots between two positions, whose remainders the counters are. -/
structure Lap (C : Capacity w) (s : WordRing n) (q : List (Element n)) : Prop
    extends Counted C s q where
  slots : q = window C.size s.slots (popped s.calls).length (pushed s.calls).length

namespace Lap

variable {q : List (Element n)}

theorem init (memory : ℕ → Element n) : Lap C (.init memory) [] where
  toCounted := .init memory
  slots := by simp [WordRing.init]

/-- The slot of a counter is that of its position. -/
theorem slot (hdvd : C.size ∣ 2 ^ w) (p k : ℕ) :
    addWord w (p % 2 ^ w) k % C.size = (p + k) % C.size := by
  rw [addWord_mod, Nat.mod_mod_of_dvd _ hdvd]

/-- **A call keeps the elements in a window.** -/
theorem step (h : Lap C s q) (hdvd : C.size ∣ 2 ^ w) {a : WordAct n}
    (hst : (wordMachine C n).step s a = some s') : ∃ q', Lap C s' q' := by
  have hlen := h.run.length_eq
  have hle := h.run.length_le
  cases a with
  | push data =>
    cases hst
    rcases h.toCounted.push data with ⟨hfull, hnext⟩ | ⟨hlt, hroom, hnext⟩
    · refine ⟨q, hnext, ?_⟩
      simpa [WordRing.push, hfull] using h.slots
    · refine ⟨q ++ [data], hnext, ?_⟩
      have hslot : s.tail % C.size = (pushed s.calls).length % C.size := by
        rw [h.tail, Nat.mod_mod_of_dvd _ hdvd]
      rw [WordRing.push, if_neg hroom]
      simp only [hslot, Fifo.pushed_append, Fifo.pushed_push, Fifo.popped_append, Fifo.popped_push,
        List.append_nil, List.length_append, List.length_singleton]
      rw [window_snoc _ (by omega) (by omega), ← h.slots]
  | pop =>
    cases hst
    rcases h.toCounted.pop with ⟨rfl, hempty, hnext⟩ | ⟨d, r, rfl, hsome, hnext⟩
    · refine ⟨[], hnext, ?_⟩
      simpa [WordRing.pop, hempty] using h.slots
    · -- the first of the window is the element in the slot of `head`
      have hwindow := h.slots
      rw [List.length_cons] at hlen
      rw [window_cons _ _ (by omega)] at hwindow
      obtain ⟨hd, hr⟩ := List.cons.inj hwindow
      have hslot : s.slots (s.head % C.size) = d := by
        rw [h.head, Nat.mod_mod_of_dvd _ hdvd, hd]
      refine ⟨r, hnext hslot, ?_⟩
      rw [WordRing.pop, if_neg hsome]
      simpa using hr

theorem consecutive (h : Lap C s q) (hdvd : C.size ∣ 2 ^ w) : Consecutive C s := by
  have hnext : ∀ p, addWord w (p % 2 ^ w) 1 % C.size = (p % 2 ^ w % C.size + 1) % C.size := by
    intro p
    rw [slot hdvd, Nat.mod_mod_of_dvd _ hdvd, Nat.mod_add_mod]
  exact ⟨by rw [h.tail]; exact hnext _, by rw [h.head]; exact hnext _⟩

theorem apart (h : Lap C s q) (hdvd : C.size ∣ 2 ^ w) : Apart C s := by
  intro i j hij hj
  rw [h.subWord_eq] at hj
  have hle := h.run.length_le
  rw [h.head, slot hdvd, slot hdvd]
  intro heq
  have := eq_of_mod_eq heq (by omega) (by omega)
  omega

end Lap

/-- A ring whose capacity divides the range of its counters holds a window. -/
theorem lap_of_reachable (hdvd : C.size ∣ 2 ^ w) (h : (wordMachine C n).Reachable s) :
    ∃ q, Lap C s q := by
  refine h.invariant (P := fun s => ∃ q, Lap C s q) ?_ ?_
  · rintro s ⟨memory, rfl⟩
    exact ⟨[], .init memory⟩
  · rintro u a v ⟨q, hq⟩ hst
    exact hq.step hdvd hst

/-! ### Capacities that do not -/

/-- A ring that holds `k` elements after `m` have been pushed and popped, all of them `x`. -/
structure Filled (w : ℕ) (x : Element n) (m k : ℕ) (s : WordRing n) : Prop where
  head : s.head = m % 2 ^ w
  tail : s.tail = (m + k) % 2 ^ w
  pushed : pushed s.calls = List.replicate (m + k) x
  popped : popped s.calls = List.replicate m x

namespace Filled

variable {m k : ℕ}

/-- There is room for one more. -/
theorem push_eq (h : Filled w x m k s) (hk : k < C.size) (data : Element n) :
    s.push C data = { s with
      slots := Function.update s.slots (s.tail % C.size) data
      tail := addWord w s.tail 1
      calls := s.calls ++ [.push data true] } := by
  have hlt := C.size_lt
  have hdist : subWord w s.tail s.head = k := by
    rw [h.tail, h.head, subWord_mod (by omega) (by omega)]
    omega
  unfold WordRing.push
  rw [if_neg (by omega)]

theorem push (h : Filled w x m k s) (hk : k < C.size) : Filled w x m (k + 1) (s.push C x) := by
  rw [h.push_eq hk]
  refine ⟨h.head, ?_, ?_, ?_⟩
  · simp only [h.tail, addWord_mod, Nat.add_assoc]
  · simp [h.pushed, ← Nat.add_assoc, List.replicate_succ']
  · simpa using h.popped

/-- The counters of a ring with something in it differ. -/
theorem head_ne_tail (h : Filled w x m k s) (hpos : 0 < k) (hk : k ≤ C.size) :
    s.head ≠ s.tail := by
  have hlt := C.size_lt
  have hdist : subWord w s.tail s.head = k := by
    rw [h.tail, h.head, subWord_mod (by omega) (by omega)]
    omega
  intro heq
  rw [← heq, subWord, Nat.add_sub_cancel_left, Nat.mod_self] at hdist
  omega

end Filled

/-- The ring after `m` elements have gone through it one by one. -/
theorem exists_turned (C : Capacity w) (x : Element n) (m : ℕ) :
    ∃ s, (wordMachine C n).Reachable s ∧ Filled w x m 0 s := by
  induction m with
  | zero =>
    refine ⟨.init fun _ => x, .init ⟨_, rfl⟩, ?_, ?_, rfl, rfl⟩
    · exact (Nat.zero_mod _).symm
    · exact (Nat.zero_mod _).symm
  | succ m ih =>
    obtain ⟨s, hs, hfill⟩ := ih
    have hone := hfill.push C.size_pos
    have hne := hone.head_ne_tail (C := C) Nat.one_pos C.size_pos
    refine ⟨(s.push C x).pop C, .step (a := .pop) (.step (a := .push x) hs rfl) rfl, ?_⟩
    rw [WordRing.pop, if_neg hne]
    have hslot : (s.push C x).slots ((s.push C x).head % C.size) = x := by
      rw [hfill.push_eq C.size_pos]
      have hsame : s.head = s.tail := by rw [hfill.head, hfill.tail]; rfl
      simp [hsame]
    refine ⟨?_, ?_, ?_, ?_⟩
    · simp [hone.head, addWord_mod]
    · simpa using hone.tail
    · simpa using hone.pushed
    · simp [hone.popped, hslot, List.replicate_succ']

/-- And `k` elements more are pushed. -/
theorem exists_filled (C : Capacity w) (x : Element n) (m : ℕ) {k : ℕ} (hk : k ≤ C.size) :
    ∃ s, (wordMachine C n).Reachable s ∧ Filled w x m k s := by
  induction k with
  | zero => exact exists_turned C x m
  | succ k ih =>
    obtain ⟨s, hs, hfill⟩ := ih (by omega)
    exact ⟨s.push C x, .step (a := .push x) hs rfl, hfill.push hk⟩

section Wrap

variable (C : Capacity w)

/-- The last counter before the wrap is not followed by the next slot. -/
theorem not_consecutive (hdvd : ¬C.size ∣ 2 ^ w) (n : ℕ) :
    ∃ s, (wordMachine C n).Reachable s ∧ ¬Consecutive C s := by
  obtain ⟨s, hs, hfill⟩ := exists_turned C (n := n) (fun _ => 0) (2 ^ w - 1)
  have hpos := Nat.two_pow_pos w
  refine ⟨s, hs, fun hnext => hdvd (Nat.dvd_of_mod_eq_zero ?_)⟩
  have hsucc : 2 ^ w - 1 + 1 = 2 ^ w := by omega
  have hlast : s.tail = 2 ^ w - 1 := by
    rw [hfill.tail, Nat.add_zero, Nat.mod_eq_of_lt (by omega)]
  have htail := hnext.1
  rw [hlast, addWord, hsucc, Nat.mod_self, Nat.zero_mod, Nat.mod_add_mod, hsucc] at htail
  exact htail.symm

/-- The first slot after the wrap is that of the counter `2 ^ w % capacity` before it. -/
theorem slot_before_wrap : (2 ^ w - 2 ^ w % C.size) % 2 ^ w % C.size = 0 := by
  rcases Nat.eq_zero_or_pos (2 ^ w % C.size) with hzero | hpos
  · rw [hzero, Nat.sub_zero, Nat.mod_self, Nat.zero_mod]
  · rw [Nat.mod_eq_of_lt (Nat.sub_lt (Nat.two_pow_pos w) hpos)]
    exact Nat.sub_mod_eq_zero_of_mod_eq (Nat.mod_mod _ _).symm

/-- The ring with the wrap in the middle of it: the element behind the wrap has the slot of
the first. -/
theorem exists_wrapped (hdvd : ¬C.size ∣ 2 ^ w) (x : Element n) :
    ∃ s, (wordMachine C n).Reachable s ∧
      Filled w x (2 ^ w - 2 ^ w % C.size) (2 ^ w % C.size) s ∧ s.tail = 0 ∧
      s.head % C.size = 0 ∧ 0 < 2 ^ w % C.size ∧ 2 ^ w % C.size < C.size := by
  have hlt := Nat.mod_lt (2 ^ w) C.size_pos
  have hle := Nat.mod_le (2 ^ w) C.size
  obtain ⟨s, hs, hfill⟩ := exists_filled C x (2 ^ w - 2 ^ w % C.size) hlt.le
  refine ⟨s, hs, hfill, ?_, ?_, ?_, hlt⟩
  · rw [hfill.tail, Nat.sub_add_cancel hle, Nat.mod_self]
  · rw [hfill.head]
    exact slot_before_wrap C
  · exact Nat.pos_of_ne_zero fun hzero => hdvd (Nat.dvd_of_mod_eq_zero hzero)

/-- Two elements in the ring have one slot. -/
theorem not_apart (hdvd : ¬C.size ∣ 2 ^ w) (n : ℕ) :
    ∃ s, (wordMachine C n).Reachable s ∧ ¬Apart C s := by
  obtain ⟨s, hs, hfill, htail, hslot, hpos, hlt⟩ :=
    exists_wrapped C hdvd (n := n) fun _ => 0
  refine ⟨s.push C fun _ => 0, .step (a := .push _) hs rfl, fun hapart => ?_⟩
  have hnext := hfill.push hlt
  have hsize := C.size_lt
  have hle := Nat.mod_le (2 ^ w) C.size
  have hhead : (s.push C fun _ => 0).head = s.head := by rw [hfill.push_eq hlt]
  have hdist : subWord w (s.push C fun _ => 0).tail (s.push C fun _ => 0).head =
      2 ^ w % C.size + 1 := by
    rw [hnext.tail, hnext.head, subWord_mod (by omega) (by omega)]
    omega
  refine hapart 0 (2 ^ w % C.size) hpos (by omega) ?_
  rw [hhead, hfill.head, addWord_mod, addWord_mod, Nat.add_zero, Nat.sub_add_cancel hle,
    Nat.mod_self, Nat.zero_mod]
  exact slot_before_wrap C

/-- The element behind the wrap is popped in place of the first. -/
theorem not_fifo (hdvd : ¬C.size ∣ 2 ^ w) {x y : Element n} (hne : x ≠ y) :
    ∃ s, (wordMachine C n).Reachable s ∧ ¬∃ q, Run C.size s.calls q := by
  obtain ⟨s, hs, hfill, htail, hslot, hpos, hlt⟩ := exists_wrapped C hdvd x
  refine ⟨(s.push C y).pop C, .step (a := .pop) (.step (a := .push y) hs rfl) rfl, ?_⟩
  rintro ⟨q, hrun⟩
  have hle := Nat.mod_le (2 ^ w) C.size
  have hnext := hfill.push hlt
  have hheads : (s.push C y).head ≠ (s.push C y).tail := by
    have hdiff := hnext.head_ne_tail (C := C) (Nat.succ_pos _) hlt
    rw [hfill.push_eq hlt] at hdiff ⊢
    exact hdiff
  have hcalls : ((s.push C y).pop C).calls =
      s.calls ++ [.push y true] ++ [.pop (some y)] := by
    have hsame : s.tail % C.size = s.head % C.size := by rw [htail, hslot, Nat.zero_mod]
    rw [WordRing.pop, if_neg hheads, hfill.push_eq hlt]
    simp only [hsame, Function.update_self]
  have hprefix := hrun.popped_prefix
  rw [hcalls] at hprefix
  simp only [Fifo.popped_append, Fifo.pushed_append, Fifo.popped_push, Fifo.popped_pop,
    Fifo.pushed_push, Fifo.pushed_pop, List.append_nil, List.nil_append, hfill.pushed, hfill.popped,
    List.replicate_add, List.append_assoc] at hprefix
  -- where the queue has one more `x`, the ring has handed out `y`
  have hfirst := (List.prefix_append_right_inj _).mp hprefix
  obtain ⟨k, hk⟩ := Nat.exists_eq_succ_of_ne_zero hpos.ne'
  rw [hk, List.replicate_succ, List.cons_append, List.cons_prefix_cons] at hfirst
  exact hne hfirst.1.symm

end Wrap

/-- **The ring survives a wrap exactly if its capacity divides `2 ^ w`**: then the slots of
consecutive elements follow each other, no two elements in the ring have one slot, and the
calls are those of a bounded queue — the last also when the elements are of no bytes. -/
theorem ring_continuity_iff (w : ℕ) (C : Capacity w) (n : ℕ) :
    ((∀ s, (wordMachine C n).Reachable s → Consecutive C s) ↔ C.size ∣ 2 ^ w) ∧
      ((∀ s, (wordMachine C n).Reachable s → Apart C s) ↔ C.size ∣ 2 ^ w) ∧
      ((∀ s, (wordMachine C n).Reachable s → ∃ q, Run C.size s.calls q) ↔
        C.size ∣ 2 ^ w ∨ n = 0) := by
  refine ⟨⟨fun h => ?_, fun hdvd s hs => ?_⟩, ⟨fun h => ?_, fun hdvd s hs => ?_⟩,
    ⟨fun h => ?_, ?_⟩⟩
  · by_contra hdvd
    obtain ⟨s, hs, hbad⟩ := not_consecutive C hdvd n
    exact hbad (h s hs)
  · obtain ⟨q, hq⟩ := lap_of_reachable hdvd hs
    exact hq.consecutive hdvd
  · by_contra hdvd
    obtain ⟨s, hs, hbad⟩ := not_apart C hdvd n
    exact hbad (h s hs)
  · obtain ⟨q, hq⟩ := lap_of_reachable hdvd hs
    exact hq.apart hdvd
  · by_contra hnot
    obtain ⟨hdvd, hn⟩ := not_or.mp hnot
    have hne : (fun _ => 0 : Element n) ≠ fun _ => 1 := fun heq =>
      absurd (congrFun heq ⟨0, Nat.pos_of_ne_zero hn⟩) (by decide)
    obtain ⟨s, hs, hbad⟩ := not_fifo C hdvd hne
    exact hbad (h s hs)
  · rintro (hdvd | rfl) s hs
    · obtain ⟨q, hq⟩ := lap_of_reachable hdvd hs
      exact ⟨q, hq.run⟩
    · obtain ⟨q, hq⟩ := counted_of_no_bytes hs
      exact ⟨q, hq.run⟩

/-- Counters of 16 bits, and three slots. -/
def threeSlots : Capacity 16 where
  size := 3
  size_pos := by decide
  size_lt := by decide

/-- **Three slots do not survive the wrap of 16 bits**, in any of the three ways. -/
theorem three_slots_wrap :
    ¬(∀ s, (wordMachine threeSlots 1).Reachable s → Consecutive threeSlots s) ∧
      ¬(∀ s, (wordMachine threeSlots 1).Reachable s → Apart threeSlots s) ∧
      ¬∀ s, (wordMachine threeSlots 1).Reachable s → ∃ q, Run threeSlots.size s.calls q := by
  have hdvd : ¬threeSlots.size ∣ 2 ^ 16 := by decide
  refine ⟨fun h => ?_, fun h => ?_, fun h => ?_⟩
  · obtain ⟨s, hs, hbad⟩ := not_consecutive threeSlots hdvd 1
    exact hbad (h s hs)
  · obtain ⟨s, hs, hbad⟩ := not_apart threeSlots hdvd 1
    exact hbad (h s hs)
  · have hne : (fun _ => 0 : Element 1) ≠ fun _ => 1 := fun heq =>
      absurd (congrFun heq 0) (by decide)
    obtain ⟨s, hs, hbad⟩ := not_fifo threeSlots hdvd hne
    exact hbad (h s hs)

end Spsc
end SovereignSeed
