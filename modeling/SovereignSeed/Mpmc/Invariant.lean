import SovereignSeed.Foundation.Window
import SovereignSeed.Mpmc.Queue
import Mathlib.Data.List.Range

/-!
# The invariant of the queue

At every moment the slots are shared out among the `QUEUE_SIZE` tickets from
`head` on: a ticket between `head` and `tail` has been claimed by a producer and
its cell shows the ticket or, once published, the ticket plus one; a ticket from
`tail` on is free, and its cell shows the ticket or is still being read by the
consumer of the ticket one lap before.  A stale local `pos` does no harm because
a swap that succeeds finds the shared counter equal to it.

The invariant is stated for tickets as natural numbers; `word` arithmetic
agrees with them as long as fewer than `2 ^ 63` tickets have been claimed.

## Main definitions

* `ThreadInv` — what holds of a thread at each control point.
* `Inv` — the invariant.

## Main results

* `inv_trans` — every step preserves the invariant.
* `inv_of_reachable` — **the invariant holds in every reachable state.**
-/

namespace SovereignSeed
namespace Mpmc

variable {Tid ι α : Type*} {Q : QueueSize}

/-! ### Slots and words -/

theorem QueueSize.two_le (Q : QueueSize) : 2 ≤ Q.size := by
  have h : 2 ^ 1 ≤ 2 ^ Q.log := Nat.pow_le_pow_right (by decide) Q.one_le
  simpa [QueueSize.size] using h

theorem QueueSize.size_le (Q : QueueSize) : Q.size ≤ 2 ^ 63 := by
  have hlog : Q.log ≤ 63 := by have := Q.lt_word; omega
  rw [QueueSize.size]
  exact Nat.pow_le_pow_right (by decide) hlog

theorem QueueSize.slot_eq (Q : QueueSize) (pos : ℕ) : Q.slot pos = pos % Q.size :=
  Nat.and_two_pow_sub_one_eq_mod pos Q.log

theorem QueueSize.slot_add_size (Q : QueueSize) (pos : ℕ) : Q.slot (pos + Q.size) = Q.slot pos := by
  rw [Q.slot_eq, Q.slot_eq, Nat.add_mod_right]

/-- Within a window of `QUEUE_SIZE` tickets the slot determines the ticket. -/
theorem QueueSize.eq_of_slot_eq (Q : QueueSize) {p q : ℕ} (h : Q.slot p = Q.slot q)
    (hle : p ≤ q) (hlt : q < p + Q.size) : p = q := by
  rw [Q.slot_eq, Q.slot_eq] at h
  exact eq_of_mod_eq h hle hlt

theorem succWord_eq {x : ℕ} (h : x < 2 ^ 63) : succWord x = x + 1 := by
  rw [succWord, Nat.mod_eq_of_lt (by omega)]

/-- Below the modulus, balanced differences vanish exactly on equal numbers. -/
theorem bmod_sub_eq_zero_iff {n seq pos : ℕ} (hs : seq < n) (hp : pos < n) :
    Int.bmod (Int.bmod seq n - Int.bmod pos n) n = 0 ↔ seq = pos := by
  rw [Int.bmod_sub_bmod, Int.sub_bmod_bmod, ← Int.dvd_iff_bmod_eq_zero]
  constructor
  · intro h
    have hmod : (seq : ℤ) % n = pos % n :=
      Int.emod_eq_emod_iff_emod_sub_eq_zero.mpr (Int.emod_eq_zero_of_dvd h)
    rw [Int.emod_eq_of_lt (by omega) (by omega), Int.emod_eq_of_lt (by omega) (by omega)] at hmod
    omega
  · rintro rfl
    simp

/-- The signed difference of two words vanishes exactly when they are equal. -/
theorem dif_eq_zero_iff {seq pos : ℕ} (hs : seq < 2 ^ 64) (hp : pos < 2 ^ 64) :
    dif seq pos = 0 ↔ seq = pos := bmod_sub_eq_zero_iff hs hp

/-! ### The invariant -/

/-- The ticket a producer holds, from its swap to its publication. -/
def Pc.writing : Pc ι α → Option ℕ
  | .enqCopy _ pos _ => some pos
  | _ => none

/-- The ticket a consumer holds, from its swap to its release. -/
def Pc.reading : Pc ι α → Option ℕ
  | .deqCopy _ pos _ => some pos
  | _ => none

/-- What holds of thread `t` at control point `p`. -/
def ThreadInv (Q : QueueSize) (s : Queue Tid ι α) (t : Tid) : Pc ι α → Prop
  | .enqLoadSeq _ pos => pos ≤ s.tail
  | .enqCas _ pos => pos ≤ s.tail ∧ (pos = s.tail → s.seq (Q.slot pos) = pos)
  | .enqCopy d pos done =>
    s.head ≤ pos ∧ pos < s.tail ∧ s.seq (Q.slot pos) = pos ∧ (pos, t, d) ∈ s.enqs ∧
      ∀ i ∈ done, s.data (Q.slot pos) i = d i
  | .deqLoadSeq _ pos => pos ≤ s.head
  | .deqCas _ pos => pos ≤ s.head ∧ (pos = s.head → s.seq (Q.slot pos) = pos + 1)
  | .deqCopy buf pos done =>
    pos < s.head ∧ s.tail ≤ pos + Q.size ∧ s.seq (Q.slot pos) = pos + 1 ∧ (pos, t) ∈ s.deqs ∧
      (∃ t', (pos, t', s.data (Q.slot pos)) ∈ s.enqs) ∧
      ∀ i ∈ done, buf i = s.data (Q.slot pos) i
  | _ => True

/-- The invariant of the queue. -/
structure Inv (Q : QueueSize) (s : Queue Tid ι α) : Prop where
  head_le : s.head ≤ s.tail
  tail_le : s.tail ≤ s.head + Q.size
  enqs_tickets : s.enqs.map (·.1) = List.range s.tail
  deqs_tickets : s.deqs.map (·.1) = List.range s.head
  /-- A ticket not yet claimed: its cell is free, or still read one lap behind. -/
  free : ∀ p, s.tail ≤ p → p < s.head + Q.size →
    s.seq (Q.slot p) = p ∨ (Q.size ≤ p ∧ s.seq (Q.slot p) + Q.size = p + 1)
  /-- A claimed ticket: its cell is being written or is published. -/
  busy : ∀ p, s.head ≤ p → p < s.tail → s.seq (Q.slot p) = p ∨ s.seq (Q.slot p) = p + 1
  /-- A published cell holds the payload of the ticket's enqueue. -/
  published : ∀ p, s.head ≤ p → p < s.tail → s.seq (Q.slot p) = p + 1 →
    ∃ t, (p, t, s.data (Q.slot p)) ∈ s.enqs
  thread : ∀ t, ThreadInv Q s t (s.pc t)
  writer_unique : ∀ t u p, (s.pc t).writing = some p → (s.pc u).writing = some p → t = u
  reader_unique : ∀ t u p, (s.pc t).reading = some p → (s.pc u).reading = some p → t = u

theorem Inv.tail_eq {s : Queue Tid ι α} (h : Inv Q s) : s.tail = s.enqs.length := by
  simpa using (congrArg List.length h.enqs_tickets).symm

theorem Inv.head_eq {s : Queue Tid ι α} (h : Inv Q s) : s.head = s.deqs.length := by
  simpa using (congrArg List.length h.deqs_tickets).symm

/-- Every slot belongs to exactly one of the `QUEUE_SIZE` tickets from `head` on. -/
theorem exists_ticket (Q : QueueSize) (head pos : ℕ) :
    ∃ p, head ≤ p ∧ p < head + Q.size ∧ Q.slot p = Q.slot pos := by
  have hsize := Q.two_le
  refine ⟨head + (pos + (Q.size - head % Q.size)) % Q.size, by omega, ?_, ?_⟩
  · have := Nat.mod_lt (pos + (Q.size - head % Q.size)) (show 0 < Q.size by omega)
    omega
  · have hlt := Nat.mod_lt head (show 0 < Q.size by omega)
    rw [Q.slot_eq, Q.slot_eq, Nat.add_mod, Nat.mod_mod, ← Nat.add_mod, ← Nat.mod_add_mod,
      show head % Q.size + (pos + (Q.size - head % Q.size)) = pos + Q.size by omega,
      Nat.add_mod_right]

/-- The sequence numbers stay below the first ticket of the next lap. -/
theorem Inv.seq_le {s : Queue Tid ι α} (h : Inv Q s) (pos : ℕ) :
    s.seq (Q.slot pos) ≤ s.head + Q.size := by
  obtain ⟨p, hle, hlt, hslot⟩ := exists_ticket Q s.head pos
  rw [← hslot]
  rcases Nat.lt_or_ge p s.tail with hp | hp
  · rcases h.busy p hle hp with h' | h' <;> omega
  · rcases h.free p hp hlt with h' | ⟨-, h'⟩ <;> omega

theorem Inv.seq_lt {s : Queue Tid ι α} (h : Inv Q s) (hb : s.tail < 2 ^ 63) (pos : ℕ) :
    s.seq (Q.slot pos) < 2 ^ 64 := by
  have hseq := h.seq_le pos
  have hsize := Q.size_le
  have hhead := h.head_le
  omega

/-- A free cell at `tail` means the ring is not full. -/
theorem Inv.room {s : Queue Tid ι α} (h : Inv Q s) (hseq : s.seq (Q.slot s.tail) = s.tail) :
    s.tail < s.head + Q.size := by
  have hsize := Q.two_le
  by_contra hfull
  have htail : s.tail = s.head + Q.size := by have := h.tail_le; omega
  have hslot : Q.slot s.tail = Q.slot s.head := by rw [htail, Q.slot_add_size]
  rw [hslot] at hseq
  rcases h.busy s.head le_rfl (by omega) with h' | h' <;> omega

/-- A published cell at `head` means the ring is not empty. -/
theorem Inv.nonempty {s : Queue Tid ι α} (h : Inv Q s)
    (hseq : s.seq (Q.slot s.head) = s.head + 1) : s.head < s.tail := by
  have hsize := Q.two_le
  by_contra hempty
  rcases h.free s.head (by omega) (by omega) with h' | ⟨-, h'⟩ <;> omega

/-- The cell a consumer reads is none of the claimed ones. -/
theorem slot_ne_of_reader {s : Queue Tid ι α} {p pos : ℕ} (hpos : pos < s.head)
    (hpos' : s.tail ≤ pos + Q.size) (hp : s.head ≤ p) (hp' : p < s.tail) :
    Q.slot p ≠ Q.slot pos := by
  intro hslot
  have := Q.eq_of_slot_eq hslot.symm (by omega) (by omega)
  omega

/-- Two claimed tickets have different cells. -/
theorem slot_ne_of_claimed {s : Queue Tid ι α} (h : Inv Q s) {p q : ℕ} (hp : s.head ≤ p)
    (hp' : p < s.head + Q.size) (hq : s.head ≤ q) (hq' : q < s.tail) (hne : p ≠ q) :
    Q.slot p ≠ Q.slot q := by
  intro hslot
  have htail := h.tail_le
  rcases Nat.le_total p q with hpq | hpq
  · exact hne (Q.eq_of_slot_eq hslot hpq (by omega))
  · exact hne (Q.eq_of_slot_eq hslot.symm hpq (by omega)).symm

/-! ### The initial state -/

theorem inv_init (mem : ℕ → Payload ι α) : Inv Q (initMasterQueue mem : Queue Tid ι α) where
  head_le := le_rfl
  tail_le := Nat.zero_le _
  enqs_tickets := rfl
  deqs_tickets := rfl
  free := by
    intro p _ hp
    have hp : p < Q.size := by simpa [initMasterQueue] using hp
    exact Or.inl (by rw [Q.slot_eq, Nat.mod_eq_of_lt hp]; rfl)
  busy := fun p _ hp => absurd hp (Nat.not_lt_zero p)
  published := fun p _ hp => absurd hp (Nat.not_lt_zero p)
  thread := fun _ => trivial
  writer_unique := fun _ _ _ h => by simp [initMasterQueue, Pc.writing] at h
  reader_unique := fun _ _ _ h => by simp [initMasterQueue, Pc.reading] at h

/-! ### Moving one thread -/

/-- The control point a local step leads to satisfies its thread clause. -/
theorem threadInv_of_local [DecidableEq ι] {s : Queue Tid ι α} (h : Inv Q s)
    (hb : s.tail < 2 ^ 63) {t : Tid} {p p' : Pc ι α} (hloc : Local Q s p p')
    (ht : ThreadInv Q s t p) : ThreadInv Q s t p' := by
  have hhead := h.head_le
  cases hloc with
  | callDequeue => trivial
  | loadTail => exact le_rfl
  | yield => trivial
  | enqSeqEq d pos hdif =>
    have hpos : pos ≤ s.tail := ht
    exact ⟨hpos, fun _ => (dif_eq_zero_iff (h.seq_lt hb pos) (by omega)).mp hdif⟩
  | enqSeqLt => trivial
  | enqSeqGt => trivial
  | enqCasFail => exact le_rfl
  | loadHead => exact le_rfl
  | deqSeqEq buf pos hdif =>
    have hpos : pos ≤ s.head := ht
    rw [succWord_eq (by omega)] at hdif
    exact ⟨hpos, fun _ => (dif_eq_zero_iff (h.seq_lt hb pos) (by omega)).mp hdif⟩
  | deqSeqLt => trivial
  | deqSeqGt => trivial
  | deqCasFail => exact le_rfl
  | read buf pos done i =>
    obtain ⟨h1, h2, h3, h4, h5, hdone⟩ := ht
    refine ⟨h1, h2, h3, h4, h5, fun j hj => ?_⟩
    by_cases hji : j = i
    · rw [hji, Function.update_self]
    · rw [Function.update_of_ne hji]
      exact hdone j (Finset.mem_of_mem_insert_of_ne hj hji)

/-- A local step gains no ticket. -/
theorem own_of_local [DecidableEq ι] {s : Queue Tid ι α} {p p' : Pc ι α} (h : Local Q s p p') :
    p'.writing = none ∧ (p'.reading = none ∨ p'.reading = p.reading) := by
  cases h <;> simp [Pc.writing, Pc.reading]

section Threads

variable [DecidableEq Tid]

@[simp] theorem threadInv_goto {s : Queue Tid ι α} {t u : Tid} {p q : Pc ι α} :
    ThreadInv Q (s.goto t p) u q ↔ ThreadInv Q s u q := by
  cases q <;> rfl

/-- The thread clause after thread `t` has moved to `p`. -/
theorem forall_update {pc : Tid → Pc ι α} {t : Tid} {p : Pc ι α} {P : Tid → Pc ι α → Prop}
    (hnew : P t p) (hother : ∀ u, u ≠ t → P u (pc u)) (u : Tid) :
    P u (Function.update pc t p u) := by
  by_cases hu : u = t
  · subst hu
    rw [Function.update_self]
    exact hnew
  · rw [Function.update_of_ne hu]
    exact hother u hu

/-- Exclusive ownership survives a move to a control point that owns nothing
new, or something nobody else owns. -/
theorem unique_update {pc : Tid → Pc ι α} {t : Tid} {p : Pc ι α} {own : Pc ι α → Option ℕ}
    (huniq : ∀ t u q, own (pc t) = some q → own (pc u) = some q → t = u)
    (hnew : ∀ u q, u ≠ t → own p = some q → own (pc u) = some q → False) :
    ∀ u v q, own (Function.update pc t p u) = some q → own (Function.update pc t p v) = some q →
      u = v := by
  intro u v q hu hv
  by_cases hut : u = t
  · subst hut
    by_cases hvt : v = u
    · exact hvt.symm
    · rw [Function.update_self] at hu
      rw [Function.update_of_ne hvt] at hv
      exact (hnew v q hvt hu hv).elim
  · rw [Function.update_of_ne hut] at hu
    by_cases hvt : v = t
    · subst hvt
      rw [Function.update_self] at hv
      exact (hnew u q hut hv hu).elim
    · rw [Function.update_of_ne hvt] at hv
      exact huniq u v q hu hv

theorem unique_update_none {pc : Tid → Pc ι α} {t : Tid} {p : Pc ι α} {own : Pc ι α → Option ℕ}
    (huniq : ∀ t u q, own (pc t) = some q → own (pc u) = some q → t = u) (hp : own p = none) :
    ∀ u v q, own (Function.update pc t p u) = some q → own (Function.update pc t p v) = some q →
      u = v :=
  unique_update huniq fun u q _ h => by rw [hp] at h; cases h

theorem unique_update_same {pc : Tid → Pc ι α} {t : Tid} {p : Pc ι α} {own : Pc ι α → Option ℕ}
    (huniq : ∀ t u q, own (pc t) = some q → own (pc u) = some q → t = u) (hp : own p = own (pc t)) :
    ∀ u v q, own (Function.update pc t p u) = some q → own (Function.update pc t p v) = some q →
      u = v :=
  unique_update huniq fun u q hu h h' => hu (huniq u t q h' (hp ▸ h))

theorem inv_move [DecidableEq ι] {s : Queue Tid ι α} (h : Inv Q s) (hb : s.tail < 2 ^ 63) {t : Tid}
    {p : Pc ι α} (hloc : Local Q s (s.pc t) p) : Inv Q (s.goto t p) where
  head_le := h.head_le
  tail_le := h.tail_le
  enqs_tickets := h.enqs_tickets
  deqs_tickets := h.deqs_tickets
  free := h.free
  busy := h.busy
  published := h.published
  thread := forall_update (threadInv_goto.mpr (threadInv_of_local h hb hloc (h.thread t)))
    fun u _ => threadInv_goto.mpr (h.thread u)
  writer_unique := unique_update_none h.writer_unique (own_of_local hloc).1
  reader_unique := by
    rcases (own_of_local hloc).2 with hp | hp
    · exact unique_update_none h.reader_unique hp
    · exact unique_update_same h.reader_unique hp

theorem inv_callEnqueue {s : Queue Tid ι α} (h : Inv Q s) {t : Tid} (d : Payload ι α) :
    Inv Q { s.goto t (.enqLoadTail d) with calls := s.calls ++ [(t, d)] } where
  head_le := h.head_le
  tail_le := h.tail_le
  enqs_tickets := h.enqs_tickets
  deqs_tickets := h.deqs_tickets
  free := h.free
  busy := h.busy
  published := h.published
  thread := by
    have hframe : ∀ u (q : Pc ι α), ThreadInv Q s u q →
        ThreadInv Q { s.goto t (.enqLoadTail d) with calls := s.calls ++ [(t, d)] } u q := by
      intro u q hq
      cases q <;> exact hq
    exact forall_update trivial fun u _ => hframe u _ (h.thread u)
  writer_unique := unique_update_none h.writer_unique rfl
  reader_unique := unique_update_none h.reader_unique rfl

/-! ### Claiming a ticket -/

theorem inv_claimEnqueue {s : Queue Tid ι α} (h : Inv Q s) (hb : s.tail < 2 ^ 63) {t : Tid}
    {d : Payload ι α} {pos : ℕ} (hpc : s.pc t = .enqCas d pos) (htail : s.tail = pos) :
    Inv Q { s.goto t (.enqCopy d pos ∅) with
      tail := succWord pos, enqs := s.enqs ++ [(pos, t, d)] } := by
  subst htail
  have hhead := h.head_le
  have hseq : s.seq (Q.slot s.tail) = s.tail := by
    have ht := h.thread t
    rw [hpc] at ht
    exact ht.2 rfl
  have hroom := h.room hseq
  rw [succWord_eq hb]
  have hmem : ∀ {x}, x ∈ s.enqs → x ∈ s.enqs ++ [(s.tail, t, d)] :=
    fun hx => List.mem_append_left _ hx
  refine ⟨by simp; omega, by simp; omega, ?_, h.deqs_tickets, ?_, ?_, ?_, ?_, ?_, ?_⟩
  · simp [h.enqs_tickets, List.range_succ]
  · intro p hp hp'
    have hp : s.tail + 1 ≤ p := hp
    exact h.free p (by omega) hp'
  · intro p hp hp'
    have hp' : p < s.tail + 1 := hp'
    rcases Nat.lt_or_ge p s.tail with hlt | hge
    · exact h.busy p hp hlt
    · exact Or.inl (by rw [show p = s.tail by omega]; exact hseq)
  · intro p hp hp' hpub
    have hp' : p < s.tail + 1 := hp'
    rcases Nat.lt_or_ge p s.tail with hlt | hge
    · obtain ⟨u, hu⟩ := h.published p hp hlt hpub
      exact ⟨u, hmem hu⟩
    · rw [show p = s.tail by omega] at hpub
      have hpub : s.seq (Q.slot s.tail) = s.tail + 1 := hpub
      omega
  · refine forall_update ⟨hhead, Nat.lt_succ_self _, hseq, by simp, by simp⟩ fun u _ => ?_
    -- the other threads keep their clause: `tail` has only grown, and no
    -- consumer still reads the cell of the new ticket
    have hu := h.thread u
    generalize s.pc u = q at hu ⊢
    cases q with
    | enqLoadSeq d' pos => exact Nat.le_succ_of_le hu
    | enqCas d' pos =>
      exact ⟨Nat.le_succ_of_le hu.1, fun heq => by have := hu.1; simp at heq; omega⟩
    | enqCopy d' pos done =>
      obtain ⟨h1, h2, h3, h4, h5⟩ := hu
      exact ⟨h1, Nat.lt_succ_of_lt h2, h3, hmem h4, h5⟩
    | deqCopy buf pos done =>
      obtain ⟨h1, h2, h3, h4, ⟨v, hv⟩, h6⟩ := hu
      refine ⟨h1, ?_, h3, h4, ⟨v, hmem hv⟩, h6⟩
      have hne : s.tail ≠ pos + Q.size := by
        intro heq
        have hsize := Q.two_le
        rw [heq, Q.slot_add_size] at hseq
        omega
      show s.tail + 1 ≤ pos + Q.size
      omega
    | idle => trivial
    | dequeued => trivial
    | enqLoadTail => trivial
    | enqYield => trivial
    | deqLoadHead => trivial
    | deqLoadSeq => exact hu
    | deqCas => exact hu
  · apply unique_update h.writer_unique
    intro u q _ hq hu
    have hq : some s.tail = some q := hq
    obtain rfl : s.tail = q := by simpa using hq
    have hinv := h.thread u
    cases hpu : s.pc u <;> simp only [hpu, Pc.writing] at hu <;> cases hu
    rw [hpu] at hinv
    exact absurd hinv.2.1 (lt_irrefl _)
  · exact unique_update_none h.reader_unique rfl

theorem inv_claimDequeue {s : Queue Tid ι α} (h : Inv Q s) (hb : s.tail < 2 ^ 63) {t : Tid}
    {buf : Payload ι α} {pos : ℕ} (hpc : s.pc t = .deqCas buf pos) (hhead : s.head = pos) :
    Inv Q { s.goto t (.deqCopy buf pos ∅) with
      head := succWord pos, deqs := s.deqs ++ [(pos, t)] } := by
  subst hhead
  have htail := h.tail_le
  have hseq : s.seq (Q.slot s.head) = s.head + 1 := by
    have ht := h.thread t
    rw [hpc] at ht
    exact ht.2 rfl
  have hlt := h.nonempty hseq
  rw [succWord_eq (by omega)]
  refine ⟨hlt, by simp; omega, h.enqs_tickets, ?_, ?_, ?_, ?_, ?_, ?_, ?_⟩
  · simp [h.deqs_tickets, List.range_succ]
  · intro p hp hp'
    have hp' : p < s.head + 1 + Q.size := hp'
    rcases Nat.lt_or_ge p (s.head + Q.size) with hold | hnew
    · exact h.free p hp hold
    · -- the ticket one lap ahead of `head` becomes free, its cell still being read
      have hp : p = s.head + Q.size := by omega
      refine Or.inr ⟨by omega, ?_⟩
      show s.seq (Q.slot p) + Q.size = p + 1
      rw [hp, Q.slot_add_size, hseq]
      omega
  · intro p hp hp'
    exact h.busy p (Nat.le_of_succ_le hp) hp'
  · intro p hp hp' hpub
    exact h.published p (Nat.le_of_succ_le hp) hp' hpub
  · have hnew := h.published s.head le_rfl hlt hseq
    refine forall_update ⟨Nat.lt_succ_self _, htail, hseq, by simp, hnew, by simp⟩ fun u _ => ?_
    have hu := h.thread u
    generalize s.pc u = q at hu ⊢
    cases q with
    | enqCopy d' pos done =>
      obtain ⟨h1, h2, h3, h4, h5⟩ := hu
      refine ⟨?_, h2, h3, h4, h5⟩
      have hne : pos ≠ s.head := by
        rintro rfl
        omega
      show s.head + 1 ≤ pos
      omega
    | deqLoadSeq buf pos => exact Nat.le_succ_of_le hu
    | deqCas buf pos =>
      exact ⟨Nat.le_succ_of_le hu.1, fun heq => by have := hu.1; simp at heq; omega⟩
    | deqCopy buf pos done =>
      obtain ⟨h1, h2, h3, h4, h5, h6⟩ := hu
      exact ⟨Nat.lt_succ_of_lt h1, h2, h3, List.mem_append_left _ h4, h5, h6⟩
    | idle => trivial
    | dequeued => trivial
    | enqLoadTail => trivial
    | enqYield => trivial
    | deqLoadHead => trivial
    | enqLoadSeq => exact hu
    | enqCas => exact hu
  · exact unique_update_none h.writer_unique rfl
  · apply unique_update h.reader_unique
    intro u q _ hq hu
    have hq : some s.head = some q := hq
    obtain rfl : s.head = q := by simpa using hq
    have hinv := h.thread u
    cases hpu : s.pc u <;> simp only [hpu, Pc.reading] at hu <;> cases hu
    rw [hpu] at hinv
    exact absurd hinv.1 (lt_irrefl _)

/-! ### Touching a cell -/

/-- A producer copies a word.  Its cell is neither published nor being read, so
nobody else depends on the payload there. -/
theorem inv_write [DecidableEq ι] {s : Queue Tid ι α} (h : Inv Q s) {t : Tid} {d : Payload ι α}
    {pos : ℕ} {done : Finset ι} (i : ι) (hpc : s.pc t = .enqCopy d pos done) :
    Inv Q { s.goto t (.enqCopy d pos (insert i done)) with
      data := Function.update s.data (Q.slot pos)
        (Function.update (s.data (Q.slot pos)) i (d i)) } := by
  have htail := h.tail_le
  obtain ⟨h1, h2, h3, h4, h5⟩ : ThreadInv Q s t (.enqCopy d pos done) := hpc ▸ h.thread t
  refine ⟨h.head_le, h.tail_le, h.enqs_tickets, h.deqs_tickets, h.free, h.busy, ?_, ?_, ?_, ?_⟩
  · intro p hp hp' hpub
    have hpub : s.seq (Q.slot p) = p + 1 := hpub
    have hne : Q.slot p ≠ Q.slot pos := by
      apply slot_ne_of_claimed h hp (Nat.lt_of_lt_of_le hp' htail) h1 h2
      rintro rfl
      omega
    simpa only [Function.update_of_ne hne, Queue.goto_enqs] using h.published p hp hp' hpub
  · refine forall_update ⟨h1, h2, h3, h4, fun j hj => ?_⟩ fun u hne => ?_
    · by_cases hji : j = i
      · simp [hji]
      · simpa [hji] using h5 j (Finset.mem_of_mem_insert_of_ne hj hji)
    · have hu := h.thread u
      cases hpu : s.pc u with
      | enqCopy d' pos' done' =>
        rw [hpu] at hu
        obtain ⟨h1', h2', h3', h4', h5'⟩ := hu
        refine ⟨h1', h2', h3', h4', ?_⟩
        have hpos : pos' ≠ pos := by
          rintro rfl
          exact hne (h.writer_unique u t pos' (by rw [hpu]; rfl) (by rw [hpc]; rfl))
        have hslot : Q.slot pos' ≠ Q.slot pos :=
          slot_ne_of_claimed h h1' (Nat.lt_of_lt_of_le h2' htail) h1 h2 hpos
        simpa only [Function.update_of_ne hslot] using h5'
      | deqCopy buf pos' done' =>
        rw [hpu] at hu
        obtain ⟨h1', h2', h3', h4', h5', h6'⟩ := hu
        have hslot : Q.slot pos' ≠ Q.slot pos := (slot_ne_of_reader h1' h2' h1 h2).symm
        refine ⟨h1', h2', h3', h4', ?_, ?_⟩
        · simpa only [Function.update_of_ne hslot, Queue.goto_enqs] using h5'
        · simpa only [Function.update_of_ne hslot] using h6'
      | idle => trivial
      | dequeued => trivial
      | enqLoadTail => trivial
      | enqYield => trivial
      | deqLoadHead => trivial
      | enqLoadSeq => rw [hpu] at hu; exact hu
      | enqCas => rw [hpu] at hu; exact hu
      | deqLoadSeq => rw [hpu] at hu; exact hu
      | deqCas => rw [hpu] at hu; exact hu
  · exact unique_update_same h.writer_unique (by rw [hpc]; rfl)
  · exact unique_update_none h.reader_unique rfl

/-- A producer publishes its ticket. -/
theorem inv_publish [Fintype ι] {s : Queue Tid ι α} (h : Inv Q s) (hb : s.tail < 2 ^ 63)
    {t : Tid} {d : Payload ι α} {pos : ℕ} (hpc : s.pc t = .enqCopy d pos Finset.univ) :
    Inv Q { s.goto t .idle with
      seq := Function.update s.seq (Q.slot pos) (succWord pos) } := by
  have htail := h.tail_le
  have hsize := Q.two_le
  obtain ⟨h1, h2, h3, h4, h5⟩ : ThreadInv Q s t (.enqCopy d pos Finset.univ) := hpc ▸ h.thread t
  rw [succWord_eq (by omega)]
  have hdata : s.data (Q.slot pos) = d := funext fun i => h5 i (Finset.mem_univ i)
  -- any other ticket of the window keeps its sequence number
  have hother : ∀ p, s.head ≤ p → p < s.head + Q.size → p ≠ pos →
      Function.update s.seq (Q.slot pos) (pos + 1) (Q.slot p) = s.seq (Q.slot p) :=
    fun p hp hp' hne => Function.update_of_ne (slot_ne_of_claimed h hp hp' h1 h2 hne) _ _
  refine ⟨h.head_le, h.tail_le, h.enqs_tickets, h.deqs_tickets, ?_, ?_, ?_, ?_, ?_, ?_⟩
  · intro p hp hp'
    have hp : s.tail ≤ p := hp
    have hhead := h.head_le
    simp only [hother p (by omega) hp' (by omega)]
    exact h.free p hp hp'
  · intro p hp hp'
    by_cases hpp : p = pos
    · subst hpp
      exact Or.inr (Function.update_self ..)
    · simp only [hother p hp (Nat.lt_of_lt_of_le hp' htail) hpp]
      exact h.busy p hp hp'
  · intro p hp hp' hpub
    by_cases hpp : p = pos
    · subst hpp
      exact ⟨t, hdata ▸ h4⟩
    · simp only [hother p hp (Nat.lt_of_lt_of_le hp' htail) hpp] at hpub
      exact h.published p hp hp' hpub
  · refine forall_update trivial fun u hne => ?_
    have hu := h.thread u
    cases hpu : s.pc u with
    | enqCas d' pos' =>
      rw [hpu] at hu
      refine ⟨hu.1, fun heq => ?_⟩
      have heq : pos' = s.tail := heq
      have hroom := h.room (by rw [← heq]; exact hu.2 heq)
      simp only [hother pos' (by omega) (by omega) (by omega)]
      exact hu.2 heq
    | enqCopy d' pos' done' =>
      rw [hpu] at hu
      obtain ⟨h1', h2', h3', h4', h5'⟩ := hu
      have hpos : pos' ≠ pos := by
        rintro rfl
        exact hne (h.writer_unique u t pos' (by rw [hpu]; rfl) (by rw [hpc]; rfl))
      refine ⟨h1', h2', ?_, h4', h5'⟩
      simp only [hother pos' h1' (by omega) hpos]
      exact h3'
    | deqCas buf pos' =>
      rw [hpu] at hu
      refine ⟨hu.1, fun heq => ?_⟩
      have heq : pos' = s.head := heq
      have hseq := hu.2 heq
      have hpos : pos' ≠ pos := by
        rintro rfl
        omega
      simp only [hother pos' (by omega) (by omega) hpos]
      exact hseq
    | deqCopy buf pos' done' =>
      rw [hpu] at hu
      obtain ⟨h1', h2', h3', h4', h5', h6'⟩ := hu
      have hslot : Q.slot pos' ≠ Q.slot pos := (slot_ne_of_reader h1' h2' h1 h2).symm
      refine ⟨h1', h2', ?_, h4', h5', h6'⟩
      simpa only [Function.update_of_ne hslot] using h3'
    | idle => trivial
    | dequeued => trivial
    | enqLoadTail => trivial
    | enqYield => trivial
    | deqLoadHead => trivial
    | enqLoadSeq => rw [hpu] at hu; exact hu
    | deqLoadSeq => rw [hpu] at hu; exact hu
  · exact unique_update_none h.writer_unique rfl
  · exact unique_update_none h.reader_unique rfl

/-- A consumer releases its cell for the next lap. -/
theorem inv_release [Fintype ι] {s : Queue Tid ι α} (h : Inv Q s) (hb : s.tail < 2 ^ 63) {t : Tid}
    {buf : Payload ι α} {pos : ℕ} (hpc : s.pc t = .deqCopy buf pos Finset.univ) :
    Inv Q { s.goto t (.dequeued true buf) with
      seq := Function.update s.seq (Q.slot pos) ((pos + Q.size) % 2 ^ 64)
      rets := s.rets ++ [(pos, t, buf)] } := by
  have hhead := h.head_le
  have hsize := Q.two_le
  obtain ⟨h1, h2, h3, h4, h5, h6⟩ : ThreadInv Q s t (.deqCopy buf pos Finset.univ) :=
    hpc ▸ h.thread t
  have hword : (pos + Q.size) % 2 ^ 64 = pos + Q.size := by
    have := Q.size_le
    rw [Nat.mod_eq_of_lt (by omega)]
  rw [hword]
  -- a claimed ticket keeps its sequence number
  have hclaimed : ∀ p, s.head ≤ p → p < s.tail →
      Function.update s.seq (Q.slot pos) (pos + Q.size) (Q.slot p) = s.seq (Q.slot p) :=
    fun p hp hp' => Function.update_of_ne (slot_ne_of_reader h1 h2 hp hp') _ _
  -- and the only free ticket that shows the new one is `pos + QUEUE_SIZE`
  have hfree : ∀ p, s.tail ≤ p → p < s.head + Q.size →
      Function.update s.seq (Q.slot pos) (pos + Q.size) (Q.slot p) = p ∨
        Function.update s.seq (Q.slot pos) (pos + Q.size) (Q.slot p) = s.seq (Q.slot p) := by
    intro p hp hp'
    by_cases hslot : Q.slot p = Q.slot pos
    · rw [hslot, Function.update_self]
      rw [← Q.slot_add_size pos] at hslot
      rcases Nat.le_total p (pos + Q.size) with hle | hle
      · exact Or.inl (Q.eq_of_slot_eq hslot hle (by omega)).symm
      · exact Or.inl (Q.eq_of_slot_eq hslot.symm hle (by omega))
    · exact Or.inr (Function.update_of_ne hslot _ _)
  refine ⟨hhead, h.tail_le, h.enqs_tickets, h.deqs_tickets, ?_, ?_, ?_, ?_, ?_, ?_⟩
  · intro p hp hp'
    rcases hfree p hp hp' with heq | heq
    · exact Or.inl heq
    · simp only [heq]
      exact h.free p hp hp'
  · intro p hp hp'
    simp only [hclaimed p hp hp']
    exact h.busy p hp hp'
  · intro p hp hp' hpub
    simp only [hclaimed p hp hp'] at hpub
    exact h.published p hp hp' hpub
  · refine forall_update trivial fun u hne => ?_
    have hu := h.thread u
    cases hpu : s.pc u with
    | enqCas d' pos' =>
      rw [hpu] at hu
      refine ⟨hu.1, fun heq => ?_⟩
      have heq : pos' = s.tail := heq
      have hroom := h.room (by rw [← heq]; exact hu.2 heq)
      rcases hfree pos' (by omega) (by omega) with hnew | hold
      · exact hnew
      · simp only [hold]
        exact hu.2 heq
    | enqCopy d' pos' done' =>
      rw [hpu] at hu
      obtain ⟨h1', h2', h3', h4', h5'⟩ := hu
      refine ⟨h1', h2', ?_, h4', h5'⟩
      simp only [hclaimed pos' h1' h2']
      exact h3'
    | deqCas buf' pos' =>
      rw [hpu] at hu
      refine ⟨hu.1, fun heq => ?_⟩
      have heq : pos' = s.head := heq
      have hlt := h.nonempty (by rw [← heq]; exact hu.2 heq)
      simp only [hclaimed pos' (by omega) (by omega)]
      exact hu.2 heq
    | deqCopy buf' pos' done' =>
      rw [hpu] at hu
      obtain ⟨h1', h2', h3', h4', h5', h6'⟩ := hu
      have hpos : pos' ≠ pos := by
        rintro rfl
        exact hne (h.reader_unique u t pos' (by rw [hpu]; rfl) (by rw [hpc]; rfl))
      have hslot : Q.slot pos' ≠ Q.slot pos := by
        intro hslot
        rcases Nat.le_total pos' pos with hle | hle
        · exact hpos (Q.eq_of_slot_eq hslot hle (by omega))
        · exact hpos (Q.eq_of_slot_eq hslot.symm hle (by omega)).symm
      refine ⟨h1', h2', ?_, h4', h5', h6'⟩
      simpa only [Function.update_of_ne hslot] using h3'
    | idle => trivial
    | dequeued => trivial
    | enqLoadTail => trivial
    | enqYield => trivial
    | deqLoadHead => trivial
    | enqLoadSeq => rw [hpu] at hu; exact hu
    | deqLoadSeq => rw [hpu] at hu; exact hu
  · exact unique_update_none h.writer_unique rfl
  · exact unique_update_none h.reader_unique rfl

end Threads

/-! ### Every reachable state -/

section Runs

variable [DecidableEq Tid] [Fintype ι] [DecidableEq ι]

/-- **Every step preserves the invariant**, as long as the tickets fit. -/
theorem inv_trans {s s' : Queue Tid ι α} {t : Tid} (h : Inv Q s) (hb : s.tail < 2 ^ 63)
    (hstep : Trans Q s t s') : Inv Q s' := by
  cases hstep with
  | move hloc => exact inv_move h hb hloc
  | callEnqueue d => exact inv_callEnqueue h d
  | claimEnqueue d pos hpc htail => exact inv_claimEnqueue h hb hpc htail
  | write d pos done i hpc => exact inv_write h i hpc
  | publish d pos hpc => exact inv_publish h hb hpc
  | claimDequeue buf pos hpc hhead => exact inv_claimDequeue h hb hpc hhead
  | release buf pos hpc => exact inv_release h hb hpc

/-- The claims of a run are never forgotten. -/
theorem enqs_length_le_of_trans {s s' : Queue Tid ι α} {t : Tid} (hstep : Trans Q s t s') :
    s.enqs.length ≤ s'.enqs.length := by
  cases hstep <;> simp

/-- **The invariant holds in every reachable state** with fewer than `2 ^ 63`
claimed tickets. -/
theorem inv_of_reachable {s : Queue Tid ι α} (hr : (machine Q).Reachable s)
    (hb : s.enqs.length < 2 ^ 63) : Inv Q s := by
  induction hr with
  | init hs =>
    obtain ⟨mem, rfl⟩ := hs
    exact inv_init mem
  | @step u v a _ hst ih =>
    have htrans : Trans Q u a.1 v := trans_of_step hst
    have hle := enqs_length_le_of_trans htrans
    have hu : Inv Q u := ih (by omega)
    exact inv_trans hu (by rw [hu.tail_eq]; omega) htrans

end Runs

end Mpmc
end SovereignSeed
