import SovereignSeed.Mpmc.GiveUp

/-!
# Slots are exclusive

A thread holds a ticket from its successful swap to its store of the sequence
number, and in between it alone touches the payload of the ticket's cell.  The
tickets held by producers lie between `head` and `tail`, those held by consumers
in the lap that ends at `head`, and no two of these share a cell.

The sequence number of a cell says who holds it: it is the ticket itself while a
producer writes, and one lap behind the next ticket while a consumer reads.

## Main definitions

* `Pc.holding` — the ticket a thread holds.
* `access`, `Racy` — what a step touches, and two steps that touch one payload.
* `SlotExclusivity` — who may touch which cell.

## Main results

* `holder_unique` — a cell has at most one holder.
* `slot_exclusivity` — **in every reachable state every cell is free, published, or
  with one thread that nobody interferes with.**
-/

namespace SovereignSeed
namespace Mpmc

variable {Tid ι α : Type*} {Q : QueueSize}

/-- The ticket a thread holds, from its swap to its store of the sequence number. -/
def Pc.holding : Pc ι α → Option ℕ
  | .enqCopy _ pos _ => some pos
  | .deqCopy _ pos _ => some pos
  | _ => none

theorem Pc.holding_eq_some_iff {p : Pc ι α} {pos : ℕ} :
    p.holding = some pos ↔ p.writing = some pos ∨ p.reading = some pos := by
  cases p <;> simp [Pc.holding, Pc.writing, Pc.reading]

/-- The cell whose payload a move reads or writes, and whether it writes. -/
def access (Q : QueueSize) (s : Queue Tid ι α) : Tid × Move ι α → Option (ℕ × Bool)
  | (t, .copy _) =>
    match s.pc t with
    | .enqCopy _ pos _ => some (Q.slot pos, true)
    | .deqCopy _ pos _ => some (Q.slot pos, false)
    | _ => none
  | _ => none

/-- Two threads are about to touch one payload, and one of them writes. -/
def Racy (Q : QueueSize) (s : Queue Tid ι α) : Prop :=
  ∃ t u m n i w w', t ≠ u ∧ access Q s (t, m) = some (i, w) ∧ access Q s (u, n) = some (i, w') ∧
    (w || w') = true

/-- What is in the cells, and who may touch them. -/
structure SlotExclusivity (Q : QueueSize) (s : Queue Tid ι α) : Prop where
  head_le : s.head ≤ s.tail
  tail_le : s.tail ≤ s.head + Q.size
  /-- A claimed ticket: one producer is writing its cell, or it is published. -/
  claimed : ∀ p, s.head ≤ p → p < s.tail →
    (s.seq (Q.slot p) = p ∧ ∃! t, (s.pc t).writing = some p) ∨
      (s.seq (Q.slot p) = p + 1 ∧ ∀ t, (s.pc t).writing ≠ some p)
  /-- A ticket to come: its cell is free, or one consumer is reading it a lap behind. -/
  free : ∀ p, s.tail ≤ p → p < s.head + Q.size →
    (s.seq (Q.slot p) = p ∧ ∀ t q, q + Q.size = p → (s.pc t).reading ≠ some q) ∨
      (Q.size ≤ p ∧ s.seq (Q.slot p) = p - Q.size + 1 ∧ ∃! t, (s.pc t).reading = some (p - Q.size))
  /-- No two threads hold tickets of one cell. -/
  exclusive : ∀ t u p q, (s.pc t).holding = some p → (s.pc u).holding = some q →
    Q.slot p = Q.slot q → t = u

/-! ### Who holds a cell -/

section Holders

variable {s : Queue Tid ι α} {t u : Tid} {p q : ℕ}

/-- A producer holds a ticket between `head` and `tail`, which its cell shows. -/
theorem Inv.of_writing (h : Inv Q s) (ht : (s.pc t).writing = some p) :
    s.head ≤ p ∧ p < s.tail ∧ s.seq (Q.slot p) = p := by
  have hthread := h.thread t
  cases hpc : s.pc t with
  | enqCopy d pos done =>
    rw [hpc] at ht hthread
    obtain rfl : pos = p := Option.some.inj ht
    obtain ⟨hle, hlt, hseq, -⟩ := hthread
    exact ⟨hle, hlt, hseq⟩
  | _ =>
    rw [hpc] at ht
    cases ht

/-- A consumer holds a ticket of the lap that ends at `head`, which its cell shows as
published. -/
theorem Inv.of_reading (h : Inv Q s) (ht : (s.pc t).reading = some p) :
    p < s.head ∧ s.tail ≤ p + Q.size ∧ s.seq (Q.slot p) = p + 1 := by
  have hthread := h.thread t
  cases hpc : s.pc t with
  | deqCopy buf pos done =>
    rw [hpc] at ht hthread
    obtain rfl : pos = p := Option.some.inj ht
    obtain ⟨hlt, hle, hseq, -⟩ := hthread
    exact ⟨hlt, hle, hseq⟩
  | _ =>
    rw [hpc] at ht
    cases ht

/-- A producer and a consumer never hold one cell. -/
theorem Inv.slot_ne (h : Inv Q s) (ht : (s.pc t).writing = some p)
    (hu : (s.pc u).reading = some q) : Q.slot p ≠ Q.slot q := by
  obtain ⟨hhead, htail, -⟩ := h.of_writing ht
  obtain ⟨hlt, hle, -⟩ := h.of_reading hu
  exact slot_ne_of_reader hlt hle hhead htail

/-- **A cell has at most one holder.** -/
theorem holder_unique (h : Inv Q s) (ht : (s.pc t).holding = some p)
    (hu : (s.pc u).holding = some q) (hslot : Q.slot p = Q.slot q) : t = u := by
  have htail := h.tail_le
  rcases Pc.holding_eq_some_iff.mp ht with ht | ht <;>
    rcases Pc.holding_eq_some_iff.mp hu with hu | hu
  · -- two producers: their tickets are in one lap
    obtain ⟨hp, hp', -⟩ := h.of_writing ht
    obtain ⟨hq, hq', -⟩ := h.of_writing hu
    obtain rfl : p = q := by
      by_contra hne
      exact slot_ne_of_claimed h hp (by omega) hq hq' hne hslot
    exact h.writer_unique t u p ht hu
  · exact absurd hslot (h.slot_ne ht hu)
  · exact absurd hslot.symm (h.slot_ne hu ht)
  · -- two consumers: theirs are in the lap before
    obtain ⟨hp, hp', -⟩ := h.of_reading ht
    obtain ⟨hq, hq', -⟩ := h.of_reading hu
    have hhead := h.head_le
    obtain rfl : p = q := by
      rcases Nat.le_total p q with hle | hle
      · exact Q.eq_of_slot_eq hslot hle (by omega)
      · exact (Q.eq_of_slot_eq hslot.symm hle (by omega)).symm
    exact h.reader_unique t u p ht hu

/-- A claimed ticket whose cell shows it is being written. -/
theorem exists_writer [DecidableEq Tid] (h : Inv Q s) (hist : History Q s) (hle : s.head ≤ p)
    (hlt : p < s.tail) (hseq : s.seq (Q.slot p) = p) : ∃ t, (s.pc t).writing = some p := by
  rw [← List.mem_range, ← h.enqs_tickets] at hlt
  obtain ⟨⟨p', t, d⟩, hmem, rfl⟩ := List.mem_map.mp hlt
  rcases hist.stored p' t d hmem hle with ⟨done, hpc⟩ | ⟨hnext, -⟩
  · exact ⟨t, by rw [hpc]; rfl⟩
  · dsimp only at hseq
    omega

/-- A taken ticket whose cell has not been released is being read. -/
theorem exists_reader [DecidableEq Tid] (h : Inv Q s) (hist : History Q s) (hrel : Released Q s)
    (hlt : p < s.head) (hseq : s.seq (Q.slot p) = p + 1) : ∃ t, (s.pc t).reading = some p := by
  have hsize := Q.two_le
  rw [← List.mem_range, ← h.deqs_tickets] at hlt
  obtain ⟨⟨p', t⟩, hmem, rfl⟩ := List.mem_map.mp hlt
  rcases hist.taken t p' hmem with hread | ⟨d, hret⟩
  · exact ⟨t, hread⟩
  · have hle := hrel p' (List.mem_map.mpr ⟨_, hret, rfl⟩)
    dsimp only at hseq
    omega

/-! ### What a step touches -/

/-- A move touches the payload of a cell its thread holds. -/
theorem holding_of_access {m : Move ι α} {i : ℕ} {w : Bool}
    (ha : access Q s (t, m) = some (i, w)) :
    ∃ pos, (s.pc t).holding = some pos ∧ Q.slot pos = i := by
  cases m with
  | copy j =>
    simp only [access] at ha
    split at ha
    · next d pos done hpc =>
      obtain ⟨rfl, -⟩ := Prod.mk.inj (Option.some.inj ha)
      exact ⟨pos, by rw [hpc]; rfl, rfl⟩
    · next buf pos done hpc =>
      obtain ⟨rfl, -⟩ := Prod.mk.inj (Option.some.inj ha)
      exact ⟨pos, by rw [hpc]; rfl, rfl⟩
    · cases ha
  | _ => cases ha

/-- **No step changes the payload of a cell that another thread holds.** -/
theorem data_of_step [DecidableEq Tid] [Fintype ι] [DecidableEq ι] (h : Inv Q s)
    {s' : Queue Tid ι α} {m : Move ι α} (hst : step Q s (u, m) = some s')
    (ht : (s.pc t).holding = some p) (hne : u ≠ t) : s'.data (Q.slot p) = s.data (Q.slot p) := by
  cases trans_of_step hst with
  | write d pos done i hpc =>
    refine Function.update_of_ne (fun hslot => hne ?_) _ _
    exact holder_unique h (by rw [hpc]; rfl) ht hslot.symm
  | _ => rfl

end Holders

/-! ### Every reachable state -/

/-- **Slots are exclusive**: in every interleaving with fewer than `2 ^ 63` enqueues
the sequence numbers say which cells are free, published, or held; a held cell has
one holder; and nobody touches its payload meanwhile. -/
theorem slot_exclusivity [DecidableEq Tid] [Fintype ι] [DecidableEq ι] {s : Queue Tid ι α}
    (hr : (machine Q).Reachable s) (hb : s.enqs.length < 2 ^ 63) :
    SlotExclusivity Q s ∧ ¬ Racy Q s ∧
      ∀ t u p m s', (s.pc t).holding = some p → u ≠ t → step Q s (u, m) = some s' →
        s'.data (Q.slot p) = s.data (Q.slot p) := by
  have h := inv_of_reachable hr hb
  have hist := history_of_reachable hr hb
  have hrel := released_of_reachable hr hb
  refine ⟨⟨h.head_le, h.tail_le, ?_, ?_, fun t u p q => holder_unique h⟩, ?_,
    fun t u p m s' ht hne hst => data_of_step h hst ht hne⟩
  · intro p hle hlt
    rcases h.busy p hle hlt with hseq | hseq
    · obtain ⟨t, ht⟩ := exists_writer h hist hle hlt hseq
      exact .inl ⟨hseq, t, ht, fun u hu => h.writer_unique u t p hu ht⟩
    · refine .inr ⟨hseq, fun t ht => ?_⟩
      have hown := (h.of_writing ht).2.2
      omega
  · intro p hle hlt
    have hsize := Q.two_le
    rcases h.free p hle hlt with hseq | ⟨hlap, hseq⟩
    · refine .inl ⟨hseq, ?_⟩
      rintro t q rfl hq
      obtain ⟨-, -, hown⟩ := h.of_reading hq
      rw [Q.slot_add_size] at hseq
      omega
    · -- the ticket one lap before is the one the cell still shows
      obtain ⟨q, rfl⟩ := Nat.exists_eq_add_of_le' hlap
      rw [Q.slot_add_size] at hseq
      rw [Nat.add_sub_cancel, Q.slot_add_size]
      obtain ⟨t, ht⟩ := exists_reader h hist hrel (p := q) (by omega) (by omega)
      exact .inr ⟨hlap, by omega, t, ht, fun u hu => h.reader_unique u t q hu ht⟩
  · rintro ⟨t, u, m, n, i, w, w', hne, ht, hu, -⟩
    obtain ⟨p, hp, hslot⟩ := holding_of_access ht
    obtain ⟨q, hq, hslot'⟩ := holding_of_access hu
    exact hne (holder_unique h hp hq (hslot.trans hslot'.symm))

/-- Two threads over two slots: thread 1 copies out the payload of ticket 0 while
thread 0 writes that of ticket 1. -/
def exclusiveSchedule : List (ℕ × Move (Fin 2) ℕ) :=
  [(0, .callEnqueue ![7, 9]), (0, .go), (0, .go), (0, .go), (0, .copy 1), (0, .copy 0), (0, .go),
   (1, .callDequeue ![0, 0]), (1, .go), (1, .go), (1, .go), (1, .copy 0),
   (0, .callEnqueue ![8, 8]), (0, .go), (0, .go), (0, .go), (0, .copy 0)]

theorem slot_exclusivity_two_threads : ∃ s : Queue ℕ (Fin 2) ℕ,
    (machine twoSlots).Reachable s ∧ (s.pc 0).holding = some 1 ∧ (s.pc 1).holding = some 0 ∧
      SlotExclusivity twoSlots s ∧ ¬ Racy twoSlots s ∧
        ∀ t u p m s', (s.pc t).holding = some p → u ≠ t → step twoSlots s (u, m) = some s' →
          s'.data (twoSlots.slot p) = s.data (twoSlots.slot p) := by
  have heval : ((machine twoSlots).exec (fun _ _ => true)
      (initMasterQueue fun _ => ![0, 0]) exclusiveSchedule).map
        (fun s : Queue ℕ (Fin 2) ℕ => ((s.pc 0).holding, (s.pc 1).holding, s.enqs.length)) =
      some (some 1, some 0, 2) := by
    decide
  obtain ⟨s, hpath, hq⟩ := Machine.exists_path_of_exec heval
  simp only [Prod.mk.injEq] at hq
  obtain ⟨hwriter, hreader, hlen⟩ := hq
  have hr := hpath.reachable (.init ⟨_, rfl⟩)
  exact ⟨s, hr, hwriter, hreader, slot_exclusivity hr (by rw [hlen]; decide)⟩

end Mpmc
end SovereignSeed
