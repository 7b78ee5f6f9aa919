import SovereignSeed.Mpmc.Invariant
import Mathlib.Data.Fin.VecNotation
import Mathlib.Data.List.Nodup
import Mathlib.Data.List.Perm.Basic

/-!
# Exactly-once delivery

The history fields of the queue record which thread claimed which ticket with
which payload, and what each dequeue handed over.  `History` ties them to the
control points: what a producer has asked for is what it has claimed, followed
by the payload of the call it is in; what a consumer has claimed it has handed
over, or is copying out right now.  Together with the invariant of the ring this
gives `Delivery`, the contract of the queue as its callers see it.

## Main definitions

* `Pc.pending` — the payload of a call that has no ticket yet.
* `History` — the invariant of the history.
* `Delivery` — every ticket is claimed once and delivered once, untorn, in order.

## Main results

* `history_of_reachable` — the history invariant holds in every reachable state.
* `delivery_of_reachable` — **exactly-once delivery.**
-/

namespace SovereignSeed
namespace Mpmc

variable {Tid ι α : Type*} {Q : QueueSize}

/-- The payload of an enqueue that has not claimed its ticket yet. -/
def Pc.pending : Pc ι α → List (Payload ι α)
  | .enqLoadTail d => [d]
  | .enqYield d => [d]
  | .enqLoadSeq d _ => [d]
  | .enqCas d _ => [d]
  | _ => []

/-- Thread `t`, being at `p`: what it has claimed it is copying or has handed over. -/
def Taken (s : Queue Tid ι α) (t : Tid) (p : Pc ι α) : Prop :=
  ∀ pos, (pos, t) ∈ s.deqs → p.reading = some pos ∨ ∃ d, (pos, t, d) ∈ s.rets

/-- A thread at `p` has not handed over the ticket it is copying. -/
def Fresh (s : Queue Tid ι α) (p : Pc ι α) : Prop :=
  ∀ pos, p.reading = some pos → pos ∉ s.rets.map (·.1)

theorem pending_of_local [DecidableEq ι] {s : Queue Tid ι α} {p p' : Pc ι α} (h : Local Q s p p') :
    p'.pending = p.pending := by
  cases h with
  | @callDequeue p buf hready => cases p <;> simp_all [Pc.pending, Pc.ready]
  | _ => rfl

/-- A local step does not leave a control point that holds a producer's ticket. -/
theorem writing_of_local [DecidableEq ι] {s : Queue Tid ι α} {p p' : Pc ι α} (h : Local Q s p p') :
    p.writing = none := by
  cases h with
  | @callDequeue p buf hready => cases p <;> simp_all [Pc.writing, Pc.ready]
  | _ => rfl

/-- A local step keeps a consumer's ticket. -/
theorem reading_of_local [DecidableEq ι] {s : Queue Tid ι α} {p p' : Pc ι α} (h : Local Q s p p') :
    p'.reading = p.reading := by
  cases h with
  | @callDequeue p buf hready => cases p <;> simp_all [Pc.reading, Pc.ready]
  | _ => rfl

/-- A thread outside the queue holds nothing. -/
theorem Pc.ready_iff {p : Pc ι α} (h : p.ready = true) :
    p.pending = [] ∧ p.writing = none ∧ p.reading = none := by
  cases p <;> simp_all [Pc.pending, Pc.writing, Pc.reading, Pc.ready]

theorem fresh_of_none {s : Queue Tid ι α} {p : Pc ι α} (h : p.reading = none) : Fresh s p :=
  fun pos hpos => by rw [h] at hpos; cases hpos

/-- A thread that holds no ticket may go anywhere. -/
theorem Taken.of_none {s : Queue Tid ι α} {t : Tid} {p q : Pc ι α} (h : Taken s t p)
    (hp : p.reading = none) : Taken s t q :=
  fun pos hmem => Or.inr ((h pos hmem).resolve_left (by simp [hp]))

/-- A ticket in the list of claims lies below `tail`. -/
theorem Inv.lt_tail {s : Queue Tid ι α} (hi : Inv Q s) {p : ℕ} {t : Tid} {d : Payload ι α}
    (hmem : (p, t, d) ∈ s.enqs) : p < s.tail := by
  have hmem' : p ∈ s.enqs.map (·.1) := List.mem_map_of_mem (f := (·.1)) hmem
  rwa [hi.enqs_tickets, List.mem_range] at hmem'

/-- A ticket in the list of dequeues lies below `head`. -/
theorem Inv.lt_head {s : Queue Tid ι α} (hi : Inv Q s) {p : ℕ} {t : Tid}
    (hmem : (p, t) ∈ s.deqs) : p < s.head := by
  have hmem' : p ∈ s.deqs.map (·.1) := List.mem_map_of_mem (f := (·.1)) hmem
  rwa [hi.deqs_tickets, List.mem_range] at hmem'

variable [DecidableEq Tid]

/-- The payloads thread `t` has called `mpmc_enqueue` with, in order. -/
def Queue.callsOf (s : Queue Tid ι α) (t : Tid) : List (Payload ι α) :=
  (s.calls.filter fun c => c.1 = t).map (·.2)

/-- The payloads among `es` that thread `t` has claimed a ticket for, in order. -/
def claimsOf (es : List (ℕ × Tid × Payload ι α)) (t : Tid) : List (Payload ι α) :=
  (es.filter fun e => e.2.1 = t).map (·.2.2)

theorem claimsOf_append (es fs : List (ℕ × Tid × Payload ι α)) (t : Tid) :
    claimsOf (es ++ fs) t = claimsOf es t ++ claimsOf fs t := by
  rw [claimsOf, List.filter_append, List.map_append]
  rfl

/-- Thread `t`, being at `p`: its calls are its claims, and then the call it is in. -/
def Produced (s : Queue Tid ι α) (t : Tid) (p : Pc ι α) : Prop :=
  claimsOf s.enqs t ++ p.pending = s.callsOf t

/-- The invariant of the history. -/
structure History (Q : QueueSize) (s : Queue Tid ι α) : Prop where
  producer : ∀ t, Produced s t (s.pc t)
  /-- A claimed ticket no consumer has taken is being written, or is published. -/
  stored : ∀ p t d, (p, t, d) ∈ s.enqs → s.head ≤ p →
    (∃ done, s.pc t = .enqCopy d p done) ∨
      (s.seq (Q.slot p) = p + 1 ∧ s.data (Q.slot p) = d)
  /-- What was handed over was claimed by that consumer and enqueued as such. -/
  returned : ∀ p t d, (p, t, d) ∈ s.rets → (p, t) ∈ s.deqs ∧ ∃ u, (p, u, d) ∈ s.enqs
  rets_nodup : (s.rets.map (·.1)).Nodup
  taken : ∀ t, Taken s t (s.pc t)
  fresh : ∀ t, Fresh s (s.pc t)

/-! ### The history of one step -/

/-- What a step other than a producer's own does to a claimed ticket that is
waiting in the ring: nothing, if it leaves the published cells alone. -/
theorem stored_frame {s s' : Queue Tid ι α} {t : Tid} {p : Pc ι α} (h : History Q s)
    (hpc : s'.pc = Function.update s.pc t p) (hwriting : (s.pc t).writing = none)
    {pos : ℕ} {u : Tid} {d : Payload ι α} (hmem : (pos, u, d) ∈ s.enqs) (hpos : s.head ≤ pos)
    (hcell : s.seq (Q.slot pos) = pos + 1 →
      s'.seq (Q.slot pos) = pos + 1 ∧ s'.data (Q.slot pos) = s.data (Q.slot pos)) :
    (∃ done, s'.pc u = .enqCopy d pos done) ∨
      (s'.seq (Q.slot pos) = pos + 1 ∧ s'.data (Q.slot pos) = d) := by
  rcases h.stored pos u d hmem hpos with ⟨done, hu⟩ | ⟨hseq, hdata⟩
  · have hut : u ≠ t := by
      rintro rfl
      rw [hu] at hwriting
      cases hwriting
    exact Or.inl ⟨done, by rw [hpc, Function.update_of_ne hut, hu]⟩
  · obtain ⟨hseq', hdata'⟩ := hcell hseq
    exact Or.inr ⟨hseq', hdata'.trans hdata⟩

theorem history_init (mem : ℕ → Payload ι α) :
    History Q (initMasterQueue mem : Queue Tid ι α) where
  producer := fun _ => rfl
  stored := fun _ _ _ h => by simp [initMasterQueue] at h
  returned := fun _ _ _ h => by simp [initMasterQueue] at h
  rets_nodup := List.nodup_nil
  taken := fun _ _ h => by simp [initMasterQueue] at h
  fresh := fun _ => fresh_of_none rfl

theorem history_callEnqueue {s : Queue Tid ι α} (h : History Q s) {t : Tid} (d : Payload ι α)
    (hready : (s.pc t).ready = true) :
    History Q { s.goto t (.enqLoadTail d) with calls := s.calls ++ [(t, d)] } where
  producer := by
    intro u
    have hold : claimsOf s.enqs u ++ (s.pc u).pending = s.callsOf u := h.producer u
    by_cases hu : u = t
    · subst hu
      rw [(Pc.ready_iff hready).1, List.append_nil] at hold
      simp [Produced, Queue.callsOf, Pc.pending, hold]
    · simpa [Produced, Queue.callsOf, Function.update_of_ne hu, Ne.symm hu] using hold
  stored := fun _ _ _ hmem hpos =>
    stored_frame h rfl (Pc.ready_iff hready).2.1 hmem hpos fun hseq => ⟨hseq, rfl⟩
  returned := h.returned
  rets_nodup := h.rets_nodup
  taken := forall_update ((h.taken t).of_none (Pc.ready_iff hready).2.2) fun u _ => h.taken u
  fresh := forall_update (P := fun _ q => Fresh s q) (fresh_of_none rfl) fun u _ => h.fresh u

theorem history_claimEnqueue {s : Queue Tid ι α} (h : History Q s) {t : Tid} {d : Payload ι α}
    {pos : ℕ} (hpc : s.pc t = .enqCas d pos) :
    History Q { s.goto t (.enqCopy d pos ∅) with
      tail := succWord pos, enqs := s.enqs ++ [(pos, t, d)] } where
  producer := by
    intro u
    have hold : claimsOf s.enqs u ++ (s.pc u).pending = s.callsOf u := h.producer u
    rw [Produced, claimsOf_append]
    by_cases hu : u = t
    · subst hu
      rw [hpc] at hold
      simpa [claimsOf, Pc.pending, Queue.callsOf] using hold
    · simpa [claimsOf, Queue.callsOf, Function.update_of_ne hu, Ne.symm hu] using hold
  stored := by
    intro p u d' hmem hp
    rcases List.mem_append.mp hmem with hmem | hmem
    · exact stored_frame h rfl (by rw [hpc]; rfl) hmem hp fun hseq => ⟨hseq, rfl⟩
    · simp only [List.mem_singleton, Prod.mk.injEq] at hmem
      obtain ⟨rfl, rfl, rfl⟩ := hmem
      exact Or.inl ⟨∅, by simp⟩
  returned := by
    intro p u d' hmem
    obtain ⟨hdeq, v, hv⟩ := h.returned p u d' hmem
    exact ⟨hdeq, v, List.mem_append_left _ hv⟩
  rets_nodup := h.rets_nodup
  taken := forall_update ((h.taken t).of_none (by rw [hpc]; rfl)) fun u _ => h.taken u
  fresh := forall_update (P := fun _ q => Fresh s q) (fresh_of_none rfl) fun u _ => h.fresh u

theorem history_claimDequeue {s : Queue Tid ι α} (hi : Inv Q s) (hb : s.tail < 2 ^ 63)
    (h : History Q s) {t : Tid} {buf : Payload ι α} {pos : ℕ} (hpc : s.pc t = .deqCas buf pos)
    (hhead : s.head = pos) :
    History Q { s.goto t (.deqCopy buf pos ∅) with
      head := succWord pos, deqs := s.deqs ++ [(pos, t)] } where
  producer := by
    have ht : Produced s t (.deqCopy buf pos ∅) := by
      have hold := h.producer t
      rw [Produced, hpc] at hold
      exact hold
    exact forall_update ht fun u _ => h.producer u
  stored := by
    intro p u d' hmem hp
    have hle := hi.head_le
    rw [succWord_eq (by omega)] at hp
    have hp : pos + 1 ≤ p := hp
    exact stored_frame h rfl (by rw [hpc]; rfl) hmem (by omega) fun hseq => ⟨hseq, rfl⟩
  returned := by
    intro p u d' hmem
    obtain ⟨hdeq, henq⟩ := h.returned p u d' hmem
    exact ⟨List.mem_append_left _ hdeq, henq⟩
  rets_nodup := h.rets_nodup
  taken := by
    refine forall_update (fun p hmem => ?_) fun u hu p hmem => ?_
    · rcases List.mem_append.mp hmem with hmem | hmem
      · exact (h.taken t).of_none (by rw [hpc]; rfl) p hmem
      · simp only [List.mem_singleton, Prod.mk.injEq, and_true] at hmem
        exact Or.inl (by rw [hmem]; rfl)
    · rcases List.mem_append.mp hmem with hmem | hmem
      · exact h.taken u p hmem
      · simp [hu] at hmem
  fresh := by
    refine forall_update (P := fun _ q => Fresh s q) (fun p hp hmem => ?_) fun u _ => h.fresh u
    -- a ticket handed over lies below `head`, the new one does not
    obtain rfl : pos = p := by simpa [Pc.reading] using hp
    obtain ⟨⟨q, u, d⟩, hret, rfl⟩ := List.mem_map.mp hmem
    exact absurd hhead (Nat.ne_of_gt (hi.lt_head (h.returned q u d hret).1))

/-- A producer at work, copying or publishing, leaves the history of the others alone. -/
theorem produced_of_writing {s : Queue Tid ι α} (h : History Q s) {t : Tid} {d : Payload ι α}
    {pos : ℕ} {done : Finset ι} (hpc : s.pc t = .enqCopy d pos done) {p : Pc ι α}
    (hp : p.pending = []) : Produced s t p := by
  have hold := h.producer t
  rw [Produced, hpc] at hold
  rw [Produced, hp]
  exact hold

section Steps

variable [DecidableEq ι]

theorem history_move {s : Queue Tid ι α} (h : History Q s) {t : Tid} {p : Pc ι α}
    (hloc : Local Q s (s.pc t) p) : History Q (s.goto t p) where
  producer := by
    have ht : Produced s t p := by
      rw [Produced, pending_of_local hloc]
      exact h.producer t
    exact forall_update ht fun u _ => h.producer u
  stored := fun _ _ _ hmem hpos =>
    stored_frame h rfl (writing_of_local hloc) hmem hpos fun hseq => ⟨hseq, rfl⟩
  returned := h.returned
  rets_nodup := h.rets_nodup
  taken := by
    have ht : Taken s t p := by
      rw [Taken, reading_of_local hloc]
      exact h.taken t
    exact forall_update ht fun u _ => h.taken u
  fresh := by
    have ht : Fresh s p := by
      rw [Fresh, reading_of_local hloc]
      exact h.fresh t
    exact forall_update (P := fun _ q => Fresh s q) ht fun u _ => h.fresh u

theorem history_write {s : Queue Tid ι α} (hi : Inv Q s) (h : History Q s) {t : Tid}
    {d : Payload ι α} {pos : ℕ} {done : Finset ι} (i : ι) (hpc : s.pc t = .enqCopy d pos done) :
    History Q { s.goto t (.enqCopy d pos (insert i done)) with
      data := Function.update s.data (Q.slot pos)
        (Function.update (s.data (Q.slot pos)) i (d i)) } where
  producer := forall_update (produced_of_writing h hpc rfl) fun u _ => h.producer u
  stored := by
    intro p u d' hmem hp
    obtain ⟨h1, h2, h3, -⟩ : ThreadInv Q s t (.enqCopy d pos done) := hpc ▸ hi.thread t
    rcases h.stored p u d' hmem hp with ⟨done', hu⟩ | ⟨hseq, hdata⟩
    · by_cases hut : u = t
      · subst hut
        rw [hpc] at hu
        cases hu
        exact Or.inl ⟨insert i done, by simp⟩
      · exact Or.inl ⟨done', by simpa [Function.update_of_ne hut] using hu⟩
    · have hlt := hi.lt_tail hmem
      have hne : Q.slot p ≠ Q.slot pos := by
        apply slot_ne_of_claimed hi hp (Nat.lt_of_lt_of_le hlt hi.tail_le) h1 h2
        rintro rfl
        omega
      exact Or.inr ⟨hseq, by simpa only [Function.update_of_ne hne] using hdata⟩
  returned := h.returned
  rets_nodup := h.rets_nodup
  taken := forall_update ((h.taken t).of_none (by rw [hpc]; rfl)) fun u _ => h.taken u
  fresh := forall_update (P := fun _ q => Fresh s q) (fresh_of_none rfl) fun u _ => h.fresh u

omit [DecidableEq ι] in
theorem history_publish [Fintype ι] {s : Queue Tid ι α} (hi : Inv Q s) (hb : s.tail < 2 ^ 63)
    (h : History Q s) {t : Tid} {d : Payload ι α} {pos : ℕ}
    (hpc : s.pc t = .enqCopy d pos Finset.univ) :
    History Q { s.goto t .idle with
      seq := Function.update s.seq (Q.slot pos) (succWord pos) } where
  producer := forall_update (produced_of_writing h hpc rfl) fun u _ => h.producer u
  stored := by
    intro p u d' hmem hp
    obtain ⟨h1, h2, h3, -, h5⟩ : ThreadInv Q s t (.enqCopy d pos Finset.univ) := hpc ▸ hi.thread t
    rw [succWord_eq (by omega)]
    rcases h.stored p u d' hmem hp with ⟨done', hu⟩ | ⟨hseq, hdata⟩
    · by_cases hut : u = t
      · -- the published ticket itself
        subst hut
        rw [hpc] at hu
        cases hu
        exact Or.inr ⟨Function.update_self .., funext fun i => h5 i (Finset.mem_univ i)⟩
      · exact Or.inl ⟨done', by simpa [Function.update_of_ne hut] using hu⟩
    · have hlt := hi.lt_tail hmem
      have hne : Q.slot p ≠ Q.slot pos := by
        apply slot_ne_of_claimed hi hp (Nat.lt_of_lt_of_le hlt hi.tail_le) h1 h2
        rintro rfl
        omega
      exact Or.inr ⟨by simpa only [Function.update_of_ne hne] using hseq, hdata⟩
  returned := h.returned
  rets_nodup := h.rets_nodup
  taken := forall_update ((h.taken t).of_none (by rw [hpc]; rfl)) fun u _ => h.taken u
  fresh := forall_update (P := fun _ q => Fresh s q) (fresh_of_none rfl) fun u _ => h.fresh u

omit [DecidableEq ι] in
theorem history_release [Fintype ι] {s : Queue Tid ι α} (hi : Inv Q s) (h : History Q s) {t : Tid}
    {buf : Payload ι α} {pos : ℕ} (hpc : s.pc t = .deqCopy buf pos Finset.univ) :
    History Q { s.goto t (.dequeued true buf) with
      seq := Function.update s.seq (Q.slot pos) ((pos + Q.size) % 2 ^ 64)
      rets := s.rets ++ [(pos, t, buf)] } := by
  obtain ⟨h1, h2, -, h4, ⟨v, hv⟩, h6⟩ : ThreadInv Q s t (.deqCopy buf pos Finset.univ) :=
    hpc ▸ hi.thread t
  have hbuf : s.data (Q.slot pos) = buf := funext fun i => (h6 i (Finset.mem_univ i)).symm
  have hfresh := h.fresh t pos (by rw [hpc]; rfl)
  refine ⟨?_, ?_, ?_, ?_, ?_, ?_⟩
  · have ht : Produced s t (.dequeued true buf) := by
      have hold := h.producer t
      rw [Produced, hpc] at hold
      exact hold
    exact forall_update ht fun u _ => h.producer u
  · intro p u d' hmem hp
    have hne := slot_ne_of_reader h1 h2 hp (hi.lt_tail hmem)
    refine stored_frame h rfl (by rw [hpc]; rfl) hmem hp fun hseq => ⟨?_, rfl⟩
    simpa only [Function.update_of_ne hne] using hseq
  · intro p u d' hmem
    rcases List.mem_append.mp hmem with hmem | hmem
    · exact h.returned p u d' hmem
    · simp only [List.mem_singleton, Prod.mk.injEq] at hmem
      obtain ⟨rfl, rfl, rfl⟩ := hmem
      exact ⟨h4, v, hbuf ▸ hv⟩
  · rw [List.map_append, List.nodup_append]
    refine ⟨h.rets_nodup, by simp, ?_⟩
    intro p hp q hq
    simp only [List.map_cons, List.map_nil, List.mem_singleton] at hq
    rintro rfl
    exact hfresh (hq ▸ hp)
  · refine forall_update (fun p hmem => ?_) fun u _ p hmem => ?_
    · rcases h.taken t p hmem with hread | ⟨d, hd⟩
      · rw [hpc] at hread
        obtain rfl : pos = p := by simpa [Pc.reading] using hread
        exact Or.inr ⟨buf, by simp⟩
      · exact Or.inr ⟨d, List.mem_append_left _ hd⟩
    · rcases h.taken u p hmem with hread | ⟨d, hd⟩
      · exact Or.inl hread
      · exact Or.inr ⟨d, List.mem_append_left _ hd⟩
  · intro u p hp
    by_cases hu : u = t
    · subst hu
      simp [Pc.reading] at hp
    · have hread : (s.pc u).reading = some p := by simpa [Function.update_of_ne hu] using hp
      rw [List.map_append, List.mem_append, not_or]
      refine ⟨h.fresh u p hread, ?_⟩
      simp only [List.map_cons, List.map_nil, List.mem_singleton]
      rintro rfl
      exact hu (hi.reader_unique u t p hread (by rw [hpc]; rfl))

/-- Every step preserves the history invariant. -/
theorem history_trans [Fintype ι] {s s' : Queue Tid ι α} {t : Tid} (hi : Inv Q s)
    (hb : s.tail < 2 ^ 63) (h : History Q s) (hstep : Trans Q s t s') : History Q s' := by
  cases hstep with
  | move hloc => exact history_move h hloc
  | callEnqueue d hready => exact history_callEnqueue h d hready
  | claimEnqueue d pos hpc htail => exact history_claimEnqueue h hpc
  | write d pos done i hpc => exact history_write hi h i hpc
  | publish d pos hpc => exact history_publish hi hb h hpc
  | claimDequeue buf pos hpc hhead => exact history_claimDequeue hi hb h hpc hhead
  | release buf pos hpc => exact history_release hi h hpc

/-- **The history invariant holds in every reachable state.** -/
theorem history_of_reachable [Fintype ι] {s : Queue Tid ι α} (hr : (machine Q).Reachable s)
    (hb : s.enqs.length < 2 ^ 63) : History Q s := by
  induction hr with
  | init hs =>
    obtain ⟨mem, rfl⟩ := hs
    exact history_init mem
  | @step u v a hu hst ih =>
    have htrans : Trans Q u a.1 v := trans_of_step hst
    have hle := enqs_length_le_of_trans htrans
    have hi : Inv Q u := inv_of_reachable hu (by omega)
    exact history_trans hi (by rw [hi.tail_eq]; omega) (ih (by omega)) htrans

end Steps

/-! ### The contract -/

/-- **Exactly-once delivery**: the contract of the queue, read off its history. -/
structure Delivery (Q : QueueSize) (s : Queue Tid ι α) : Prop where
  /-- A ticket is claimed by at most one enqueue. -/
  enq_once : (s.enqs.map (·.1)).Nodup
  /-- A ticket is claimed by at most one dequeue. -/
  deq_once : (s.deqs.map (·.1)).Nodup
  /-- A ticket is handed over at most once. -/
  ret_once : (s.rets.map (·.1)).Nodup
  /-- What a dequeue hands over is what was enqueued under the ticket it claimed. -/
  untorn : ∀ p t d, (p, t, d) ∈ s.rets → (p, t) ∈ s.deqs ∧ ∃ u, (p, u, d) ∈ s.enqs
  /-- No event is lost: its producer is still writing it, or it is published in
  its cell, or a consumer has claimed it, and is copying it or has handed it over. -/
  kept : ∀ p u d, (p, u, d) ∈ s.enqs →
    (∃ done, s.pc u = .enqCopy d p done) ∨
      (s.seq (Q.slot p) = p + 1 ∧ s.data (Q.slot p) = d) ∨
        ∃ t, (p, t) ∈ s.deqs ∧ ((s.pc t).reading = some p ∨ (p, t, d) ∈ s.rets)
  /-- The tickets are dequeued in the order they were enqueued. -/
  fifo : s.deqs.map (·.1) = (s.enqs.map (·.1)).take s.deqs.length
  /-- A producer's dequeued events are the first of its calls, in call order. -/
  producer_order : ∀ t, claimsOf (s.enqs.take s.deqs.length) t <+: s.callsOf t
  /-- Once every thread is outside and the ring is empty, everything is delivered. -/
  drained : (∀ t, (s.pc t).ready = true) → s.head = s.tail →
    (s.rets.map fun r => (r.1, r.2.2)).Perm (s.enqs.map fun e => (e.1, e.2.2))

omit [DecidableEq Tid] in
/-- An enqueued ticket has one payload. -/
theorem Inv.payload_unique {s : Queue Tid ι α} (hi : Inv Q s) {p : ℕ} {t u : Tid}
    {d d' : Payload ι α} (h : (p, t, d) ∈ s.enqs) (h' : (p, u, d') ∈ s.enqs) : d = d' := by
  have hnodup : (s.enqs.map (·.1)).Nodup := hi.enqs_tickets ▸ List.nodup_range
  have heq := List.inj_on_of_nodup_map hnodup h h' rfl
  simp only [Prod.mk.injEq] at heq
  exact heq.2.2

/-- With every thread outside and the ring empty, deliveries match enqueues. -/
theorem rets_perm {s : Queue Tid ι α} (hi : Inv Q s) (h : History Q s)
    (hready : ∀ t, (s.pc t).ready = true) (hempty : s.head = s.tail) :
    (s.rets.map fun r => (r.1, r.2.2)).Perm (s.enqs.map fun e => (e.1, e.2.2)) := by
  have hrets : (s.rets.map fun r => (r.1, r.2.2)).Nodup :=
    List.Nodup.of_map Prod.fst (by simpa [List.map_map, Function.comp_def] using h.rets_nodup)
  have henqs : (s.enqs.map fun e => (e.1, e.2.2)).Nodup := by
    apply List.Nodup.of_map Prod.fst
    have hnodup : (s.enqs.map (·.1)).Nodup := hi.enqs_tickets ▸ List.nodup_range
    simpa [List.map_map, Function.comp_def] using hnodup
  refine (List.perm_ext_iff_of_nodup hrets henqs).mpr fun ⟨p, d⟩ => ⟨fun hmem => ?_, fun hmem => ?_⟩
  · obtain ⟨⟨q, t, d'⟩, hret, heq⟩ := List.mem_map.mp hmem
    obtain ⟨rfl, rfl⟩ : q = p ∧ d' = d := by simpa using heq
    obtain ⟨-, u, hu⟩ := h.returned q t d' hret
    exact List.mem_map.mpr ⟨_, hu, rfl⟩
  · obtain ⟨⟨q, u, d'⟩, henq, heq⟩ := List.mem_map.mp hmem
    obtain ⟨rfl, rfl⟩ : q = p ∧ d' = d := by simpa using heq
    -- the ticket is below `head`, so some consumer took it, and it is back outside
    have hlt : q < s.head := hempty ▸ hi.lt_tail henq
    rw [← List.mem_range, ← hi.deqs_tickets] at hlt
    obtain ⟨⟨q', t⟩, hdeq, rfl⟩ := List.mem_map.mp hlt
    rcases h.taken t q' hdeq with hread | ⟨d'', hret⟩
    · rw [(Pc.ready_iff (hready t)).2.2] at hread
      cases hread
    · obtain ⟨-, v, hv⟩ := h.returned q' t d'' hret
      obtain rfl := hi.payload_unique hv henq
      exact List.mem_map.mpr ⟨_, hret, rfl⟩

/-- **Every reachable state of the queue honours the contract**: for every
number of threads, every power-of-two size and every interleaving with fewer
than `2 ^ 63` enqueues. -/
theorem delivery_of_reachable [Fintype ι] [DecidableEq ι] {s : Queue Tid ι α}
    (hr : (machine Q).Reachable s) (hb : s.enqs.length < 2 ^ 63) : Delivery Q s := by
  have hi := inv_of_reachable hr hb
  have h := history_of_reachable hr hb
  refine ⟨hi.enqs_tickets ▸ List.nodup_range, hi.deqs_tickets ▸ List.nodup_range, h.rets_nodup,
    h.returned, ?_, ?_, ?_, rets_perm hi h⟩
  · intro p u d hmem
    rcases Nat.lt_or_ge p s.head with hlt | hge
    · rw [← List.mem_range, ← hi.deqs_tickets] at hlt
      obtain ⟨⟨p', t⟩, hdeq, rfl⟩ := List.mem_map.mp hlt
      refine Or.inr (Or.inr ⟨t, hdeq, (h.taken t p' hdeq).imp_right ?_⟩)
      rintro ⟨d', hret⟩
      obtain ⟨-, v, hv⟩ := h.returned p' t d' hret
      exact hi.payload_unique hv hmem ▸ hret
    · exact (h.stored p u d hmem hge).imp_right Or.inl
  · have hle := hi.head_le
    rw [hi.deqs_tickets, hi.enqs_tickets, ← hi.head_eq, List.take_range, Nat.min_eq_left hle]
  · intro t
    have hprod : claimsOf s.enqs t ++ (s.pc t).pending = s.callsOf t := h.producer t
    rw [← hprod]
    refine List.IsPrefix.trans ?_ (List.prefix_append _ _)
    exact ((List.take_prefix _ _).filter _).map _

/-- Two threads over a ring of two slots: thread 0 enqueues a two-word payload,
thread 1 takes it while thread 0 starts its next call. -/
def deliverySchedule : List (ℕ × Move (Fin 2) ℕ) :=
  [(0, .callEnqueue ![7, 9]), (0, .go), (0, .go), (0, .spurious), (0, .go), (0, .go),
   (1, .callDequeue ![0, 0]), (1, .go), (0, .copy 1), (0, .copy 0), (0, .go), (1, .go), (1, .go),
   (1, .copy 0), (0, .callEnqueue ![8, 8]), (0, .go), (1, .copy 1), (1, .go)]

theorem delivery_of_reachable_two_threads :
    ∃ s : Queue ℕ (Fin 2) ℕ, (machine ⟨1, by decide, by decide⟩).Reachable s ∧
      s.rets = [(0, 1, ![7, 9])] ∧ Delivery ⟨1, by decide, by decide⟩ s := by
  have heval : ((machine ⟨1, by decide, by decide⟩).exec (fun _ _ => true)
      (initMasterQueue fun _ => ![0, 0]) deliverySchedule).map
        (fun s : Queue ℕ (Fin 2) ℕ => (s.rets, s.enqs.length)) = some ([(0, 1, ![7, 9])], 1) := by
    decide
  obtain ⟨s, hpath, hq⟩ := Machine.exists_path_of_exec heval
  obtain ⟨hrets, hlen⟩ := Prod.mk.inj hq
  have hr := hpath.reachable (.init ⟨_, rfl⟩)
  exact ⟨s, hr, hrets, delivery_of_reachable hr (by rw [hlen]; decide)⟩

end Mpmc
end SovereignSeed
