import SovereignSeed.Foundation.Atomic
import SovereignSeed.Foundation.Fifo
import SovereignSeed.Mpmc.GiveUp

/-!
# The queue is linearizable

Seen from outside, a run of the queue is a sequence of calls and returns.  Each call takes
effect at one step between the two: an enqueue at its swap of `tail`, a dequeue at its swap
of `head`, and a dequeue that returns 0 at the load that makes it give up.  In this order
the calls are those of a first-in first-out queue of `QUEUE_SIZE` records.

The one thing the queue may do that a first-in first-out queue may not is to return 0 while
records are waiting.  It does so only beside the enqueue of the front record, which has
taken effect and not returned: behind it later records may be complete, and wait all the
same.

## Main definitions

* `Op`, `Res`, `Effect`, `queueObject` — the queue as an atomic object.
* `shown`, `seen` — the call or return that a step shows.
* `Queue.waiting` — the records in the queue.
* `Implements` — a state of the queue, and a moment of the object it stands for.

## Main results

* `implements_step` — a step is matched by the object.
* `linearizable` — **the calls take effect as those of a bounded first-in first-out queue.**
-/

namespace SovereignSeed
namespace Mpmc

open Atomic (Phase Event Object)

variable {Tid ι α : Type*} {Q : QueueSize}

/-! ### The object -/

/-- The calls of the queue. -/
inductive Op (ι α : Type*)
  | enqueue (data : Payload ι α)
  | dequeue

/-- What the calls return. -/
inductive Res (ι α : Type*)
  | enqueued
  /-- The record, or `none` for a return of 0. -/
  | dequeued (data : Option (Payload ι α))

/-- What a call of thread `t` does to the records waiting, each with the thread that
enqueued it. -/
inductive Effect (Q : QueueSize) (phase : Tid → Phase (Op ι α) (Res ι α)) (t : Tid) :
    List (Tid × Payload ι α) → Op ι α → Res ι α → List (Tid × Payload ι α) → Prop
  | enqueue (d : Payload ι α) (q : List (Tid × Payload ι α)) :
      q.length < Q.size → Effect Q phase t q (.enqueue d) .enqueued (q ++ [(t, d)])
  | dequeue (u : Tid) (d : Payload ι α) (q : List (Tid × Payload ι α)) :
      Effect Q phase t ((u, d) :: q) .dequeue (.dequeued (some d)) q
  /-- There is no record, or the front one is that of an enqueue still in progress. -/
  | giveUp (q : List (Tid × Payload ι α)) :
      (∀ u d r, q = (u, d) :: r → phase u = .done (.enqueue d) .enqueued ∧ ∀ x ∈ r, x.1 ≠ u) →
        Effect Q phase t q .dequeue (.dequeued none) q

/-- The queue as an atomic object. -/
def queueObject (Tid ι α : Type*) (Q : QueueSize) :
    Object Tid (List (Tid × Payload ι α)) (Op ι α) (Res ι α) where
  start := []
  effect := Effect Q

/-- A call that took effect, as one of a first-in first-out queue; a dequeue that gave up
is none. -/
def fifoCall : Tid × Op ι α × Res ι α → Option (Fifo.Call (Payload ι α))
  | (_, .enqueue d, _) => some (.push d true)
  | (_, .dequeue, .dequeued (some d)) => some (.pop (some d))
  | _ => none

/-- **The calls that succeed are those of a first-in first-out queue** of `QUEUE_SIZE`
records. -/
theorem fifoRun_of_run [DecidableEq Tid] {L : Atomic.History Tid (Op ι α) (Res ι α)}
    {es : List (Event Tid (Op ι α) (Res ι α))} {q : List (Tid × Payload ι α)}
    {phase : Tid → Phase (Op ι α) (Res ι α)} (h : (queueObject Tid ι α Q).Run L es q phase) :
    Fifo.Run Q.size (L.filterMap fifoCall) (q.map (·.2)) := by
  induction h with
  | start => exact .start
  | call _ _ _ _ ih => exact ih
  | ret _ _ _ _ _ ih => exact ih
  | effect t op res _ _ heff ih =>
    rw [List.filterMap_append]
    cases heff with
    | enqueue d _ hlt =>
      rw [List.map_append]
      exact ih.call (.push _ _ (by rwa [List.length_map]))
    | dequeue u d _ => exact ih.call (.pop _ _)
    | giveUp _ _ =>
      rw [show [(t, Op.dequeue, Res.dequeued none)].filterMap (fifoCall (ι := ι) (α := α)) = []
        from rfl, List.append_nil]
      exact ih

/-! ### What the machine shows -/

/-- The call or return that shows when thread `t` moves from `p` to `p'`: it goes in from
outside, or comes out. -/
def shown (t : Tid) (p p' : Pc ι α) : List (Event Tid (Op ι α) (Res ι α)) :=
  match p.ready, p' with
  | true, .enqLoadTail d => [.call t (.enqueue d)]
  | true, .deqLoadHead _ => [.call t .dequeue]
  | false, .idle => [.ret t .enqueued]
  | false, .dequeued ret buf => [.ret t (.dequeued (if ret then some buf else none))]
  | _, _ => []

/-- The call or return that a step shows. -/
def seen (s : Queue Tid ι α) (a : Tid × Move ι α) (s' : Queue Tid ι α) :
    List (Event Tid (Op ι α) (Res ι α)) :=
  shown a.1 (s.pc a.1) (s'.pc a.1)

/-- The records in the queue, claimed by a producer and not by a consumer. -/
def Queue.waiting (s : Queue Tid ι α) : List (Tid × Payload ι α) :=
  (s.enqs.drop s.deqs.length).map (·.2)

/-- The phase of thread `t` at a control point. -/
def InPhase (enqs : List (ℕ × Tid × Payload ι α)) (t : Tid) :
    Pc ι α → Phase (Op ι α) (Res ι α) → Prop
  | .idle, phase => phase = .outside
  | .dequeued _ _, phase => phase = .outside
  | .enqLoadTail d, phase => phase = .called (.enqueue d)
  | .enqYield d, phase => phase = .called (.enqueue d)
  | .enqLoadSeq d _, phase => phase = .called (.enqueue d)
  | .enqCas d _, phase => phase = .called (.enqueue d)
  -- the ticket it holds is the last one it has claimed
  | .enqCopy d pos _, phase =>
    phase = .done (.enqueue d) .enqueued ∧ ∀ e ∈ enqs, e.2.1 = t → e.1 ≤ pos
  | .deqLoadHead _, phase => phase = .called .dequeue
  | .deqLoadSeq _ _, phase => phase = .called .dequeue
  | .deqCas _ _, phase => phase = .called .dequeue
  | .deqCopy _ pos _, phase =>
    ∃ u d, (pos, u, d) ∈ enqs ∧ phase = .done .dequeue (.dequeued (some d))

/-- A state of the queue, and a moment of the object it stands for. -/
structure Implements [DecidableEq Tid] (Q : QueueSize) (s : Queue Tid ι α)
    (q : List (Tid × Payload ι α)) (phase : Tid → Phase (Op ι α) (Res ι α)) : Prop where
  ring : Inv Q s
  history : History Q s
  waiting : q = s.waiting
  phases : ∀ t, InPhase s.enqs t (s.pc t) (phase t)

/-! ### The records waiting -/

/-- The front record is the one of ticket `head`. -/
theorem Inv.drop_eq {s : Queue Tid ι α} (h : Inv Q s) (hlt : s.head < s.tail) :
    ∃ u d, s.enqs.drop s.deqs.length = (s.head, u, d) :: s.enqs.drop (s.deqs.length + 1) := by
  rw [← h.head_eq]
  have hlen : s.head < s.enqs.length := by rwa [← h.tail_eq]
  have hticket : s.enqs[s.head].1 = s.head := by
    have hmap : (s.enqs.map (·.1))[s.head]? = (List.range s.tail)[s.head]? := by rw [h.enqs_tickets]
    rw [List.getElem?_map, List.getElem?_eq_getElem hlen, List.getElem?_range hlt] at hmap
    simpa using hmap
  refine ⟨s.enqs[s.head].2.1, s.enqs[s.head].2.2, ?_⟩
  rw [List.drop_eq_getElem_cons hlen]
  simp only [List.cons.injEq, and_true]
  exact Prod.ext hticket rfl

theorem Inv.drop_eq_nil {s : Queue Tid ι α} (h : Inv Q s) (hle : s.tail ≤ s.head) :
    s.waiting = [] := by
  rw [Queue.waiting, List.drop_eq_nil_of_le, List.map_nil]
  rw [← h.head_eq, ← h.tail_eq]
  exact hle

theorem Inv.length_waiting {s : Queue Tid ι α} (h : Inv Q s) :
    s.waiting.length = s.tail - s.head := by
  rw [Queue.waiting, List.length_map, List.length_drop, ← h.head_eq, ← h.tail_eq]

/-- A claim puts a record at the back. -/
theorem Inv.waiting_claim {s : Queue Tid ι α} (h : Inv Q s) (e : ℕ × Tid × Payload ι α) :
    ((s.enqs ++ [e]).drop s.deqs.length).map (·.2) = s.waiting ++ [e.2] := by
  have hle : s.deqs.length ≤ s.enqs.length := by
    rw [← h.head_eq, ← h.tail_eq]
    exact h.head_le
  rw [List.drop_append_of_le_length hle, List.map_append]
  rfl

/-! ### The phases -/

/-- A claim by another thread leaves the phase of a thread alone. -/
theorem InPhase.claim {enqs : List (ℕ × Tid × Payload ι α)} {t : Tid} {p : Pc ι α}
    {phase : Phase (Op ι α) (Res ι α)} (h : InPhase enqs t p phase) {pos : ℕ} {u : Tid}
    (hu : t ≠ u) (d : Payload ι α) : InPhase (enqs ++ [(pos, u, d)]) t p phase := by
  cases p with
  | enqCopy d' pos' done =>
    refine ⟨h.1, fun e he het => ?_⟩
    rcases List.mem_append.mp he with hold | hnew
    · exact h.2 e hold het
    · obtain rfl : e = (pos, u, d) := by simpa using hnew
      exact absurd het.symm hu
  | deqCopy buf pos' done =>
    obtain ⟨v, d', hmem, hphase⟩ := h
    exact ⟨v, d', List.mem_append_left _ hmem, hphase⟩
  | idle | dequeued | enqLoadTail | enqYield | enqLoadSeq | enqCas | deqLoadHead | deqLoadSeq |
    deqCas => exact h

/-- A thread outside the queue is in no call. -/
theorem InPhase.outside {enqs : List (ℕ × Tid × Payload ι α)} {t : Tid} {p : Pc ι α}
    {phase : Phase (Op ι α) (Res ι α)} (h : InPhase enqs t p phase) (hp : p.ready = true) :
    phase = .outside := by
  cases p with
  | idle | dequeued => exact h
  | enqLoadTail | enqYield | enqLoadSeq | enqCas | enqCopy | deqLoadHead | deqLoadSeq | deqCas |
    deqCopy => cases hp

/-- The phases after one thread has moved. -/
theorem phases_update [DecidableEq Tid] {enqs : List (ℕ × Tid × Payload ι α)} {pc : Tid → Pc ι α}
    {phase : Tid → Phase (Op ι α) (Res ι α)} (h : ∀ u, InPhase enqs u (pc u) (phase u)) {t : Tid}
    {p : Pc ι α} {f : Phase (Op ι α) (Res ι α)} (hnew : InPhase enqs t p f) (u : Tid) :
    InPhase enqs u (Function.update pc t p u) (Function.update phase t f u) := by
  by_cases hu : u = t
  · subst hu
    rwa [Function.update_self, Function.update_self]
  · rw [Function.update_of_ne hu, Function.update_of_ne hu]
    exact h u

theorem shown_callEnqueue (t : Tid) {p : Pc ι α} (h : p.ready = true) (d : Payload ι α) :
    shown t p (.enqLoadTail d) = [.call t (.enqueue d)] := by
  simp only [shown, h]

theorem shown_callDequeue (t : Tid) {p : Pc ι α} (h : p.ready = true) (buf : Payload ι α) :
    shown t p (.deqLoadHead buf) = [.call t .dequeue] := by
  simp only [shown, h]

/-- A local step is a call, or the verdict that the ring is empty, or shows nothing. -/
theorem shown_of_local [DecidableEq ι] {s : Queue Tid ι α} {p p' : Pc ι α} (h : Local Q s p p')
    (t : Tid) :
    (p.ready = true ∧ ∃ buf, p' = .deqLoadHead buf) ∨
    (∃ buf pos, p = .deqLoadSeq buf pos ∧ p' = .dequeued false buf ∧
      dif (s.seq (Q.slot pos)) (succWord pos) < 0) ∨
    (shown t p p' = [] ∧ ∀ enqs f, InPhase enqs t p f → InPhase enqs t p' f) := by
  cases h with
  | callDequeue buf hready => exact Or.inl ⟨hready, buf, rfl⟩
  | deqSeqLt buf pos hdif => exact Or.inr (Or.inl ⟨buf, pos, rfl, rfl, hdif⟩)
  | loadTail | yield | enqSeqEq | enqSeqLt | enqSeqGt | enqCasFail | loadHead | deqSeqEq |
    deqSeqGt | deqCasFail | read => exact Or.inr (Or.inr ⟨rfl, fun _ _ hf => hf⟩)

/-! ### The simulation -/

section Steps

variable [DecidableEq Tid] {s : Queue Tid ι α} {q : List (Tid × Payload ι α)}
  {phase : Tid → Phase (Op ι α) (Res ι α)} {L : Atomic.History Tid (Op ι α) (Res ι α)}
  {es : List (Event Tid (Op ι α) (Res ι α))}

/-- **Where a dequeue gives up**, the object lets it. -/
theorem Implements.giveUp (h : Implements Q s q phase) {pos : ℕ} (hempty : EmptyAt s pos)
    (t : Tid) : Effect Q phase t q .dequeue (.dequeued none) q := by
  obtain ⟨hhead, hunpub⟩ := hempty
  rw [h.waiting]
  refine .giveUp _ fun u d r hq => ?_
  have hlt : s.head < s.tail := by
    by_contra hle
    rw [h.ring.drop_eq_nil (Nat.le_of_not_lt hle)] at hq
    cases hq
  obtain ⟨v, d', hdrop⟩ := h.ring.drop_eq hlt
  rw [Queue.waiting, hdrop, List.map_cons, List.cons.injEq, Prod.mk.injEq] at hq
  obtain ⟨⟨rfl, rfl⟩, rfl⟩ := hq
  -- the front ticket is claimed and not published, so its producer is writing it
  have hmem : (s.head, v, d') ∈ s.enqs :=
    List.mem_of_mem_drop (hdrop ▸ List.mem_cons_self (l := s.enqs.drop (s.deqs.length + 1)))
  have hwriting : (s.pc v).writing = some pos := by
    by_contra hw
    exact hunpub ⟨v, d', hhead ▸ hmem, hw⟩
  rcases h.history.stored s.head v d' hmem le_rfl with ⟨done, hpc⟩ | ⟨hseq, -⟩
  · have hphase := h.phases v
    rw [hpc] at hphase
    refine ⟨hphase.1, fun x hx hxv => ?_⟩
    obtain ⟨e, he, rfl⟩ := List.mem_map.mp hx
    -- a later record has a later ticket
    have hle := hphase.2 e (List.mem_of_mem_drop he) hxv
    have hticket : e.1 ∈ (s.enqs.map (·.1)).drop (s.deqs.length + 1) := by
      rw [← List.map_drop]
      exact List.mem_map_of_mem he
    rw [h.ring.enqs_tickets, ← h.ring.head_eq, List.mem_drop_iff_getElem] at hticket
    obtain ⟨i, hi, heq⟩ := hticket
    rw [List.getElem_range] at heq
    omega
  · cases hpc : s.pc v with
    | enqCopy d'' pos' done =>
      obtain ⟨-, -, hseq', -⟩ : ThreadInv Q s v (.enqCopy d'' pos' done) := hpc ▸ h.ring.thread v
      obtain rfl : pos' = pos := by simpa [hpc, Pc.writing] using hwriting
      rw [hhead] at hseq
      omega
    | _ =>
      rw [hpc] at hwriting
      cases hwriting

/-- `Goes L es s t s'`: the object goes on to a moment that the next state stands for. -/
def Goes (Q : QueueSize) (L : Atomic.History Tid (Op ι α) (Res ι α))
    (es : List (Event Tid (Op ι α) (Res ι α))) (s : Queue Tid ι α) (t : Tid)
    (s' : Queue Tid ι α) : Prop :=
  ∃ L' q' phase',
    (queueObject Tid ι α Q).Run (L ++ L') (es ++ shown t (s.pc t) (s'.pc t)) q' phase' ∧
    Implements Q s' q' phase'

/-- A step that shows nothing, keeps the records and leaves its thread in its call. -/
theorem Implements.stutter (h : Implements Q s q phase)
    (hrun : (queueObject Tid ι α Q).Run L es q phase) {t : Tid} {p : Pc ι α} {s' : Queue Tid ι α}
    (hi : Inv Q s') (hh : History Q s') (henqs : s'.enqs = s.enqs) (hdeqs : s'.deqs = s.deqs)
    (hpc : s'.pc = Function.update s.pc t p) (hshown : shown t (s.pc t) p = [])
    (hphase : ∀ f, InPhase s.enqs t (s.pc t) f → InPhase s.enqs t p f) : Goes Q L es s t s' := by
  refine ⟨[], q, phase, ?_, hi, hh, ?_, ?_⟩
  · rw [hpc, Function.update_self, hshown, List.append_nil, List.append_nil]
    exact hrun
  · rw [h.waiting, Queue.waiting, Queue.waiting, henqs, hdeqs]
  · rw [henqs, hpc]
    have hphases := phases_update h.phases (hphase _ (h.phases t))
    rwa [Function.update_eq_self] at hphases

theorem Implements.callEnqueue (h : Implements Q s q phase)
    (hrun : (queueObject Tid ι α Q).Run L es q phase) {t : Tid} {d : Payload ι α}
    (hready : (s.pc t).ready = true) {s' : Queue Tid ι α} (hi : Inv Q s') (hh : History Q s')
    (henqs : s'.enqs = s.enqs) (hdeqs : s'.deqs = s.deqs)
    (hpc : s'.pc = Function.update s.pc t (.enqLoadTail d)) : Goes Q L es s t s' := by
  refine ⟨[], q, Function.update phase t (.called (.enqueue d)), ?_, hi, hh, ?_, ?_⟩
  · rw [hpc, Function.update_self, shown_callEnqueue t hready, List.append_nil]
    exact .call t _ hrun ((h.phases t).outside hready)
  · rw [h.waiting, Queue.waiting, Queue.waiting, henqs, hdeqs]
  · rw [henqs, hpc]
    exact phases_update h.phases rfl

/-- **An enqueue takes effect at its swap of `tail`.** -/
theorem Implements.claimEnqueue (h : Implements Q s q phase)
    (hrun : (queueObject Tid ι α Q).Run L es q phase) {t : Tid} {d : Payload ι α} {pos : ℕ}
    (hpc : s.pc t = .enqCas d pos) (htail : s.tail = pos) {s' : Queue Tid ι α} (hi : Inv Q s')
    (hh : History Q s') (henqs : s'.enqs = s.enqs ++ [(pos, t, d)]) (hdeqs : s'.deqs = s.deqs)
    (hpc' : s'.pc = Function.update s.pc t (.enqCopy d pos ∅)) : Goes Q L es s t s' := by
  have hphase := h.phases t
  rw [hpc] at hphase
  refine ⟨[(t, .enqueue d, .enqueued)], q ++ [(t, d)],
    Function.update phase t (.done (.enqueue d) .enqueued), ?_, hi, hh, ?_, ?_⟩
  · rw [hpc, hpc', Function.update_self]
    have hroom : q.length < Q.size := by
      obtain ⟨-, hseq⟩ : ThreadInv Q s t (.enqCas d pos) := hpc ▸ h.ring.thread t
      have hlt := h.ring.room (by rw [htail]; exact hseq htail.symm)
      have hsize := Q.two_le
      rw [h.waiting, h.ring.length_waiting]
      omega
    rw [show shown t (.enqCas d pos) (.enqCopy d pos ∅) = [] from rfl, List.append_nil]
    exact .effect t _ _ hrun hphase (.enqueue d q hroom)
  · rw [Queue.waiting, henqs, hdeqs, h.ring.waiting_claim, h.waiting]
  · intro u
    rw [henqs, hpc']
    by_cases hu : u = t
    · subst hu
      rw [Function.update_self, Function.update_self]
      refine ⟨rfl, fun e he _ => ?_⟩
      -- the new ticket is later than every other
      rcases List.mem_append.mp he with hold | hnew
      · have hlt := h.ring.lt_tail (p := e.1) (t := e.2.1) (d := e.2.2) hold
        omega
      · obtain rfl : e = (pos, u, d) := by simpa using hnew
        exact le_rfl
    · rw [Function.update_of_ne hu, Function.update_of_ne hu]
      exact (h.phases u).claim hu d

/-- **A dequeue takes effect at its swap of `head`.** -/
theorem Implements.claimDequeue (h : Implements Q s q phase)
    (hrun : (queueObject Tid ι α Q).Run L es q phase) {t : Tid} {buf : Payload ι α} {pos : ℕ}
    (hpc : s.pc t = .deqCas buf pos) (hhead : s.head = pos) {s' : Queue Tid ι α} (hi : Inv Q s')
    (hh : History Q s') (henqs : s'.enqs = s.enqs) (hdeqs : s'.deqs = s.deqs ++ [(pos, t)])
    (hpc' : s'.pc = Function.update s.pc t (.deqCopy buf pos ∅)) : Goes Q L es s t s' := by
  have hphase := h.phases t
  rw [hpc] at hphase
  obtain ⟨-, hseq⟩ : ThreadInv Q s t (.deqCas buf pos) := hpc ▸ h.ring.thread t
  have hlt := h.ring.nonempty (by rw [hhead]; exact hseq hhead.symm)
  obtain ⟨u, d, hdrop⟩ := h.ring.drop_eq hlt
  have hq : q = (u, d) :: s'.waiting := by
    rw [h.waiting, Queue.waiting, Queue.waiting, hdrop, henqs, hdeqs, List.length_append]
    rfl
  have hmem : (pos, u, d) ∈ s.enqs := by
    rw [← hhead]
    exact List.mem_of_mem_drop (hdrop ▸ List.mem_cons_self (l := s.enqs.drop (s.deqs.length + 1)))
  refine ⟨[(t, .dequeue, .dequeued (some d))], s'.waiting,
    Function.update phase t (.done .dequeue (.dequeued (some d))), ?_, hi, hh, rfl, ?_⟩
  · rw [hpc, hpc', Function.update_self,
      show shown t (.deqCas buf pos) (.deqCopy buf pos ∅) = [] from rfl, List.append_nil]
    rw [hq] at hrun
    exact .effect t _ _ hrun hphase (.dequeue u d _)
  · rw [henqs, hpc']
    exact phases_update h.phases ⟨u, d, hmem, rfl⟩

/-- A producer comes out when it has published. -/
theorem Implements.publish (h : Implements Q s q phase)
    (hrun : (queueObject Tid ι α Q).Run L es q phase) {t : Tid} {d : Payload ι α} {pos : ℕ}
    {done : Finset ι} (hpc : s.pc t = .enqCopy d pos done) {s' : Queue Tid ι α} (hi : Inv Q s')
    (hh : History Q s') (henqs : s'.enqs = s.enqs) (hdeqs : s'.deqs = s.deqs)
    (hpc' : s'.pc = Function.update s.pc t .idle) : Goes Q L es s t s' := by
  have hphase := h.phases t
  rw [hpc] at hphase
  refine ⟨[], q, Function.update phase t .outside, ?_, hi, hh, ?_, ?_⟩
  · rw [hpc, hpc', Function.update_self, List.append_nil]
    exact .ret t _ _ hrun hphase.1
  · rw [h.waiting, Queue.waiting, Queue.waiting, henqs, hdeqs]
  · rw [henqs, hpc']
    exact phases_update h.phases rfl

/-- A consumer comes out with the record it took. -/
theorem Implements.release [Fintype ι] (h : Implements Q s q phase)
    (hrun : (queueObject Tid ι α Q).Run L es q phase) {t : Tid} {buf : Payload ι α} {pos : ℕ}
    (hpc : s.pc t = .deqCopy buf pos Finset.univ) {s' : Queue Tid ι α} (hi : Inv Q s')
    (hh : History Q s') (henqs : s'.enqs = s.enqs) (hdeqs : s'.deqs = s.deqs)
    (hpc' : s'.pc = Function.update s.pc t (.dequeued true buf)) : Goes Q L es s t s' := by
  obtain ⟨-, -, -, -, ⟨v, hv⟩, hcopied⟩ : ThreadInv Q s t (.deqCopy buf pos Finset.univ) :=
    hpc ▸ h.ring.thread t
  have hbuf : s.data (Q.slot pos) = buf := funext fun i => (hcopied i (Finset.mem_univ i)).symm
  have hphase := h.phases t
  rw [hpc] at hphase
  obtain ⟨u, d, hmem, hphase⟩ := hphase
  obtain rfl : d = buf := h.ring.payload_unique hmem (hbuf ▸ hv)
  refine ⟨[], q, Function.update phase t .outside, ?_, hi, hh, ?_, ?_⟩
  · rw [hpc, hpc', Function.update_self, List.append_nil]
    exact .ret t _ _ hrun hphase
  · rw [h.waiting, Queue.waiting, Queue.waiting, henqs, hdeqs]
  · rw [henqs, hpc']
    exact phases_update h.phases rfl

/-- **A dequeue that gives up takes effect and comes out at the load that makes it.** -/
theorem Implements.giveUpStep (h : Implements Q s q phase)
    (hrun : (queueObject Tid ι α Q).Run L es q phase) (hb : s.tail < 2 ^ 63) {t : Tid}
    {buf : Payload ι α} {pos : ℕ} (hpc : s.pc t = .deqLoadSeq buf pos)
    (hdif : dif (s.seq (Q.slot pos)) (succWord pos) < 0) {s' : Queue Tid ι α} (hi : Inv Q s')
    (hh : History Q s') (henqs : s'.enqs = s.enqs) (hdeqs : s'.deqs = s.deqs)
    (hpc' : s'.pc = Function.update s.pc t (.dequeued false buf)) : Goes Q L es s t s' := by
  have hphase : InPhase s.enqs t (.deqLoadSeq buf pos) (phase t) := hpc ▸ h.phases t
  have hcalled : phase t = .called .dequeue := hphase
  have hpos : ThreadInv Q s t (.deqLoadSeq buf pos) := hpc ▸ h.ring.thread t
  have hempty := empty_of_dif_neg h.ring h.history hb hpos hdif
  refine ⟨[(t, .dequeue, .dequeued none)], q, Function.update phase t .outside, ?_, hi, hh, ?_, ?_⟩
  · rw [hpc, hpc', Function.update_self]
    have hgiveUp : (queueObject Tid ι α Q).effect phase t q .dequeue (.dequeued none) q :=
      h.giveUp hempty t
    have hret := Object.Run.ret t _ _ (.effect t _ _ hrun hcalled hgiveUp) (Function.update_self ..)
    rwa [Function.update_idem] at hret
  · rw [h.waiting, Queue.waiting, Queue.waiting, henqs, hdeqs]
  · rw [henqs, hpc']
    exact phases_update h.phases rfl

/-- **Every step of the queue is matched by the object.** -/
theorem implements_step [Fintype ι] [DecidableEq ι] (h : Implements Q s q phase)
    (hrun : (queueObject Tid ι α Q).Run L es q phase) (hb : s.tail < 2 ^ 63) {t : Tid}
    {s' : Queue Tid ι α} (hstep : Trans Q s t s') : Goes Q L es s t s' := by
  have hi := inv_trans h.ring hb hstep
  have hh := history_trans h.ring hb h.history hstep
  cases hstep with
  | @move p hloc =>
    rcases shown_of_local hloc t with
      ⟨hready, buf, rfl⟩ | ⟨buf, pos, hpc, rfl, hdif⟩ | ⟨hshown, hphase⟩
    · refine ⟨[], q, Function.update phase t (.called .dequeue), ?_, hi, hh, h.waiting,
        phases_update h.phases rfl⟩
      rw [Queue.goto_pc, Function.update_self, shown_callDequeue t hready, List.append_nil]
      exact .call t _ hrun ((h.phases t).outside hready)
    · exact h.giveUpStep hrun hb hpc hdif hi hh rfl rfl rfl
    · exact h.stutter hrun hi hh rfl rfl rfl hshown (hphase _)
  | callEnqueue d hready => exact h.callEnqueue hrun hready hi hh rfl rfl rfl
  | claimEnqueue d pos hpc htail => exact h.claimEnqueue hrun hpc htail hi hh rfl rfl rfl
  | write d pos done i hpc =>
    exact h.stutter hrun hi hh rfl rfl rfl (by rw [hpc]; rfl) (by rw [hpc]; exact fun _ hf => hf)
  | publish d pos hpc => exact h.publish hrun hpc hi hh rfl rfl rfl
  | claimDequeue buf pos hpc hhead => exact h.claimDequeue hrun hpc hhead hi hh rfl rfl rfl
  | release buf pos hpc => exact h.release hrun hpc hi hh rfl rfl rfl

theorem implements_init (mem : ℕ → Payload ι α) :
    Implements Q (initMasterQueue mem : Queue Tid ι α) [] fun _ => .outside where
  ring := inv_init mem
  history := history_init mem
  waiting := rfl
  phases := fun _ => rfl

/-! ### Every run -/

variable [Fintype ι] [DecidableEq ι]

/-- Claims are never forgotten, so they fit at every step of a run if they fit at its end. -/
theorem path_bounded {as : List (Tid × Move ι α)} {s s' : Queue Tid ι α}
    (h : (machine Q).Path Machine.free s as s') (hb : s'.enqs.length < 2 ^ 63) :
    (machine Q).Path (fun u _ => u.enqs.length < 2 ^ 63) s as s' ∧ s.enqs.length < 2 ^ 63 := by
  induction h with
  | nil => exact ⟨.nil _, hb⟩
  | cons _ hst _ ih =>
    obtain ⟨hpath, hu⟩ := ih hb
    have hle := enqs_length_le_of_trans (trans_of_step hst)
    exact ⟨.cons (by omega) hst hpath, by omega⟩

/-- **The queue is linearizable.**  In every run with fewer than `2 ^ 63` enqueues, from
any memory, there is an order of the calls in which they are those of the object, the
successful ones being calls of a first-in first-out queue of `QUEUE_SIZE` records that
ends with the records waiting; and at every moment of the run the calls up to some point
of this order hold every call that has returned, with what it returned, and none that
has not been made. -/
theorem linearizable {mem : ℕ → Payload ι α} {as : List (Tid × Move ι α)} {s : Queue Tid ι α}
    (h : (machine Q).Path Machine.free (initMasterQueue mem) as s) (hb : s.enqs.length < 2 ^ 63) :
    ∃ L phase,
      (queueObject Tid ι α Q).Run L (Atomic.trace (machine Q) seen (initMasterQueue mem) as)
        s.waiting phase ∧
      Fifo.Run Q.size (L.filterMap fifoCall) (s.waiting.map (·.2)) ∧
      ∀ as₁ as₂, as = as₁ ++ as₂ → ∃ L₁, L₁ <+: L ∧
        Atomic.Timely L₁ (Atomic.trace (machine Q) seen (initMasterQueue mem) as₁) := by
  obtain ⟨L, q, phase, hrun, himp, hcut⟩ :=
    Object.linearized_of_simulation (O := queueObject Tid ι α Q)
      (implements_init mem) (fun L es q phase u a v hrun himp hok hst => by
        refine implements_step himp hrun ?_ (trans_of_step hst)
        rw [himp.ring.tail_eq]
        exact hok) (path_bounded h hb).1
  rw [himp.waiting] at hrun
  refine ⟨L, phase, hrun, fifoRun_of_run hrun, fun as₁ as₂ heq => ?_⟩
  obtain ⟨L₁, v, phase₁, hprefix, hrun₁⟩ := hcut as₁ as₂ heq
  exact ⟨L₁, hprefix, hrun₁.timely⟩

/-- The run of `deliverySchedule`, in which a dequeue hands over a record. -/
theorem linearizable_two_threads :
    ∃ (s : Queue ℕ (Fin 2) ℕ) (L : _) (phase : _),
      s.rets = [(0, 1, ![7, 9])] ∧
      (queueObject ℕ (Fin 2) ℕ ⟨1, by decide, by decide⟩).Run L
        (Atomic.trace (machine ⟨1, by decide, by decide⟩) seen (initMasterQueue fun _ => ![0, 0])
          deliverySchedule) s.waiting phase := by
  have heval : ((machine ⟨1, by decide, by decide⟩).exec (fun _ _ => true)
      (initMasterQueue fun _ => ![0, 0]) deliverySchedule).map
        (fun s : Queue ℕ (Fin 2) ℕ => (s.rets, s.enqs.length)) = some ([(0, 1, ![7, 9])], 1) := by
    decide
  obtain ⟨s, hpath, hq⟩ := Machine.exists_path_of_exec heval
  obtain ⟨hrets, hlen⟩ := Prod.mk.inj hq
  obtain ⟨L, phase, hrun, -⟩ :=
    linearizable (hpath.mono fun _ _ _ => trivial) (by rw [hlen]; decide)
  exact ⟨s, L, phase, hrets, hrun⟩

end Steps

end Mpmc
end SovereignSeed
