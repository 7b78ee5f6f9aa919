import SovereignSeed.Mpmc.Delivery

/-!
# Producers and consumers

In the programs around the queue a thread plays one part: the workers only
enqueue, the logger only dequeues.  What such a thread can do to the queue is
less than what `Trans` allows, and that is what the programs' own invariants
are carried by.

## Main definitions

* `Pc.producing`, `Pc.consuming` — the control points of either part.
* `Consumed` — what a step of a consumer does to the history.

## Main results

* `producer_step`, `consumer_step` — a step inside a call, by either part.
* `Consumed.taken` — a single consumer accounts for every ticket claimed.
-/

namespace SovereignSeed
namespace Mpmc

variable {Tid ι α : Type*} {Q : QueueSize}

/-- The control points of a thread that only calls `mpmc_enqueue`. -/
def Pc.producing : Pc ι α → Bool
  | .idle => true
  | .enqLoadTail _ => true
  | .enqYield _ => true
  | .enqLoadSeq _ _ => true
  | .enqCas _ _ => true
  | .enqCopy _ _ _ => true
  | _ => false

/-- The control points of a thread that only calls `mpmc_dequeue`. -/
def Pc.consuming : Pc ι α → Bool
  | .idle => true
  | .dequeued _ _ => true
  | .deqLoadHead _ => true
  | .deqLoadSeq _ _ => true
  | .deqCas _ _ => true
  | .deqCopy _ _ _ => true
  | _ => false

/-- What thread `t` has just been handed by `mpmc_dequeue`. -/
def Pc.handed : Pc ι α → List (Payload ι α)
  | .dequeued true buf => [buf]
  | _ => []

/-- A thread inside a call has been handed nothing yet. -/
theorem handed_of_not_ready {p : Pc ι α} (h : p.ready = false) : p.handed = [] := by
  cases p <;> first | rfl | cases h

/-- What a step of a consumer does to the history: nothing, the claim of a
ticket, or the hand-over of the ticket it was copying. -/
inductive Consumed (s s' : Queue Tid ι α) (t : Tid) : Prop
  | nothing : s'.head = s.head → s'.deqs = s.deqs → s'.rets = s.rets →
      (s'.pc t).reading = (s.pc t).reading → (s'.pc t).handed = [] → Consumed s s' t
  | claim (pos : ℕ) : s'.deqs = s.deqs ++ [(pos, t)] → s'.rets = s.rets →
      (s.pc t).reading = none → (s'.pc t).reading = some pos → (s'.pc t).handed = [] →
      Consumed s s' t
  | handOver (pos : ℕ) (buf : Payload ι α) : s'.head = s.head → s'.deqs = s.deqs →
      s'.rets = s.rets ++ [(pos, t, buf)] → (s.pc t).reading = some pos →
      (s'.pc t).reading = none → (s'.pc t).handed = [buf] → Consumed s s' t

namespace Consumed

variable {s s' : Queue Tid ι α} {t : Tid}

/-- What a step hands over, its consumer has in hand. -/
theorem map_rets {β : Type*} (h : Consumed s s' t) (f : Payload ι α → β) :
    s'.rets.map (fun r => f r.2.2) = s.rets.map (fun r => f r.2.2) ++ (s'.pc t).handed.map f := by
  cases h with
  | nothing _ _ hr _ hnew => simp [hr, hnew]
  | claim pos _ hr _ _ hnew => simp [hr, hnew]
  | handOver pos buf _ _ hr _ _ hnew => simp [hr, hnew]

/-- A single consumer keeps every claimed ticket handed over, or being copied out. -/
theorem taken (h : Consumed s s' t)
    (htaken : s.rets.map (·.1) ++ (s.pc t).reading.toList = s.deqs.map (·.1)) :
    s'.rets.map (·.1) ++ (s'.pc t).reading.toList = s'.deqs.map (·.1) := by
  cases h with
  | nothing _ hd hr hread _ => rwa [hd, hr, hread]
  | claim pos hd hr hold hnew _ =>
    rw [hold] at htaken
    simp only [hd, hr, hnew, List.map_append, ← htaken]
    simp
  | handOver pos buf _ hd hr hold hnew _ =>
    rw [hold] at htaken
    simp only [hd, hr, hnew, List.map_append, ← htaken]
    simp

theorem deqs_length_le (h : Consumed s s' t) : s.deqs.length ≤ s'.deqs.length := by
  cases h with
  | nothing _ hd => exact (congrArg List.length hd).ge
  | claim pos hd =>
    rw [hd, List.length_append]
    exact Nat.le_add_right _ _
  | handOver pos buf _ hd => exact (congrArg List.length hd).ge

end Consumed

variable [DecidableEq Tid] [Fintype ι] [DecidableEq ι]

/-- A step inside a call is taken by a thread that is inside, moves that thread
alone, and calls nothing. -/
theorem inner_step {s s' : Queue Tid ι α} {t : Tid} {m : Move ι α}
    (h : step Q s (t, m) = some s') (hm : m.inner = true) :
    (s.pc t).ready = false ∧ s'.calls = s.calls ∧ ∀ u, u ≠ t → s'.pc u = s.pc u := by
  have hready : (s.pc t).ready = false := by
    cases m with
    | callEnqueue => cases hm
    | callDequeue => cases hm
    | go => cases hp : s.pc t <;> simp_all [step, Pc.ready]
    | spurious => cases hp : s.pc t <;> simp_all [step, Pc.ready]
    | copy => cases hp : s.pc t <;> simp_all [step, Pc.ready]
  have hother : ∀ (p : Pc ι α) u, u ≠ t → Function.update s.pc t p u = s.pc u :=
    fun p u hu => Function.update_of_ne hu p s.pc
  cases trans_of_step h with
  | callEnqueue d hr => rw [hready] at hr; cases hr
  | move => exact ⟨hready, rfl, hother _⟩
  | claimEnqueue => exact ⟨hready, rfl, hother _⟩
  | write => exact ⟨hready, rfl, hother _⟩
  | publish => exact ⟨hready, rfl, hother _⟩
  | claimDequeue => exact ⟨hready, rfl, hother _⟩
  | release => exact ⟨hready, rfl, hother _⟩

omit [DecidableEq Tid] [Fintype ι] in
/-- A local step inside a call keeps a producer a producer. -/
theorem producing_of_local {s : Queue Tid ι α} {p p' : Pc ι α} (h : Local Q s p p')
    (hp : p.producing = true) (hready : p.ready = false) : p'.producing = true := by
  cases h with
  | callDequeue buf hr => rw [hready] at hr; cases hr
  | loadTail | yield | enqSeqEq | enqSeqLt | enqSeqGt | enqCasFail => rfl
  | loadHead | deqSeqEq | deqSeqLt | deqSeqGt | deqCasFail | read => cases hp

omit [DecidableEq Tid] [Fintype ι] in
/-- A local step inside a call keeps a consumer a consumer. -/
theorem consuming_of_local {s : Queue Tid ι α} {p p' : Pc ι α} (h : Local Q s p p')
    (hp : p.consuming = true) : p'.consuming = true := by
  cases h with
  | callDequeue | loadHead | deqSeqEq | deqSeqLt | deqSeqGt | deqCasFail | read => rfl
  | loadTail | yield | enqSeqEq | enqSeqLt | enqSeqGt | enqCasFail => cases hp

omit [DecidableEq Tid] [Fintype ι] in
/-- A local step hands nothing over. -/
theorem handed_of_local {s : Queue Tid ι α} {p p' : Pc ι α} (h : Local Q s p p') :
    p'.handed = [] := by
  cases h <;> rfl

/-- **A producer's step** leaves the consumers' side of the history alone. -/
theorem producer_step {s s' : Queue Tid ι α} {t : Tid} (h : Trans Q s t s')
    (hp : (s.pc t).producing = true) (hready : (s.pc t).ready = false) :
    s'.head = s.head ∧ s'.deqs = s.deqs ∧ s'.rets = s.rets ∧ (s'.pc t).producing = true := by
  cases h with
  | @move p hloc =>
    refine ⟨rfl, rfl, rfl, ?_⟩
    rw [Queue.goto_pc, Function.update_self]
    exact producing_of_local hloc hp hready
  | callEnqueue d hr => rw [hready] at hr; cases hr
  | claimEnqueue => exact ⟨rfl, rfl, rfl, by simp [Pc.producing]⟩
  | write => exact ⟨rfl, rfl, rfl, by simp [Pc.producing]⟩
  | publish => exact ⟨rfl, rfl, rfl, by simp [Pc.producing]⟩
  | claimDequeue buf pos hpc => rw [hpc] at hp; cases hp
  | release buf pos hpc => rw [hpc] at hp; cases hp

/-- **A consumer's step** leaves the producers' side of the history alone. -/
theorem consumer_step {s s' : Queue Tid ι α} {t : Tid} (h : Trans Q s t s')
    (hp : (s.pc t).consuming = true) (hready : (s.pc t).ready = false) :
    s'.tail = s.tail ∧ s'.enqs = s.enqs ∧ (s'.pc t).consuming = true ∧ Consumed s s' t := by
  cases h with
  | @move p hloc =>
    refine ⟨rfl, rfl, ?_, .nothing rfl rfl rfl ?_ ?_⟩ <;> rw [Queue.goto_pc, Function.update_self]
    · exact consuming_of_local hloc hp
    · exact reading_of_local hloc
    · exact handed_of_local hloc
  | callEnqueue d hr => rw [hready] at hr; cases hr
  | claimEnqueue d pos hpc => rw [hpc] at hp; cases hp
  | write d pos done i hpc => rw [hpc] at hp; cases hp
  | publish d pos hpc => rw [hpc] at hp; cases hp
  | claimDequeue buf pos hpc =>
    exact ⟨rfl, rfl, by simp [Pc.consuming],
      .claim pos rfl rfl (by rw [hpc]; rfl) (by simp [Pc.reading]) (by simp [Pc.handed])⟩
  | release buf pos hpc =>
    exact ⟨rfl, rfl, by simp [Pc.consuming],
      .handOver pos buf rfl rfl rfl (by rw [hpc]; rfl) (by simp [Pc.reading]) (by simp [Pc.handed])⟩

end Mpmc
end SovereignSeed
