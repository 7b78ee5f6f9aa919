import SovereignSeed.Foundation.Shares
import SovereignSeed.Mpmc.Roles
import Mathlib.Algebra.Order.BigOperators.Group.Finset
import Mathlib.Data.Fintype.BigOperators
import Mathlib.Data.Fintype.Option

/-!
# A crew on the queue

The programs around the queue have one shape: `P` producers, each of which
enqueues its rounds in order, and one logger that dequeues.  The threads are
`Option (Fin P)`, with `none` for the logger.

With a single consumer the history says exactly where every ticket is: handed
over, or being copied out by the logger.  So between two of its calls the number
of records handed over is `head`, and once the ring is empty and everybody is
outside, the records handed over are a merge of the producers' rounds.

## Main definitions

* `Crew` — the producers keep to their rounds, and the logger takes every ticket.

## Main results

* `Crew.producer`, `Crew.logger`, `Crew.callEnqueue`, `Crew.callDequeue` — every
  step of a crew keeps it a crew.
* `Crew.head_eq` — `head` counts the records handed over.
* `Crew.merge` — **an emptied ring has handed over a merge of the rounds.**
* `Crew.merge_prefix` — **at any moment it has handed over a merge of their beginnings.**
-/

namespace SovereignSeed
namespace Mpmc

variable {P : ℕ} {ι α : Type*} {Q : QueueSize}

/-- `P` producers that have called `mpmc_enqueue` with the first `issued` of
their rounds, and a logger that only dequeues. -/
structure Crew (Q : QueueSize) (round : Fin P → ℕ → Payload ι α) (issued : Fin P → ℕ)
    (q : Queue (Option (Fin P)) ι α) : Prop where
  ring : Inv Q q
  history : History Q q
  producer_calls : ∀ w, q.callsOf (some w) = (List.range (issued w)).map (round w)
  logger_calls : q.callsOf none = []
  producer_pc : ∀ w, (q.pc (some w)).producing = true
  logger_pc : (q.pc none).consuming = true
  /-- Every claimed ticket is handed over, or being copied out by the logger. -/
  taken : q.rets.map (·.1) ++ (q.pc none).reading.toList = q.deqs.map (·.1)

/-- Rounds within a limit add up to no more than all of them. -/
theorem sum_issued_le {M : ℕ} {issued : Fin P → ℕ} (h : ∀ w, issued w ≤ M) :
    ∑ w, issued w ≤ P * M := by
  simpa using Finset.sum_le_card_nsmul Finset.univ issued M fun w _ => h w

namespace Crew

variable {round : Fin P → ℕ → Payload ι α} {issued : Fin P → ℕ}
  {q q' : Queue (Option (Fin P)) ι α}

theorem init (mem : ℕ → Payload ι α) :
    Crew Q round (fun _ => 0) (initMasterQueue mem) where
  ring := inv_init mem
  history := history_init mem
  producer_calls := fun _ => rfl
  logger_calls := rfl
  producer_pc := fun _ => rfl
  logger_pc := rfl
  taken := rfl

/-- The claims of a thread are no more than its calls. -/
theorem share_length_le (h : Crew Q round issued q) (t : Option (Fin P)) :
    (share (fun e => e.2.1) q.enqs t).length ≤ (q.callsOf t).length := by
  have hprod : claimsOf q.enqs t ++ (q.pc t).pending = q.callsOf t := h.history.producer t
  rw [← hprod, List.length_append, claimsOf, List.length_map]
  exact Nat.le_add_right _ _

theorem share_producer_le (h : Crew Q round issued q) (w : Fin P) :
    (share (fun e => e.2.1) q.enqs (some w)).length ≤ issued w := by
  have hle := h.share_length_le (some w)
  rwa [h.producer_calls, List.length_map, List.length_range] at hle

/-- The logger claims nothing, so the claims of the producers are all there are. -/
theorem length_enqs (h : Crew Q round issued q) :
    q.enqs.length = ∑ w, (share (fun e => e.2.1) q.enqs (some w)).length := by
  have hnone : (share (fun e => e.2.1) q.enqs none).length ≤ 0 := by
    simpa [h.logger_calls] using h.share_length_le none
  rw [length_share (fun e => e.2.1) q.enqs, Fintype.sum_option, Nat.le_zero.mp hnone, Nat.zero_add]

/-- There are no more enqueues than rounds begun. -/
theorem enqs_length_le (h : Crew Q round issued q) : q.enqs.length ≤ ∑ w, issued w := by
  rw [h.length_enqs]
  exact Finset.sum_le_sum fun w _ => h.share_producer_le w

/-- **Outside a dequeue, `head` counts the records handed over.** -/
theorem head_eq (h : Crew Q round issued q) (hreading : (q.pc none).reading = none) :
    q.head = q.rets.length := by
  have htaken := congrArg List.length h.taken
  rw [hreading] at htaken
  rw [h.ring.head_eq]
  simpa using htaken.symm

/-! ### An emptied ring -/

/-- **Once `head` has passed every round begun, the ring is empty and every
producer is outside.** -/
theorem drained (h : Crew Q round issued q) (hhead : ∑ w, issued w ≤ q.head) :
    q.head = q.tail ∧ ∀ w, (q.pc (some w)).ready = true := by
  have hle := h.ring.head_le
  have htail := h.ring.tail_eq
  have henqs := h.enqs_length_le
  have hempty : q.head = q.tail := by omega
  -- the claims add up to the rounds, so no producer is behind its own
  have hall : ∀ w, (share (fun e => e.2.1) q.enqs (some w)).length = issued w := by
    have hsum := h.length_enqs
    have heq : ∑ w, (share (fun e => e.2.1) q.enqs (some w)).length = ∑ w, issued w := by
      omega
    intro w
    exact (Finset.sum_eq_sum_iff_of_le fun w _ => h.share_producer_le w).mp heq w
      (Finset.mem_univ w)
  refine ⟨hempty, fun w => ?_⟩
  have hprod : claimsOf q.enqs (some w) ++ (q.pc (some w)).pending = q.callsOf (some w) :=
    h.history.producer (some w)
  have hpending : (q.pc (some w)).pending = [] := by
    have hlen := congrArg List.length hprod
    rw [h.producer_calls, List.length_append, claimsOf, List.length_map, List.length_map,
      List.length_range] at hlen
    have hclaims := hall w
    rw [share] at hclaims
    exact List.eq_nil_of_length_eq_zero (by omega)
  have hthread := h.ring.thread (some w)
  have hrole := h.producer_pc w
  cases hpc : q.pc (some w) with
  | idle => rfl
  | dequeued => rfl
  | enqLoadTail | enqYield | enqLoadSeq | enqCas => simp [hpc, Pc.pending] at hpending
  | enqCopy d pos done =>
    rw [hpc] at hthread
    have hlow : q.head ≤ pos := hthread.1
    have hhigh : pos < q.tail := hthread.2.1
    omega
  | deqLoadHead | deqLoadSeq | deqCas | deqCopy => simp [hpc, Pc.producing] at hrole

/-- What the queue has handed over is what was enqueued, in ticket order. -/
theorem handed_eq_enqs (h : Crew Q round issued q) (hready : (q.pc none).ready = true)
    (hempty : q.head = q.tail) :
    q.rets.map (fun r => r.2.2) = q.enqs.map fun e => e.2.2 := by
  have htickets : q.rets.map (·.1) = q.enqs.map (·.1) := by
    have htaken := h.taken
    rw [(Pc.ready_iff hready).2.2, Option.toList_none, List.append_nil, h.ring.deqs_tickets,
      hempty, ← h.ring.enqs_tickets] at htaken
    exact htaken
  have hpairs : q.rets.map (fun r => (r.1, r.2.2)) = q.enqs.map fun e => (e.1, e.2.2) := by
    refine eq_of_keys_eq Prod.fst ?_ ?_ ?_
    · simpa [Function.comp_def] using htickets
    · simpa [Function.comp_def, h.ring.enqs_tickets] using List.nodup_range
    · intro a ha
      obtain ⟨⟨p, t, d⟩, hmem, rfl⟩ := List.mem_map.mp ha
      obtain ⟨-, u, hu⟩ := h.history.returned p t d hmem
      exact List.mem_map.mpr ⟨_, hu, rfl⟩
  simpa [Function.comp_def] using congrArg (List.map Prod.snd) hpairs

/-- A producer outside the queue has claimed a ticket for every round it has begun. -/
theorem claims_eq (h : Crew Q round issued q) {w : Fin P} (hready : (q.pc (some w)).ready = true) :
    claimsOf q.enqs (some w) = (List.range (issued w)).map (round w) := by
  have hprod : claimsOf q.enqs (some w) ++ (q.pc (some w)).pending = q.callsOf (some w) :=
    h.history.producer (some w)
  rwa [(Pc.ready_iff hready).1, List.append_nil, h.producer_calls] at hprod

/-- The logger enqueues nothing. -/
theorem enqs_of_producers (h : Crew Q round issued q) :
    ∃ es : List (Fin P × Payload ι α), q.enqs.map (·.2) = es.map (Prod.map some id) := by
  have hprod : claimsOf q.enqs none ++ (q.pc none).pending = q.callsOf none :=
    h.history.producer none
  rw [h.logger_calls, List.append_eq_nil_iff, claimsOf, List.map_eq_nil_iff,
    List.filter_eq_nil_iff] at hprod
  have hrange : q.enqs.map (·.2) ∈ Set.range (List.map (Prod.map some id)) := by
    rw [Set.range_list_map]
    rintro ⟨t, d⟩ hmem
    obtain ⟨e, he, heq⟩ := List.mem_map.mp hmem
    cases t with
    | none => exact absurd (by simp [heq]) (hprod.1 e he)
    | some w => exact ⟨(w, d), rfl⟩
  obtain ⟨es, hes⟩ := hrange
  exact ⟨es, hes.symm⟩

/-- **An emptied ring has handed over a merge of the rounds**: every producer's
rounds once each, in order. -/
theorem merge (h : Crew Q round issued q) (hready : ∀ t, (q.pc t).ready = true)
    (hempty : q.head = q.tail) :
    ∃ L : List (Fin P × ℕ), q.rets.map (fun r => r.2.2) = L.map (fun l => round l.1 l.2) ∧
      ∀ w, (share Prod.fst L w).map Prod.snd = List.range (issued w) := by
  obtain ⟨es, hes⟩ := h.enqs_of_producers
  have hpayload : q.enqs.map (fun e => e.2.2) = es.map Prod.snd := by
    simpa [Function.comp_def] using congrArg (List.map Prod.snd) hes
  have hshare : ∀ w, (share Prod.fst es w).map Prod.snd =
      (List.range (issued w)).map (round w) := by
    intro w
    rw [← h.claims_eq (hready (some w))]
    have hfilter := congrArg (fun l => (share Prod.fst l (some w)).map Prod.snd) hes
    simp only [share_map, List.map_map] at hfilter
    simpa [share, claimsOf, Function.comp_def] using hfilter.symm
  obtain ⟨L, hL, hcount⟩ := exists_labels round es issued hshare
  refine ⟨L, ?_, hcount⟩
  rw [h.handed_eq_enqs (hready none) hempty, hpayload, hL, List.map_map]
  rfl

/-! ### A ring in use -/

/-- What the queue has handed over is a beginning of what was enqueued. -/
theorem handed_prefix (h : Crew Q round issued q) :
    q.rets.map (fun r => r.2.2) <+: q.enqs.map fun e => e.2.2 := by
  have htickets : q.rets.map (·.1) <+: q.enqs.map (·.1) := by
    have htaken : q.rets.map (·.1) <+: List.range q.head := by
      rw [← h.ring.deqs_tickets, ← h.taken]
      exact List.prefix_append _ _
    have hclaimed : List.range q.head <+: List.range q.tail := by
      rw [List.prefix_iff_eq_take, List.length_range, List.take_range, Nat.min_eq_left h.ring.head_le]
    rw [h.ring.enqs_tickets]
    exact htaken.trans hclaimed
  have hpairs : q.rets.map (fun r => (r.1, r.2.2)) <+: q.enqs.map fun e => (e.1, e.2.2) := by
    refine prefix_of_keys_prefix Prod.fst ?_ ?_ ?_
    · simpa [Function.comp_def] using htickets
    · simpa [Function.comp_def, h.ring.enqs_tickets] using List.nodup_range
    · intro a ha
      obtain ⟨⟨p, t, d⟩, hmem, rfl⟩ := List.mem_map.mp ha
      obtain ⟨-, u, hu⟩ := h.history.returned p t d hmem
      exact List.mem_map.mpr ⟨_, hu, rfl⟩
  simpa [Function.comp_def] using hpairs.map Prod.snd

/-- The claims of a producer are the first of its rounds. -/
theorem exists_claims (h : Crew Q round issued q) (w : Fin P) :
    ∃ c ≤ issued w, claimsOf q.enqs (some w) = (List.range c).map (round w) := by
  have hprod : claimsOf q.enqs (some w) ++ (q.pc (some w)).pending = q.callsOf (some w) :=
    h.history.producer (some w)
  rw [h.producer_calls] at hprod
  have hprefix := List.prefix_iff_eq_take.mp (⟨_, hprod⟩ : claimsOf q.enqs (some w) <+: _)
  rw [← List.map_take, List.take_range] at hprefix
  exact ⟨_, Nat.min_le_right _ _, hprefix⟩

/-- **At any moment the ring has handed over a merge of beginnings of the rounds**: of every
producer the first rounds once each, in order. -/
theorem merge_prefix (h : Crew Q round issued q) :
    ∃ L : List (Fin P × ℕ), q.rets.map (fun r => r.2.2) = L.map (fun l => round l.1 l.2) ∧
      ∀ w, ∃ c ≤ issued w, (share Prod.fst L w).map Prod.snd = List.range c := by
  obtain ⟨es, hes⟩ := h.enqs_of_producers
  choose c hc hclaims using h.exists_claims
  have hpayload : q.enqs.map (fun e => e.2.2) = es.map Prod.snd := by
    simpa [Function.comp_def] using congrArg (List.map Prod.snd) hes
  have hshare : ∀ w, (share Prod.fst es w).map Prod.snd = (List.range (c w)).map (round w) := by
    intro w
    rw [← hclaims w]
    have hfilter := congrArg (fun l => (share Prod.fst l (some w)).map Prod.snd) hes
    simp only [share_map, List.map_map] at hfilter
    simpa [share, claimsOf, Function.comp_def] using hfilter.symm
  obtain ⟨L, hL, hcount⟩ := exists_labels round es c hshare
  have hhanded := List.prefix_iff_eq_take.mp h.handed_prefix
  rw [hpayload, hL, List.map_map, ← List.map_take] at hhanded
  refine ⟨_, hhanded, fun w => ?_⟩
  obtain ⟨d, hd, htake⟩ := exists_share_take (hcount w) (q.rets.map fun r => r.2.2).length
  exact ⟨d, hd.trans (hc w), htake⟩

/-! ### Steps -/

variable [Fintype ι] [DecidableEq ι]

/-- A producer's step inside `mpmc_enqueue`. -/
theorem producer (h : Crew Q round issued q) (hb : q.tail < 2 ^ 63) {w : Fin P} {m : Move ι α}
    (hm : m.inner = true) (hq : step Q q (some w, m) = some q') :
    Crew Q round issued q' ∧ q'.head = q.head ∧ q'.rets = q.rets ∧ q'.pc none = q.pc none ∧
      (q.pc (some w)).ready = false ∧ ∀ v, v ≠ w → q'.pc (some v) = q.pc (some v) := by
  have htrans := trans_of_step hq
  obtain ⟨hready, hcalls, hother⟩ := inner_step hq hm
  obtain ⟨hhead, hdeqs, hrets, hprod⟩ := producer_step htrans (h.producer_pc w) hready
  have hnone : q'.pc none = q.pc none := hother none (by simp)
  have hsome : ∀ v, v ≠ w → q'.pc (some v) = q.pc (some v) :=
    fun v hv => hother (some v) (by simpa using hv)
  have hcallsOf : ∀ t, q'.callsOf t = q.callsOf t := fun t => by
    rw [Queue.callsOf, hcalls]
    rfl
  refine ⟨⟨inv_trans h.ring hb htrans, history_trans h.ring hb h.history htrans,
    fun v => (hcallsOf _).trans (h.producer_calls v), (hcallsOf _).trans h.logger_calls,
    fun v => ?_, hnone ▸ h.logger_pc, ?_⟩, hhead, hrets, hnone, hready, hsome⟩
  · by_cases hv : v = w
    · exact hv ▸ hprod
    · exact (hsome v hv) ▸ h.producer_pc v
  · rw [hrets, hdeqs, hnone]
    exact h.taken

/-- The logger's step inside `mpmc_dequeue`. -/
theorem logger (h : Crew Q round issued q) (hb : q.tail < 2 ^ 63) {m : Move ι α}
    (hm : m.inner = true) (hq : step Q q (none, m) = some q') :
    Crew Q round issued q' ∧ q.head ≤ q'.head ∧ (q.pc none).ready = false ∧
      Consumed q q' none ∧ ∀ w, q'.pc (some w) = q.pc (some w) := by
  have htrans := trans_of_step hq
  have hring := inv_trans h.ring hb htrans
  obtain ⟨hready, hcalls, hother⟩ := inner_step hq hm
  obtain ⟨-, -, hcons, hstep⟩ := consumer_step htrans h.logger_pc hready
  have hsome : ∀ w, q'.pc (some w) = q.pc (some w) := fun w => hother (some w) (by simp)
  have hcallsOf : ∀ t, q'.callsOf t = q.callsOf t := fun t => by
    rw [Queue.callsOf, hcalls]
    rfl
  refine ⟨⟨hring, history_trans h.ring hb h.history htrans,
    fun v => (hcallsOf _).trans (h.producer_calls v), (hcallsOf _).trans h.logger_calls,
    fun v => (hsome v) ▸ h.producer_pc v, hcons, hstep.taken h.taken⟩, ?_, hready, hstep, hsome⟩
  rw [h.ring.head_eq, hring.head_eq]
  exact hstep.deqs_length_le

/-- A producer begins its next round. -/
theorem callEnqueue (h : Crew Q round issued q) (hb : q.tail < 2 ^ 63) {w : Fin P}
    (hq : step Q q (some w, .callEnqueue (round w (issued w))) = some q') :
    Crew Q round (Function.update issued w (issued w + 1)) q' ∧ q'.head = q.head ∧
      q'.rets = q.rets ∧ q'.pc none = q.pc none ∧
      ∀ v, v ≠ w → q'.pc (some v) = q.pc (some v) := by
  have htrans := trans_of_step hq
  have hring := inv_trans h.ring hb htrans
  have hhist := history_trans h.ring hb h.history htrans
  simp only [step] at hq
  split at hq
  · next hready =>
    cases hq
    have hother : ∀ t, t ≠ some w → Function.update q.pc (some w)
        (.enqLoadTail (round w (issued w))) t = q.pc t := fun t ht => Function.update_of_ne ht ..
    have hnone : Function.update q.pc (some w) (.enqLoadTail (round w (issued w))) none =
        q.pc none := hother none (by simp)
    refine ⟨⟨hring, hhist, fun v => ?_, ?_, fun v => ?_, ?_, ?_⟩, rfl, rfl, hnone,
      fun v hv => hother (some v) (by simpa using hv)⟩
    · have hold := h.producer_calls v
      by_cases hv : v = w
      · subst hv
        simp only [Queue.callsOf, List.filter_append, List.map_append, Function.update_self,
          List.range_succ] at hold ⊢
        rw [hold]
        simp
      · simp only [Queue.callsOf, List.filter_append, List.map_append,
          Function.update_of_ne hv] at hold ⊢
        rw [hold]
        simp [Ne.symm hv]
    · have hold := h.logger_calls
      simp only [Queue.callsOf, List.filter_append, List.map_append] at hold ⊢
      rw [hold]
      simp
    · by_cases hv : v = w
      · subst hv
        simp [Pc.producing]
      · simpa [hother (some v) (by simpa using hv)] using h.producer_pc v
    · simpa [hnone] using h.logger_pc
    · simpa [hnone] using h.taken
  · cases hq

/-- The logger calls `mpmc_dequeue`. -/
theorem callDequeue (h : Crew Q round issued q) (hb : q.tail < 2 ^ 63) {buf : Payload ι α}
    (hq : step Q q (none, .callDequeue buf) = some q') :
    Crew Q round issued q' ∧ q'.head = q.head ∧ q'.rets = q.rets ∧
      (q'.pc none).handed = [] ∧ ∀ w, q'.pc (some w) = q.pc (some w) := by
  have htrans := trans_of_step hq
  have hring := inv_trans h.ring hb htrans
  have hhist := history_trans h.ring hb h.history htrans
  simp only [step] at hq
  split at hq
  · next hready =>
    cases hq
    have hsome : ∀ w : Fin P, Function.update q.pc none (.deqLoadHead buf) (some w) =
        q.pc (some w) := fun w => Function.update_of_ne (by simp) ..
    refine ⟨⟨hring, hhist, h.producer_calls, h.logger_calls, fun w => ?_, by simp [Pc.consuming],
      ?_⟩, rfl, rfl, by simp [Pc.handed], hsome⟩
    · simpa [hsome w] using h.producer_pc w
    · have htaken := h.taken
      rw [(Pc.ready_iff hready).2.2] at htaken
      simpa [Pc.reading] using htaken
  · cases hq

end Crew

end Mpmc
end SovereignSeed
