import SovereignSeed.Audit.Ledger
import SovereignSeed.Mpmc.Crew
import Mathlib.Data.BitVec

/-!
# The invariant of the audit engine

Three things are carried along every run.  The threads keep to their parts: a
worker's calls are its rounds in order, and only the logger dequeues.  The
ledger is never behind by more than one record: what the queue has handed over
is printed or in the logger's hand, and the two totals lag the log by at most
its last line.  And `main` clears `running` only after every worker has returned,
so that what the logger loads in its exit test stays so.

The workers and the logger are a crew on the queue, so what a step of the queue
does to the first two is what it does to any crew.

## Main definitions

* `AuditEngine.inHand`, `added`, `counted` — how far the logger is with a record.
* `Parts`, `LedgerInv`, `ShutdownInv`, `AuditInv` — the invariant.

## Main results

* `AuditInv.of_crew` — a step of the queue preserves it.
* `auditInv_step` — every step preserves it.
* `auditInv_of_reachable` — **the invariant holds in every reachable state.**
-/

namespace SovereignSeed
namespace Audit

open Mpmc

variable {P : ℕ} {Q : QueueSize} {F : Feed P} {M : ℕ}

/-- The record between the queue and the log file. -/
def AuditEngine.inHand (s : AuditEngine P) : List (Payload (Fin 6) (BitVec 64)) :=
  match s.logger with
  | .inDequeue => (s.queue.pc none).handed
  | .printing => [s.trade]
  | _ => []

/-- The printed trades whose profit has been added. -/
def AuditEngine.added (s : AuditEngine P) : List AuditTradePayload :=
  if s.logger = .addingProfit then s.log.dropLast else s.log

/-- The printed trades that have been counted. -/
def AuditEngine.counted (s : AuditEngine P) : List AuditTradePayload :=
  if s.logger = .addingProfit ∨ s.logger = .addingCount then s.log.dropLast else s.log

/-- The logger has seen `running` cleared and has not gone back into its loop. -/
def LoggerPc.leaving : LoggerPc → Bool
  | .testEmpty => true
  | .testTail _ => true
  | .testHead _ => true
  | .returned => true
  | _ => false

/-- What the exit test has loaded is what is there: nothing moves `head` or `tail` any more. -/
def LoggerPc.Seen (q : Queue (Thread P) (Fin 6) (BitVec 64)) : LoggerPc → Prop
  | .testTail head => head = q.head
  | .testHead tail => tail = q.tail
  | .returned => q.head = q.tail
  | _ => True

/-- The threads keep to their parts. -/
structure Parts (F : Feed P) (M : ℕ) (s : AuditEngine P) : Prop where
  issued_le : ∀ w, s.issued w ≤ M
  worker_calls : ∀ w, s.queue.callsOf (some w) =
    (List.range (s.issued w)).map fun i => (F.trade w i).words
  logger_calls : s.queue.callsOf none = []
  worker_pc : ∀ w, (s.queue.pc (some w)).producing = true
  logger_pc : (s.queue.pc none).consuming = true
  logger_out : s.logger ≠ .inDequeue → (s.queue.pc none).ready = true

/-- The ledger keeps up with the queue. -/
structure LedgerInv (s : AuditEngine P) : Prop where
  /-- Every claimed ticket is handed over, or being copied out by the logger. -/
  taken : s.queue.rets.map (·.1) ++ (s.queue.pc none).reading.toList = s.queue.deqs.map (·.1)
  /-- Every record handed over is printed, or in the logger's hand. -/
  printed : s.queue.rets.map (fun r => AuditTradePayload.ofWords r.2.2) =
    s.log ++ s.inHand.map .ofWords
  last : s.logger = .addingProfit ∨ s.logger = .addingCount →
    ∃ l, s.log = l ++ [AuditTradePayload.ofWords s.trade]
  profit : s.totalProfit = (s.added.map (·.netProfitFixed)).sum
  count : s.executedCount = BitVec.ofNat 64 s.counted.length
  flushed : s.logged = s.counted.length

/-- What `main` knows at each of its control points. -/
def MainInv (M : ℕ) (s : AuditEngine P) : MainPc → Prop
  | .joining k => ∀ w : Fin P, w.1 < k → s.finished M w = true
  | .waitHead => ∀ w, s.finished M w = true
  | _ => (∀ w, s.finished M w = true) ∧ tradesBound P M ≤ s.queue.head

/-- `running` is cleared only when nothing more will come. -/
structure ShutdownInv (M : ℕ) (s : AuditEngine P) : Prop where
  main : MainInv M s s.main
  stopped : s.running = false → s.main = .joiningLogger ∨ s.main = .done
  leaving : s.logger.leaving = true → s.running = false
  seen : s.logger.Seen s.queue

/-- The invariant of the audit engine. -/
structure AuditInv (Q : QueueSize) (F : Feed P) (M : ℕ) (s : AuditEngine P) : Prop where
  ring : Inv Q s.queue
  history : History Q s.queue
  parts : Parts F M s
  ledger : LedgerInv s
  shutdown : ShutdownInv M s

/-! ### The crew -/

/-- The workers and the logger are a crew on the queue. -/
theorem AuditInv.crew {s : AuditEngine P} (h : AuditInv Q F M s) :
    Crew Q (fun w i => (F.trade w i).words) s.issued s.queue where
  ring := h.ring
  history := h.history
  producer_calls := h.parts.worker_calls
  logger_calls := h.parts.logger_calls
  producer_pc := h.parts.worker_pc
  logger_pc := h.parts.logger_pc
  taken := h.ledger.taken

/-- A crew keeps to its parts. -/
theorem Parts.of_crew {s : AuditEngine P}
    (h : Crew Q (fun w i => (F.trade w i).words) s.issued s.queue) (hissued : ∀ w, s.issued w ≤ M)
    (hout : s.logger ≠ .inDequeue → (s.queue.pc none).ready = true) : Parts F M s where
  issued_le := hissued
  worker_calls := h.producer_calls
  logger_calls := h.logger_calls
  worker_pc := h.producer_pc
  logger_pc := h.logger_pc
  logger_out := hout

/-- There are at most `P * M` enqueues, so no counter wraps. -/
theorem AuditInv.tail_lt {s : AuditEngine P} (h : AuditInv Q F M s) (hM : P * M < 2 ^ 63) :
    s.queue.tail < 2 ^ 63 := by
  rw [h.ring.tail_eq]
  exact Nat.lt_of_le_of_lt (h.crew.enqs_length_le.trans (sum_issued_le h.parts.issued_le)) hM

/-! ### The initial state -/

theorem auditInv_init (mem : ℕ → Payload (Fin 6) (BitVec 64)) (trade : Payload (Fin 6) (BitVec 64)) :
    AuditInv Q F M (initEngine mem trade) where
  ring := inv_init mem
  history := history_init mem
  parts :=
    { issued_le := fun _ => Nat.zero_le _
      worker_calls := fun _ => rfl
      logger_calls := rfl
      worker_pc := fun _ => rfl
      logger_pc := rfl
      logger_out := fun _ => rfl }
  ledger :=
    { taken := rfl
      printed := rfl
      last := fun h => by simp [initEngine] at h
      profit := rfl
      count := rfl
      flushed := rfl }
  shutdown :=
    { main := fun _ h => absurd h (Nat.not_lt_zero _)
      stopped := fun h => by simp [initEngine] at h
      leaving := fun h => by simp [initEngine, LoggerPc.leaving] at h
      seen := trivial }

/-! ### Frames -/

/-- The shutdown clause survives a step that is not `main`'s, if finished
workers stay finished and `head` does not go back. -/
theorem ShutdownInv.frame {s s' : AuditEngine P} (h : ShutdownInv M s) (hmain : s'.main = s.main)
    (hrun : s'.running = s.running) (hleave : s'.logger.leaving = true → s'.running = false)
    (hfin : ∀ w, s.finished M w = true → s'.finished M w = true)
    (hhead : s.queue.head ≤ s'.queue.head) (hseen : s'.logger.Seen s'.queue) :
    ShutdownInv M s' where
  main := by
    have hold := h.main
    rw [hmain]
    cases hm : s.main with
    | joining k => rw [hm] at hold; exact fun w hw => hfin w (hold w hw)
    | waitHead => rw [hm] at hold; exact fun w => hfin w (hold w)
    | stopping | joiningLogger | done =>
      rw [hm] at hold
      exact ⟨fun w => hfin w (hold.1 w), hold.2.trans hhead⟩
  stopped := by rw [hmain, hrun]; exact h.stopped
  leaving := hleave
  seen := hseen

/-- A logger that is not leaving has nothing loaded. -/
theorem LoggerPc.seen_of_not_leaving {p : LoggerPc} (hp : p.leaving = false)
    (q : Queue (Thread P) (Fin 6) (BitVec 64)) : p.Seen q := by
  cases p <;> trivial

/-- While a worker has not returned, `running` is set. -/
theorem AuditInv.running_of_not_finished {s : AuditEngine P} (h : AuditInv Q F M s) {w : Fin P}
    (hw : s.finished M w ≠ true) : s.running = true := by
  by_contra hrun
  have hmain := h.shutdown.main
  rcases h.shutdown.stopped (Bool.eq_false_iff.mpr hrun) with heq | heq <;>
    (rw [heq] at hmain; exact hw (hmain.1 w))

/-- While a worker has not returned, the logger is not leaving. -/
theorem AuditInv.not_leaving {s : AuditEngine P} (h : AuditInv Q F M s) {w : Fin P}
    (hw : s.finished M w ≠ true) : s.logger.leaving = false := by
  by_contra hleave
  have hrun := h.shutdown.leaving (Bool.eq_true_of_not_eq_false hleave)
  rw [h.running_of_not_finished hw] at hrun
  cases hrun

/-- A finished worker that has not moved is finished. -/
theorem finished_frame {s s' : AuditEngine P} {w : Fin P} (h : s.finished M w = true)
    (hissued : s'.issued w = s.issued w)
    (hpc : s'.queue.pc (some w) = s.queue.pc (some w)) : s'.finished M w = true := by
  rwa [AuditEngine.finished, hissued, hpc]

/-- A step of the queue keeps the invariant, if it keeps the crew, hands a record over only into
the logger's hand, does not move a finished worker, and comes before the logger leaves. -/
theorem AuditInv.of_crew {s : AuditEngine P} (h : AuditInv Q F M s) {issued : Fin P → ℕ}
    {q : Queue (Thread P) (Fin 6) (BitVec 64)}
    (hcrew : Crew Q (fun w i => (F.trade w i).words) issued q) (hissued : ∀ w, issued w ≤ M)
    (hout : s.logger ≠ .inDequeue → (q.pc none).ready = true)
    (hprinted : q.rets.map (fun r => AuditTradePayload.ofWords r.2.2) =
      s.log ++ (AuditEngine.inHand { s with queue := q }).map .ofWords)
    (hfin : ∀ w, s.finished M w = true →
      issued w = s.issued w ∧ q.pc (some w) = s.queue.pc (some w))
    (hhead : s.queue.head ≤ q.head) (hstay : s.logger.leaving = false) :
    AuditInv Q F M { s with queue := q, issued := issued } where
  ring := hcrew.ring
  history := hcrew.history
  parts := .of_crew hcrew hissued hout
  ledger :=
    { taken := hcrew.taken
      printed := hprinted
      last := h.ledger.last
      profit := h.ledger.profit
      count := h.ledger.count
      flushed := h.ledger.flushed }
  shutdown := h.shutdown.frame rfl rfl h.shutdown.leaving
    (fun w hw => finished_frame hw (hfin w hw).1 (hfin w hw).2) hhead
    (LoggerPc.seen_of_not_leaving hstay q)

/-- A worker's step hands nothing over. -/
theorem AuditInv.printed_of_worker {s : AuditEngine P} (h : AuditInv Q F M s)
    {q : Queue (Thread P) (Fin 6) (BitVec 64)} (hrets : q.rets = s.queue.rets)
    (hpc : q.pc none = s.queue.pc none) :
    q.rets.map (fun r => AuditTradePayload.ofWords r.2.2) =
      s.log ++ (AuditEngine.inHand { s with queue := q }).map .ofWords := by
  have hhand : AuditEngine.inHand { s with queue := q } = s.inHand := by
    simp only [AuditEngine.inHand, hpc]
  rw [hrets, hhand]
  exact h.ledger.printed

/-! ### Steps inside the queue -/

/-- A worker's step inside `mpmc_enqueue`. -/
theorem auditInv_worker {s : AuditEngine P} (hM : P * M < 2 ^ 63) (h : AuditInv Q F M s) {w : Fin P}
    {m : Move (Fin 6) (BitVec 64)} {q : Queue (Thread P) (Fin 6) (BitVec 64)}
    (hm : m.inner = true) (hq : step Q s.queue (some w, m) = some q) :
    AuditInv Q F M { s with queue := q } := by
  obtain ⟨hcrew, hhead, hrets, hnone, hready, hother⟩ := h.crew.producer (h.tail_lt hM) hm hq
  -- a worker inside the queue has not finished
  have hunfinished : s.finished M w ≠ true := by
    simp [AuditEngine.finished, hready]
  refine h.of_crew hcrew h.parts.issued_le (hnone ▸ h.parts.logger_out)
    (h.printed_of_worker hrets hnone) (fun v hv => ⟨rfl, hother v ?_⟩) hhead.ge
    (h.not_leaving hunfinished)
  rintro rfl
  exact hunfinished hv

/-- The logger's step inside `mpmc_dequeue`. -/
theorem auditInv_inDequeue {s : AuditEngine P} (hM : P * M < 2 ^ 63) (h : AuditInv Q F M s)
    {m : Move (Fin 6) (BitVec 64)} {q : Queue (Thread P) (Fin 6) (BitVec 64)}
    (hm : m.inner = true) (hq : step Q s.queue (none, m) = some q) :
    AuditInv Q F M { s with queue := q } := by
  obtain ⟨hcrew, hhead, hready, hstep, hworker⟩ := h.crew.logger (h.tail_lt hM) hm hq
  have hin : s.logger = .inDequeue := by
    by_contra hout
    rw [h.parts.logger_out hout] at hready
    cases hready
  have hempty : s.inHand = [] := by
    rw [AuditEngine.inHand, hin]
    exact handed_of_not_ready hready
  have hhand : AuditEngine.inHand { s with queue := q } = (q.pc none).handed := by
    simp only [AuditEngine.inHand, hin]
  have hprinted := h.ledger.printed
  rw [hempty] at hprinted
  refine h.of_crew hcrew h.parts.issued_le (fun hout => absurd hin hout) ?_
    (fun v _ => ⟨rfl, hworker v⟩) hhead (by rw [hin]; rfl)
  rw [hhand, hstep.map_rets AuditTradePayload.ofWords, hprinted, List.map_nil, List.append_nil]

/-! ### Steps of the program -/

/-- A worker begins its next round. -/
theorem auditInv_call {s s' : AuditEngine P} (hM : P * M < 2 ^ 63) (h : AuditInv Q F M s) {w : Fin P}
    (hs : auditStep Q F M s (.worker w) = some s') : AuditInv Q F M s' := by
  simp only [auditStep] at hs
  split at hs
  · next hlt =>
    obtain ⟨q, hq, rfl⟩ := Option.map_eq_some_iff.mp hs
    obtain ⟨hcrew, hhead, hrets, hnone, hother⟩ := h.crew.callEnqueue (h.tail_lt hM) hq
    -- a worker with a round left has not finished
    have hunfinished : s.finished M w ≠ true := by
      simp only [AuditEngine.finished, ne_eq, Bool.and_eq_true, beq_iff_eq]
      omega
    refine h.of_crew hcrew (fun v => ?_) (hnone ▸ h.parts.logger_out)
      (h.printed_of_worker hrets hnone) (fun v hv => ?_) hhead.ge (h.not_leaving hunfinished)
    · by_cases hv : v = w
      · subst hv
        simp only [Function.update_self]
        exact hlt
      · simpa [Function.update_of_ne hv] using h.parts.issued_le v
    · have hvw : v ≠ w := by
        rintro rfl
        exact hunfinished hv
      exact ⟨Function.update_of_ne hvw .., hother v hvw⟩
  · cases hs

/-- A step of the logger outside the queue. -/
theorem AuditInv.outside {s s' : AuditEngine P} (h : AuditInv Q F M s) (hqueue : s'.queue = s.queue)
    (hissued : s'.issued = s.issued) (hrun : s'.running = s.running) (hmain : s'.main = s.main)
    (hready : (s.queue.pc none).ready = true)
    (hleave : s'.logger.leaving = true → s.running = false) (hseen : s'.logger.Seen s.queue)
    (hledger : LedgerInv s') : AuditInv Q F M s' where
  ring := hqueue ▸ h.ring
  history := hqueue ▸ h.history
  parts :=
    { issued_le := hissued ▸ h.parts.issued_le
      worker_calls := by rw [hqueue, hissued]; exact h.parts.worker_calls
      logger_calls := hqueue ▸ h.parts.logger_calls
      worker_pc := hqueue ▸ h.parts.worker_pc
      logger_pc := hqueue ▸ h.parts.logger_pc
      logger_out := fun _ => hqueue ▸ hready }
  ledger := hledger
  shutdown := h.shutdown.frame hmain hrun (fun hl => hrun ▸ hleave hl)
    (fun w hw => finished_frame hw (by rw [hissued]) (by rw [hqueue])) (by rw [hqueue])
    (hqueue ▸ hseen)

/-- The control points at which the logger holds no record. -/
def LoggerPc.quiet : LoggerPc → Bool
  | .inDequeue => false
  | .printing => false
  | .addingProfit => false
  | .addingCount => false
  | _ => true

/-- With no record in hand before or after, the ledger stays as it is. -/
theorem LedgerInv.quiet {s : AuditEngine P} (h : LedgerInv s) (hhand : s.inHand = [])
    (hprofit : s.logger ≠ .addingProfit) (hcount : s.logger ≠ .addingCount)
    (trade : Payload (Fin 6) (BitVec 64)) {p : LoggerPc} (hp : p.quiet = true) :
    LedgerInv { s with trade := trade, logger := p } := by
  have hnew : AuditEngine.inHand { s with trade := trade, logger := p } = [] ∧
      p ≠ .addingProfit ∧ p ≠ .addingCount := by
    cases p <;> simp_all [AuditEngine.inHand, LoggerPc.quiet]
  obtain ⟨hhand', hprofit', hcount'⟩ := hnew
  refine ⟨h.taken, ?_, fun hl => (hl.elim hprofit' hcount').elim, ?_, ?_, ?_⟩
  · rw [hhand', ← hhand]
    exact h.printed
  · simpa [AuditEngine.added, hprofit, hprofit'] using h.profit
  · simpa [AuditEngine.counted, hprofit, hcount, hprofit', hcount'] using h.count
  · simpa [AuditEngine.counted, hprofit, hcount, hprofit', hcount'] using h.flushed

/-- The logger calls `mpmc_dequeue`. -/
theorem auditInv_callDequeue {s s' : AuditEngine P} (hM : P * M < 2 ^ 63) (h : AuditInv Q F M s)
    (hl : s.logger = .calling)
    (hs : (step Q s.queue (none, .callDequeue s.trade)).map
      (fun q => { s with queue := q, logger := .inDequeue }) = some s') : AuditInv Q F M s' := by
  obtain ⟨q, hq, rfl⟩ := Option.map_eq_some_iff.mp hs
  obtain ⟨hcrew, hhead, hrets, hhanded, hworker⟩ := h.crew.callDequeue (h.tail_lt hM) hq
  refine ⟨hcrew.ring, hcrew.history, .of_crew hcrew h.parts.issued_le (fun hf => (hf rfl).elim),
    ⟨hcrew.taken, ?_, fun hf => by simp at hf, ?_, ?_, ?_⟩,
    h.shutdown.frame rfl rfl (fun hf => by cases hf)
      (fun w hw => finished_frame hw rfl (hworker w)) hhead.ge trivial⟩
  · have hprinted := h.ledger.printed
    simp only [AuditEngine.inHand, hl] at hprinted
    simpa only [AuditEngine.inHand, hhanded, hrets] using hprinted
  · simpa [AuditEngine.added, hl] using h.ledger.profit
  · simpa [AuditEngine.counted, hl] using h.ledger.count
  · simpa [AuditEngine.counted, hl] using h.ledger.flushed

/-- A step of the logger. -/
theorem auditInv_logger {s s' : AuditEngine P} (hM : P * M < 2 ^ 63) (h : AuditInv Q F M s)
    {choice : Bool} (hs : loggerStep Q s choice = some s') : AuditInv Q F M s' := by
  have hquiet : ∀ {p : LoggerPc}, s.logger.quiet = true → p.quiet = true →
      (p.leaving = true → s.running = false) → p.Seen s.queue →
        AuditInv Q F M { s with logger := p } := by
    intro p hl hp hleave hseen
    have hfacts : s.inHand = [] ∧ s.logger ≠ .inDequeue ∧ s.logger ≠ .addingProfit ∧
        s.logger ≠ .addingCount := by
      cases hp : s.logger <;> simp_all [AuditEngine.inHand, LoggerPc.quiet]
    obtain ⟨hhand, hin, hprofit, hcount⟩ := hfacts
    exact h.outside rfl rfl rfl rfl (h.parts.logger_out hin) hleave hseen
      (h.ledger.quiet hhand hprofit hcount s.trade hp)
  have hleave := h.shutdown.leaving
  have hseen := h.shutdown.seen
  unfold loggerStep at hs
  split at hs
  · next hl =>
    cases hs
    refine hquiet (by rw [hl]; rfl) ?_ ?_ ?_ <;> cases choice <;>
      simp [LoggerPc.quiet, LoggerPc.leaving, LoggerPc.Seen]
  · cases hs
  · next hl =>
    cases hs
    refine hquiet (by rw [hl]; rfl) ?_ ?_ ?_ <;> cases hr : s.running <;>
      simp [LoggerPc.quiet, LoggerPc.leaving, LoggerPc.Seen]
  · next hl =>
    cases hs
    rw [hl] at hleave
    refine hquiet (by rw [hl]; rfl) ?_ (fun _ => hleave rfl) ?_ <;> cases choice <;> rfl
  · next head hl =>
    cases hs
    rw [hl] at hleave hseen
    have hhead : head = s.queue.head := hseen
    refine hquiet (by rw [hl]; rfl) ?_ (fun _ => hleave rfl) ?_
    · split <;> rfl
    · split
      · next heq => exact hhead.symm.trans heq
      · trivial
  · next tail hl =>
    cases hs
    rw [hl] at hleave hseen
    have htail : tail = s.queue.tail := hseen
    refine hquiet (by rw [hl]; rfl) ?_ (fun _ => hleave rfl) ?_
    · split <;> rfl
    · split
      · next heq => exact heq.trans htail
      · trivial
  · next hl => exact auditInv_callDequeue hM h hl hs
  · next hl =>
    -- back from `mpmc_dequeue`
    split at hs
    · next ret buf hpc =>
      cases hs
      have hready : (s.queue.pc none).ready = true := by rw [hpc]; rfl
      cases ret with
      | true =>
        refine h.outside rfl rfl rfl rfl hready (fun hf => by cases hf) trivial
          ⟨h.ledger.taken, ?_, fun hf => by simp at hf, ?_, ?_, ?_⟩
        · simpa [AuditEngine.inHand, hl, hpc, Pc.handed] using h.ledger.printed
        · simpa [AuditEngine.added, hl] using h.ledger.profit
        · simpa [AuditEngine.counted, hl] using h.ledger.count
        · simpa [AuditEngine.counted, hl] using h.ledger.flushed
      | false =>
        refine h.outside rfl rfl rfl rfl hready (fun hf => by cases hf) trivial
          (h.ledger.quiet ?_ (by simp [hl]) (by simp [hl]) buf rfl)
        simp [AuditEngine.inHand, hl, hpc, Pc.handed]
    · cases hs
  · next hl =>
    cases hs
    refine h.outside rfl rfl rfl rfl (h.parts.logger_out (by simp [hl])) (fun hf => by cases hf)
      trivial ⟨h.ledger.taken, ?_, fun _ => ⟨s.log, rfl⟩, ?_, ?_, ?_⟩
    · simpa [AuditEngine.inHand, hl] using h.ledger.printed
    · simpa [AuditEngine.added, hl] using h.ledger.profit
    · simpa [AuditEngine.counted, hl] using h.ledger.count
    · simpa [AuditEngine.counted, hl] using h.ledger.flushed
  · next hl =>
    cases hs
    obtain ⟨l, hlog⟩ := h.ledger.last (Or.inl hl)
    refine h.outside rfl rfl rfl rfl (h.parts.logger_out (by simp [hl])) (fun hf => by cases hf)
      trivial ⟨h.ledger.taken, ?_, fun _ => ⟨l, hlog⟩, ?_, ?_, ?_⟩
    · simpa [AuditEngine.inHand, hl] using h.ledger.printed
    · have hold := h.ledger.profit
      simp only [AuditEngine.added, hl, hlog] at hold ⊢
      simp [hold]
    · simpa [AuditEngine.counted, hl] using h.ledger.count
    · simpa [AuditEngine.counted, hl] using h.ledger.flushed
  · next hl =>
    cases hs
    obtain ⟨l, hlog⟩ := h.ledger.last (Or.inr hl)
    refine h.outside rfl rfl rfl rfl (h.parts.logger_out (by simp [hl])) (fun hf => by cases hf)
      trivial ⟨h.ledger.taken, ?_, fun hf => by simp at hf, ?_, ?_, ?_⟩
    · simpa [AuditEngine.inHand, hl] using h.ledger.printed
    · simpa [AuditEngine.added, hl] using h.ledger.profit
    · have hold := h.ledger.count
      simp only [AuditEngine.counted, hl, hlog] at hold ⊢
      simp [hold, BitVec.ofNat_add]
    · have hold := h.ledger.flushed
      simp only [AuditEngine.counted, hl, hlog] at hold ⊢
      simp [hold]
  · next hl =>
    cases hs
    exact hquiet (p := .testRunning) (by rw [hl]; rfl) rfl (fun hf => by cases hf) trivial
  · cases hs

/-- A step of `main`. -/
theorem auditInv_main {s s' : AuditEngine P} (h : AuditInv Q F M s) (hs : mainStep M s = some s') :
    AuditInv Q F M s' := by
  have hmain := h.shutdown.main
  have hstopped := h.shutdown.stopped
  have hkeep : ∀ {running : Bool} {p : MainPc}, MainInv M s p →
      (running = false → p = .joiningLogger ∨ p = .done) →
      (s.logger.leaving = true → running = false) →
      AuditInv Q F M { s with running := running, main := p } := by
    intro running p hp hstop hleave
    refine ⟨h.ring, h.history, ⟨h.parts.issued_le, h.parts.worker_calls, h.parts.logger_calls,
      h.parts.worker_pc, h.parts.logger_pc, h.parts.logger_out⟩, ⟨h.ledger.taken, h.ledger.printed,
      h.ledger.last, h.ledger.profit, h.ledger.count, h.ledger.flushed⟩, ?_, hstop, hleave,
      h.shutdown.seen⟩
    cases p <;> exact hp
  unfold mainStep at hs
  split at hs
  · next k hm =>
    rw [hm] at hmain hstopped
    have hmain : ∀ w : Fin P, w.1 < k → s.finished M w = true := hmain
    split at hs
    · next hk =>
      split at hs
      · next hfin =>
        cases hs
        refine hkeep (p := .joining (k + 1)) (fun w hw => ?_) (fun hr => ?_) h.shutdown.leaving
        · rcases Nat.lt_succ_iff_lt_or_eq.mp hw with hlt | heq
          · exact hmain w hlt
          · obtain rfl : w = ⟨k, hk⟩ := Fin.ext heq
            exact hfin
        · simpa using hstopped hr
      · cases hs
    · next hk =>
      cases hs
      exact hkeep (p := .waitHead) (fun w => hmain w (by omega)) (fun hr => by simpa using hstopped hr)
        h.shutdown.leaving
  · next hm =>
    rw [hm] at hmain hstopped
    have hmain : ∀ w, s.finished M w = true := hmain
    cases hs
    refine hkeep ?_ (fun hr => by simpa using hstopped hr) h.shutdown.leaving
    split
    · exact hmain
    · next hlt => exact ⟨hmain, by omega⟩
  · next hm =>
    rw [hm] at hmain
    cases hs
    exact hkeep (p := .joiningLogger) hmain (fun _ => Or.inl rfl) (fun _ => rfl)
  · next hm =>
    rw [hm] at hmain
    split at hs
    · cases hs
      exact hkeep (p := .done) hmain (fun _ => Or.inr rfl) h.shutdown.leaving
    · cases hs
  · cases hs

/-- **Every step of the program preserves the invariant.** -/
theorem auditInv_step {s s' : AuditEngine P} (hM : P * M < 2 ^ 63) (h : AuditInv Q F M s)
    {a : Act P} (hs : auditStep Q F M s a = some s') : AuditInv Q F M s' := by
  cases a with
  | queue t m =>
    simp only [auditStep] at hs
    split at hs
    · next hm =>
      obtain ⟨q, hq, rfl⟩ := Option.map_eq_some_iff.mp hs
      cases t with
      | none => exact auditInv_inDequeue hM h hm hq
      | some w => exact auditInv_worker hM h hm hq
    · cases hs
  | worker w => exact auditInv_call hM h hs
  | logger choice => exact auditInv_logger hM h hs
  | main => exact auditInv_main h hs

/-- **The invariant holds in every reachable state.** -/
theorem auditInv_of_reachable {s : AuditEngine P} (hM : P * M < 2 ^ 63)
    (hr : (auditMachine Q F M).Reachable s) : AuditInv Q F M s := by
  refine hr.invariant ?_ fun u a v hu hst => auditInv_step hM hu hst
  rintro s ⟨mem, trade, rfl⟩
  exact auditInv_init mem trade

end Audit
end SovereignSeed
