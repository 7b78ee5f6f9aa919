import SovereignSeed.Mpmc.Delivery
import Mathlib.Data.Fin.VecNotation

/-!
# The audit engine

`src/audit_engine.c` around its queue: `simulation_worker` threads that enqueue
trades, the `audit_logger_worker` that dequeues, prints and adds them up, and
the shutdown steps of `main`.  `shadow_arbitrage.c` is the same program over
another payload.

Each atomic access of the logger's exit test is its own step, and so is each of
the three things it does with a record; the two loads of `head != tail` may come
in either order, since C leaves it open.

## Main definitions

* `AuditTradePayload`, `Feed` — a trade, and the trades the workers produce.
* `simulationFeed` — the feed of `simulation_worker`.
* `tradesBound` — the value that `main` waits for.
* `AuditEngine`, `auditStep`, `auditMachine` — the whole program.
-/

namespace SovereignSeed
namespace Audit

open Mpmc

/-- `AuditTradePayload`: six 64-bit words. -/
structure AuditTradePayload where
  ingestTsNs : BitVec 64
  processTsNs : BitVec 64
  buyPrice : BitVec 64
  sellPrice : BitVec 64
  netProfitFixed : BitVec 64
  sequence : BitVec 64
  deriving DecidableEq

instance neZero_words : NeZero (6 : ℕ) := ⟨by decide⟩

/-- The words of a trade, as the queue copies them. -/
def AuditTradePayload.words (t : AuditTradePayload) : Payload (Fin 6) (BitVec 64) :=
  ![t.ingestTsNs, t.processTsNs, t.buyPrice, t.sellPrice, t.netProfitFixed, t.sequence]

/-- The trade in a buffer of six words. -/
def AuditTradePayload.ofWords (w : Payload (Fin 6) (BitVec 64)) : AuditTradePayload :=
  ⟨w 0, w 1, w 2, w 3, w 4, w 5⟩

@[simp] theorem AuditTradePayload.ofWords_words (t : AuditTradePayload) : ofWords t.words = t := rfl

/-- The trades of `P` workers: what worker `w` enqueues in its round `i`, with
`i` as the sequence number. -/
structure Feed (P : ℕ) where
  trade : Fin P → ℕ → AuditTradePayload
  sequence_eq : ∀ w i, (trade w i).sequence = BitVec.ofNat 64 i

/-- What `simulation_worker` enqueues, given the two clock readings of each round. -/
def simulationFeed (P : ℕ) (ingestNs processNs : Fin P → ℕ → BitVec 64) : Feed P where
  trade := fun w i =>
    let buyPx : BitVec 64 := 95000000000 + BitVec.ofNat 64 (i % 300)
    let sellPx : BitVec 64 := buyPx + 20000 + BitVec.ofNat 64 (i % 5 * 150)
    { ingestTsNs := ingestNs w i
      processTsNs := processNs w i
      buyPrice := buyPx
      sellPrice := sellPx
      netProfitFixed := (sellPx - buyPx) - 1200
      sequence := BitVec.ofNat 64 i }
  sequence_eq := fun _ _ => rfl

/-- The control point of `audit_logger_worker`. -/
inductive LoggerPc
  /-- In `fopen`. -/
  | opening
  /-- Returned because the log file did not open. -/
  | openFailed
  /-- About to load `running`. -/
  | testRunning
  /-- `running` was 0: about to load `head` or `tail`. -/
  | testEmpty
  /-- Holding `head`, about to load `tail`. -/
  | testTail (head : ℕ)
  /-- Holding `tail`, about to load `head`. -/
  | testHead (tail : ℕ)
  /-- About to call `mpmc_dequeue`. -/
  | calling
  /-- Inside `mpmc_dequeue`. -/
  | inDequeue
  /-- About to print the record. -/
  | printing
  /-- About to add to `total_profit`. -/
  | addingProfit
  /-- About to add to `executed_count`. -/
  | addingCount
  /-- In `usleep` after an empty dequeue. -/
  | sleeping
  /-- Out of the loop, the log file closed. -/
  | returned
  deriving DecidableEq

/-- The control point of `main`, from the joins on. -/
inductive MainPc
  /-- About to join worker `k`. -/
  | joining (k : ℕ)
  /-- Waiting for `head` to reach `tradesBound`. -/
  | waitHead
  /-- About to store `running = 0`. -/
  | stopping
  /-- About to join the logger. -/
  | joiningLogger
  | done
  deriving DecidableEq

/-- A thread of the program that uses the queue: a worker, or the logger. -/
abbrev Thread (P : ℕ) := Option (Fin P)

/-- The state of the whole program. -/
structure AuditEngine (P : ℕ) where
  queue : Queue (Thread P) (Fin 6) (BitVec 64)
  running : Bool
  totalProfit : BitVec 64
  executedCount : BitVec 64
  /-- The rounds each worker has begun. -/
  issued : Fin P → ℕ
  logger : LoggerPc
  /-- The logger's local record. -/
  trade : Payload (Fin 6) (BitVec 64)
  logged : ℕ
  /-- The lines printed to the log file, as the trades they show. -/
  log : List AuditTradePayload
  main : MainPc

/-- `init_queue`, and the threads created. -/
def initEngine {P : ℕ} (mem : ℕ → Payload (Fin 6) (BitVec 64)) (trade : Payload (Fin 6) (BitVec 64)) :
    AuditEngine P where
  queue := initMasterQueue mem
  running := true
  totalProfit := 0
  executedCount := 0
  issued := fun _ => 0
  logger := .opening
  trade := trade
  logged := 0
  log := []
  main := .joining 0

/-- What moves next. -/
inductive Act (P : ℕ)
  /-- An atomic step inside a queue call of thread `t`. -/
  | queue (t : Thread P) (m : Move (Fin 6) (BitVec 64))
  /-- Worker `w` begins its next round. -/
  | worker (w : Fin P)
  /-- The logger takes a step; `choice` says whether `fopen` succeeds, and
  whether `head` is loaded before `tail`. -/
  | logger (choice : Bool)
  /-- `main` takes a step. -/
  | main

variable {P : ℕ}

/-- Worker `w` has returned: all rounds begun, and the last call is over. -/
def AuditEngine.finished (s : AuditEngine P) (M : ℕ) (w : Fin P) : Bool :=
  s.issued w == M && (s.queue.pc (some w)).ready

/-- A step of `audit_logger_worker`. -/
def loggerStep (Q : QueueSize) (s : AuditEngine P) (choice : Bool) : Option (AuditEngine P) :=
  match s.logger with
  | .opening => some { s with logger := if choice then .testRunning else .openFailed }
  | .openFailed => none
  | .testRunning => some { s with logger := if s.running then .calling else .testEmpty }
  | .testEmpty =>
    some { s with logger := if choice then .testTail s.queue.head else .testHead s.queue.tail }
  | .testTail head => some { s with logger := if head = s.queue.tail then .returned else .calling }
  | .testHead tail => some { s with logger := if s.queue.head = tail then .returned else .calling }
  | .calling =>
    (step Q s.queue (none, .callDequeue s.trade)).map fun q =>
      { s with queue := q, logger := .inDequeue }
  | .inDequeue =>
    match s.queue.pc none with
    | .dequeued ret buf => some { s with trade := buf, logger := if ret then .printing else .sleeping }
    | _ => none
  | .printing =>
    some { s with log := s.log ++ [AuditTradePayload.ofWords s.trade], logger := .addingProfit }
  | .addingProfit =>
    some { s with
      totalProfit := s.totalProfit + (AuditTradePayload.ofWords s.trade).netProfitFixed
      logger := .addingCount }
  | .addingCount =>
    some { s with
      executedCount := s.executedCount + 1, logged := s.logged + 1, logger := .testRunning }
  | .sleeping => some { s with logger := .testRunning }
  | .returned => none

/-- `NUM_PRODUCERS * 200000`, as `head` is compared with it.  The product of two `int` literals is
an `int`, which wraps, and is extended to a `size_t` with its sign; a literal that is no `int` is a
`long`. -/
def tradesBound (P M : ℕ) : ℕ :=
  if P < 2 ^ 31 ∧ M < 2 ^ 31 then ((BitVec.ofNat 32 (P * M)).signExtend 64).toNat
  else (BitVec.ofNat 64 (P * M)).toNat

/-- The product is too small only where it has lost a carry. -/
theorem le_tradesBound {P M : ℕ} (h : P * M < 2 ^ 32) : P * M ≤ tradesBound P M := by
  have hword : (BitVec.ofNat 32 (P * M)).toNat = P * M := by
    rw [BitVec.toNat_ofNat, Nat.mod_eq_of_lt h]
  unfold tradesBound
  split
  · have hwide : ((BitVec.ofNat 32 (P * M)).setWidth 64).toNat = P * M := by
      rw [BitVec.toNat_setWidth, hword, Nat.mod_eq_of_lt (by omega)]
    rw [BitVec.toNat_signExtend, hwide]
    exact Nat.le_add_right ..
  · rw [BitVec.toNat_ofNat, Nat.mod_eq_of_lt (by omega)]

/-- A step of `main`. -/
def mainStep (M : ℕ) (s : AuditEngine P) : Option (AuditEngine P) :=
  match s.main with
  | .joining k =>
    if hk : k < P then
      if s.finished M ⟨k, hk⟩ then some { s with main := .joining (k + 1) } else none
    else some { s with main := .waitHead }
  | .waitHead =>
    some { s with main := if s.queue.head < tradesBound P M then .waitHead else .stopping }
  | .stopping => some { s with running := false, main := .joiningLogger }
  | .joiningLogger =>
    if s.logger = .returned ∨ s.logger = .openFailed then some { s with main := .done } else none
  | .done => none

/-- A step of the program. -/
def auditStep (Q : QueueSize) (F : Feed P) (M : ℕ) (s : AuditEngine P) : Act P → Option (AuditEngine P)
  | .queue t m =>
    if m.inner then (step Q s.queue (t, m)).map fun q => { s with queue := q } else none
  | .worker w =>
    if s.issued w < M then
      (step Q s.queue (some w, .callEnqueue (F.trade w (s.issued w)).words)).map fun q =>
        { s with queue := q, issued := Function.update s.issued w (s.issued w + 1) }
    else none
  | .logger choice => loggerStep Q s choice
  | .main => mainStep M s

/-- The program under every interleaving of workers, logger and `main`. -/
def auditMachine (Q : QueueSize) (F : Feed P) (M : ℕ) : Machine (AuditEngine P) (Act P) where
  init s := ∃ mem trade, s = initEngine mem trade
  step := auditStep Q F M

end Audit
end SovereignSeed
