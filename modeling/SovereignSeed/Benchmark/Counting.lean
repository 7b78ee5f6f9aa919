import SovereignSeed.Mpmc.Crew
import SovereignSeed.Mpmc.GiveUp
import Mathlib.Data.BitVec
import Mathlib.Data.Fin.VecNotation

/-!
# The counting logger

`src/core128_bench.c` and `src/massive_bench.c` around their queue: producers
that enqueue a fixed number of events each, a `logger_worker` that counts what
it has printed up to `total_target`, and the shutdown steps of `main`.  The two
programs differ in their constants only.

The logger leaves its loop in one of two ways: `processed` has reached
`total_target`, or a dequeue came back empty and `running` is 0.  `main` clears
`running` once every producer has returned and `head` has reached
`total_target`; but `head` counts claimed tickets, and the logger prints and
counts a record some time after it has claimed it.

The break is never taken.  Between two dequeues the logger holds no ticket, so
`head` is exactly `processed`, which the loop test has found below
`total_target`: `main` is still waiting.

## Main definitions

* `Bench`, `core128Bench`, `massiveBench` — the constants of a benchmark.
* `BenchRun`, `benchStep`, `benchMachine` — the whole program.
* `BenchInv` — the invariant that ties `head`, `processed` and the logger.

## Main results

* `benchInv_of_reachable` — the invariant holds in every reachable state.
* `counting_logger_is_complete` — **the logger leaves with every event counted
  and logged, and its break is never taken.**
-/

namespace SovereignSeed
namespace Benchmark

open Mpmc

/-- The constants of a benchmark; the two counts are `int` literals. -/
structure Bench where
  queueSize : QueueSize
  numProducers : ℕ
  eventsPerProducer : ℕ
  producers_lt : numProducers < 2 ^ 31
  events_lt : eventsPerProducer < 2 ^ 31

/-- The constants of `core128_bench.c`. -/
def core128Bench : Bench where
  queueSize := ⟨19, by decide, by decide⟩
  numProducers := 128
  eventsPerProducer := 200000
  producers_lt := by decide
  events_lt := by decide

/-- The constants of `massive_bench.c`. -/
def massiveBench : Bench where
  queueSize := ⟨18, by decide, by decide⟩
  numProducers := 32
  eventsPerProducer := 500000
  producers_lt := by decide
  events_lt := by decide

/-- `(size_t)NUM_PRODUCERS * EVENTS_PER_PRODUCER`. -/
def Bench.totalTarget (B : Bench) : ℕ := B.numProducers * B.eventsPerProducer % 2 ^ 64

/-- `LogEventPayload`, less the text in `msg`, which nothing reads. -/
structure LogEventPayload where
  timestampNs : BitVec 64
  sequence : BitVec 64
  producerId : BitVec 32
  deriving DecidableEq

/-- The words of an event, as the queue copies them; the last is padded. -/
def LogEventPayload.words (ev : LogEventPayload) : Payload (Fin 3) (BitVec 64) :=
  ![ev.timestampNs, ev.sequence, ev.producerId.setWidth 64]

/-- The event in a buffer of three words. -/
def LogEventPayload.ofWords (w : Payload (Fin 3) (BitVec 64)) : LogEventPayload :=
  ⟨w 0, w 1, (w 2).setWidth 32⟩

@[simp] theorem LogEventPayload.ofWords_words (ev : LogEventPayload) : ofWords ev.words = ev := by
  simp [ofWords, words]

/-- What `producer_worker` enqueues in round `i`, given its clock readings. -/
def producerEvent {P : ℕ} (ns : Fin P → ℕ → BitVec 64) (w : Fin P) (i : ℕ) : LogEventPayload where
  timestampNs := ns w i
  sequence := BitVec.ofNat 64 i
  producerId := BitVec.ofNat 32 w

/-- The control point of `logger_worker`. -/
inductive LoggerPc
  /-- In `fopen`. -/
  | opening
  /-- Returned because the log file did not open. -/
  | openFailed
  /-- About to compare `processed` with `total_target`. -/
  | testCount
  /-- About to call `mpmc_dequeue`. -/
  | calling
  /-- Inside `mpmc_dequeue`. -/
  | inDequeue
  /-- About to print the record. -/
  | printing
  /-- About to count the record. -/
  | counting
  /-- The dequeue was empty: about to load `running`. -/
  | testRunning
  /-- In `sched_yield`. -/
  | yielding
  /-- Out of the loop, in `fclose`. -/
  | closing
  | returned
  deriving DecidableEq

/-- The control point of `main`, from the joins on. -/
inductive MainPc
  /-- About to join producer `k`. -/
  | joining (k : ℕ)
  /-- Waiting for `head` to reach `total_target`. -/
  | waitHead
  /-- About to store `running = 0`. -/
  | stopping
  /-- About to join the logger. -/
  | joiningLogger
  | done
  deriving DecidableEq

/-- The state of a benchmark with `P` producers. -/
structure BenchRun (P : ℕ) where
  queue : Queue (Option (Fin P)) (Fin 3) (BitVec 64)
  running : Bool
  /-- The rounds each producer has begun. -/
  issued : Fin P → ℕ
  logger : LoggerPc
  /-- The logger's local record. -/
  ev : Payload (Fin 3) (BitVec 64)
  processed : ℕ
  /-- The lines printed to the log file, as the events they show. -/
  log : List LogEventPayload
  main : MainPc

/-- `init_queue`, and the threads created. -/
def initBench {P : ℕ} (mem : ℕ → Payload (Fin 3) (BitVec 64)) (ev : Payload (Fin 3) (BitVec 64)) :
    BenchRun P where
  queue := initMasterQueue mem
  running := true
  issued := fun _ => 0
  logger := .opening
  ev := ev
  processed := 0
  log := []
  main := .joining 0

/-- What moves next. -/
inductive Act (P : ℕ)
  /-- An atomic step inside a queue call of thread `t`. -/
  | queue (t : Option (Fin P)) (m : Move (Fin 3) (BitVec 64))
  /-- Producer `w` begins its next round. -/
  | producer (w : Fin P)
  /-- The logger takes a step; `opens` says whether `fopen` succeeds. -/
  | logger (opens : Bool)
  /-- `main` takes a step. -/
  | main

/-- Producer `w` has returned: all rounds begun, and the last call is over. -/
def BenchRun.finished {P : ℕ} (s : BenchRun P) (M : ℕ) (w : Fin P) : Bool :=
  s.issued w == M && (s.queue.pc (some w)).ready

section Steps

variable (B : Bench)

/-- A step of `logger_worker`. -/
def loggerStep (s : BenchRun B.numProducers) (opens : Bool) : Option (BenchRun B.numProducers) :=
  match s.logger with
  | .opening => some { s with logger := if opens then .testCount else .openFailed }
  | .openFailed => none
  | .testCount =>
    some { s with logger := if s.processed < B.totalTarget then .calling else .closing }
  | .calling =>
    (step B.queueSize s.queue (none, .callDequeue s.ev)).map fun q =>
      { s with queue := q, logger := .inDequeue }
  | .inDequeue =>
    match s.queue.pc none with
    | .dequeued ret buf =>
      some { s with ev := buf, logger := if ret then .printing else .testRunning }
    | _ => none
  | .printing => some { s with log := s.log ++ [.ofWords s.ev], logger := .counting }
  | .counting => some { s with processed := succWord s.processed, logger := .testCount }
  -- the break
  | .testRunning => some { s with logger := if s.running then .yielding else .closing }
  | .yielding => some { s with logger := .testCount }
  | .closing => some { s with logger := .returned }
  | .returned => none

/-- A step of `main`. -/
def mainStep (s : BenchRun B.numProducers) : Option (BenchRun B.numProducers) :=
  match s.main with
  | .joining k =>
    if hk : k < B.numProducers then
      if s.finished B.eventsPerProducer ⟨k, hk⟩ then some { s with main := .joining (k + 1) }
      else none
    else some { s with main := .waitHead }
  | .waitHead =>
    some { s with main := if s.queue.head < B.totalTarget then .waitHead else .stopping }
  | .stopping => some { s with running := false, main := .joiningLogger }
  | .joiningLogger =>
    if s.logger = .returned ∨ s.logger = .openFailed then some { s with main := .done } else none
  | .done => none

/-- A step of the program, with `ns` for the clock readings of the producers. -/
def benchStep (ns : Fin B.numProducers → ℕ → BitVec 64) (s : BenchRun B.numProducers) :
    Act B.numProducers → Option (BenchRun B.numProducers)
  | .queue t m =>
    if m.inner then (step B.queueSize s.queue (t, m)).map fun q => { s with queue := q } else none
  | .producer w =>
    if s.issued w < B.eventsPerProducer then
      (step B.queueSize s.queue
        (some w, .callEnqueue (producerEvent ns w (s.issued w)).words)).map fun q =>
          { s with queue := q, issued := Function.update s.issued w (s.issued w + 1) }
    else none
  | .logger opens => loggerStep B s opens
  | .main => mainStep B s

/-- The program under every interleaving of producers, logger and `main`. -/
def benchMachine (ns : Fin B.numProducers → ℕ → BitVec 64) :
    Machine (BenchRun B.numProducers) (Act B.numProducers) where
  init s := ∃ mem ev, s = initBench mem ev
  step := benchStep B ns

end Steps

/-! ### The invariant -/

/-- The record between the queue and the log file. -/
def BenchRun.inHand {P : ℕ} (s : BenchRun P) : List (Payload (Fin 3) (BitVec 64)) :=
  match s.logger with
  | .inDequeue => (s.queue.pc none).handed
  | .printing => [s.ev]
  | _ => []

/-- The printed records the logger has not counted. -/
def LoggerPc.uncounted : LoggerPc → ℕ
  | .counting => 1
  | _ => 0

/-- The control points past a loop test that has found `processed` too small. -/
def LoggerPc.inBody : LoggerPc → Bool
  | .calling => true
  | .inDequeue => true
  | .printing => true
  | .counting => true
  | .testRunning => true
  | _ => false

/-- The control points at which the logger holds no record. -/
def LoggerPc.quiet : LoggerPc → Bool
  | .inDequeue => false
  | .printing => false
  | .counting => false
  | _ => true

/-- The logger has left its loop. -/
def LoggerPc.left : LoggerPc → Bool
  | .closing => true
  | .returned => true
  | _ => false

/-- `main` has seen `head` reach `total_target`. -/
def MainPc.waited : MainPc → Bool
  | .joining _ => false
  | .waitHead => false
  | _ => true

/-- The invariant of a benchmark. -/
structure BenchInv (B : Bench) (ns : Fin B.numProducers → ℕ → BitVec 64)
    (s : BenchRun B.numProducers) : Prop where
  crew : Crew B.queueSize (fun w i => (producerEvent ns w i).words) s.issued s.queue
  issued_le : ∀ w, s.issued w ≤ B.eventsPerProducer
  logger_out : s.logger ≠ .inDequeue → (s.queue.pc none).ready = true
  /-- Every record handed over is printed, or in the logger's hand. -/
  printed : s.queue.rets.map (fun r => LogEventPayload.ofWords r.2.2) =
    s.log ++ s.inHand.map .ofWords
  counted : s.log.length = s.processed + s.logger.uncounted
  below : s.logger.inBody = true → s.processed < B.totalTarget
  waited : s.main.waited = true → B.totalTarget ≤ s.queue.head
  stopped : s.running = false → s.main.waited = true
  left : s.logger.left = true → B.totalTarget ≤ s.processed

section Invariant

variable {B : Bench} {ns : Fin B.numProducers → ℕ → BitVec 64} {s s' : BenchRun B.numProducers}

/-- The number of events fits a `size_t`. -/
theorem Bench.totalTarget_eq (B : Bench) :
    B.totalTarget = B.numProducers * B.eventsPerProducer ∧ B.totalTarget < 2 ^ 62 := by
  have hlt : B.numProducers * B.eventsPerProducer < 2 ^ 31 * 2 ^ 31 :=
    Nat.mul_lt_mul'' B.producers_lt B.events_lt
  have heq : B.totalTarget = B.numProducers * B.eventsPerProducer := by
    rw [Bench.totalTarget, Nat.mod_eq_of_lt (by omega)]
  exact ⟨heq, by omega⟩

namespace BenchInv

/-- There are no more enqueues than events. -/
theorem enqs_length_le (h : BenchInv B ns s) : s.queue.enqs.length ≤ B.totalTarget := by
  rw [B.totalTarget_eq.1]
  exact h.crew.enqs_length_le.trans (sum_issued_le h.issued_le)

theorem tail_lt (h : BenchInv B ns s) : s.queue.tail < 2 ^ 63 := by
  have hle := h.enqs_length_le
  have htarget := B.totalTarget_eq.2
  rw [h.crew.ring.tail_eq]
  omega

/-- **While the logger holds no record, `head` is what it has counted.** -/
theorem head_eq (h : BenchInv B ns s) (hin : s.logger ≠ .inDequeue) (hhand : s.inHand = [])
    (hcounted : s.logger.uncounted = 0) : s.queue.head = s.processed := by
  have hprinted := congrArg List.length h.printed
  rw [hhand] at hprinted
  have hcount := h.counted
  rw [h.crew.head_eq (Pc.ready_iff (h.logger_out hin)).2.2]
  simp only [List.map_nil, List.append_nil, List.length_map] at hprinted
  omega

/-- **The break is never taken**: at an empty dequeue `main` is still waiting. -/
theorem running_of_testRunning (h : BenchInv B ns s) (hl : s.logger = .testRunning) :
    s.running = true := by
  have hhead := h.head_eq (by simp [hl]) (by simp [BenchRun.inHand, hl])
    (by simp [LoggerPc.uncounted, hl])
  have hbelow := h.below (by rw [hl]; rfl)
  by_contra hrun
  have hwaited := h.waited (h.stopped (by simpa using hrun))
  omega

theorem init (mem : ℕ → Payload (Fin 3) (BitVec 64)) (ev : Payload (Fin 3) (BitVec 64)) :
    BenchInv B ns (initBench mem ev) where
  crew := Crew.init mem
  issued_le := fun _ => Nat.zero_le _
  logger_out := fun _ => rfl
  printed := rfl
  counted := rfl
  below := fun h => by cases h
  waited := fun h => by cases h
  stopped := fun h => by cases h
  left := fun h => by cases h

/-! ### Steps of the program -/

/-- A producer's step inside `mpmc_enqueue`. -/
theorem producer (h : BenchInv B ns s) {w : Fin B.numProducers} {m : Move (Fin 3) (BitVec 64)}
    {q : Queue (Option (Fin B.numProducers)) (Fin 3) (BitVec 64)} (hm : m.inner = true)
    (hq : step B.queueSize s.queue (some w, m) = some q) : BenchInv B ns { s with queue := q } := by
  obtain ⟨hcrew, hhead, hrets, hnone, -, -⟩ := h.crew.producer h.tail_lt hm hq
  have hhand : BenchRun.inHand { s with queue := q } = s.inHand := by
    simp only [BenchRun.inHand, hnone]
  refine ⟨hcrew, h.issued_le, fun hin => ?_, ?_, h.counted, h.below, fun hw => ?_, h.stopped,
    h.left⟩
  · simpa only [hnone] using h.logger_out hin
  · simpa only [hhand, hrets] using h.printed
  · exact (h.waited hw).trans hhead.ge

/-- The logger's step inside `mpmc_dequeue`. -/
theorem inDequeue (h : BenchInv B ns s) {m : Move (Fin 3) (BitVec 64)}
    {q : Queue (Option (Fin B.numProducers)) (Fin 3) (BitVec 64)} (hm : m.inner = true)
    (hq : step B.queueSize s.queue (none, m) = some q) : BenchInv B ns { s with queue := q } := by
  obtain ⟨hcrew, hhead, hready, hstep, -⟩ := h.crew.logger h.tail_lt hm hq
  have hin : s.logger = .inDequeue := by
    by_contra hout
    rw [h.logger_out hout] at hready
    cases hready
  have hempty : s.inHand = [] := by
    simp only [BenchRun.inHand, hin]
    exact handed_of_not_ready hready
  have hhand : BenchRun.inHand { s with queue := q } = (q.pc none).handed := by
    simp only [BenchRun.inHand, hin]
  have hprinted := h.printed
  rw [hempty] at hprinted
  refine ⟨hcrew, h.issued_le, fun hout => absurd hin hout, ?_, h.counted, h.below,
    fun hw => (h.waited hw).trans hhead, h.stopped, h.left⟩
  rw [hhand, hstep.map_rets LogEventPayload.ofWords, hprinted, List.map_nil, List.append_nil]

/-- A producer begins its next round. -/
theorem call (h : BenchInv B ns s) {w : Fin B.numProducers}
    (hs : benchStep B ns s (.producer w) = some s') : BenchInv B ns s' := by
  simp only [benchStep] at hs
  split at hs
  · next hlt =>
    obtain ⟨q, hq, rfl⟩ := Option.map_eq_some_iff.mp hs
    obtain ⟨hcrew, hhead, hrets, hnone, -⟩ := h.crew.callEnqueue h.tail_lt hq
    refine ⟨hcrew, fun v => ?_, fun hin => ?_, ?_, h.counted, h.below, fun hw => ?_, h.stopped,
      h.left⟩
    · by_cases hv : v = w
      · subst hv
        simp only [Function.update_self]
        exact hlt
      · simpa [Function.update_of_ne hv] using h.issued_le v
    · simpa only [hnone] using h.logger_out hin
    · simpa only [BenchRun.inHand, hnone, hrets] using h.printed
    · exact (h.waited hw).trans hhead.ge
  · cases hs

/-- A step of the logger outside the queue. -/
theorem outside (h : BenchInv B ns s) (hqueue : s'.queue = s.queue) (hissued : s'.issued = s.issued)
    (hrun : s'.running = s.running) (hmain : s'.main = s.main)
    (hready : (s.queue.pc none).ready = true)
    (hprinted : s.queue.rets.map (fun r => LogEventPayload.ofWords r.2.2) =
      s'.log ++ s'.inHand.map .ofWords)
    (hcounted : s'.log.length = s'.processed + s'.logger.uncounted)
    (hbelow : s'.logger.inBody = true → s'.processed < B.totalTarget)
    (hleft : s'.logger.left = true → B.totalTarget ≤ s'.processed) : BenchInv B ns s' where
  crew := by
    rw [hqueue, hissued]
    exact h.crew
  issued_le := hissued ▸ h.issued_le
  logger_out := fun _ => hqueue ▸ hready
  printed := hqueue ▸ hprinted
  counted := hcounted
  below := hbelow
  waited := by
    rw [hmain, hqueue]
    exact h.waited
  stopped := by
    rw [hmain, hrun]
    exact h.stopped
  left := hleft

/-- The logger calls `mpmc_dequeue`. -/
theorem callDequeue (h : BenchInv B ns s) (hl : s.logger = .calling)
    (hs : (step B.queueSize s.queue (none, .callDequeue s.ev)).map
      (fun q => { s with queue := q, logger := .inDequeue }) = some s') : BenchInv B ns s' := by
  obtain ⟨q, hq, rfl⟩ := Option.map_eq_some_iff.mp hs
  obtain ⟨hcrew, hhead, hrets, hhanded, -⟩ := h.crew.callDequeue h.tail_lt hq
  refine ⟨hcrew, h.issued_le, fun hin => (hin rfl).elim, ?_, ?_, fun _ => ?_, fun hw => ?_,
    h.stopped, fun hleft => by cases hleft⟩
  · simpa [BenchRun.inHand, hl, hhanded, hrets] using h.printed
  · simpa [LoggerPc.uncounted, hl] using h.counted
  · exact h.below (by rw [hl]; rfl)
  · exact (h.waited hw).trans hhead.ge

/-- The logger moves between two control points at which it holds no record. -/
theorem quiet (h : BenchInv B ns s) {p : LoggerPc} (hl : s.logger.quiet = true)
    (hp : p.quiet = true) (hbelow : p.inBody = true → s.processed < B.totalTarget)
    (hleft : p.left = true → B.totalTarget ≤ s.processed) :
    BenchInv B ns { s with logger := p } := by
  have hfacts : s.logger ≠ .inDequeue ∧ s.inHand = [] ∧ s.logger.uncounted = 0 := by
    cases hpc : s.logger <;> simp_all [BenchRun.inHand, LoggerPc.uncounted, LoggerPc.quiet]
  obtain ⟨hin, hhand, hzero⟩ := hfacts
  have hnew : BenchRun.inHand { s with logger := p } = [] ∧ p.uncounted = 0 := by
    cases p <;> simp_all [BenchRun.inHand, LoggerPc.uncounted, LoggerPc.quiet]
  refine h.outside rfl rfl rfl rfl (h.logger_out hin) ?_ ?_ hbelow hleft
  · rw [hnew.1, ← hhand]
    exact h.printed
  · rw [hnew.2, ← hzero]
    exact h.counted

/-- A step of `logger_worker`. -/
theorem logger (h : BenchInv B ns s) {opens : Bool} (hs : loggerStep B s opens = some s') :
    BenchInv B ns s' := by
  have hcounted := h.counted
  have hbelow := h.below
  have hleft := h.left
  unfold loggerStep at hs
  split at hs
  · next hl =>
    cases hs
    refine h.quiet (by rw [hl]; rfl) ?_ (fun hb => ?_) (fun hf => ?_)
    · cases opens <;> rfl
    · cases opens <;> cases hb
    · cases opens <;> cases hf
  · cases hs
  · next hl =>
    cases hs
    by_cases hlt : s.processed < B.totalTarget
    · rw [if_pos hlt]
      exact h.quiet (by rw [hl]; rfl) rfl (fun _ => hlt) (fun hf => by cases hf)
    · rw [if_neg hlt]
      exact h.quiet (by rw [hl]; rfl) rfl (fun hb => by cases hb) (fun _ => by omega)
  · next hl => exact h.callDequeue hl hs
  · next hl =>
    -- back from `mpmc_dequeue`
    split at hs
    · next ret buf hpc =>
      cases hs
      have hready : (s.queue.pc none).ready = true := by
        rw [hpc]
        rfl
      have hprinted := h.printed
      simp only [BenchRun.inHand, hl, hpc] at hprinted
      simp only [hl, LoggerPc.uncounted] at hcounted
      have hlt := hbelow (by rw [hl]; rfl)
      cases ret with
      | true =>
        refine h.outside rfl rfl rfl rfl hready ?_ hcounted (fun _ => hlt) (fun hf => by cases hf)
        simpa [BenchRun.inHand, Pc.handed] using hprinted
      | false =>
        refine h.outside rfl rfl rfl rfl hready ?_ hcounted (fun _ => hlt) (fun hf => by cases hf)
        simpa [BenchRun.inHand, Pc.handed] using hprinted
    · cases hs
  · next hl =>
    cases hs
    have hprinted := h.printed
    simp only [BenchRun.inHand, hl] at hprinted
    simp only [hl, LoggerPc.uncounted] at hcounted
    refine h.outside rfl rfl rfl rfl (h.logger_out (by simp [hl])) ?_ ?_
      (fun _ => hbelow (by rw [hl]; rfl)) (fun hf => by cases hf)
    · simpa [BenchRun.inHand] using hprinted
    · simpa [LoggerPc.uncounted] using hcounted
  · next hl =>
    cases hs
    have hlt := hbelow (by rw [hl]; rfl)
    have htarget := B.totalTarget_eq.2
    have hprinted := h.printed
    simp only [BenchRun.inHand, hl] at hprinted
    simp only [hl, LoggerPc.uncounted] at hcounted
    refine h.outside rfl rfl rfl rfl (h.logger_out (by simp [hl])) ?_ ?_ (fun hb => by cases hb)
      (fun hf => by cases hf)
    · simpa [BenchRun.inHand] using hprinted
    · simpa [LoggerPc.uncounted, succWord_eq (x := s.processed) (by omega)] using hcounted
  · next hl =>
    rw [if_pos (h.running_of_testRunning hl)] at hs
    cases hs
    exact h.quiet (by rw [hl]; rfl) rfl (fun hb => by cases hb) (fun hf => by cases hf)
  · next hl =>
    cases hs
    exact h.quiet (by rw [hl]; rfl) rfl (fun hb => by cases hb) (fun hf => by cases hf)
  · next hl =>
    cases hs
    exact h.quiet (by rw [hl]; rfl) rfl (fun hb => by cases hb)
      (fun _ => hleft (by rw [hl]; rfl))
  · cases hs

/-- A step of `main`. -/
theorem main (h : BenchInv B ns s) (hs : mainStep B s = some s') : BenchInv B ns s' := by
  have hkeep : ∀ {running : Bool} {p : MainPc},
      (p.waited = true → B.totalTarget ≤ s.queue.head) → (running = false → p.waited = true) →
      BenchInv B ns { s with running := running, main := p } := fun hwaited hstopped =>
    ⟨h.crew, h.issued_le, h.logger_out, h.printed, h.counted, h.below, hwaited, hstopped, h.left⟩
  have hwaited := h.waited
  have hstopped := h.stopped
  unfold mainStep at hs
  split at hs
  · next k hm =>
    rw [hm] at hstopped
    split at hs
    · split at hs
      · cases hs
        exact hkeep (p := .joining (k + 1)) (fun hw => by cases hw) hstopped
      · cases hs
    · cases hs
      exact hkeep (p := .waitHead) (fun hw => by cases hw) hstopped
  · next hm =>
    rw [hm] at hstopped
    cases hs
    by_cases hlt : s.queue.head < B.totalTarget
    · rw [if_pos hlt]
      exact hkeep (p := .waitHead) (fun hw => by cases hw) hstopped
    · rw [if_neg hlt]
      exact hkeep (p := .stopping) (fun _ => by omega) (fun _ => rfl)
  · next hm =>
    rw [hm] at hwaited
    cases hs
    exact hkeep (p := .joiningLogger) (fun _ => hwaited rfl) (fun _ => rfl)
  · next hm =>
    rw [hm] at hwaited
    split at hs
    · cases hs
      exact hkeep (p := .done) (fun _ => hwaited rfl) (fun _ => rfl)
    · cases hs
  · cases hs

/-- **Every step of the program preserves the invariant.** -/
theorem step (h : BenchInv B ns s) {a : Act B.numProducers} (hs : benchStep B ns s a = some s') :
    BenchInv B ns s' := by
  cases a with
  | queue t m =>
    simp only [benchStep] at hs
    split at hs
    · next hm =>
      obtain ⟨q, hq, rfl⟩ := Option.map_eq_some_iff.mp hs
      cases t with
      | none => exact h.inDequeue hm hq
      | some w => exact h.producer hm hq
    · cases hs
  | producer w => exact h.call hs
  | logger opens => exact h.logger hs
  | main => exact h.main hs

end BenchInv

/-- **The invariant holds in every reachable state.** -/
theorem benchInv_of_reachable (hr : (benchMachine B ns).Reachable s) : BenchInv B ns s := by
  refine hr.invariant ?_ fun u a v hu hst => hu.step hst
  rintro s ⟨mem, ev, rfl⟩
  exact BenchInv.init mem ev

/-! ### The counting logger -/

/-- Once the logger has left its loop, everything has been issued and handed over. -/
theorem BenchInv.complete (h : BenchInv B ns s) (hleft : s.logger.left = true) :
    s.processed = B.totalTarget ∧ (∀ w, s.issued w = B.eventsPerProducer) ∧
      s.queue.head = s.queue.tail ∧ ∀ t, (s.queue.pc t).ready = true := by
  have hfacts : s.logger ≠ .inDequeue ∧ s.inHand = [] ∧ s.logger.uncounted = 0 := by
    cases hpc : s.logger <;> simp_all [BenchRun.inHand, LoggerPc.uncounted, LoggerPc.left]
  have hhead := h.head_eq hfacts.1 hfacts.2.1 hfacts.2.2
  have hcount := h.left hleft
  have hle := h.crew.ring.head_le
  have htail := h.crew.ring.tail_eq
  have htotal := h.enqs_length_le
  have hissued := sum_issued_le h.issued_le
  have htarget := B.totalTarget_eq.1
  have hbegun := h.crew.enqs_length_le
  obtain ⟨hempty, hproducers⟩ := h.crew.drained (by omega)
  have hready : ∀ t, (s.queue.pc t).ready = true := by
    intro t
    cases t with
    | none => exact h.logger_out hfacts.1
    | some w => exact hproducers w
  refine ⟨by omega, fun w => ?_, hempty, hready⟩
  have hall : ∑ w, s.issued w = ∑ _w : Fin B.numProducers, B.eventsPerProducer := by
    have hconst : ∑ _w : Fin B.numProducers, B.eventsPerProducer =
        B.numProducers * B.eventsPerProducer := by simp
    omega
  exact (Finset.sum_eq_sum_iff_of_le fun w _ => h.issued_le w).mp hall w (Finset.mem_univ w)

/-- **The counting logger never stops early.**  At an empty dequeue `running` is
still set, so the break is never taken; and when the logger has left its loop,
`processed` is `total_target` and the log is a merge of the producers' events. -/
theorem counting_logger_is_complete (hr : (benchMachine B ns).Reachable s) :
    (s.logger = .testRunning → s.running = true) ∧
      (s.logger.left = true → s.processed = B.totalTarget ∧
        ∃ L : List (Fin B.numProducers × ℕ), s.log = L.map (fun l => producerEvent ns l.1 l.2) ∧
          ∀ w, (share Prod.fst L w).map Prod.snd = List.range B.eventsPerProducer) := by
  have h := benchInv_of_reachable hr
  refine ⟨h.running_of_testRunning, fun hleft => ?_⟩
  obtain ⟨hcount, hissued, hempty, hready⟩ := h.complete hleft
  obtain ⟨L, hL, hshare⟩ := h.crew.merge hready hempty
  refine ⟨hcount, L, ?_, fun w => hissued w ▸ hshare w⟩
  have hhand : s.inHand = [] := by
    cases hpc : s.logger <;> simp_all [BenchRun.inHand, LoggerPc.left]
  have hprinted := h.printed
  have hlog := congrArg (List.map LogEventPayload.ofWords) hL
  simpa [hhand, Function.comp_def, hprinted] using hlog

end Invariant

/-- Two producers with one event each, over two slots. -/
def twoProducers : Bench where
  queueSize := twoSlots
  numProducers := 2
  eventsPerProducer := 1
  producers_lt := by decide
  events_lt := by decide

/-- The logger dequeues from the empty ring. -/
def emptySchedule : List (Act 2) :=
  [.logger true, .logger true, .logger true, .queue none .go, .queue none .go, .logger true]

/-- Producer 1 enqueues between the claim of producer 0 and its copy. -/
def overtakeSchedule : List (Act 2) :=
  .producer 0 :: [.go, .go, .go].map (.queue (some 0)) ++
    .producer 1 :: [.go, .go, .go, .copy 2, .copy 0, .copy 1, .go].map (.queue (some 1)) ++
      [.copy 1, .copy 2, .copy 0, .go].map (.queue (some 0))

/-- One round of the logger with a record in the ring. -/
def recordSchedule : List (Act 2) :=
  [.logger true, .logger true] ++
    [.go, .go, .go, .copy 0, .copy 1, .copy 2, .go].map (.queue none) ++
      [.logger true, .logger true, .logger true]

/-- The logger yields, both events are enqueued, and `main` waits for the second while the logger
counts the first. -/
def countSchedule : List (Act 2) :=
  [.logger true, .logger true] ++ overtakeSchedule ++ [.main, .main] ++ recordSchedule ++
    [.main, .main] ++ recordSchedule ++ [.main, .main, .logger true, .logger true]

theorem counting_logger_is_complete_two_producers :
    (∃ s : BenchRun 2, s.logger = .testRunning ∧ s.running = true) ∧
      ∃ s : BenchRun 2, s.logger = .returned ∧ s.running = false ∧ s.processed = 2 ∧
        ∃ L : List (Fin 2 × ℕ), s.log = L.map (fun l => producerEvent (fun _ _ => 7) l.1 l.2) ∧
          ∀ w, (share Prod.fst L w).map Prod.snd = List.range 1 := by
  have hempty : ((benchMachine twoProducers fun _ _ => 7).exec (fun _ _ => true)
      (initBench (fun _ _ => 0) fun _ => 0) emptySchedule).map (fun s => s.logger) =
        some .testRunning := by
    decide
  have hcount : ((benchMachine twoProducers fun _ _ => 7).exec (fun _ _ => true)
      (initBench (fun _ _ => 0) fun _ => 0) (emptySchedule ++ countSchedule)).map
        (fun s => (s.logger, s.running)) = some (.returned, false) := by
    decide
  obtain ⟨s, hs, hsl⟩ := Machine.exists_path_of_exec hempty
  obtain ⟨t, ht, htl⟩ := Machine.exists_path_of_exec hcount
  obtain ⟨htl, hstopped⟩ := Prod.mk.inj htl
  have hs := hs.reachable (.init ⟨_, _, rfl⟩)
  have ht := ht.reachable (.init ⟨_, _, rfl⟩)
  obtain ⟨hcounted, hlog⟩ := (counting_logger_is_complete ht).2 (by rw [htl]; rfl)
  exact ⟨⟨s, hsl, (counting_logger_is_complete hs).1 hsl⟩, t, htl, hstopped, hcounted, hlog⟩

end Benchmark
end SovereignSeed
