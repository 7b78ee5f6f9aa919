import SovereignSeed.Lineage.Recorder
import SovereignSeed.Utils.Drain

/-!
# The engine that is interrupted

`main` of `engine.py` over the logger of `src/utils/logger.py`: a record at the start, a pulse
every second, and behind `KeyboardInterrupt` a last record and `close`.

The interrupt comes between any two steps of `main`, and again while it is handled.  Inside the
`try` it leads to the handler, be it between `json.dumps` and the queue; inside the handler it
leads to `finally`; before the `try` and inside `finally` it ends `main`.  An integer that is too
long for `json.dumps` leads to `finally` as well.  The handler logs beside a call that was broken
off, so the two have slots of their own in the logger.

It also comes inside `put`, which is one step as long as nothing breaks it off: before the record
is in the queue, behind that and before `unfinished_tasks` counts it, or behind both.  Inside
`Condition.__enter__` and `__exit__` it leaves the lock of the queue taken, and then nobody gets
into the queue any more; two interrupts can do both.

## Main definitions

* `Engine`, `EnginePc`, `engineMachine` — the program under every interleaving and interrupt.
* `PutEffect`, `breakPut` — a call of `put` that is interrupted.
* `offered`, `Story` — what `main` has brought to the queue, and what that can be.
* `entries` — what the queue has accepted, as it is read.

## Main results

* `engineInv_step` — what a step preserves.
* `engine_log` — **the log is a beginning of the story at every moment, and all of it at the end.**
-/

namespace SovereignSeed
namespace Utils

open Python Json Logger
open Fifo (Run pushed popped)

/-! ### The program -/

/-- Where `main` is. -/
inductive EnginePc
  /-- About to log the start. -/
  | starting
  /-- Before the queue with that record. -/
  | startPut
  /-- About to count. -/
  | pulse
  /-- About to log the pulse. -/
  | pulseLog
  /-- Before the queue with that record. -/
  | pulsePut
  | sleep
  /-- In the handler, about to log the end. -/
  | stopLog
  /-- Before the queue with that record. -/
  | stopPut
  /-- In `finally`, about to call `close`. -/
  | close
  | setStop
  | join
  /-- `Engine cleanly shut down.` -/
  | printed
  /-- An exception has left `main` on another way. -/
  | died
  deriving DecidableEq

/-- `main` and its logger. -/
structure Engine where
  /-- The logger; the handler has the slot `true`. -/
  logger : AsyncJSONLogger Bool
  pc : EnginePc
  counter : ℕ
  /-- An interrupt has left the lock of the queue taken. -/
  wedged : Bool

/-- The engine before its first step, with some bytes in the log. -/
def engineInit (before : Bytes) : Engine where
  logger := init Bool before
  pc := .starting
  counter := 0
  wedged := false

/-- How far `put_nowait` has got when it is interrupted. -/
inductive PutEffect
  /-- The queue is as it was. -/
  | nothing
  /-- The record is in the queue, and `unfinished_tasks` is as it was. -/
  | appended
  /-- The call has had its effect. -/
  | complete
  deriving DecidableEq

/-- What happens next. -/
inductive EngineAct
  /-- `main` takes its next step; the time it may read. -/
  | main (timestamp : PyFloat)
  /-- `KeyboardInterrupt`, inside `put_nowait` if it has had an effect or leaves the lock taken. -/
  | interrupt (effect : PutEffect) (locked : Bool)
  /-- The worker takes a step of its own. -/
  | worker (a : Act Bool)

/-- A step of the worker. -/
def Act.isWorker {T : Type*} : Act T → Bool
  | .work => true
  | .expire => true
  | .write _ => true
  | .fail _ => true
  | _ => false

/-- A call of `log`. -/
structure Entry where
  level : PyStr
  message : PyStr
  kwargs : Members

/-- The start. -/
def startEntry : Entry where
  level := text "INFO"
  message := text "Sovereign Intelligence Protocol engine starting up"
  kwargs := [(text "core_version", .str (text "2.0.0"))]

/-- A pulse. -/
def pulseEntry (counter : ℕ) : Entry where
  level := text "DEBUG"
  message := text "Heartbeat pulse executed"
  kwargs := [(text "sequence", .int counter)]

/-- The end. -/
def stopEntry : Entry where
  level := text "INFO"
  message := text "Engine shutdown initiated by operator"
  kwargs := []

/-- `logger.log(level, message, **kwargs)`, up to the queue, or to where `json.dumps` raises. -/
def Engine.log (e : Engine) (slot : Bool) (timestamp : PyFloat) (entry : Entry)
    (pc raised : EnginePc) : Option Engine :=
  (step e.logger (.log slot timestamp (.str entry.level) (.str entry.message) entry.kwargs)).map
    fun logger => { e with logger, pc := if logger.clients slot = none then raised else pc }

/-- A step of the logger that is one of `main`. -/
def Engine.call (e : Engine) (a : Act Bool) (pc : EnginePc) : Option Engine :=
  (step e.logger a).map fun logger => { e with logger, pc }

/-- The next step of `main`. -/
def mainStep (e : Engine) (timestamp : PyFloat) : Option Engine :=
  match e.pc with
  | .starting => e.log false timestamp startEntry .startPut .died
  | .startPut => e.call (.put false) .pulse
  | .pulse => some { e with counter := e.counter + 1, pc := .pulseLog }
  | .pulseLog => e.log false timestamp (pulseEntry e.counter) .pulsePut .close
  | .pulsePut => e.call (.put false) .sleep
  | .sleep => some { e with pc := .pulse }
  | .stopLog => e.log true timestamp stopEntry .stopPut .close
  | .stopPut => e.call (.put true) .close
  | .close => e.call .close .setStop
  | .setStop => e.call .closeStep .join
  | .join => e.call .closeStep .printed
  | .printed => none
  | .died => none

/-- Where an interrupt leads. -/
def EnginePc.interrupted : EnginePc → Option EnginePc
  | .starting => some .died
  | .startPut => some .died
  | .pulse => some .stopLog
  | .pulseLog => some .stopLog
  | .pulsePut => some .stopLog
  | .sleep => some .stopLog
  | .stopLog => some .close
  | .stopPut => some .close
  | .close => some .died
  | .setStop => some .died
  | .join => some .died
  | .printed => none
  | .died => none

/-- The slot whose record `main` is about to put. -/
def EnginePc.putting : EnginePc → Option Bool
  | .startPut => some false
  | .pulsePut => some false
  | .stopPut => some true
  | _ => none

/-- The worker is about to take the lock of the queue, or waits inside `get` to have it again. -/
def WorkerPc.locks : WorkerPc → Bool
  | .testEmpty => true
  | .get => true
  | .taskDone => true
  | _ => false

/-- What a call of `put_nowait` has done that is broken off. -/
def breakPut (s : AsyncJSONLogger Bool) (slot : Bool) : PutEffect → Option (AsyncJSONLogger Bool)
  | .nothing => some s
  | .appended =>
    match s.clients slot with
    | some item =>
      if s.queue.length < maxsize then
        some { s with
          queue := s.queue ++ [item]
          clients := Function.update s.clients slot none
          calls := s.calls ++ [.push item true] }
      else none
    | none => none
  | .complete => step s (.put slot)

/-- `KeyboardInterrupt` inside a call of `put_nowait`, which has the lock of the queue. -/
def Engine.breakOff (e : Engine) (pc : EnginePc) (effect : PutEffect) (locked : Bool) :
    Option Engine :=
  match e.wedged, e.pc.putting with
  | false, some slot =>
    (breakPut e.logger slot effect).map fun logger => { e with logger, pc, wedged := locked }
  | _, _ => none

/-- One step of the engine. -/
def engineStep (e : Engine) : EngineAct → Option Engine
  | .main timestamp => if e.wedged && e.pc.putting.isSome then none else mainStep e timestamp
  | .interrupt effect locked =>
    match e.pc.interrupted with
    | none => none
    | some pc =>
      if effect = .nothing ∧ locked = false then some { e with pc }
      else e.breakOff pc effect locked
  | .worker a =>
    if a.isWorker && !(e.wedged && e.logger.worker.locks) then
      (step e.logger a).map fun logger => { e with logger }
    else none

/-- The engine under every interleaving and interrupt. -/
def engineMachine : Machine Engine EngineAct where
  init e := ∃ before, e = engineInit before
  step := engineStep

/-- The file fails. -/
def EngineAct.fails : EngineAct → Bool
  | .worker a => a.fails
  | _ => false

/-- An interrupt between a record's way into the queue and its count. -/
def EngineAct.uncounted : EngineAct → Bool
  | .interrupt .appended _ => true
  | _ => false

/-- An action in which the file does not fail, and no record gets into the queue uncounted. -/
def EngineSound (_ : Engine) (a : EngineAct) : Prop := a.fails = false ∧ a.uncounted = false

/-! ### What is logged -/

/-- The object of a call. -/
def Entry.data (entry : Entry) (timestamp : PyFloat) : Members :=
  [(text "timestamp", .float timestamp), (text "level", .str entry.level),
    (text "message", .str entry.message)] ++ entry.kwargs

/-- The text is that of such a call. -/
def Entry.Logs (entry : Entry) (item : PyStr) : Prop :=
  ∃ timestamp, logItem timestamp (.str entry.level) (.str entry.message) entry.kwargs = some item

/-- The value is that of such a call. -/
def Entry.Reads (entry : Entry) (v : Value) : Prop :=
  ∃ timestamp, v = .obj (entry.data timestamp)

/-- The calls that the engine makes. -/
inductive Entry.Known : Entry → Prop
  | start : Known startEntry
  | pulse (counter : ℕ) : Known (pulseEntry counter)
  | stop : Known stopEntry

/-- The records that are brought to the queue, whether or not there is room. -/
def offered (cs : List (Fifo.Call PyStr)) : List PyStr :=
  cs.filterMap fun
    | .push item _ => some item
    | .pop _ => none

/-- The start, and the first `k` pulses. -/
def Beats (k : ℕ) (items : List PyStr) : Prop :=
  ∃ first pulses, items = first :: pulses ∧ startEntry.Logs first ∧
    List.Forall₂ (fun n item => (pulseEntry n).Logs item) (List.range' 1 k) pulses

/-- The start, the pulses that were counted but perhaps the last one, and perhaps the end. -/
def Story (counter : ℕ) (items : List PyStr) : Prop :=
  ∃ k, k ≤ counter ∧ counter ≤ k + 1 ∧ (Beats k items ∨
    ∃ beats last, items = beats ++ [last] ∧ Beats k beats ∧ stopEntry.Logs last)

/-- The value of a record. -/
def entryOf (item : PyStr) : Value := (load item).getD .null

/-- The records that the queue has accepted, as they are read. -/
def entries (e : Engine) : List Value := (pushed e.logger.calls).map entryOf

/-! ### The logger's steps -/

section Steps

variable {T : Type*} [DecidableEq T] {s s' : AsyncJSONLogger T} {a : Act T} {t : T}

@[simp] theorem offered_append (cs ds : List (Fifo.Call PyStr)) :
    offered (cs ++ ds) = offered cs ++ offered ds := List.filterMap_append

@[simp] theorem offered_push (item : PyStr) (ok : Bool) :
    offered [Fifo.Call.push item ok] = [item] := rfl

@[simp] theorem offered_pop (r : Option PyStr) : offered [Fifo.Call.pop r] = [] := rfl

/-- What the worker leaves as it is. -/
structure SameClients (s s' : AsyncJSONLogger T) : Prop where
  clients : s'.clients = s.clients
  stopEvent : s'.stopEvent = s.stopEvent
  closer : s'.closer = s.closer
  atClose : s'.atClose = s.atClose
  offered : Utils.offered s'.calls = Utils.offered s.calls
  pushed : Fifo.pushed s'.calls = Fifo.pushed s.calls

theorem sameClients_of_worker (hw : a.isWorker = true) (hst : step s a = some s') :
    SameClients s s' := by
  cases a with
  | log => cases hw
  | put => cases hw
  | close => cases hw
  | closeStep => cases hw
  | work =>
    simp only [step, workStep] at hst
    split at hst
    · cases hst
      exact ⟨rfl, rfl, rfl, rfl, rfl, rfl⟩
    · cases hst
      exact ⟨rfl, rfl, rfl, rfl, rfl, rfl⟩
    · cases hst
      exact ⟨rfl, rfl, rfl, rfl, rfl, rfl⟩
    · split at hst
      · cases hst
      · cases hst
        exact ⟨rfl, rfl, rfl, rfl, by simp, by simp⟩
    · cases hst
    · cases hst
      exact ⟨rfl, rfl, rfl, rfl, rfl, rfl⟩
    · split at hst
      · cases hst
        exact ⟨rfl, rfl, rfl, rfl, rfl, rfl⟩
      · cases hst
        exact ⟨rfl, rfl, rfl, rfl, rfl, rfl⟩
    · cases hst
      exact ⟨rfl, rfl, rfl, rfl, rfl, rfl⟩
    · cases hst
  | expire =>
    simp only [step] at hst
    split at hst
    · cases hst
      exact ⟨rfl, rfl, rfl, rfl, by simp, by simp⟩
    · cases hst
  | write spilled =>
    simp only [step] at hst
    split at hst
    · cases hst
      exact ⟨rfl, rfl, rfl, rfl, rfl, rfl⟩
    · cases hst
  | fail spilled =>
    simp only [step] at hst
    split at hst
    · cases hst
      exact ⟨rfl, rfl, rfl, rfl, rfl, rfl⟩
    · cases hst

/-- What a thread brings to the queue. -/
theorem put_cases (hst : step s (.put t) = some s') : ∃ item, s.clients t = some item ∧
    offered s'.calls = offered s.calls ++ [item] ∧ s'.closer = s.closer ∧
      s'.clients = Function.update s.clients t none := by
  simp only [step] at hst
  split at hst
  · next item hitem =>
    split at hst
    · cases hst
      exact ⟨item, hitem, by simp, rfl, rfl⟩
    · cases hst
      exact ⟨item, hitem, by simp, rfl, rfl⟩
  · cases hst

/-- What a call of `log` brings before the queue. -/
theorem log_cases {timestamp : PyFloat} {level message : Value} {kwargs : Members}
    (hst : step s (.log t timestamp level message kwargs) = some s') :
    s' = { s with
      clients := Function.update s.clients t (logItem timestamp level message kwargs) } := by
  simp only [step] at hst
  split at hst
  · exact (Option.some.inj hst).symm
  · cases hst

end Steps

/-! ### The invariant -/

/-- Where the closing thread is. -/
def EnginePc.closer : EnginePc → Option ClosePc
  | .setStop => some .setStop
  | .join => some .join
  | .printed => some .returned
  | .died => none
  | _ => some .idle

/-- The handler has not logged. -/
def EnginePc.unhandled : EnginePc → Bool
  | .starting => true
  | .startPut => true
  | .pulse => true
  | .pulseLog => true
  | .pulsePut => true
  | .sleep => true
  | .stopLog => true
  | _ => false

/-- What has been told so far, and the record that is about to be. -/
def Told (e : Engine) : Prop :=
  match e.pc with
  | .starting => e.counter = 0 ∧ offered e.logger.calls = []
  | .startPut => e.counter = 0 ∧ offered e.logger.calls = [] ∧
      ∃ item ∈ e.logger.clients false, startEntry.Logs item
  | .pulse => Beats e.counter (offered e.logger.calls)
  | .pulseLog => ∃ k, e.counter = k + 1 ∧ Beats k (offered e.logger.calls)
  | .pulsePut => ∃ k, e.counter = k + 1 ∧ Beats k (offered e.logger.calls) ∧
      ∃ item ∈ e.logger.clients false, (pulseEntry e.counter).Logs item
  | .sleep => Beats e.counter (offered e.logger.calls)
  | .stopLog => ∃ k, k ≤ e.counter ∧ e.counter ≤ k + 1 ∧ Beats k (offered e.logger.calls)
  | .stopPut => ∃ k, k ≤ e.counter ∧ e.counter ≤ k + 1 ∧ Beats k (offered e.logger.calls) ∧
      ∃ item ∈ e.logger.clients true, stopEntry.Logs item
  | .close => Story e.counter (offered e.logger.calls)
  | .setStop => Story e.counter (offered e.logger.calls) ∧
      e.logger.atClose = pushed e.logger.calls
  | .join => Story e.counter (offered e.logger.calls) ∧
      e.logger.atClose = pushed e.logger.calls ∧ e.logger.stopEvent = true
  | .printed => Story e.counter (offered e.logger.calls) ∧
      e.logger.atClose = pushed e.logger.calls
  | .died => offered e.logger.calls = [] ∨ Story e.counter (offered e.logger.calls)

/-- The invariant of a run in which the file does not fail and no record gets into the queue
uncounted. -/
structure EngineInv (before : Bytes) (e : Engine) : Prop where
  logger : Inv before e.logger
  closer : ∀ c ∈ e.pc.closer, e.logger.closer = c
  /-- The slot of the handler is free until the handler logs. -/
  slot : e.pc.unhandled = true → e.logger.clients true = none
  told : Told e

namespace Beats

variable {k : ℕ} {items : List PyStr} {item : PyStr}

theorem start (h : startEntry.Logs item) : Beats 0 [item] := ⟨item, [], rfl, h, .nil⟩

/-- One more pulse. -/
theorem pulse (h : Beats k items) (hitem : (pulseEntry (k + 1)).Logs item) :
    Beats (k + 1) (items ++ [item]) := by
  obtain ⟨first, pulses, rfl, hfirst, hpulses⟩ := h
  refine ⟨first, pulses ++ [item], rfl, hfirst, ?_⟩
  rw [List.range'_concat]
  refine List.rel_append hpulses (.cons ?_ .nil)
  rwa [Nat.one_mul, Nat.add_comm]

theorem story (h : Beats k items) {counter : ℕ} (hk : k ≤ counter) (hcounter : counter ≤ k + 1) :
    Story counter items := ⟨k, hk, hcounter, .inl h⟩

end Beats

/-- What was brought to the queue is a story from the first record on. -/
theorem Told.story {e : Engine} (h : Told e) :
    offered e.logger.calls = [] ∨ Story e.counter (offered e.logger.calls) := by
  unfold Told at h
  cases hat : e.pc with
  | starting =>
    rw [hat] at h
    exact .inl h.2
  | startPut =>
    rw [hat] at h
    exact .inl h.2.1
  | pulse =>
    rw [hat] at h
    exact .inr (h.story le_rfl (Nat.le_succ _))
  | pulseLog =>
    rw [hat] at h
    obtain ⟨k, hk, hbeats⟩ := h
    exact .inr (hbeats.story (by omega) (by omega))
  | pulsePut =>
    rw [hat] at h
    obtain ⟨k, hk, hbeats, -⟩ := h
    exact .inr (hbeats.story (by omega) (by omega))
  | sleep =>
    rw [hat] at h
    exact .inr (h.story le_rfl (Nat.le_succ _))
  | stopLog =>
    rw [hat] at h
    obtain ⟨k, hle, hcounter, hbeats⟩ := h
    exact .inr (hbeats.story hle hcounter)
  | stopPut =>
    rw [hat] at h
    obtain ⟨k, hle, hcounter, hbeats, -⟩ := h
    exact .inr (hbeats.story hle hcounter)
  | close =>
    rw [hat] at h
    exact .inr h
  | setStop =>
    rw [hat] at h
    exact .inr h.1
  | join =>
    rw [hat] at h
    exact .inr h.1
  | printed =>
    rw [hat] at h
    exact .inr h.1
  | died =>
    rw [hat] at h
    exact h

section Engine

variable {before : Bytes} {e e' : Engine}

theorem engineInv_init (before : Bytes) : EngineInv before (engineInit before) where
  logger := .init before
  closer _ hc := Option.some.inj hc
  slot _ := rfl
  told := ⟨rfl, rfl⟩

/-- The worker tells nothing. -/
theorem EngineInv.worker (h : EngineInv before e) {a : Act Bool} (hw : a.isWorker = true)
    (hok : Sound e.logger a) {logger : AsyncJSONLogger Bool} (hst : step e.logger a = some logger) :
    EngineInv before { e with logger } where
  logger := inv_step h.logger hok hst
  closer := by
    rw [(sameClients_of_worker hw hst).closer]
    exact h.closer
  slot := by
    rw [(sameClients_of_worker hw hst).clients]
    exact h.slot
  told := by
    have hsame := sameClients_of_worker hw hst
    have htold := h.told
    unfold Told at htold ⊢
    dsimp only
    rw [hsame.clients, hsame.stopEvent, hsame.atClose, hsame.offered, hsame.pushed]
    exact htold

/-- An interrupt leaves the closing thread and the slot of the handler where they were. -/
theorem EnginePc.closer_interrupted {pc pc' : EnginePc} (hpc : pc.interrupted = some pc') :
    (∀ c ∈ pc'.closer, c ∈ pc.closer) ∧ (pc'.unhandled = true → pc.unhandled = true) := by
  cases pc <;> cases hpc <;> exact ⟨by simp [EnginePc.closer], by simp [EnginePc.unhandled]⟩

/-- A lock that is left taken changes nothing of it. -/
theorem EngineInv.wedge (h : EngineInv before e) (wedged : Bool) :
    EngineInv before { e with wedged } where
  logger := h.logger
  closer := h.closer
  slot := h.slot
  told := h.told

/-- An interrupt between two steps tells nothing. -/
theorem EngineInv.interrupt (h : EngineInv before e) {pc : EnginePc}
    (hpc : e.pc.interrupted = some pc) : EngineInv before { e with pc } := by
  obtain ⟨hcloser, hslot⟩ := EnginePc.closer_interrupted hpc
  refine ⟨h.logger, fun c hc => h.closer c (hcloser c hc), fun hfree => h.slot (hslot hfree), ?_⟩
  have htold := h.told
  unfold Told at htold
  cases hat : e.pc with
  | starting =>
    rw [hat] at hpc htold
    cases hpc
    exact .inl htold.2
  | startPut =>
    rw [hat] at hpc htold
    cases hpc
    exact .inl htold.2.1
  | pulse =>
    rw [hat] at hpc htold
    cases hpc
    exact ⟨e.counter, le_rfl, Nat.le_succ _, htold⟩
  | pulseLog =>
    rw [hat] at hpc htold
    cases hpc
    obtain ⟨k, hk, hbeats⟩ := htold
    exact ⟨k, by simp [hk], by simp [hk], hbeats⟩
  | pulsePut =>
    rw [hat] at hpc htold
    cases hpc
    obtain ⟨k, hk, hbeats, -⟩ := htold
    exact ⟨k, by simp [hk], by simp [hk], hbeats⟩
  | sleep =>
    rw [hat] at hpc htold
    cases hpc
    exact ⟨e.counter, le_rfl, Nat.le_succ _, htold⟩
  | stopLog =>
    rw [hat] at hpc htold
    cases hpc
    obtain ⟨k, hk, hcounter, hbeats⟩ := htold
    exact hbeats.story hk hcounter
  | stopPut =>
    rw [hat] at hpc htold
    cases hpc
    obtain ⟨k, hk, hcounter, hbeats, -⟩ := htold
    exact hbeats.story hk hcounter
  | close =>
    rw [hat] at hpc htold
    cases hpc
    exact .inr htold
  | setStop =>
    rw [hat] at hpc htold
    cases hpc
    exact .inr htold.1
  | join =>
    rw [hat] at hpc htold
    cases hpc
    exact .inr htold.1
  | printed =>
    rw [hat] at hpc
    cases hpc
  | died =>
    rw [hat] at hpc
    cases hpc

/-- What a call of `log` or of the queue leaves as it is. -/
structure SameCall (slot : Bool) (e e' : Engine) : Prop where
  counter : e'.counter = e.counter
  closer : e'.logger.closer = e.logger.closer
  other : slot = false → e'.logger.clients true = e.logger.clients true

/-- Before `finally` nobody closes. -/
theorem SameCall.idle {slot : Bool} (hsame : SameCall slot e e') (h : EngineInv before e)
    (hidle : e.pc.closer = some .idle) {pc : EnginePc} (hpc : e'.pc = pc)
    (hidle' : ∀ c ∈ pc.closer, c = .idle) : ∀ c ∈ e'.pc.closer, e'.logger.closer = c := by
  intro c hc
  rw [hpc] at hc
  rw [hsame.closer, h.closer .idle hidle, hidle' c hc]

/-- The thread of `try` leaves the slot of the handler as it is. -/
theorem SameCall.slot (hsame : SameCall false e e') (h : EngineInv before e)
    (hfree : e.pc.unhandled = true) : e'.pc.unhandled = true → e'.logger.clients true = none :=
  fun _ => (hsame.other rfl).trans (h.slot hfree)

/-- A call of `log`: what is before the queue behind it, and where `main` is. -/
theorem log_spec {slot : Bool} {timestamp : PyFloat} {entry : Entry} {pc raised : EnginePc}
    (h : EngineInv before e) (hst : e.log slot timestamp entry pc raised = some e') :
    Inv before e'.logger ∧ SameCall slot e e' ∧ e'.logger.queue = e.logger.queue ∧
      offered e'.logger.calls = offered e.logger.calls ∧
      ((e'.pc = pc ∧ ∃ item ∈ e'.logger.clients slot, entry.Logs item) ∨ e'.pc = raised) := by
  obtain ⟨logger, hlogger, rfl⟩ := Option.map_eq_some_iff.mp hst
  have hinv : Inv before logger := inv_step (a := .log ..) h.logger rfl hlogger
  obtain rfl := log_cases hlogger
  refine ⟨hinv, ⟨rfl, rfl, fun hslot => ?_⟩, rfl, rfl, ?_⟩
  · have hne : true ≠ slot := by
      rw [hslot]
      exact nofun
    exact Function.update_of_ne hne _ _
  · have hself : Function.update e.logger.clients slot
        (logItem timestamp (.str entry.level) (.str entry.message) entry.kwargs) slot =
          logItem timestamp (.str entry.level) (.str entry.message) entry.kwargs :=
      Function.update_self ..
    cases hitem : logItem timestamp (.str entry.level) (.str entry.message) entry.kwargs with
    | none =>
      rw [hitem] at hself
      exact .inr (if_pos hself)
    | some item =>
      rw [hitem] at hself
      exact .inl ⟨if_neg (hself.trans_ne (Option.some_ne_none item)), item, hself, timestamp, hitem⟩

/-- A call of the queue: the record that was before it is told. -/
theorem put_spec {slot : Bool} {pc : EnginePc} (h : EngineInv before e)
    (hst : e.call (.put slot) pc = some e') :
    Inv before e'.logger ∧ SameCall slot e e' ∧ e'.pc = pc ∧
      ∃ item ∈ e.logger.clients slot,
        offered e'.logger.calls = offered e.logger.calls ++ [item] := by
  obtain ⟨logger, hlogger, rfl⟩ := Option.map_eq_some_iff.mp hst
  obtain ⟨item, hitem, hoffered, hcloser, hclients⟩ := put_cases hlogger
  refine ⟨inv_step (a := .put slot) h.logger rfl hlogger, ⟨rfl, hcloser, fun hslot => ?_⟩, rfl,
    item, hitem, hoffered⟩
  have hne : true ≠ slot := by
    rw [hslot]
    exact nofun
  dsimp only
  rw [hclients, Function.update_of_ne hne]

/-- The record before the queue is the one that was made. -/
theorem logs_of_mem {entry : Entry} {o : Option PyStr} (h : ∃ item ∈ o, entry.Logs item)
    {item : PyStr} (hitem : item ∈ o) : entry.Logs item := by
  obtain ⟨made, hmade, hlogs⟩ := h
  rwa [Option.mem_unique hitem hmade]

/-- From the handler's call on its slot is in use. -/
theorem slot_used {pc : EnginePc} (hpc : e.pc = pc) (hused : pc.unhandled = false) :
    e.pc.unhandled = true → e.logger.clients true = none := by
  rw [hpc, hused]
  exact fun hfree => absurd hfree Bool.false_ne_true

/-- A step inside the `try` that leaves the logger as it is. -/
theorem EngineInv.stay (h : EngineInv before e) (hidle : e.pc.closer = some .idle)
    (hfree : e.pc.unhandled = true) {pc : EnginePc} {counter : ℕ}
    (hidle' : ∀ c ∈ pc.closer, c = .idle) (htold : Told { e with pc, counter }) :
    EngineInv before { e with pc, counter } where
  logger := h.logger
  closer := by
    intro c hc
    rw [hidle' c hc]
    exact h.closer .idle hidle
  slot _ := h.slot hfree
  told := htold

/-- A step of `main` keeps the invariant. -/
theorem EngineInv.main (h : EngineInv before e) {timestamp : PyFloat}
    (hst : mainStep e timestamp = some e') : EngineInv before e' := by
  have htold := h.told
  unfold Told at htold
  unfold mainStep at hst
  have hidle : ∀ c : ClosePc, c ∈ some ClosePc.idle → c = .idle := fun c hc =>
    (Option.some.inj hc).symm
  have hdied : ∀ c : ClosePc, c ∈ (none : Option ClosePc) → c = .idle := fun c hc =>
    absurd hc (Option.not_mem_none c)
  cases hat : e.pc with
  | starting =>
    rw [hat] at hst htold
    obtain ⟨hinv, hsame, -, hoffered, hpc⟩ := log_spec h hst
    rw [← hsame.counter, ← hoffered] at htold
    have hslot := hsame.slot h (by rw [hat]; rfl)
    rcases hpc with ⟨hpc, hitem⟩ | hpc
    · refine ⟨hinv, hsame.idle h (by rw [hat]; rfl) hpc hidle, hslot, ?_⟩
      rw [Told, hpc]
      exact ⟨htold.1, htold.2, hitem⟩
    · refine ⟨hinv, hsame.idle h (by rw [hat]; rfl) hpc hdied, hslot, ?_⟩
      rw [Told, hpc]
      exact .inl htold.2
  | startPut =>
    rw [hat] at hst htold
    obtain ⟨hzero, hnone, hlogs⟩ := htold
    obtain ⟨hinv, hsame, hpc, item, hitem, hoffered⟩ := put_spec h hst
    refine ⟨hinv, hsame.idle h (by rw [hat]; rfl) hpc hidle, hsame.slot h (by rw [hat]; rfl), ?_⟩
    rw [Told, hpc]
    dsimp only
    rw [hoffered, hnone, hsame.counter, hzero]
    exact .start (logs_of_mem hlogs hitem)
  | pulse =>
    rw [hat] at hst htold
    cases hst
    exact h.stay (by rw [hat]; rfl) (by rw [hat]; rfl) hidle ⟨e.counter, rfl, htold⟩
  | pulseLog =>
    rw [hat] at hst htold
    obtain ⟨k, hk, hbeats⟩ := htold
    obtain ⟨hinv, hsame, -, hoffered, hpc⟩ := log_spec h hst
    rw [← hoffered] at hbeats
    rw [← hsame.counter] at hk hpc
    have hslot := hsame.slot h (by rw [hat]; rfl)
    rcases hpc with ⟨hpc, hitem⟩ | hpc
    · refine ⟨hinv, hsame.idle h (by rw [hat]; rfl) hpc hidle, hslot, ?_⟩
      rw [Told, hpc]
      exact ⟨k, hk, hbeats, hitem⟩
    · refine ⟨hinv, hsame.idle h (by rw [hat]; rfl) hpc hidle, hslot, ?_⟩
      rw [Told, hpc]
      exact hbeats.story (by omega) (by omega)
  | pulsePut =>
    rw [hat] at hst htold
    obtain ⟨k, hk, hbeats, hlogs⟩ := htold
    obtain ⟨hinv, hsame, hpc, item, hitem, hoffered⟩ := put_spec h hst
    refine ⟨hinv, hsame.idle h (by rw [hat]; rfl) hpc hidle, hsame.slot h (by rw [hat]; rfl), ?_⟩
    rw [Told, hpc]
    dsimp only
    rw [hoffered, hsame.counter, hk]
    exact hbeats.pulse (hk ▸ logs_of_mem hlogs hitem)
  | sleep =>
    rw [hat] at hst htold
    cases hst
    exact h.stay (by rw [hat]; rfl) (by rw [hat]; rfl) hidle htold
  | stopLog =>
    rw [hat] at hst htold
    obtain ⟨k, hle, hcount, hbeats⟩ := htold
    obtain ⟨hinv, hsame, -, hoffered, hpc⟩ := log_spec h hst
    rw [← hoffered] at hbeats
    rw [← hsame.counter] at hle hcount
    rcases hpc with ⟨hpc, hitem⟩ | hpc
    · refine ⟨hinv, hsame.idle h (by rw [hat]; rfl) hpc hidle, slot_used hpc rfl, ?_⟩
      rw [Told, hpc]
      exact ⟨k, hle, hcount, hbeats, hitem⟩
    · refine ⟨hinv, hsame.idle h (by rw [hat]; rfl) hpc hidle, slot_used hpc rfl, ?_⟩
      rw [Told, hpc]
      exact hbeats.story hle hcount
  | stopPut =>
    rw [hat] at hst htold
    obtain ⟨k, hle, hcount, hbeats, hlogs⟩ := htold
    obtain ⟨hinv, hsame, hpc, item, hitem, hoffered⟩ := put_spec h hst
    refine ⟨hinv, hsame.idle h (by rw [hat]; rfl) hpc hidle, slot_used hpc rfl, ?_⟩
    rw [Told, hpc]
    dsimp only
    rw [hoffered, hsame.counter]
    exact ⟨k, hle, hcount, .inr ⟨_, item, rfl, hbeats, logs_of_mem hlogs hitem⟩⟩
  | close =>
    rw [hat] at hst htold
    obtain ⟨logger, hlogger, rfl⟩ := Option.map_eq_some_iff.mp hst
    have hinv : Inv before logger := inv_step (a := .close) h.logger rfl hlogger
    simp only [step] at hlogger
    split at hlogger
    · cases hlogger
      refine ⟨hinv, ?_, slot_used rfl rfl, htold, rfl⟩
      intro c hc
      exact Option.some.inj hc
    · cases hlogger
  | setStop =>
    rw [hat] at hst htold
    have hcloser := h.closer .setStop (by rw [hat]; rfl)
    obtain ⟨logger, hlogger, rfl⟩ := Option.map_eq_some_iff.mp hst
    have hinv : Inv before logger := inv_step (a := .closeStep) h.logger rfl hlogger
    simp only [step, hcloser] at hlogger
    cases hlogger
    refine ⟨hinv, ?_, slot_used rfl rfl, htold.1, htold.2, rfl⟩
    intro c hc
    exact Option.some.inj hc
  | join =>
    rw [hat] at hst htold
    have hcloser := h.closer .join (by rw [hat]; rfl)
    obtain ⟨logger, hlogger, rfl⟩ := Option.map_eq_some_iff.mp hst
    have hinv : Inv before logger := inv_step (a := .closeStep) h.logger rfl hlogger
    simp only [step, hcloser] at hlogger
    split at hlogger
    · cases hlogger
      refine ⟨hinv, ?_, slot_used rfl rfl, htold.1, htold.2.1⟩
      intro c hc
      exact Option.some.inj hc
    · cases hlogger
  | printed =>
    rw [hat] at hst
    cases hst
  | died =>
    rw [hat] at hst
    cases hst

/-- `main` can end at any point. -/
theorem EngineInv.die (h : EngineInv before e) : EngineInv before { e with pc := .died } where
  logger := h.logger
  closer := fun _ hc => absurd hc (Option.not_mem_none _)
  slot := nofun
  told := h.told.story

/-- A call of `put_nowait` that is interrupted behind its effect is one that has returned, and then
`main` is interrupted, outside of the `try` for the first record. -/
theorem EngineInv.complete (h : EngineInv before e) {slot : Bool} {pc : EnginePc}
    (hslot : e.pc.putting = some slot) (hpc : e.pc.interrupted = some pc)
    {logger : AsyncJSONLogger Bool} (hput : step e.logger (.put slot) = some logger) :
    EngineInv before { e with logger, pc } := by
  have hreturned : ∀ next, mainStep e .zero = e.call (.put slot) next →
      EngineInv before { e with logger, pc := next } := by
    intro next hst
    have hmain : mainStep e .zero = some { e with logger, pc := next } := by
      rw [hst, Engine.call, hput]
      rfl
    exact h.main hmain
  cases hat : e.pc with
  | startPut =>
    rw [hat] at hslot hpc
    cases hslot
    cases hpc
    exact (hreturned .pulse (by rw [mainStep, hat])).die
  | pulsePut =>
    rw [hat] at hslot hpc
    cases hslot
    cases hpc
    exact (hreturned .sleep (by rw [mainStep, hat])).interrupt rfl
  | stopPut =>
    rw [hat] at hslot hpc
    cases hslot
    cases hpc
    exact hreturned .close (by rw [mainStep, hat])
  | _ =>
    rw [hat] at hslot
    cases hslot

/-- What an interrupt can do. -/
theorem interrupt_cases {effect : PutEffect} {locked : Bool}
    (hst : engineStep e (.interrupt effect locked) = some e') :
    ∃ pc, e.pc.interrupted = some pc ∧
      (e' = { e with pc } ∧ effect = .nothing ∧ locked = false ∨
        e.wedged = false ∧ ∃ slot logger, e.pc.putting = some slot ∧
          breakPut e.logger slot effect = some logger ∧
            e' = { e with logger, pc, wedged := locked }) := by
  simp only [engineStep] at hst
  split at hst
  · cases hst
  · next pc hpc =>
    refine ⟨pc, hpc, ?_⟩
    split at hst
    · next hbetween =>
      exact .inl ⟨(Option.some.inj hst).symm, hbetween⟩
    · unfold Engine.breakOff at hst
      split at hst
      · next slot hwedged hslot =>
        obtain ⟨logger, hbreak, rfl⟩ := Option.map_eq_some_iff.mp hst
        exact .inr ⟨hwedged, slot, logger, hslot, hbreak, rfl⟩
      · cases hst

/-- A step of `main` that is not held up at the queue. -/
theorem main_cases {timestamp : PyFloat} (hst : engineStep e (.main timestamp) = some e') :
    ¬(e.wedged && e.pc.putting.isSome) = true ∧ mainStep e timestamp = some e' := by
  simp only [engineStep] at hst
  split at hst
  · cases hst
  · next hfree => exact ⟨hfree, hst⟩

/-- A step of the worker that is not held up at the queue. -/
theorem worker_cases {a : Act Bool} (hst : engineStep e (.worker a) = some e') :
    a.isWorker = true ∧ (e.wedged && e.logger.worker.locks) = false ∧
      ∃ logger, step e.logger a = some logger ∧ e' = { e with logger } := by
  simp only [engineStep] at hst
  split at hst
  · next hfree =>
    rw [Bool.and_eq_true, Bool.not_eq_true'] at hfree
    obtain ⟨logger, hlogger, rfl⟩ := Option.map_eq_some_iff.mp hst
    exact ⟨hfree.1, hfree.2, logger, hlogger, rfl⟩
  · cases hst

/-- **Every step preserves the invariant in which the file does not fail and no record gets into
the queue uncounted.** -/
theorem engineInv_step (h : EngineInv before e) {a : EngineAct} (hok : EngineSound e a)
    (hst : engineStep e a = some e') : EngineInv before e' := by
  cases a with
  | main timestamp => exact h.main (main_cases hst).2
  | interrupt effect locked =>
    obtain ⟨pc, hpc, ⟨rfl, -, -⟩ | ⟨-, slot, logger, hslot, hbreak, rfl⟩⟩ := interrupt_cases hst
    · exact h.interrupt hpc
    · cases effect with
      | nothing =>
        cases hbreak
        exact (h.interrupt hpc).wedge locked
      | appended => cases hok.2
      | complete => exact (h.complete hslot hpc hbreak).wedge locked
  | worker a =>
    obtain ⟨hw, -, logger, hlogger, rfl⟩ := worker_cases hst
    exact h.worker hw hok.1 hlogger

/-- A step of `main` is one of the logger, or leaves it as it is. -/
theorem mainStep_logger {timestamp : PyFloat} (hst : mainStep e timestamp = some e') :
    e'.logger = e.logger ∨ ∃ b, step e.logger b = some e'.logger := by
  have hmap : ∀ {o : Option (AsyncJSONLogger Bool)} {f : AsyncJSONLogger Bool → Engine}
      {b : Act Bool}, o = step e.logger b → (∀ l, (f l).logger = l) → o.map f = some e' →
      ∃ b, step e.logger b = some e'.logger := by
    intro o f b ho hf hmap
    obtain ⟨l, hl, rfl⟩ := Option.map_eq_some_iff.mp hmap
    exact ⟨b, by rw [← ho, hl, hf]⟩
  unfold mainStep at hst
  split at hst
  · exact .inr (hmap rfl (fun _ => rfl) hst)
  · exact .inr (hmap rfl (fun _ => rfl) hst)
  · cases hst
    exact .inl rfl
  · exact .inr (hmap rfl (fun _ => rfl) hst)
  · exact .inr (hmap rfl (fun _ => rfl) hst)
  · cases hst
    exact .inl rfl
  · exact .inr (hmap rfl (fun _ => rfl) hst)
  · exact .inr (hmap rfl (fun _ => rfl) hst)
  · exact .inr (hmap rfl (fun _ => rfl) hst)
  · exact .inr (hmap rfl (fun _ => rfl) hst)
  · exact .inr (hmap rfl (fun _ => rfl) hst)
  · cases hst
  · cases hst

/-- A step of the engine is one of the logger, or leaves it as it is. -/
theorem engineStep_logger {a : EngineAct} (hok : EngineSound e a) (hst : engineStep e a = some e') :
    e'.logger = e.logger ∨ ∃ b, step e.logger b = some e'.logger := by
  cases a with
  | interrupt effect locked =>
    obtain ⟨pc, -, ⟨rfl, -, -⟩ | ⟨-, slot, logger, -, hbreak, rfl⟩⟩ := interrupt_cases hst
    · exact .inl rfl
    · cases effect with
      | nothing =>
        cases hbreak
        exact .inl rfl
      | appended => cases hok.2
      | complete => exact .inr ⟨.put slot, hbreak⟩
  | worker a =>
    obtain ⟨-, -, logger, hlogger, rfl⟩ := worker_cases hst
    exact .inr ⟨a, hlogger⟩
  | main timestamp => exact mainStep_logger (main_cases hst).2

end Engine

/-! ### The file -/

section File

variable {T : Type*} {s s' : AsyncJSONLogger T} {before : Bytes}

/-- All records that were taken, but perhaps the last one, are in the file. -/
def Kept (before : Bytes) (s : AsyncJSONLogger T) : Prop :=
  before ++ (popped s.calls).dropLast.flatMap line <+: s.file

/-- What is in the file is a beginning of what was accepted. -/
theorem file_begins (h : Inv before s) : s.file <+: before ++ (pushed s.calls).flatMap line := by
  obtain ⟨written, hwritten, hfile⟩ := h.written
  obtain ⟨rest, hrest⟩ := h.run.popped_prefix
  rw [← hrest, hwritten, List.append_assoc, List.flatMap_append, ← List.append_assoc, ← hfile,
    List.append_assoc]
  exact List.prefix_append _ _

/-- Behind `close` the file has what was accepted before it, and nothing that was not. -/
theorem file_of_returned (h : Inv before s) (hclosed : s.closer = .returned)
    (hlast : s.atClose = pushed s.calls) :
    s.file = before ++ (pushed s.calls).flatMap line := by
  have hended := h.returned hclosed
  obtain ⟨written, hwritten, hfile⟩ := h.written
  rw [h.buffer_eq_nil hended nofun, List.append_nil] at hfile
  have hhand : s.worker.inHand = [] := by rw [hended]; rfl
  rw [hhand, List.append_nil] at hwritten
  have hdrained : s.atClose <+: popped s.calls := h.drained (by rw [hended]; rfl)
  rw [hlast] at hdrained
  have hall : popped s.calls = pushed s.calls :=
    (h.run.popped_prefix.eq_of_length_le hdrained.length_le)
  rw [hfile, ← hwritten, hall]

variable [DecidableEq T] {a : Act T}

/-- The file only grows, and a record is taken where nothing is unwritten. -/
theorem file_step (hst : step s a = some s') : s.file <+: s'.file ∧
    (popped s'.calls = popped s.calls ∨
      s.worker = .get ∧ ∃ item, popped s'.calls = popped s.calls ++ [item]) := by
  cases a with
  | log t timestamp level message kwargs =>
    obtain rfl := log_cases hst
    exact ⟨List.prefix_rfl, .inl rfl⟩
  | put t =>
    simp only [step] at hst
    split at hst
    · split at hst
      · cases hst
        exact ⟨List.prefix_rfl, .inl (by simp)⟩
      · cases hst
        exact ⟨List.prefix_rfl, .inl (by simp)⟩
    · cases hst
  | work =>
    simp only [step, workStep] at hst
    split at hst
    · cases hst
      exact ⟨List.prefix_rfl, .inl rfl⟩
    · cases hst
      exact ⟨List.prefix_rfl, .inl rfl⟩
    · cases hst
      exact ⟨List.prefix_rfl, .inl rfl⟩
    · next hpc =>
      split at hst
      · cases hst
      · next item rest _ =>
        cases hst
        exact ⟨List.prefix_rfl, .inr ⟨hpc, item, by simp⟩⟩
    · cases hst
    · cases hst
      exact ⟨List.prefix_append _ _, .inl rfl⟩
    · split at hst
      · cases hst
        exact ⟨List.prefix_rfl, .inl rfl⟩
      · cases hst
        exact ⟨List.prefix_rfl, .inl rfl⟩
    · cases hst
      exact ⟨List.prefix_append _ _, .inl rfl⟩
    · cases hst
  | expire =>
    simp only [step] at hst
    split at hst
    · cases hst
      exact ⟨List.prefix_rfl, .inl (by simp)⟩
    · cases hst
  | write spilled =>
    simp only [step] at hst
    split at hst
    · cases hst
      exact ⟨List.prefix_append _ _, .inl rfl⟩
    · cases hst
  | fail spilled =>
    simp only [step] at hst
    split at hst
    · cases hst
      exact ⟨List.prefix_append _ _, .inl rfl⟩
    · cases hst
  | close =>
    simp only [step] at hst
    split at hst
    · cases hst
      exact ⟨List.prefix_rfl, .inl rfl⟩
    · cases hst
  | closeStep =>
    simp only [step] at hst
    split at hst
    · cases hst
      exact ⟨List.prefix_rfl, .inl rfl⟩
    · split at hst
      · cases hst
        exact ⟨List.prefix_rfl, .inl rfl⟩
      · cases hst
    · cases hst

theorem kept_step (hinv : Inv before s) (h : Kept before s) (hst : step s a = some s') :
    Kept before s' := by
  obtain ⟨hgrows, hpopped⟩ := file_step hst
  rcases hpopped with hsame | ⟨hpc, item, htaken⟩
  · rw [Kept, hsame]
    exact h.trans hgrows
  · -- all that was taken before is written
    obtain ⟨written, hwritten, hfile⟩ := hinv.written
    rw [hinv.flushed (by rw [hpc]; nofun), List.append_nil] at hfile
    have hhand : s.worker.inHand = [] := by rw [hpc]; rfl
    rw [hhand, List.append_nil] at hwritten
    rw [Kept, htaken, List.dropLast_concat, hwritten, ← hfile]
    exact hgrows

end File

/-! ### The story -/

theorem pushed_sublist (cs : List (Fifo.Call PyStr)) : (pushed cs).Sublist (offered cs) := by
  induction cs with
  | nil => exact .slnil
  | cons c cs ih =>
    cases c with
    | push item ok =>
      cases ok with
      | true => exact ih.cons_cons item
      | false => exact ih.cons item
    | pop r => exact ih

/-- Nothing is dropped before as many records as the queue has room for. -/
theorem pushed_eq_offered {cs : List (Fifo.Call PyStr)} {q : List PyStr} (h : Run maxsize cs q)
    (hlen : (offered cs).length ≤ maxsize) : pushed cs = offered cs := by
  induction h with
  | start => rfl
  | @call cs q q' c hrun hstep ih =>
    rw [offered_append, List.length_append] at hlen
    have hall := ih (by omega)
    cases hstep with
    | push _ item _ => simp [hall]
    | full _ item hfull =>
      -- the queue would hold more than was brought to it
      have hcount := congrArg List.length hrun.popped_append
      rw [List.length_append, hall] at hcount
      simp only [offered_push, List.length_singleton] at hlen
      omega
    | pop item _ => simp [hall]
    | empty => simp [hall]

theorem Entry.plain_data (entry : Entry)
    (hkeys : ([text "timestamp", text "level", text "message"] ++ entry.kwargs.map Prod.fst).Nodup)
    (hlevel : IsScalar entry.level) (hmessage : IsScalar entry.message)
    (hkwargs : ∀ m ∈ entry.kwargs, IsScalar m.1 ∧ m.2.Plain) (timestamp : PyFloat) :
    (Value.obj (entry.data timestamp)).Plain := by
  have hnames : ∀ k ∈ [text "timestamp", text "level", text "message"], IsScalar k := by decide
  refine plain_obj.mpr ⟨?_, fun m hm => ?_, fun m hm => ?_⟩
  · rw [Entry.data, List.map_append]
    exact hkeys
  · rcases List.mem_append.mp hm with hm | hm
    · exact hnames m.1 (List.mem_map_of_mem hm)
    · exact (hkwargs m hm).1
  · rcases List.mem_append.mp hm with hm | hm
    · simp only [List.mem_cons, List.not_mem_nil, or_false] at hm
      rcases hm with rfl | rfl | rfl
      · exact .float timestamp
      · exact .str hlevel
      · exact .str hmessage
    · exact (hkwargs m hm).2

theorem Entry.Known.plain {entry : Entry} (h : entry.Known) (timestamp : PyFloat) :
    (Value.obj (entry.data timestamp)).Plain := by
  have hkeys : [text "timestamp", text "level", text "message", text "core_version"].Nodup ∧
      [text "timestamp", text "level", text "message", text "sequence"].Nodup ∧
      [text "timestamp", text "level", text "message"].Nodup := by decide
  cases h with
  | start =>
    refine startEntry.plain_data hkeys.1 (by decide) (by decide +kernel) (fun m hm => ?_) timestamp
    rw [List.mem_singleton.mp hm]
    exact ⟨by decide, .str (by decide)⟩
  | pulse counter =>
    have hlevel : IsScalar (text "DEBUG") := by decide
    have hmessage : IsScalar (text "Heartbeat pulse executed") := by decide
    refine (pulseEntry counter).plain_data hkeys.2.1 hlevel hmessage (fun m hm => ?_) timestamp
    rw [List.mem_singleton.mp hm]
    have hname : IsScalar (text "sequence") := by decide
    exact ⟨hname, .int counter⟩
  | stop => exact stopEntry.plain_data hkeys.2.2 (by decide) (by decide +kernel) nofun timestamp

/-- A record is a row. -/
theorem Entry.Known.row {entry : Entry} (h : entry.Known) {item : PyStr} (hlogs : entry.Logs item) :
    IsRow item (entryOf item) ∧ entry.Reads (entryOf item) := by
  obtain ⟨timestamp, hitem⟩ := hlogs
  have hplain := h.plain timestamp
  have hdict : dictOf (entry.data timestamp) = entry.data timestamp :=
    dictOf_eq_self (plain_obj.mp hplain).1
  change (Value.obj (dictOf (entry.data timestamp))).dumps .spaced = some item at hitem
  rw [hdict, Value.dumps] at hitem
  split at hitem
  · next hprint =>
    cases hitem
    have hloaded := hplain.loaded_iff.mpr hprint
    have hrow := Lineage.isRow_render hloaded
    have hentry : entryOf ((Value.obj (entry.data timestamp)).render .spaced 0) =
        .obj (entry.data timestamp) := by
      rw [entryOf, hrow.load]
      rfl
    rw [hentry]
    exact ⟨hrow, timestamp, rfl⟩
  · cases hitem

/-- The story as it is read. -/
def ReadStory (counter : ℕ) (values : List Value) : Prop :=
  ∃ k first pulses, k ≤ counter ∧ counter ≤ k + 1 ∧ startEntry.Reads first ∧
    List.Forall₂ (fun n v => (pulseEntry n).Reads v) (List.range' 1 k) pulses ∧
    (values = first :: pulses ∨ ∃ last, stopEntry.Reads last ∧ values = first :: (pulses ++ [last]))

/-- Pulses are read in their order. -/
theorem read_pulses {ns : List ℕ} {items : List PyStr}
    (h : List.Forall₂ (fun n item => (pulseEntry n).Logs item) ns items) :
    List.Forall₂ (fun n v => (pulseEntry n).Reads v) ns (items.map entryOf) ∧
      ∀ item ∈ items, IsRow item (entryOf item) := by
  induction h with
  | nil => exact ⟨.nil, nofun⟩
  | @cons n item ns items hitem _ ih =>
    obtain ⟨hrow, hreads⟩ := (Entry.Known.pulse n).row hitem
    exact ⟨.cons hreads ih.1, List.forall_mem_cons.mpr ⟨hrow, ih.2⟩⟩

/-- A story is read as one. -/
theorem Story.read {counter : ℕ} {items : List PyStr} (h : Story counter items) :
    ReadStory counter (items.map entryOf) ∧ ∀ item ∈ items, IsRow item (entryOf item) := by
  obtain ⟨k, hle, hcounter, hbeats | ⟨beats, last, rfl, hbeats, hlast⟩⟩ := h
  · obtain ⟨first, pulses, rfl, hfirst, hpulses⟩ := hbeats
    obtain ⟨hrow, hreads⟩ := Entry.Known.start.row hfirst
    obtain ⟨hread, hrows⟩ := read_pulses hpulses
    exact ⟨⟨k, _, _, hle, hcounter, hreads, hread, .inl rfl⟩,
      List.forall_mem_cons.mpr ⟨hrow, hrows⟩⟩
  · obtain ⟨first, pulses, rfl, hfirst, hpulses⟩ := hbeats
    obtain ⟨hrow, hreads⟩ := Entry.Known.start.row hfirst
    obtain ⟨hrow', hreads'⟩ := Entry.Known.stop.row hlast
    obtain ⟨hread, hrows⟩ := read_pulses hpulses
    refine ⟨⟨k, _, _, hle, hcounter, hreads, hread, .inr ⟨_, hreads', ?_⟩⟩, ?_⟩
    · simp
    · intro item hitem
      have hbeats : ∀ item ∈ first :: pulses, IsRow item (entryOf item) :=
        List.forall_mem_cons.mpr ⟨hrow, hrows⟩
      rcases List.mem_append.mp hitem with hitem | hitem
      · exact hbeats item hitem
      · rw [List.mem_singleton.mp hitem]
        exact hrow'

/-- A story has the pulses and two records more. -/
theorem Story.length_le {counter : ℕ} {items : List PyStr} (h : Story counter items) :
    items.length ≤ counter + 2 := by
  obtain ⟨k, hle, -, hbeats⟩ := h
  have hlength : ∀ {items}, Beats k items → items.length = k + 1 := by
    rintro _ ⟨first, pulses, rfl, -, hpulses⟩
    rw [List.length_cons, ← hpulses.length_eq, List.length_range']
  rcases hbeats with hbeats | ⟨beats, last, rfl, hbeats, -⟩
  · have hlen := hlength hbeats
    omega
  · have hlen := hlength hbeats
    rw [List.length_append, List.length_singleton]
    omega

/-! ### The log -/

/-- The rows of some records. -/
def itemRows (items : List PyStr) : List (PyStr × Value) :=
  items.map fun item => (item, entryOf item)

theorem flatMap_line (items : List PyStr) : items.flatMap line = rowsFile (itemRows items) := by
  induction items with
  | nil => rfl
  | cons item items ih =>
    have hcons : rowsFile (itemRows (item :: items)) =
        rowsFile [(item, entryOf item)] ++ rowsFile (itemRows items) :=
      Lineage.rowsFile_append [_] (itemRows items)
    have hone : line item = rowsFile [(item, entryOf item)] := by
      rw [rowsFile, rowsText, List.flatMap_cons, List.flatMap_nil, List.append_nil]
      rfl
    rw [List.flatMap_cons, ih, hone, hcons]

variable {old : List (PyStr × Value)} {e : Engine} {as : List EngineAct}

/-- The rows of all records that were taken but the last one. -/
theorem take_settled {taken accepted : List PyStr} (h : taken <+: accepted) :
    (old ++ itemRows accepted).take (old.length + (taken.length - 1)) =
      old ++ itemRows taken.dropLast := by
  obtain ⟨rest, rfl⟩ := h
  rw [List.take_length_add_append, itemRows, itemRows, ← List.map_take,
    List.take_append_of_le_length (Nat.sub_le _ _), List.dropLast_eq_take]

/-- The invariant and what is in the file, in a run in which the file does not fail and no record
gets into the queue uncounted. -/
theorem inv_of_enginePath {before : Bytes}
    (h : engineMachine.Path EngineSound (engineInit before) as e) :
    EngineInv before e ∧ Kept before e.logger := by
  have hstep : ∀ u a v, EngineInv before u ∧ Kept before u.logger → EngineSound u a →
      engineMachine.step u a = some v → EngineInv before v ∧ Kept before v.logger := by
    rintro u a v ⟨hinv, hkept⟩ hok hst
    refine ⟨engineInv_step hinv hok hst, ?_⟩
    rcases engineStep_logger hok hst with hsame | ⟨b, hlogger⟩
    · rw [hsame]
      exact hkept
    · exact kept_step hinv.logger hkept hlogger
  refine h.invariant hstep ⟨engineInv_init before, ?_⟩
  rw [Kept]
  simp [engineInit, init]

/-- **The log of the engine**, in every run in which the file does not fail, whatever the number of
interrupts and wherever they come, but between a record's way into the queue and its count: what
`load_jsonl` reads at any moment is the old log and a beginning of what the queue has accepted, in
which at most the last record that was taken is missing; that is a part of the story of the start,
the pulses in their order and perhaps the end, and all of it up to 9998 pulses; and when `main`
prints that the engine is shut down, the log has everything that was accepted. -/
theorem engine_log (hold : ∀ r ∈ old, IsRow r.1 r.2)
    (h : engineMachine.Path EngineSound (engineInit (rowsFile old)) as e) : ∃ told,
    (entries e).Sublist told ∧ (e.counter ≤ 9998 → entries e = told) ∧
      (told = [] ∨ ReadStory e.counter told) ∧
      (∃ k, old.length + ((popped e.logger.calls).length - 1) ≤ k ∧
        loadJsonl e.logger.file = (old.map Prod.snd ++ entries e).take k) ∧
      (e.pc = .printed → ReadStory e.counter told ∧
        loadJsonl e.logger.file = old.map Prod.snd ++ entries e) := by
  obtain ⟨hinv, hkept⟩ := inv_of_enginePath h
  have hrows : ∀ item ∈ offered e.logger.calls, IsRow item (entryOf item) := by
    rcases hinv.told.story with hnone | hstory
    · rw [hnone]
      exact nofun
    · exact hstory.read.2
  have hall : ∀ r ∈ old ++ itemRows (pushed e.logger.calls), IsRow r.1 r.2 := by
    intro r hr
    rcases List.mem_append.mp hr with hr | hr
    · exact hold r hr
    · obtain ⟨item, hitem, rfl⟩ := List.mem_map.mp hr
      exact hrows item ((pushed_sublist _).subset hitem)
  have hvalues : (old ++ itemRows (pushed e.logger.calls)).map Prod.snd =
      old.map Prod.snd ++ entries e := by
    rw [List.map_append, itemRows, List.map_map]
    rfl
  have hwhole : rowsFile old ++ (pushed e.logger.calls).flatMap line =
      rowsFile (old ++ itemRows (pushed e.logger.calls)) := by
    rw [flatMap_line, Lineage.rowsFile_append]
  refine ⟨(offered e.logger.calls).map entryOf, (pushed_sublist _).map _, fun hlen => ?_, ?_, ?_,
    ?_⟩
  · have hoffered : (offered e.logger.calls).length ≤ maxsize := by
      rw [maxsize]
      rcases hinv.told.story with hnone | hstory
      · rw [hnone]
        exact Nat.zero_le _
      · exact hstory.length_le.trans (by omega)
    rw [entries, pushed_eq_offered hinv.logger.run hoffered]
  · rcases hinv.told.story with hnone | hstory
    · exact .inl (by rw [hnone]; rfl)
    · exact .inr hstory.read.1
  · have hfile : e.logger.file =
        (rowsFile (old ++ itemRows (pushed e.logger.calls))).take e.logger.file.length := by
      rw [← hwhole]
      exact List.prefix_iff_eq_take.mp (file_begins hinv.logger)
    obtain ⟨k, torn, hcut, -, -, hread, -⟩ := read_of_take hall e.logger.file.length
    refine ⟨k, hcut.le_of_length_le ?_ ?_, ?_⟩
    · have hle := hinv.logger.run.popped_prefix.length_le
      rw [List.length_append, itemRows, List.length_map]
      omega
    · rw [take_settled hinv.logger.run.popped_prefix, Lineage.rowsFile_append, ← flatMap_line]
      exact hkept.length_le
    · rw [hfile, hread, List.map_take, hvalues]
  · intro hprinted
    have htold := hinv.told
    rw [Told, hprinted] at htold
    have hclosed := hinv.closer .returned (by rw [hprinted]; rfl)
    refine ⟨htold.1.read.1, ?_⟩
    rw [file_of_returned hinv.logger hclosed htold.2, hwhole, read_rows hall, hvalues]

/-- The worker takes a record and writes it. -/
def takeOne : List EngineAct :=
  [.worker .work, .worker .work, .worker .work, .worker (.write 5), .worker .work, .worker .work]

/-- The record at the start and a pulse are put, and a second pulse is counted and logged. -/
def pulseSchedule : List EngineAct :=
  [.main .zero, .main .zero, .worker .work, .main .zero, .main .zero, .main .zero, .main .zero,
    .main .zero, .main .zero]

/-- The record of the end is put, and the worker takes what is there while `main` is at `join`. -/
def shutdownSchedule : List EngineAct :=
  [.main .zero, .main .zero, .main .zero, .main .zero] ++
    (takeOne ++ takeOne ++ takeOne ++ takeOne) ++
    [.worker .work, .worker .work, .worker .work, .main .zero]

/-- The second pulse is interrupted when it is in the queue and counted there. -/
theorem engine_log_interrupted : ∃ e : Engine,
    e.pc = .printed ∧ e.counter = 2 ∧ (entries e).length = 4 ∧ ReadStory 2 (entries e) ∧
      loadJsonl e.logger.file = entries e := by
  have hexec : (engineMachine.exec (fun _ a => !a.fails && !a.uncounted) (engineInit (rowsFile []))
      (pulseSchedule ++ [.interrupt .complete false] ++ shutdownSchedule)).map
        (fun e => (e.pc, e.counter, (entries e).length)) = some (.printed, 2, 4) := by
    decide +kernel
  obtain ⟨e, he, hread⟩ := Machine.exists_path_of_exec hexec
  simp only [Prod.mk.injEq] at hread
  obtain ⟨hprinted, hcounter, hentries⟩ := hread
  have hsound : engineMachine.Path EngineSound (engineInit (rowsFile []))
      (pulseSchedule ++ [.interrupt .complete false] ++ shutdownSchedule) e :=
    he.mono fun u a ha => by simpa [EngineSound] using ha
  have hold : ∀ r ∈ ([] : List (PyStr × Value)), IsRow r.1 r.2 := nofun
  obtain ⟨told, -, hall, -, -, hend⟩ := engine_log hold hsound
  obtain ⟨hstory, hlog⟩ := hend hprinted
  have hsame : entries e = told := hall (by omega)
  rw [← hsame, hcounter] at hstory
  exact ⟨e, hprinted, hcounter, hentries, hstory, by simpa using hlog⟩

/-- Interrupted before it is counted, the pulse is written, and the worker calls `task_done` once
too often: the record of the end stays in the queue, and `main` prints all the same. -/
example : (engineMachine.exec (fun _ a => !a.fails) (engineInit (rowsFile []))
    (pulseSchedule ++ [.interrupt .appended false] ++
      (takeOne.tail ++ takeOne.tail ++ takeOne.tail) ++ .worker .work ::
        List.replicate 5 (.main .zero))).map
          (fun e => (e.pc, (entries e).length, (popped e.logger.calls).length)) =
            some (.printed, 4, 3) := by
  decide +kernel

end Utils
end SovereignSeed
