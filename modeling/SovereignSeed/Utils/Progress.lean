import SovereignSeed.Foundation.Progress
import SovereignSeed.Utils.Engine

/-!
# The engine comes to its end

From the `try` on, an interrupt and a few steps of `main` lead to `join`, whatever the worker is
doing; nothing that `main` calls on the way can wait, as long as the lock of the queue is given
back.  At `join` only the worker has steps, and each of them brings it nearer to its end: the stop
event is set, so it does not wait at the queue for longer than one `get`, and nobody puts anything
in.

An interrupt inside `Condition.__enter__` or `__exit__` can leave the lock taken.  The worker then
stays in its loop, since it leaves that over the queue, and `join` waits for it for ever.

## Main definitions

* `Calm` — no interrupt but one that leads to the handler.
* `Unlocked` — the invariant, with the lock of the queue free.
* `EnginePc.entered` — `main` is between the `try` and `join`.
* `WorkerPc.rank`, `Engine.remaining` — how many steps are left at `join`, at most.

## Main results

* `remaining_lt` — every calm step at `join` leaves less to do.
* `not_printed_of_wedged` — behind a lock that is left taken `main` does not get to its end.
* `engine_stops` — **the engine can be brought to `join`, and from there every schedule ends it,
  unless the lock is left taken.**
-/

namespace SovereignSeed
namespace Utils

open Python Json

/-! ### What is left -/

/-- The file does not fail, and an interrupt comes between two steps, where it leads to the
handler. -/
def Calm (e : Engine) : EngineAct → Prop
  | .main _ => True
  | .interrupt effect locked =>
    effect = .nothing ∧ locked = false ∧ e.pc.interrupted = some .stopLog
  | .worker a => a.fails = false

/-- `main` has entered the `try`, and not yet returned from `join`. -/
def EnginePc.entered : EnginePc → Bool
  | .starting => false
  | .startPut => false
  | .printed => false
  | .died => false
  | _ => true

/-- The steps to the end of the worker, but for the items in the queue. -/
def WorkerPc.rank (queue : List PyStr) : WorkerPc → ℕ
  | .opening => 4
  | .testStop => 3
  | .testEmpty => 2
  | .get => if queue = [] then 4 else 1
  | .write _ => 6
  | .flush => 5
  | .taskDone => 4
  | .closing => 1
  | .ended => 0

/-- The steps to the end of the worker. -/
def AsyncJSONLogger.remaining {T : Type*} (s : AsyncJSONLogger T) : ℕ :=
  6 * s.queue.length + s.worker.rank s.queue

/-- The steps to the end of the engine, from `join` on. -/
def Engine.remaining (e : Engine) : ℕ :=
  if e.pc = .join then e.logger.remaining + 1 else 0

/-! ### The worker -/

section Worker

variable {T : Type*} [DecidableEq T] {s s' : AsyncJSONLogger T} {a : Act T}

theorem WorkerPc.rank_le (queue : List PyStr) (p : WorkerPc) : p.rank queue ≤ 6 := by
  cases p with
  | get =>
    rw [rank]
    split <;> decide
  | _ => simp [rank]

/-- Behind the stop event every step of the worker leaves less to do. -/
theorem remaining_worker (hw : a.isWorker = true) (hok : a.fails = false)
    (hstop : s.stopEvent = true) (hst : step s a = some s') : s'.remaining < s.remaining := by
  unfold AsyncJSONLogger.remaining
  cases a with
  | log => cases hw
  | put => cases hw
  | close => cases hw
  | closeStep => cases hw
  | fail => cases hok
  | work =>
    simp only [step, workStep] at hst
    split at hst
    · next hpc =>
      cases hst
      simp [hpc, WorkerPc.rank]
    · next hpc =>
      cases hst
      simp [hpc, WorkerPc.rank, hstop]
    · next hpc =>
      cases hst
      by_cases hempty : s.queue = []
      · simp [hpc, WorkerPc.rank, hempty]
      · simp [hpc, WorkerPc.rank, hempty]
    · next hpc =>
      split at hst
      · cases hst
      · next hqueue =>
        cases hst
        simp only [hpc, hqueue, WorkerPc.rank, List.length_cons]
        rw [if_neg (List.cons_ne_nil _ _)]
        omega
    · cases hst
    · next hpc =>
      cases hst
      simp [hpc, WorkerPc.rank]
    · next hpc =>
      split at hst
      · cases hst
        simp [hpc, WorkerPc.rank]
      · cases hst
        simp [hpc, WorkerPc.rank]
    · next hpc =>
      cases hst
      simp [hpc, WorkerPc.rank]
    · cases hst
  | expire =>
    simp only [step] at hst
    split at hst
    · next hpc hqueue =>
      cases hst
      simp [hpc, hqueue, WorkerPc.rank]
    · cases hst
  | write spilled =>
    simp only [step] at hst
    split at hst
    · next hpc =>
      cases hst
      simp [hpc, WorkerPc.rank]
    · cases hst

/-- The worker is never held up: it waits at the queue until the time of `get` is over. -/
theorem exists_worker (hended : s.worker ≠ .ended) :
    ∃ (a : Act T) (s' : AsyncJSONLogger T), a.isWorker = true ∧ a.fails = false ∧
      step s a = some s' := by
  cases hpc : s.worker with
  | get =>
    cases hqueue : s.queue with
    | nil => exact ⟨.expire, _, rfl, rfl, by simp only [step, hpc, hqueue]; rfl⟩
    | cons => exact ⟨.work, _, rfl, rfl, by simp only [step, workStep, hpc, hqueue]; rfl⟩
  | write => exact ⟨.write 0, _, rfl, rfl, by simp only [step, hpc]; rfl⟩
  | taskDone =>
    by_cases htasks : s.unfinishedTasks = 0
    · exact ⟨.work, _, rfl, rfl, by simp only [step, workStep, hpc, if_pos htasks]; rfl⟩
    · exact ⟨.work, _, rfl, rfl, by simp only [step, workStep, hpc, if_neg htasks]; rfl⟩
  | ended => exact absurd hpc hended
  | _ => exact ⟨.work, _, rfl, rfl, by simp only [step, workStep, hpc]; rfl⟩

/-- A worker that has ended takes no step. -/
theorem step_of_ended (hw : a.isWorker = true) (hended : s.worker = .ended) : step s a = none := by
  cases a with
  | log => cases hw
  | put => cases hw
  | close => cases hw
  | closeStep => cases hw
  | work => simp [step, workStep, hended]
  | expire => simp [step, hended]
  | write => simp [step, hended]
  | fail => simp [step, hended, WorkerPc.usesFile]

/-- A thread in `log` gets past the queue, which has at most one item more then. -/
theorem exists_put {t : T} {item : PyStr} (hitem : s.clients t = some item) :
    ∃ s', step s (.put t) = some s' ∧ s'.queue.length ≤ s.queue.length + 1 := by
  by_cases hroom : s.queue.length < maxsize
  · exact ⟨_, by simp only [step, hitem, if_pos hroom]; rfl, by simp⟩
  · refine ⟨_, by simp only [step, hitem, if_neg hroom]; rfl, ?_⟩
    exact Nat.le_succ _

end Worker

/-! ### From `join` on -/

section Engine

variable {before : Bytes} {e e' : Engine} {a : EngineAct}

theorem Calm.sound (h : Calm e a) : EngineSound e a := by
  cases a with
  | main => exact ⟨rfl, rfl⟩
  | interrupt effect locked =>
    obtain ⟨rfl, -, -⟩ := h
    exact ⟨rfl, rfl⟩
  | worker => exact ⟨h, rfl⟩

/-- The invariant, where the lock of the queue is free for whoever comes next. -/
structure Unlocked (before : Bytes) (e : Engine) : Prop where
  inv : EngineInv before e
  free : e.wedged = false

/-- A free lock holds `main` up nowhere. -/
theorem engineStep_main (hfree : e.wedged = false) (timestamp : PyFloat) :
    engineStep e (.main timestamp) = mainStep e timestamp := by
  simp [engineStep, hfree]

/-- What `main` does to the logger leaves the worker where it is. -/
theorem worker_of_call {s s' : AsyncJSONLogger Bool} {a : Act Bool} (ha : a.isWorker = false)
    (hst : step s a = some s') : s'.worker = s.worker := by
  cases a with
  | log => grind [step]
  | put => grind [step]
  | close => grind [step]
  | closeStep => grind [step]
  | _ => cases ha

theorem frame_of_call {b : Act Bool} {pc : EnginePc} (hb : b.isWorker = false)
    (hst : e.call b pc = some e') :
    e'.wedged = e.wedged ∧ e'.logger.worker = e.logger.worker := by
  obtain ⟨logger, hlogger, rfl⟩ := Option.map_eq_some_iff.mp hst
  exact ⟨rfl, worker_of_call hb hlogger⟩

theorem frame_of_log {slot : Bool} {timestamp : PyFloat} {entry : Entry} {pc raised : EnginePc}
    (hst : e.log slot timestamp entry pc raised = some e') :
    e'.wedged = e.wedged ∧ e'.logger.worker = e.logger.worker := by
  obtain ⟨logger, hlogger, rfl⟩ := Option.map_eq_some_iff.mp hst
  exact ⟨rfl, worker_of_call (a := .log ..) rfl hlogger⟩

/-- A step of `main` gives the lock back, and leaves the worker where it is. -/
theorem frame_of_mainStep {timestamp : PyFloat} (hst : mainStep e timestamp = some e') :
    e'.wedged = e.wedged ∧ e'.logger.worker = e.logger.worker := by
  unfold mainStep at hst
  split at hst
  · exact frame_of_log hst
  · exact frame_of_call rfl hst
  · cases hst
    exact ⟨rfl, rfl⟩
  · exact frame_of_log hst
  · exact frame_of_call rfl hst
  · cases hst
    exact ⟨rfl, rfl⟩
  · exact frame_of_log hst
  · exact frame_of_call rfl hst
  · exact frame_of_call rfl hst
  · exact frame_of_call rfl hst
  · exact frame_of_call rfl hst
  · cases hst
  · cases hst

/-- A calm step leaves the lock free. -/
theorem unlocked_step (h : Unlocked before e) (hok : Calm e a) (hst : engineStep e a = some e') :
    Unlocked before e' := by
  refine ⟨engineInv_step h.inv hok.sound hst, ?_⟩
  cases a with
  | main timestamp => exact (frame_of_mainStep (main_cases hst).2).1.trans h.free
  | interrupt effect locked =>
    obtain ⟨pc, -, ⟨rfl, -, -⟩ | ⟨-, slot, logger, -, -, rfl⟩⟩ := interrupt_cases hst
    · exact h.free
    · exact hok.2.1
  | worker a =>
    obtain ⟨-, -, logger, -, rfl⟩ := worker_cases hst
    exact h.free

/-- `main` is at `join`, or behind it. -/
structure Joining (before : Bytes) (e : Engine) : Prop where
  unlocked : Unlocked before e
  pc : e.pc = .join ∨ e.pc = .printed

/-- Every calm step at `join` leaves less to do. -/
theorem remaining_lt (h : Joining before e) (hok : Calm e a) (hst : engineStep e a = some e') :
    Joining before e' ∧ e'.remaining < e.remaining := by
  have hunlocked : Unlocked before e' := unlocked_step h.unlocked hok hst
  rcases h.pc with hpc | hpc
  · have hstop : e.logger.stopEvent = true := by
      have htold := h.unlocked.inv.told
      rw [Told, hpc] at htold
      exact htold.2.2
    cases a with
    | main timestamp =>
      have hmain := (main_cases hst).2
      simp only [mainStep, hpc] at hmain
      obtain ⟨logger, -, rfl⟩ := Option.map_eq_some_iff.mp hmain
      refine ⟨⟨hunlocked, .inr rfl⟩, ?_⟩
      have hbehind : EnginePc.printed ≠ .join := by decide
      rw [Engine.remaining, Engine.remaining, if_neg hbehind, if_pos hpc]
      exact Nat.succ_pos _
    | interrupt effect locked =>
      obtain ⟨-, -, hhandler⟩ := hok
      rw [hpc] at hhandler
      cases hhandler
    | worker a =>
      obtain ⟨hw, -, logger, hlogger, rfl⟩ := worker_cases hst
      refine ⟨⟨hunlocked, .inl hpc⟩, ?_⟩
      rw [Engine.remaining, Engine.remaining, if_pos hpc, if_pos hpc]
      exact Nat.succ_lt_succ (remaining_worker hw hok hstop hlogger)
  · -- behind `join` nothing happens any more
    have hended : e.logger.worker = .ended :=
      h.unlocked.inv.logger.returned (h.unlocked.inv.closer .returned (by rw [hpc]; rfl))
    cases a with
    | main timestamp =>
      have hmain := (main_cases hst).2
      simp only [mainStep, hpc] at hmain
      cases hmain
    | interrupt effect locked =>
      obtain ⟨-, -, hhandler⟩ := hok
      rw [hpc] at hhandler
      cases hhandler
    | worker a =>
      obtain ⟨hw, -, logger, hlogger, -⟩ := worker_cases hst
      rw [step_of_ended hw hended] at hlogger
      cases hlogger

/-- At `join` there is a step to take. -/
theorem exists_step_of_join (h : Unlocked before e) (hpc : e.pc = .join) :
    ∃ a e', Calm e a ∧ engineStep e a = some e' := by
  by_cases hended : e.logger.worker = .ended
  · have hcloser : e.logger.closer = .join := h.inv.closer .join (by rw [hpc]; rfl)
    have hst : engineStep e (.main .zero) = some { e with
        logger := { e.logger with closer := .returned }, pc := .printed } := by
      rw [engineStep_main h.free]
      simp only [mainStep, hpc, Engine.call, step, hcloser, if_pos hended]
      rfl
    exact ⟨.main .zero, _, trivial, hst⟩
  · obtain ⟨a, s', hw, hok, hst⟩ := exists_worker hended
    have hstep : engineStep e (.worker a) = some { e with logger := s' } := by
      simp [engineStep, hw, h.free, hst]
    exact ⟨.worker a, _, hok, hstep⟩

/-! ### On the way to `join` -/

/-- `main` is at `join`, with at most `n` items in the queue. -/
structure JoinsWith (before : Bytes) (n : ℕ) (e : Engine) : Prop where
  unlocked : Unlocked before e
  pc : e.pc = .join
  length_le : e.logger.queue.length ≤ n

variable {n : ℕ}

/-- A step of `main`, and a path behind it. -/
theorem within_main (h : Unlocked before e) (hst : mainStep e .zero = some e') {k : ℕ}
    (hpath : Unlocked before e' → engineMachine.Within Calm k (JoinsWith before n) e') :
    engineMachine.Within Calm (k + 1) (JoinsWith before n) e := by
  have hcalm : Calm e (.main .zero) := trivial
  have hstep : engineStep e (.main .zero) = some e' := (engineStep_main h.free _).trans hst
  exact .cons hcalm hstep (hpath (unlocked_step h hcalm hstep))

theorem within_setStop (h : Unlocked before e) (hpc : e.pc = .setStop)
    (hlen : e.logger.queue.length ≤ n) : engineMachine.Within Calm 1 (JoinsWith before n) e := by
  have hcloser : e.logger.closer = .setStop := h.inv.closer .setStop (by rw [hpc]; rfl)
  have hst : mainStep e .zero = some { e with
      logger := { e.logger with stopEvent := true, closer := .join }, pc := .join } := by
    simp only [mainStep, hpc, Engine.call, step, hcloser]
    rfl
  exact within_main h hst fun hnext => .now ⟨hnext, rfl, hlen⟩

theorem within_close (h : Unlocked before e) (hpc : e.pc = .close)
    (hlen : e.logger.queue.length ≤ n) : engineMachine.Within Calm 2 (JoinsWith before n) e := by
  have hcloser : e.logger.closer = .idle := h.inv.closer .idle (by rw [hpc]; rfl)
  have hst : mainStep e .zero = some { e with
      logger := { e.logger with closer := .setStop, atClose := Fifo.pushed e.logger.calls }
      pc := .setStop } := by
    simp only [mainStep, hpc, Engine.call, step, hcloser]
    rfl
  exact within_main h hst fun hnext => within_setStop hnext rfl hlen

theorem within_stopPut (h : Unlocked before e) (hpc : e.pc = .stopPut)
    (hlen : e.logger.queue.length ≤ n) :
    engineMachine.Within Calm 3 (JoinsWith before (n + 1)) e := by
  have htold := h.inv.told
  rw [Told, hpc] at htold
  obtain ⟨-, -, -, -, item, hitem, -⟩ := htold
  obtain ⟨s', hput, hlen'⟩ := exists_put hitem
  have hst : mainStep e .zero = some { e with logger := s', pc := .close } := by
    simp only [mainStep, hpc, Engine.call, hput]
    rfl
  exact within_main h hst fun hnext =>
    within_close hnext rfl (hlen'.trans (Nat.add_le_add_right hlen 1))

theorem within_stopLog (h : Unlocked before e) (hpc : e.pc = .stopLog)
    (hlen : e.logger.queue.length ≤ n) :
    engineMachine.Within Calm 4 (JoinsWith before (n + 1)) e := by
  have hslot : e.logger.clients true = none := h.inv.slot (by rw [hpc]; rfl)
  obtain ⟨e', hlog⟩ : ∃ e', e.log true .zero stopEntry .stopPut .close = some e' := by
    simp [Engine.log, step, hslot]
  have hst : mainStep e .zero = some e' := by
    simp only [mainStep, hpc]
    exact hlog
  obtain ⟨-, -, hqueue, -, hpc'⟩ := log_spec h.inv hlog
  rw [← hqueue] at hlen
  refine within_main h hst fun hnext => ?_
  rcases hpc' with ⟨hput, -⟩ | hraised
  · exact within_stopPut hnext hput hlen
  · exact (within_close hnext hraised (hlen.trans (Nat.le_succ n))).mono (Nat.le_succ 2)

/-- An interrupt inside the `try` leads to the handler. -/
theorem within_try (h : Unlocked before e) (hpc : e.pc.interrupted = some .stopLog)
    (hlen : e.logger.queue.length ≤ n) :
    engineMachine.Within Calm 5 (JoinsWith before (n + 1)) e := by
  have hst : engineStep e (.interrupt .nothing false) = some { e with pc := .stopLog } := by
    simp [engineStep, hpc]
  have hcalm : Calm e (.interrupt .nothing false) := ⟨rfl, rfl, hpc⟩
  exact .cons hcalm hst (within_stopLog (unlocked_step h hcalm hst) rfl hlen)

theorem within_entered (h : Unlocked before e) (hin : e.pc.entered = true) :
    engineMachine.Within Calm 5 (JoinsWith before (e.logger.queue.length + 1)) e := by
  cases hpc : e.pc with
  | starting =>
    rw [hpc] at hin
    cases hin
  | startPut =>
    rw [hpc] at hin
    cases hin
  | pulse => exact within_try h (by rw [hpc]; rfl) le_rfl
  | pulseLog => exact within_try h (by rw [hpc]; rfl) le_rfl
  | pulsePut => exact within_try h (by rw [hpc]; rfl) le_rfl
  | sleep => exact within_try h (by rw [hpc]; rfl) le_rfl
  | stopLog => exact (within_stopLog h hpc le_rfl).mono (by omega)
  | stopPut => exact (within_stopPut h hpc le_rfl).mono (by omega)
  | close => exact (within_close h hpc (Nat.le_succ _)).mono (by omega)
  | setStop => exact (within_setStop h hpc (Nat.le_succ _)).mono (by omega)
  | join => exact .now ⟨h, hpc, Nat.le_succ _⟩
  | printed =>
    rw [hpc] at hin
    cases hin
  | died =>
    rw [hpc] at hin
    cases hin

/-! ### The lock that is never given back -/

/-- Where the lock is left taken, the worker is still in its loop: it leaves it over the queue. -/
def Stays (e : Engine) : Prop := e.wedged = true → e.logger.worker.left = false

/-- Before the stop event is set the worker is in its loop. -/
theorem not_left_of_idle (h : EngineInv before e) (hidle : e.pc.closer = some .idle) :
    e.logger.worker.left = false := by
  by_contra hleft
  have hstopping := WorkerPc.stopping_of_left (Bool.eq_true_of_not_eq_false hleft)
  exact h.logger.stopEvent_ne_true (h.closer .idle hidle) (h.logger.stopped hstopping)

/-- A worker that leaves its loop has had the lock. -/
theorem locks_of_left {T : Type*} [DecidableEq T] {s s' : AsyncJSONLogger T} {a : Act T}
    (hok : a.fails = false) (hst : step s a = some s') (hleft : s'.worker.left = true) :
    s.worker.left = true ∨ s.worker.locks = true := by
  cases a with
  | fail => cases hok
  | work => grind [step, workStep, WorkerPc.left, WorkerPc.locks]
  | _ => grind [step, WorkerPc.left, WorkerPc.locks]

/-- A call of the queue is broken off before `finally`, and leaves the worker where it is. -/
theorem breakPut_frame {logger : AsyncJSONLogger Bool} {slot : Bool} {effect : PutEffect}
    (hslot : e.pc.putting = some slot) (hbreak : breakPut e.logger slot effect = some logger) :
    e.pc.closer = some .idle ∧ logger.worker = e.logger.worker := by
  constructor
  · cases hpc : e.pc <;> rw [hpc] at hslot <;> first | rfl | cases hslot
  · cases effect with
    | nothing => cases hbreak; rfl
    | appended => grind [breakPut]
    | complete => exact worker_of_call (a := .put slot) rfl hbreak

theorem stays_step (h : EngineInv before e) (hstays : Stays e) (hok : EngineSound e a)
    (hst : engineStep e a = some e') : Stays e' := by
  intro hwedged
  cases a with
  | main timestamp =>
    obtain ⟨hlock, hworker⟩ := frame_of_mainStep (main_cases hst).2
    rw [hworker]
    exact hstays (hlock.symm.trans hwedged)
  | interrupt effect locked =>
    obtain ⟨pc, -, ⟨rfl, -, -⟩ | ⟨-, slot, logger, hslot, hbreak, rfl⟩⟩ := interrupt_cases hst
    · exact hstays hwedged
    · obtain ⟨hidle, hworker⟩ := breakPut_frame hslot hbreak
      exact (congrArg WorkerPc.left hworker).trans (not_left_of_idle h hidle)
  | worker a =>
    obtain ⟨-, hfree, logger, hlogger, rfl⟩ := worker_cases hst
    have hlock : e.wedged = true := hwedged
    rw [hlock, Bool.true_and] at hfree
    by_contra hleft
    rcases locks_of_left hok.1 hlogger (Bool.eq_true_of_not_eq_false hleft) with hnow | hnow
    · rw [hstays hlock] at hnow
      cases hnow
    · rw [hfree] at hnow
      cases hnow

/-- A lock that is left taken stays so. -/
theorem wedged_step (hlock : e.wedged = true) (hst : engineStep e a = some e') :
    e'.wedged = true := by
  cases a with
  | main timestamp => exact (frame_of_mainStep (main_cases hst).2).1.trans hlock
  | interrupt effect locked =>
    obtain ⟨pc, -, ⟨rfl, -, -⟩ | ⟨hfree, -⟩⟩ := interrupt_cases hst
    · exact hlock
    · rw [hlock] at hfree
      cases hfree
  | worker a =>
    obtain ⟨-, -, logger, -, rfl⟩ := worker_cases hst
    exact hlock

/-- **Behind a lock that is left taken `main` does not get to its end.** -/
theorem not_printed_of_wedged (h : EngineInv before e) (hstays : Stays e)
    (hlock : e.wedged = true) {bs : List EngineAct} {v : Engine}
    (hpath : engineMachine.Path EngineSound e bs v) : v.pc ≠ .printed := by
  have hinv : EngineInv before v ∧ Stays v ∧ v.wedged = true :=
    hpath.invariant (P := fun u => EngineInv before u ∧ Stays u ∧ u.wedged = true)
      (fun _ _ _ hu hok hst => ⟨engineInv_step hu.1 hok hst, stays_step hu.1 hu.2.1 hok hst,
        wedged_step hu.2.2 hst⟩) ⟨h, hstays, hlock⟩
  obtain ⟨hv, hleft, hlock⟩ := hinv
  intro hpc
  have hended := hv.logger.returned (hv.closer .returned (by rw [hpc]; rfl))
  have hloop := hleft hlock
  rw [hended] at hloop
  cases hloop

/-! ### The end -/

/-- What the end is like. -/
theorem EngineInv.file_of_printed (h : EngineInv before e) (hpc : e.pc = .printed) :
    e.logger.file = before ++ (Fifo.pushed e.logger.calls).flatMap line := by
  have htold := h.told
  rw [Told, hpc] at htold
  exact file_of_returned h.logger (h.closer .returned (by rw [hpc]; rfl)) htold.2

variable {as : List EngineAct}

/-- **The engine can be shut down from wherever it is, unless an interrupt has left the lock of the
queue taken**, in every run in which the file does not fail and no record gets into the queue
uncounted.  With the lock free, at most five steps lead from the `try`, the handler or `finally` to
`join`, the first of them an interrupt inside the `try`; and however the steps go on from there,
without another interrupt, they are a few for each item in the queue, and where there is none left
to take, `main` has printed that the engine is shut down and the file has every record that was
accepted.  With the lock taken, `main` does not print that on any way. -/
theorem engine_stops (h : engineMachine.Path EngineSound (engineInit before) as e)
    (hin : e.pc.entered = true) :
    (e.wedged = false → engineMachine.Within Calm 5 (fun u => u.pc = .join ∧
      u.logger.queue.length ≤ e.logger.queue.length + 1 ∧
      ∀ bs v, engineMachine.Path Calm u bs v →
        bs.length ≤ 6 * u.logger.queue.length + 7 ∧
        ((∀ a, Calm v a → engineStep v a = none) → v.pc = .printed ∧
          v.logger.file = before ++ (Fifo.pushed v.logger.calls).flatMap line)) e) ∧
    (e.wedged = true → ∀ bs v, engineMachine.Path EngineSound e bs v → v.pc ≠ .printed) := by
  have hinv : EngineInv before e ∧ Stays e :=
    h.invariant (P := fun u => EngineInv before u ∧ Stays u)
      (fun _ _ _ hu hok hst => ⟨engineInv_step hu.1 hok hst, stays_step hu.1 hu.2 hok hst⟩)
      ⟨engineInv_init before, fun hlock => absurd hlock Bool.false_ne_true⟩
  refine ⟨fun hfree => ?_, fun hlock bs v => not_printed_of_wedged hinv.1 hinv.2 hlock⟩
  refine (within_entered ⟨hinv.1, hfree⟩ hin).imp fun u hu =>
    ⟨hu.pc, hu.length_le, fun bs v hpath => ?_⟩
  obtain ⟨hjoining, hsteps⟩ :=
    hpath.length_add_le (fun _ _ _ => remaining_lt) ⟨hu.unlocked, .inl hu.pc⟩
  have hrank := u.logger.worker.rank_le u.logger.queue
  refine ⟨?_, fun hstuck => ?_⟩
  · rw [Engine.remaining.eq_def u, if_pos hu.pc, AsyncJSONLogger.remaining] at hsteps
    omega
  · rcases hjoining.pc with hpc | hpc
    · obtain ⟨a, w, hok, hst⟩ := exists_step_of_join hjoining.unlocked hpc
      rw [hstuck a hok] at hst
      cases hst
    · exact ⟨hpc, hjoining.unlocked.inv.file_of_printed hpc⟩

end Engine

/-- The engine before its first pulse is in the queue. -/
def firstPulse : List EngineAct :=
  [.main .zero, .main .zero, .main .zero, .main .zero]

/-- The first pulse is in the queue, and the engine is asleep; or it was interrupted on its way out
of the queue. -/
theorem engine_stops_asleep : ∃ e e' : Engine, e.pc = .sleep ∧ e'.pc = .stopLog ∧
    engineMachine.Within Calm 5 (fun u => u.pc = .join ∧ u.logger.queue.length ≤ 3) e ∧
    ∀ bs v, engineMachine.Path EngineSound e' bs v → v.pc ≠ .printed := by
  have hsound : ∀ {as : List EngineAct} {e : Engine},
      engineMachine.Path (fun _ a => (!a.fails && !a.uncounted) = true) (engineInit []) as e →
        engineMachine.Path EngineSound (engineInit []) as e :=
    fun he => he.mono fun u a ha => by simpa [EngineSound] using ha
  have hasleep : (engineMachine.exec (fun _ a => !a.fails && !a.uncounted) (engineInit [])
      (firstPulse ++ [.main .zero])).map
        (fun e => (e.pc, e.wedged, e.logger.queue.length)) = some (.sleep, false, 2) := by
    decide +kernel
  have hleft : (engineMachine.exec (fun _ a => !a.fails && !a.uncounted) (engineInit [])
      (firstPulse ++ [.interrupt .complete true])).map (fun e => (e.pc, e.wedged)) =
        some (.stopLog, true) := by
    decide +kernel
  obtain ⟨e, he, hread⟩ := Machine.exists_path_of_exec hasleep
  obtain ⟨e', he', hread'⟩ := Machine.exists_path_of_exec hleft
  simp only [Prod.mk.injEq] at hread hread'
  obtain ⟨hpc, hfree, hlen⟩ := hread
  obtain ⟨hpc', hlock⟩ := hread'
  refine ⟨e, e', hpc, hpc', ?_, (engine_stops (hsound he') (by rw [hpc']; rfl)).2 hlock⟩
  refine ((engine_stops (hsound he) (by rw [hpc]; rfl)).1 hfree).imp fun u hu => ⟨hu.1, ?_⟩
  rw [hlen] at hu
  exact hu.2.1

end Utils
end SovereignSeed
