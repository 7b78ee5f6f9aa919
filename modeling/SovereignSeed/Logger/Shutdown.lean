import SovereignSeed.Logger.Pipeline

/-!
# Shutting the engine down

`main` logs an event, then one in each round of its loop, until `handle_shutdown` has cleared
`keep_running`; then it clears `running` and waits for the worker.  The handler clears
`running` as well, while `main` may be on its way to another event.  If the worker finds the
queue empty at that moment it leaves, and the event stays in the ring.

The handler runs beside `main` and the worker, on whatever thread the signal is delivered to,
and any number of times.  The log file opens.

## Main definitions

* `Process`, `process` — the engine with its `main` and its handler.
* `Drained` — the worker leaves only when no event is on its way.

## Main results

* `inv_step` — what holds in every run.
* `shutdown_iff` — **when `main` returns, the file holds every accepted event exactly if the
  worker did not leave while one was on its way.**
* `last_event_is_lost` — a signal inside of `log_event` loses the event.
-/

namespace SovereignSeed
namespace Logger

/-! ### The process -/

/-- Where `main` is. -/
inductive MainPc
  /-- The handlers are installed; about to set the queue up. -/
  | setUp
  /-- About to create the worker. -/
  | create
  /-- About to log the first event. -/
  | greet
  /-- In that call of `log_event`. -/
  | greeting
  /-- About to read `keep_running`. -/
  | test
  /-- About to log the event of this round. -/
  | beat
  /-- In that call of `log_event`. -/
  | beating
  /-- Behind the loop, about to clear `running`. -/
  | stop
  /-- Waiting for the worker. -/
  | join
  | returned
  deriving DecidableEq

/-- The process. -/
structure Process where
  engine : Engine
  main : MainPc
  counter : Int64
  keepRunning : Bool
  /-- The handlers that have cleared `keep_running` and not `running` yet. -/
  handlers : ℕ

/-- What happens next. -/
inductive ProcessAct
  /-- `main` takes a step outside of `log_event`. -/
  | main
  /-- `main` reads the clock. -/
  | clock (timestampNs : Int64)
  /-- `main` takes a step inside of `log_event`. -/
  | log
  | openFile
  | worker
  /-- `handle_shutdown` clears `keep_running`. -/
  | signal
  /-- `handle_shutdown` clears `running`. -/
  | clearRunning

/-- The call that `main` begins with. -/
def infoCall : Call where
  level := ⟨"INFO".toUTF8.data.toList, by decide⟩
  msg := ⟨("Sovereign Intelligence Protocol C engine initialized with async binary " ++
    "serialization").toUTF8.data.toList, by decide⟩
  sequence := 0

/-- The call of a round. -/
def debugCall (counter : Int64) : Call where
  level := ⟨"DEBUG".toUTF8.data.toList, by decide⟩
  msg := ⟨"Hardened telemetry heartbeat pulse".toUTF8.data.toList, by decide⟩
  sequence := counter

/-- The next step of `main`, outside of `log_event`. -/
def mainStep (p : Process) : Option Process :=
  match p.main with
  | .setUp =>
    some { p with
      engine := { p.engine with head := 0, tail := 0, running := true, lock := false }
      main := .create }
  | .create => some { p with engine := { p.engine with worker := .opening }, main := .greet }
  | .greet =>
    (step p.engine (.call 0 infoCall)).map fun e => { p with engine := e, main := .greeting }
  | .greeting =>
    match p.engine.threads 0 with
    | .idle => some { p with main := .test }
    | _ => none
  | .test =>
    if p.keepRunning then some { p with counter := p.counter + 1, main := .beat }
    else some { p with main := .stop }
  | .beat =>
    (step p.engine (.call 0 (debugCall p.counter))).map fun e =>
      { p with engine := e, main := .beating }
  | .beating =>
    match p.engine.threads 0 with
    | .idle => some { p with main := .test }
    | _ => none
  | .stop => some { p with engine := { p.engine with running := false }, main := .join }
  | .join =>
    match p.engine.worker with
    | .exited => some { p with main := .returned }
    | _ => none
  | .returned => none

/-- One step of `main`, of the handler or of the worker. -/
def processStep (p : Process) : ProcessAct → Option Process
  | .main => mainStep p
  | .clock ts => (step p.engine (.clock 0 ts)).map fun e => { p with engine := e }
  | .log => (step p.engine (.thread 0)).map fun e => { p with engine := e }
  | .openFile => (step p.engine (.openFile true)).map fun e => { p with engine := e }
  | .worker => (step p.engine .worker).map fun e => { p with engine := e }
  | .signal => some { p with keepRunning := false, handlers := p.handlers + 1 }
  | .clearRunning =>
    if 0 < p.handlers then
      some { p with engine := { p.engine with running := false }, handlers := p.handlers - 1 }
    else none

/-- The process when its handlers are installed, over whatever the slots hold. -/
def initProcess (memory : ℕ → Slot) : Process where
  engine := { initEngine memory with running := false, worker := .unborn }
  main := .setUp
  counter := 0
  keepRunning := true
  handlers := 0

/-- The process under every interleaving. -/
def process : Machine Process ProcessAct where
  init p := ∃ memory, p = initProcess memory
  step := processStep

/-! ### The condition -/

/-- The thread is in `log_event`, before its store to `tail`. -/
def Pc.busy : Pc → Bool
  | .idle => false
  | .unlock => false
  | _ => true

/-- `main` has an event on its way into the ring. -/
def Process.logging (p : Process) : Bool :=
  match p.main with
  | .greet => true
  | .greeting => (p.engine.threads 0).busy
  | .beat => true
  | .beating => (p.engine.threads 0).busy
  | _ => false

/-- The worker leaves its loop only when no event is on its way. -/
def Drained (p : Process) : ProcessAct → Prop
  | .worker => ∀ h, p.engine.worker = .testTail h → h = p.engine.tail → p.logging = false
  | _ => True

/-! ### What holds in every run -/

/-- `main` is in a call of `log_event`. -/
def MainPc.calls : MainPc → Bool
  | .greeting => true
  | .beating => true
  | _ => false

/-- What the worker's place says about `running` and the file. -/
def WorkerKnows (e : Engine) : WorkerPc → Prop
  | .testHead => e.running = false
  | .testTail _ => e.running = false
  | .closing => e.running = false
  | .exited => e.running = false ∧ e.written = e.printed
  | _ => True

/-- The invariant. -/
structure ProcessInv (p : Process) : Prop where
  rep : ∃ lo hi, Rep p.engine lo hi
  fresh : p.main = .setUp → p.engine.head = 0 ∧ p.engine.tail = 0 ∧ p.engine.lock = false
  idle : p.main.calls = false → p.engine.threads 0 = .idle
  unborn : p.main = .setUp ∨ p.main = .create → p.engine.worker = .unborn
  signalled : 0 < p.handlers → p.keepRunning = false
  stopped : p.engine.running = false →
    p.main = .setUp ∨ p.keepRunning = false ∨ p.main = .join ∨ p.main = .returned
  worker : WorkerKnows p.engine p.engine.worker
  returned : p.main = .returned → p.engine.worker = .exited

variable {e e' : Engine} {p p' : Process} {lo hi : ℕ} {i : ℕ}

/-- `running` is not part of what the queue stands for. -/
theorem Rep.setRunning (h : Rep e lo hi) (b : Bool) : Rep { e with running := b } lo hi :=
  ⟨h.head, h.tail, h.le, h.lap, h.log, h.worker, h.thread, h.held, h.unique⟩

/-- The steps of a thread leave the worker and its file alone. -/
structure Beside (e e' : Engine) : Prop where
  worker : e'.worker = e.worker
  head : e'.head = e.head
  running : e'.running = e.running
  written : e'.written = e.written
  printed : e'.printed = e.printed

theorem beside_threadStep (hstep : threadStep e i = some e') : Beside e e' := by
  unfold threadStep at hstep
  split at hstep
  · split at hstep
    · cases hstep
      exact ⟨rfl, rfl, rfl, rfl, rfl⟩
    · cases hstep
      exact ⟨rfl, rfl, rfl, rfl, rfl⟩
  · cases hstep
    exact ⟨rfl, rfl, rfl, rfl, rfl⟩
  · split at hstep
    · cases hstep
      exact ⟨rfl, rfl, rfl, rfl, rfl⟩
    · cases hstep
      exact ⟨rfl, rfl, rfl, rfl, rfl⟩
  · cases hstep
    exact ⟨rfl, rfl, rfl, rfl, rfl⟩
  · cases hstep
    exact ⟨rfl, rfl, rfl, rfl, rfl⟩
  · cases hstep
    exact ⟨rfl, rfl, rfl, rfl, rfl⟩
  · cases hstep

/-- A thread that moves is in `log_event`. -/
theorem ne_idle_of_threadStep (hstep : threadStep e i = some e') : e.threads i ≠ .idle := by
  intro hidle
  rw [threadStep, hidle] at hstep
  cases hstep

theorem workerKnows_beside (h : Beside e e') (hw : WorkerKnows e e.worker) :
    WorkerKnows e' e'.worker := by
  rw [h.worker]
  cases hpc : e.worker with
  | testHead =>
    rw [hpc] at hw
    exact h.running.trans hw
  | testTail hd =>
    rw [hpc] at hw
    exact h.running.trans hw
  | closing =>
    rw [hpc] at hw
    exact h.running.trans hw
  | exited =>
    rw [hpc] at hw
    exact ⟨h.running.trans hw.1, h.written.trans (hw.2.trans h.printed.symm)⟩
  | _ => trivial

/-- It says nothing against clearing `running`. -/
theorem workerKnows_stop (hw : WorkerKnows e e.worker) :
    WorkerKnows { e with running := false } e.worker := by
  cases hpc : e.worker with
  | exited =>
    rw [hpc] at hw
    exact ⟨rfl, hw.2⟩
  | testHead => rfl
  | testTail hd => rfl
  | closing => rfl
  | _ => trivial

/-- A step of the worker keeps what its place says. -/
theorem workerKnows_workerStep (hw : WorkerKnows e e.worker) (hstep : workerStep e = some e') :
    WorkerKnows e' e'.worker := by
  unfold workerStep at hstep
  split at hstep
  · cases hstep
    dsimp only
    split
    · trivial
    · next hrunning => exact Bool.eq_false_iff.mpr hrunning
  · next hpc =>
    cases hstep
    rw [hpc] at hw
    exact hw
  · next hd hpc =>
    cases hstep
    rw [hpc] at hw
    dsimp only
    split
    · trivial
    · exact hw
  · cases hstep
    trivial
  · cases hstep
    dsimp only
    split <;> trivial
  · cases hstep
    trivial
  · cases hstep
    trivial
  · cases hstep
    dsimp only
    split <;> trivial
  · cases hstep
    trivial
  · next hpc =>
    cases hstep
    rw [hpc] at hw
    exact ⟨hw, rfl⟩
  · cases hstep

/-- A step of the worker leaves the threads alone, and it neither begins nor goes back. -/
theorem frame_workerStep (hstep : workerStep e = some e') :
    e'.threads = e.threads ∧ e'.tail = e.tail ∧ e'.running = e.running ∧
      e.worker ≠ .unborn ∧ e.worker ≠ .exited := by
  unfold workerStep at hstep
  split at hstep
  all_goals first
    | (next hpc => cases hstep; exact ⟨rfl, rfl, rfl, by rw [hpc]; nofun, by rw [hpc]; nofun⟩)
    | cases hstep

namespace ProcessInv

/-- `main` moves inside of `log_event`. -/
theorem inside (h : ProcessInv p) (hcalls : p.main.calls = true) (hrep : ∃ lo hi, Rep e lo hi)
    (hbeside : Beside p.engine e) : ProcessInv { p with engine := e } where
  rep := hrep
  fresh := fun hmain => by
    rw [show p.main = .setUp from hmain] at hcalls
    cases hcalls
  idle := fun hidle => by
    rw [show p.main.calls = false from hidle] at hcalls
    cases hcalls
  unborn := fun hmain => hbeside.worker.trans (h.unborn hmain)
  signalled := h.signalled
  stopped := fun hrunning => h.stopped (hbeside.running.symm.trans hrunning)
  worker := workerKnows_beside hbeside h.worker
  returned := fun hmain => hbeside.worker.trans (h.returned hmain)

/-- The worker moves. -/
theorem work (h : ProcessInv p) (hstep : workerStep p.engine = some e) :
    ProcessInv { p with engine := e } := by
  obtain ⟨lo, hi, hrep⟩ := h.rep
  obtain ⟨lo', hrep'⟩ := rep_workerStep hrep hstep
  obtain ⟨hthreads, -, hrunning, hunborn, hexited⟩ := frame_workerStep hstep
  exact
    { rep := ⟨lo', hi, hrep'⟩
      fresh := fun hmain => absurd (h.unborn (.inl hmain)) hunborn
      idle := fun hcalls => (congrFun hthreads 0).trans (h.idle hcalls)
      unborn := fun hmain => absurd (h.unborn hmain) hunborn
      signalled := h.signalled
      stopped := fun hstop => h.stopped (hrunning.symm.trans hstop)
      worker := workerKnows_workerStep h.worker hstep
      returned := fun hmain => absurd (h.returned hmain) hexited }

/-- `main` calls `log_event`. -/
theorem call (h : ProcessInv p) {c : Call} {m : MainPc} (hcalls : m.calls = true)
    (hstep : step p.engine (.call 0 c) = some e) (hmain : p.main = .greet ∨ p.main = .beat) :
    ProcessInv { p with engine := e, main := m } := by
  obtain ⟨lo, hi, hrep⟩ := h.rep
  have hrep' := rep_step hrep hstep
  have hbeside : Beside p.engine e := by
    dsimp only [step] at hstep
    split at hstep
    · cases hstep
      exact ⟨rfl, rfl, rfl, rfl, rfl⟩
    · cases hstep
  have hne : m ≠ .setUp ∧ m ≠ .create ∧ m ≠ .returned := by
    cases m with
    | greeting => exact ⟨nofun, nofun, nofun⟩
    | beating => exact ⟨nofun, nofun, nofun⟩
    | _ => cases hcalls
  exact
    { rep := hrep'
      fresh := fun hm => absurd hm hne.1
      idle := fun hidle => by
        rw [show m.calls = false from hidle] at hcalls
        cases hcalls
      unborn := fun hm => hm.elim (absurd · hne.1) (absurd · hne.2.1)
      signalled := h.signalled
      stopped := fun hrunning => by
        have hstopped := h.stopped (hbeside.running.symm.trans hrunning)
        rcases hmain with hmain | hmain
        · rw [hmain] at hstopped
          exact .inr (.inl (by simpa using hstopped))
        · rw [hmain] at hstopped
          exact .inr (.inl (by simpa using hstopped))
      worker := workerKnows_beside hbeside h.worker
      returned := fun hm => absurd hm hne.2.2 }

/-- `main` moves outside of `log_event`. -/
theorem goto (h : ProcessInv p) {m : MainPc} {counter : Int64}
    (hidle : p.engine.threads 0 = .idle) (hm : m = .test ∨ m = .beat ∨ m = .stop)
    (hmain : p.main ≠ .setUp ∧ p.main ≠ .join ∧ p.main ≠ .returned) :
    ProcessInv { p with counter := counter, main := m } where
  rep := h.rep
  fresh := fun hset => by
    rcases hm with rfl | rfl | rfl <;> cases hset
  idle := fun _ => hidle
  unborn := fun hset => by
    rcases hm with rfl | rfl | rfl <;> rcases hset with hset | hset <;> cases hset
  signalled := h.signalled
  stopped := fun hrunning => by
    have hstopped := h.stopped hrunning
    exact .inr (.inl (((hstopped.resolve_left hmain.1).resolve_right fun hend =>
      hend.elim hmain.2.1 hmain.2.2)))
  worker := h.worker
  returned := fun hset => by
    rcases hm with rfl | rfl | rfl <;> cases hset

/-- A step of `main`. -/
theorem main (h : ProcessInv p) (hstep : mainStep p = some p') : ProcessInv p' := by
  obtain ⟨lo, hi, hrep⟩ := h.rep
  unfold mainStep at hstep
  split at hstep
  · next hmain =>
    cases hstep
    -- the zeros are there already
    obtain ⟨hhead, htail, hlock⟩ := h.fresh hmain
    have hworker := h.unborn (.inl hmain)
    have hengine : { p.engine with head := 0, tail := 0, running := true, lock := false } =
        { p.engine with running := true } := by
      dsimp only
      rw [hhead, htail, hlock]
    rw [hengine]
    exact
      { rep := ⟨lo, hi, hrep.setRunning true⟩
        fresh := nofun
        idle := fun _ => h.idle (by rw [hmain]; rfl)
        unborn := fun _ => hworker
        signalled := h.signalled
        stopped := nofun
        worker := by
          dsimp only
          rw [hworker]
          trivial
        returned := nofun }
  · next hmain =>
    cases hstep
    have hworker := h.unborn (.inr hmain)
    have hrep' := hrep.work (w := .opening) trivial (by rw [hworker]; nofun) nofun
    exact
      { rep := ⟨lo, hi, hrep'⟩
        fresh := nofun
        idle := fun _ => h.idle (by rw [hmain]; rfl)
        unborn := nofun
        signalled := h.signalled
        stopped := fun hrunning => by
          have hstopped := h.stopped hrunning
          rw [hmain] at hstopped
          exact .inr (.inl (by simpa using hstopped))
        worker := trivial
        returned := nofun }
  · next hmain =>
    obtain ⟨e, he, rfl⟩ := Option.map_eq_some_iff.mp hstep
    exact h.call rfl he (.inl hmain)
  · next hmain =>
    split at hstep
    · next hidle =>
      cases hstep
      exact h.goto hidle (.inl rfl) (by rw [hmain]; exact ⟨nofun, nofun, nofun⟩)
    · cases hstep
  · next hmain =>
    have hidle := h.idle (by rw [hmain]; rfl)
    have hne : p.main ≠ .setUp ∧ p.main ≠ .join ∧ p.main ≠ .returned := by
      rw [hmain]
      exact ⟨nofun, nofun, nofun⟩
    split at hstep
    · cases hstep
      exact h.goto hidle (.inr (.inl rfl)) hne
    · cases hstep
      exact h.goto hidle (.inr (.inr rfl)) hne
  · next hmain =>
    obtain ⟨e, he, rfl⟩ := Option.map_eq_some_iff.mp hstep
    exact h.call rfl he (.inr hmain)
  · next hmain =>
    split at hstep
    · next hidle =>
      cases hstep
      exact h.goto hidle (.inl rfl) (by rw [hmain]; exact ⟨nofun, nofun, nofun⟩)
    · cases hstep
  · next hmain =>
    cases hstep
    exact
      { rep := ⟨lo, hi, hrep.setRunning false⟩
        fresh := nofun
        idle := fun _ => h.idle (by rw [hmain]; rfl)
        unborn := nofun
        signalled := h.signalled
        stopped := fun _ => .inr (.inr (.inl rfl))
        worker := workerKnows_stop h.worker
        returned := nofun }
  · next hmain =>
    split at hstep
    · next hexited =>
      cases hstep
      exact
        { rep := h.rep
          fresh := nofun
          idle := fun _ => h.idle (by rw [hmain]; rfl)
          unborn := nofun
          signalled := h.signalled
          stopped := fun _ => .inr (.inr (.inr rfl))
          worker := h.worker
          returned := fun _ => hexited }
    · cases hstep
  · cases hstep

end ProcessInv

/-- **What holds in every run.** -/
theorem inv_step {a : ProcessAct} (h : ProcessInv p) (hstep : processStep p a = some p') :
    ProcessInv p' := by
  obtain ⟨lo, hi, hrep⟩ := h.rep
  cases a with
  | main => exact h.main hstep
  | clock ts =>
    obtain ⟨e, he, rfl⟩ := Option.map_eq_some_iff.mp hstep
    have hrep' := rep_step hrep he
    dsimp only [step] at he
    split at he
    · next c hpc =>
      cases he
      refine h.inside ?_ hrep' ⟨rfl, rfl, rfl, rfl, rfl⟩
      by_contra hcalls
      rw [h.idle (Bool.not_eq_true _ ▸ hcalls)] at hpc
      cases hpc
    · cases he
  | log =>
    obtain ⟨e, he, rfl⟩ := Option.map_eq_some_iff.mp hstep
    refine h.inside ?_ (rep_step hrep he) (beside_threadStep he)
    by_contra hcalls
    exact ne_idle_of_threadStep he (h.idle (Bool.not_eq_true _ ▸ hcalls))
  | openFile =>
    obtain ⟨e, he, rfl⟩ := Option.map_eq_some_iff.mp hstep
    have hrep' := rep_step hrep he
    dsimp only [step] at he
    split at he
    · next hpc =>
      cases he
      exact
        { rep := hrep'
          fresh := h.fresh
          idle := h.idle
          unborn := fun hmain => absurd ((h.unborn hmain).symm.trans hpc) nofun
          signalled := h.signalled
          stopped := h.stopped
          worker := trivial
          returned := fun hmain => absurd ((h.returned hmain).symm.trans hpc) nofun }
    · cases he
  | worker =>
    obtain ⟨e, he, rfl⟩ := Option.map_eq_some_iff.mp hstep
    exact h.work he
  | signal =>
    cases hstep
    exact
      { rep := h.rep
        fresh := h.fresh
        idle := h.idle
        unborn := h.unborn
        signalled := fun _ => rfl
        stopped := fun _ => .inr (.inl rfl)
        worker := h.worker
        returned := h.returned }
  | clearRunning =>
    dsimp only [processStep] at hstep
    split at hstep
    · next hhandler =>
      cases hstep
      exact
        { rep := ⟨lo, hi, hrep.setRunning false⟩
          fresh := h.fresh
          idle := h.idle
          unborn := h.unborn
          signalled := fun _ => h.signalled hhandler
          stopped := fun _ => .inr (.inl (h.signalled hhandler))
          worker := workerKnows_stop h.worker
          returned := h.returned }
    · cases hstep

theorem inv_initProcess (memory : ℕ → Slot) : ProcessInv (initProcess memory) := by
  have hrep := ((rep_initEngine memory).work (w := .unborn) trivial nofun nofun).setRunning false
  exact
    { rep := ⟨0, 0, hrep⟩
      fresh := fun _ => ⟨rfl, rfl, rfl⟩
      idle := fun _ => rfl
      unborn := fun _ => rfl
      signalled := nofun
      stopped := fun _ => .inl rfl
      worker := trivial
      returned := nofun }

/-! ### Behind the loop of the worker -/

/-- The worker has left its loop. -/
def WorkerPc.past : WorkerPc → Bool
  | .closing => true
  | .exited => true
  | _ => false

/-- Behind its loop the worker has left nothing. -/
def Done (p : Process) : Prop :=
  p.engine.worker.past = true → p.engine.head = p.engine.tail ∧ p.logging = false

/-- The worker has left its loop, and an event is or will be left in the ring. -/
structure Lost (p : Process) : Prop where
  past : p.engine.worker.past = true
  left : p.engine.head = p.engine.tail → p.logging = true

theorem ne_unborn_of_past (h : e.worker.past = true) : e.worker ≠ .unborn := by
  intro hunborn
  rw [hunborn] at h
  cases h

/-- A thread that is not busy does not change that. -/
theorem quiet_threadStep (hstep : threadStep e i = some e') (hquiet : (e.threads i).busy = false) :
    e'.tail = e.tail ∧ (e'.threads i).busy = false := by
  cases hpc : e.threads i with
  | idle => exact absurd hpc (ne_idle_of_threadStep hstep)
  | unlock =>
    rw [threadStep, hpc] at hstep
    cases hstep
    refine ⟨rfl, ?_⟩
    rw [Engine.goto_self]
    rfl
  | _ =>
    rw [hpc] at hquiet
    cases hquiet

/-- A thread on its way to an event gets there, if the ring is empty. -/
theorem left_threadStep (h : Rep e lo hi) (hstep : threadStep e i = some e')
    (hleft : e.head = e.tail → (e.threads i).busy = true) :
    e'.head = e'.tail → (e'.threads i).busy = true := by
  have hbusy : ∀ {e : Engine} {q : Pc}, q.busy = true → ((e.goto i q).threads i).busy = true := by
    intro e q hq
    rw [Engine.goto_self]
    exact hq
  intro hempty
  unfold threadStep at hstep
  split at hstep
  · next hpc =>
    split at hstep
    · cases hstep
      rw [hpc]
      rfl
    · cases hstep
      exact hbusy rfl
  · cases hstep
    exact hbusy rfl
  · next c ts t hpc =>
    split at hstep
    · cases hstep
      exact hbusy rfl
    · next hfull =>
      -- an empty ring is not full
      cases hstep
      have ht := h.thread i
      rw [hpc] at ht
      obtain rfl : t = e.tail := ht
      have hzero : lo = hi := h.head_eq_tail_iff.mp hempty
      rw [h.distance, hzero, Nat.sub_self] at hfull
      exact absurd (show 0 < queueSize by decide) hfull
  · cases hstep
    exact hbusy rfl
  · next c ts t hpc =>
    -- now the ring has an event
    cases hstep
    have hinv := h.thread i
    rw [hpc] at hinv
    obtain ⟨rfl, hroom, -⟩ := hinv
    have hsame : lo % 2 ^ 64 = (hi + 1) % 2 ^ 64 := by
      rw [← h.head, ← addWord_mod, ← h.tail]
      exact hempty
    have hle := h.le
    have hsize : queueSize < 2 ^ 64 := by decide
    have heq := eq_of_mod_eq hsame (by omega) (by omega)
    omega
  · next hpc =>
    cases hstep
    have hbefore := hleft hempty
    rw [hpc] at hbefore
    cases hbefore
  · cases hstep

/-- How the worker gets behind its loop, and that it stays there. -/
theorem past_workerStep (hstep : workerStep e = some e') :
    (e.worker.past = true → e'.worker.past = true ∧ e'.head = e.head) ∧
      (e'.worker.past = true → e.worker.past = true ∨
        ∃ h, e.worker = .testTail h ∧ h = e.tail ∧ e'.head = e.head) := by
  unfold workerStep at hstep
  split at hstep
  case h_3 hd hpc =>
    cases hstep
    rw [hpc]
    refine ⟨nofun, fun hpast => .inr ⟨hd, rfl, ?_, rfl⟩⟩
    by_contra hne
    dsimp only at hpast
    rw [if_pos hne] at hpast
    cases hpast
  case h_10 hpc =>
    cases hstep
    rw [hpc]
    exact ⟨fun _ => ⟨rfl, rfl⟩, fun _ => .inl rfl⟩
  case h_11 => cases hstep
  all_goals
    next hpc =>
      cases hstep
      rw [hpc]
      refine ⟨nofun, fun hpast => ?_⟩
      dsimp only at hpast
      first
        | cases hpast
        | split at hpast <;> cases hpast

/-- Behind the loop of the worker, `main` does not set out to another event. -/
theorem logging_mainStep (h : ProcessInv p) (hpast : p.engine.worker.past = true)
    (hstep : mainStep p = some p') :
    p'.engine.head = p.engine.head ∧ p'.engine.tail = p.engine.tail ∧
      p'.engine.worker = p.engine.worker ∧ p'.logging = p.logging := by
  have hborn := ne_unborn_of_past hpast
  -- the two calls of `log_event`
  have hcall : ∀ {c : Call} {m : MainPc} {e : Engine}, m.calls = true → p.logging = true →
      step p.engine (.call 0 c) = some e →
      e.head = p.engine.head ∧ e.tail = p.engine.tail ∧ e.worker = p.engine.worker ∧
        { p with engine := e, main := m }.logging = p.logging := by
    intro c m e hm hlogging he
    dsimp only [step] at he
    split at he
    · cases he
      refine ⟨rfl, rfl, rfl, ?_⟩
      have hself := Engine.goto_self p.engine 0 (.clock c)
      rw [hlogging, Process.logging]
      cases m with
      | greeting => exact congrArg Pc.busy hself
      | beating => exact congrArg Pc.busy hself
      | _ => cases hm
    · cases he
  unfold mainStep at hstep
  split at hstep
  · next hmain => exact absurd (h.unborn (.inl hmain)) hborn
  · next hmain => exact absurd (h.unborn (.inr hmain)) hborn
  · next hmain =>
    obtain ⟨e, he, rfl⟩ := Option.map_eq_some_iff.mp hstep
    exact hcall rfl (by rw [Process.logging, hmain]) he
  · next hmain =>
    split at hstep
    · next hidle =>
      cases hstep
      refine ⟨rfl, rfl, rfl, ?_⟩
      rw [Process.logging, Process.logging, hmain, hidle]
      rfl
    · cases hstep
  · next hmain =>
    -- the worker has seen `running` cleared, and so `keep_running` is
    have hrunning : p.engine.running = false := by
      have hknows := h.worker
      cases hw : p.engine.worker with
      | closing =>
        rw [hw] at hknows
        exact hknows
      | exited =>
        rw [hw] at hknows
        exact hknows.1
      | _ =>
        rw [hw] at hpast
        cases hpast
    have hkeep : p.keepRunning = false := by
      have hstopped := h.stopped hrunning
      rw [hmain] at hstopped
      simpa using hstopped
    rw [hkeep] at hstep
    cases hstep
    refine ⟨rfl, rfl, rfl, ?_⟩
    rw [Process.logging, Process.logging, hmain]
  · next hmain =>
    obtain ⟨e, he, rfl⟩ := Option.map_eq_some_iff.mp hstep
    exact hcall rfl (by rw [Process.logging, hmain]) he
  · next hmain =>
    split at hstep
    · next hidle =>
      cases hstep
      refine ⟨rfl, rfl, rfl, ?_⟩
      rw [Process.logging, Process.logging, hmain, hidle]
      rfl
    · cases hstep
  · next hmain =>
    cases hstep
    refine ⟨rfl, rfl, rfl, ?_⟩
    rw [Process.logging, Process.logging, hmain]
  · next hmain =>
    split at hstep
    · cases hstep
      refine ⟨rfl, rfl, rfl, ?_⟩
      rw [Process.logging, Process.logging, hmain]
    · cases hstep
  · cases hstep

/-- Inside of `log_event` the thread of `main` says whether an event is on its way. -/
theorem logging_of_calls (p : Process) (h : p.main.calls = true) :
    p.logging = (p.engine.threads 0).busy := by
  rw [Process.logging]
  cases hmain : p.main with
  | greeting => rfl
  | beating => rfl
  | _ =>
    rw [hmain] at h
    cases h

/-- A thread that moves is in a call of `main`. -/
theorem ProcessInv.calls (h : ProcessInv p) (hbusy : p.engine.threads 0 ≠ .idle) :
    p.main.calls = true := by
  by_contra hcalls
  exact hbusy (h.idle (Bool.not_eq_true _ ▸ hcalls))

/-- Whether an event is on its way depends on `main` and its thread. -/
theorem logging_congr (h : e.threads 0 = p.engine.threads 0) :
    { p with engine := e }.logging = p.logging := by
  rw [Process.logging, Process.logging]
  dsimp only
  rw [h]

/-- `main` creates the worker, and does nothing else to it. -/
theorem worker_mainStep (hstep : mainStep p = some p') (hpast : p'.engine.worker.past = true) :
    p.engine.worker.past = true := by
  have hcall : ∀ {c : Call} {e : Engine}, step p.engine (.call 0 c) = some e →
      e.worker = p.engine.worker := by
    intro c e he
    dsimp only [step] at he
    split at he
    · cases he
      rfl
    · cases he
  unfold mainStep at hstep
  split at hstep
  · cases hstep
    exact hpast
  · cases hstep
    cases hpast
  · obtain ⟨e, he, rfl⟩ := Option.map_eq_some_iff.mp hstep
    rw [← hcall he]
    exact hpast
  · split at hstep
    · cases hstep
      exact hpast
    · cases hstep
  · split at hstep
    · cases hstep
      exact hpast
    · cases hstep
      exact hpast
  · obtain ⟨e, he, rfl⟩ := Option.map_eq_some_iff.mp hstep
    rw [← hcall he]
    exact hpast
  · split at hstep
    · cases hstep
      exact hpast
    · cases hstep
  · cases hstep
    exact hpast
  · split at hstep
    · cases hstep
      exact hpast
    · cases hstep
  · cases hstep

/-- Under the condition the worker leaves nothing. -/
theorem done_step {a : ProcessAct} (h : ProcessInv p) (hdone : Done p) (hok : Drained p a)
    (hstep : processStep p a = some p') : Done p' := by
  intro hpast
  cases a with
  | main =>
    have hbefore := worker_mainStep hstep hpast
    obtain ⟨hhead, htail, -, hlogging⟩ := logging_mainStep h hbefore hstep
    rw [hhead, htail, hlogging]
    exact hdone hbefore
  | clock ts =>
    obtain ⟨e, he, rfl⟩ := Option.map_eq_some_iff.mp hstep
    dsimp only [step] at he
    split at he
    · next c hpc =>
      -- the thread is busy
      cases he
      have hquiet := (hdone hpast).2
      rw [logging_of_calls p (h.calls (by rw [hpc]; nofun)), hpc] at hquiet
      cases hquiet
    · cases he
  | log =>
    obtain ⟨e, he, rfl⟩ := Option.map_eq_some_iff.mp hstep
    have hbeside := beside_threadStep he
    have hcalls := h.calls (ne_idle_of_threadStep he)
    have hbefore : p.engine.worker.past = true := hbeside.worker ▸ hpast
    obtain ⟨hempty, hquiet⟩ := hdone hbefore
    rw [logging_of_calls p hcalls] at hquiet
    obtain ⟨htail, hquiet'⟩ := quiet_threadStep he hquiet
    refine ⟨?_, (logging_of_calls { p with engine := e } hcalls).trans hquiet'⟩
    dsimp only
    rw [hbeside.head, htail, hempty]
  | openFile =>
    obtain ⟨e, he, rfl⟩ := Option.map_eq_some_iff.mp hstep
    dsimp only [step] at he
    split at he
    · cases he
      cases hpast
    · cases he
  | worker =>
    obtain ⟨e, he, rfl⟩ := Option.map_eq_some_iff.mp hstep
    obtain ⟨hstay, hleave⟩ := past_workerStep he
    obtain ⟨hthreads, htail, -⟩ := frame_workerStep he
    have hsame := logging_congr (congrFun hthreads 0)
    dsimp only
    rw [hsame, htail]
    rcases hleave hpast with hbefore | ⟨hd, hpc, heq, hhead⟩
    · rw [(hstay hbefore).2]
      exact hdone hbefore
    · obtain ⟨lo, hi, hrep⟩ := h.rep
      have hworker := hrep.worker
      rw [hpc] at hworker
      have hhd : hd = p.engine.head := hworker
      rw [hhead, ← hhd]
      exact ⟨heq, hok hd hpc heq⟩
  | signal =>
    cases hstep
    exact hdone hpast
  | clearRunning =>
    dsimp only [processStep] at hstep
    split at hstep
    · cases hstep
      exact hdone hpast
    · cases hstep

/-- An event that is lost stays so. -/
theorem lost_step {a : ProcessAct} (h : ProcessInv p) (hlost : Lost p)
    (hstep : processStep p a = some p') : Lost p' := by
  obtain ⟨hpast, hleft⟩ := hlost
  cases a with
  | main =>
    obtain ⟨hhead, htail, hworker, hlogging⟩ := logging_mainStep h hpast hstep
    refine ⟨hworker ▸ hpast, ?_⟩
    rw [hhead, htail, hlogging]
    exact hleft
  | clock ts =>
    obtain ⟨e, he, rfl⟩ := Option.map_eq_some_iff.mp hstep
    dsimp only [step] at he
    split at he
    · next c hpc =>
      cases he
      have hcalls := h.calls (by rw [hpc]; nofun)
      have hself := Engine.goto_self p.engine 0 (.spin c ts)
      refine ⟨hpast, fun _ => ?_⟩
      rw [logging_of_calls { p with engine := p.engine.goto 0 (.spin c ts) } hcalls, hself]
      rfl
    · cases he
  | log =>
    obtain ⟨e, he, rfl⟩ := Option.map_eq_some_iff.mp hstep
    obtain ⟨lo, hi, hrep⟩ := h.rep
    have hbeside := beside_threadStep he
    have hcalls := h.calls (ne_idle_of_threadStep he)
    rw [logging_of_calls p hcalls] at hleft
    refine ⟨?_, fun hempty => ?_⟩
    · dsimp only
      rw [hbeside.worker]
      exact hpast
    · rw [logging_of_calls { p with engine := e } hcalls]
      exact left_threadStep hrep he hleft hempty
  | openFile =>
    obtain ⟨e, he, rfl⟩ := Option.map_eq_some_iff.mp hstep
    dsimp only [step] at he
    split at he
    · next hpc =>
      rw [hpc] at hpast
      cases hpast
    · cases he
  | worker =>
    obtain ⟨e, he, rfl⟩ := Option.map_eq_some_iff.mp hstep
    obtain ⟨hpast', hhead⟩ := (past_workerStep he).1 hpast
    obtain ⟨hthreads, htail, -⟩ := frame_workerStep he
    refine ⟨hpast', ?_⟩
    rw [logging_congr (congrFun hthreads 0)]
    dsimp only
    rw [hhead, htail]
    exact hleft
  | signal =>
    cases hstep
    exact ⟨hpast, hleft⟩
  | clearRunning =>
    dsimp only [processStep] at hstep
    split at hstep
    · cases hstep
      exact ⟨hpast, hleft⟩
    · cases hstep

/-- The worker that leaves while an event is on its way loses it. -/
theorem lost_of_not_drained {a : ProcessAct} (hok : ¬Drained p a)
    (hstep : processStep p a = some p') : Lost p' := by
  cases a with
  | worker =>
    obtain ⟨e, he, rfl⟩ := Option.map_eq_some_iff.mp hstep
    rw [Drained] at hok
    push Not at hok
    obtain ⟨hd, hpc, heq, hlogging⟩ := hok
    obtain ⟨hthreads, -⟩ := frame_workerStep he
    rw [Bool.ne_false_iff] at hlogging
    refine ⟨?_, fun _ => (logging_congr (congrFun hthreads 0)).trans hlogging⟩
    have hworker : step p.engine .worker = workerStep p.engine := rfl
    rw [hworker, workerStep, hpc] at he
    dsimp only at he
    rw [if_neg (not_not_intro heq)] at he
    cases he
    rfl
  | _ => exact absurd trivial hok

/-! ### The end -/

/-- With nothing left, the file holds what was accepted. -/
theorem ProcessInv.written_of_done (h : ProcessInv p) (hdone : Done p)
    (hmain : p.main = .returned) : p.engine.written = p.engine.accepted := by
  obtain ⟨lo, hi, hrep⟩ := h.rep
  have hexited := h.returned hmain
  have hknows := h.worker
  rw [hexited] at hknows
  have hempty := (hdone (by rw [hexited]; rfl)).1
  have hlog := hrep.log
  rw [taken_eq_nil (by rw [hexited]; nofun), hrep.head_eq_tail_iff.mp hempty, window_self,
    List.append_nil, List.append_nil] at hlog
  exact hknows.2.trans hlog

/-- With an event lost, it does not. -/
theorem ProcessInv.written_of_lost (h : ProcessInv p) (hlost : Lost p)
    (hmain : p.main = .returned) : p.engine.written ≠ p.engine.accepted := by
  intro heq
  obtain ⟨lo, hi, hrep⟩ := h.rep
  have hexited := h.returned hmain
  have hknows := h.worker
  rw [hexited] at hknows
  have hne : p.engine.head ≠ p.engine.tail := by
    intro hempty
    have hlogging := hlost.left hempty
    rw [Process.logging, hmain] at hlogging
    cases hlogging
  have hlog := hrep.log
  rw [taken_eq_nil (by rw [hexited]; nofun), List.append_nil, ← heq, hknows.2,
    List.append_right_eq_self] at hlog
  have hlen := congrArg List.length hlog
  rw [length_window, List.length_nil] at hlen
  have hle := hrep.le
  exact hne (hrep.head_eq_tail_iff.mpr (by omega))

/-- A run from a state where nothing is lost. -/
theorem written_iff_of_path {q : Process} {as : List ProcessAct}
    (h : process.Path Machine.free p as q) (hinv : ProcessInv p) (hdone : Done p)
    (hmain : q.main = .returned) :
    q.engine.written = q.engine.accepted ↔ process.Path Drained p as q := by
  induction h with
  | nil =>
    exact ⟨fun _ => .nil _, fun _ => hinv.written_of_done hdone hmain⟩
  | @cons p t q a as _ hstep hrest ih =>
    have hinv' : ProcessInv t := inv_step hinv hstep
    by_cases hok : Drained p a
    · have hrest_iff := ih hinv' (done_step hinv hdone hok hstep) hmain
      constructor
      · intro hwritten
        exact .cons hok hstep (hrest_iff.mp hwritten)
      · intro hpath
        obtain ⟨t', -, hstep', hrest'⟩ := hpath.head
        obtain rfl : t = t' := Option.some.inj (hstep.symm.trans hstep')
        exact hrest_iff.mpr hrest'
    · -- the event is lost here, and the run does not meet the condition
      obtain ⟨hinvq, hlost⟩ := hrest.invariant (P := fun u => ProcessInv u ∧ Lost u)
        (fun u b v hu _ hst => ⟨inv_step hu.1 hst, lost_step hu.1 hu.2 hst⟩)
        ⟨hinv', lost_of_not_drained hok hstep⟩
      refine iff_of_false (hinvq.written_of_lost hlost hmain) fun hpath => ?_
      obtain ⟨-, hok', -⟩ := hpath.head
      exact hok hok'

/-- **When `main` returns, the file holds every accepted event exactly if the worker did not
leave while one was on its way.** -/
theorem shutdown_iff {memory : ℕ → Slot} {as : List ProcessAct}
    (h : process.Path Machine.free (initProcess memory) as p) (hmain : p.main = .returned) :
    p.engine.written = p.engine.accepted ↔ process.Path Drained (initProcess memory) as p :=
  written_iff_of_path h (inv_initProcess memory) nofun hmain

/-- `main` up to the given step of its first call of `log_event`. -/
def firstCall (steps : ℕ) : List ProcessAct :=
  [.main, .main, .openFile, .main, .clock 5] ++ List.replicate steps .log

/-- A signal at `main`'s test: the worker takes the event out, prints it and leaves. -/
def signalAtTest : List ProcessAct :=
  firstCall 97 ++ [.main, .signal, .clearRunning, .main, .main] ++ List.replicate 157 .worker ++
    [.main]

theorem shutdown_signalAtTest :
    ∃ p, process.Path Machine.free (initProcess fun _ => .blank) signalAtTest p ∧
      p.engine.accepted.length = 1 ∧ (p.engine.written = p.engine.accepted ↔
        process.Path Drained (initProcess fun _ => .blank) signalAtTest p) := by
  have hexec : (process.exec (fun _ _ => true) (initProcess fun _ => .blank) signalAtTest).map
      (fun p => (p.main, p.engine.accepted.length)) = some (.returned, 1) := by
    decide +kernel
  obtain ⟨p, hp, hend⟩ := Machine.exists_path_of_exec hexec
  obtain ⟨hmain, hlen⟩ := Prod.mk.inj hend
  have hpath : process.Path Machine.free (initProcess fun _ => .blank) signalAtTest p :=
    hp.mono fun _ _ _ => trivial
  exact ⟨p, hpath, hlen, shutdown_iff hpath hmain⟩

/-- A signal just before the store to `tail`: the worker finds nothing and leaves. -/
def signalAtTail : List ProcessAct :=
  firstCall 95 ++ [.signal, .clearRunning, .worker, .worker, .worker, .worker, .log, .log,
    .main, .main, .main, .main]

/-- A signal inside of `log_event` loses the event. -/
theorem last_event_is_lost :
    ¬∀ (memory : ℕ → Slot) (as : List ProcessAct) (p : Process),
      process.Path Machine.free (initProcess memory) as p → p.main = .returned →
        p.engine.written = p.engine.accepted := by
  intro hclaim
  have hexec : (process.exec (fun _ _ => true) (initProcess fun _ => .blank) signalAtTail).map
      (fun p => (p.main, p.engine.written.length, p.engine.accepted.length)) =
        some (.returned, 0, 1) := by
    decide +kernel
  obtain ⟨p, hp, hend⟩ := Machine.exists_path_of_exec hexec
  obtain ⟨hmain, hlen⟩ := Prod.mk.inj hend
  obtain ⟨hwritten, haccepted⟩ := Prod.mk.inj hlen
  have heq := hclaim _ _ p (hp.mono fun _ _ _ => trivial) hmain
  rw [heq, haccepted] at hwritten
  cases hwritten

end Logger
end SovereignSeed
