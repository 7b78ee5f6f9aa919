import SovereignSeed.Logger.Dashboard

/-!
# The live benchmark

`src/live_bench.c`: the queue of `engine.c` with a `main` that waits where `log_event` drops.
On a full ring `main` gives the lock back, yields, and takes it again before it looks at the
counters once more.  Behind its loop it waits until the two counters are equal, clears
`running` and joins the worker; the worker is the one of `engine.c` with larger batches.

Nobody but `main` stores to `tail`, so it does not matter that C leaves the order of the loads
in `head != tail` open.

## Main definitions

* `tick` — the event of a round.
* `LiveBench`, `liveStep`, `liveMachine` — the whole program.
* `LiveInv` — the invariant: the ring has taken the ticks of all rounds that are over.

## Main results

* `liveInv_of_reachable` — the invariant holds in every reachable state.
* `live_bench_complete` — **every tick gets into the file once and in order, the dashboards
  never see anything else, and `main` returns only when all of them are there.**
-/

namespace SovereignSeed
namespace Logger

open Python Python.Json

/-! ### The program -/

/-- `TOTAL_EVENTS`. -/
def totalEvents : ℕ := 5000000

/-- `BATCH_FLUSH_COUNT` of the benchmark. -/
def liveBatchFlushCount : ℕ := 4096

theorem tickLevel_noNul : 0 ∉ "DEBUG".toUTF8.data.toList := by decide

theorem tickMsg_noNul : 0 ∉ "Arbitrage ring buffer saturation tick".toUTF8.data.toList := by
  decide

/-- What round `i` stores to its slot: two calls of `memcpy` copy strings with their nulls. -/
def tickCall (i : ℕ) : Call where
  level := ⟨"DEBUG".toUTF8.data.toList, tickLevel_noNul⟩
  msg := ⟨"Arbitrage ring buffer saturation tick".toUTF8.data.toList, tickMsg_noNul⟩
  sequence := .ofNat i

/-- The event of round `i`, which has read `ns i` off the clock. -/
def tick (ns : ℕ → Int64) (i : ℕ) : Event := (tickCall i).record (ns i)

/-- Where `main` is. -/
inductive LivePc
  /-- About to test `i <= TOTAL_EVENTS`. -/
  | test (i : ℕ)
  /-- About to read the clock. -/
  | clock (i : ℕ)
  /-- On its way into the ring; where exactly, the engine says. -/
  | putting (i : ℕ)
  /-- The ring was full: about to clear the lock. -/
  | full (i : ℕ)
  /-- In `sched_yield`, without the lock. -/
  | yielding (i : ℕ)
  /-- Behind the loop, about to load `head`. -/
  | waitHead
  /-- About to load `tail`. -/
  | waitTail (h : ℕ)
  /-- In `usleep`. -/
  | sleeping
  /-- About to clear `running`. -/
  | stopping
  /-- Waiting for the worker. -/
  | joining
  | returned
  deriving DecidableEq

/-- The program: the queue with its worker, and `main`, which is thread 0. -/
structure LiveBench where
  engine : Engine
  main : LivePc

/-- What happens next. -/
inductive LiveAct
  /-- `main` takes a step. -/
  | main
  /-- The worker opens the file, or fails to. -/
  | openFile (ok : Bool)
  /-- The worker takes a step. -/
  | worker

/-- The next step of `main`, given its clock readings. -/
def liveMainStep (total : ℕ) (ns : ℕ → Int64) (s : LiveBench) : Option LiveBench :=
  match s.main with
  | .test i => some { s with main := if i ≤ total then .clock i else .waitHead }
  | .clock i =>
    some { s with engine := s.engine.goto 0 (.spin (tickCall i) (ns i)), main := .putting i }
  | .putting i =>
    match s.engine.threads 0 with
    | .idle => some { s with main := .test (i + 1) }
    | .loadHead c ts t =>
      if queueSize ≤ subWord 64 t s.engine.head then
        some { s with engine := s.engine.goto 0 .unlock, main := .full i }
      else some { s with engine := s.engine.goto 0 (.write c ts t (c.stores ts)) }
    | _ => (threadStep s.engine 0).map fun e => { s with engine := e }
  | .full i => (threadStep s.engine 0).map fun e => { s with engine := e, main := .yielding i }
  | .yielding i =>
    some { s with engine := s.engine.goto 0 (.spin (tickCall i) (ns i)), main := .putting i }
  | .waitHead => some { s with main := .waitTail s.engine.head }
  | .waitTail h => some { s with main := if h = s.engine.tail then .stopping else .sleeping }
  | .sleeping => some { s with main := .waitHead }
  | .stopping => some { s with engine := { s.engine with running := false }, main := .joining }
  | .joining =>
    match s.engine.worker with
    | .exited => some { s with main := .returned }
    | _ => none
  | .returned => none

/-- The next step of `logger_worker`: that of `engine.c`, but for the size of a batch. -/
def liveWorkerStep (s : Engine) : Option Engine :=
  match s.worker with
  | .print event =>
    some { s with
      printed := s.printed ++ [event.event]
      unflushedCount := s.unflushedCount + 1
      worker := if liveBatchFlushCount ≤ s.unflushedCount + 1 then .flush else .testRunning }
  | _ => workerStep s

/-- A step of the program. -/
def liveStep (total : ℕ) (ns : ℕ → Int64) (s : LiveBench) : LiveAct → Option LiveBench
  | .main => liveMainStep total ns s
  | .openFile ok => (step s.engine (.openFile ok)).map fun e => { s with engine := e }
  | .worker => (liveWorkerStep s.engine).map fun e => { s with engine := e }

/-- The program for some number of events, under every interleaving of `main` and the worker. -/
def liveMachine (total : ℕ) (ns : ℕ → Int64) : Machine LiveBench LiveAct where
  init s := ∃ memory, s = ⟨initEngine memory, .test 1⟩
  step := liveStep total ns

/-! ### The invariant -/

/-- The rounds whose event is in the ring. -/
def LiveBench.issued (total : ℕ) (s : LiveBench) : ℕ :=
  match s.main with
  | .test i => i - 1
  | .clock i => i - 1
  | .putting i => if (s.engine.threads 0).busy then i - 1 else i
  | .full i => i - 1
  | .yielding i => i - 1
  | _ => total

/-- What `main` is putting into the ring. -/
def Puts (ns : ℕ → Int64) (i : ℕ) : Pc → Prop
  | .spin c ts => c = tickCall i ∧ ts = ns i
  | .loadTail c ts => c = tickCall i ∧ ts = ns i
  | .loadHead c ts _ => c = tickCall i ∧ ts = ns i
  | .write c ts _ _ => c = tickCall i ∧ ts = ns i
  | .clock _ => False
  | _ => True

/-- What `main` knows at its place. -/
def MainKnows (total : ℕ) (ns : ℕ → Int64) (e : Engine) : LivePc → Prop
  | .test i => e.threads 0 = .idle ∧ 1 ≤ i ∧ i ≤ total + 1
  | .clock i => e.threads 0 = .idle ∧ 1 ≤ i ∧ i ≤ total
  | .putting i => Puts ns i (e.threads 0) ∧ 1 ≤ i ∧ i ≤ total
  | .full i => e.threads 0 = .unlock ∧ 1 ≤ i ∧ i ≤ total
  | .yielding i => e.threads 0 = .idle ∧ 1 ≤ i ∧ i ≤ total
  | .waitTail h => h = e.tail → e.head = e.tail
  | .stopping => e.head = e.tail
  | .joining => e.head = e.tail
  | .returned => e.head = e.tail ∧ e.worker = .exited
  | _ => True

/-- `main` has cleared `running`. -/
def LivePc.stopped : LivePc → Bool
  | .joining => true
  | .returned => true
  | _ => false

/-- What the worker's place says: it leaves once `running` is cleared, with everything flushed,
or right away. -/
def LeftKnows (e : Engine) : WorkerPc → Prop
  | .testHead => e.running = false
  | .testTail _ => e.running = false
  | .closing => e.running = false
  | .exited => (e.running = false ∧ e.written = e.printed) ∨ e.printed = []
  | _ => True

/-- The invariant. -/
structure LiveInv (total : ℕ) (ns : ℕ → Int64) (s : LiveBench) : Prop where
  rep : ∃ lo hi, Rep s.engine lo hi
  accepted : s.engine.accepted = (List.range (s.issued total)).map fun i => tick ns (i + 1)
  main : MainKnows total ns s.engine s.main
  alone : ∀ j, j ≠ 0 → s.engine.threads j = .idle
  running : s.engine.running = false → s.main.stopped = true
  worker : LeftKnows s.engine s.engine.worker
  flushed : s.engine.written <+: s.engine.printed
  /-- A worker that has not opened the file has printed nothing. -/
  unopened : s.engine.worker = .opening → s.engine.printed = []

section Steps

variable {total i : ℕ} {ns : ℕ → Int64} {e e' : Engine} {s s' : LiveBench} {lo hi : ℕ}

/-- A step of `main` on its way into the ring: it stays on its way, or the event is in. -/
theorem puts_threadStep (hputs : Puts ns i (e.threads 0)) (hstep : threadStep e 0 = some e')
    (hfull : ∀ c ts t, e.threads 0 = .loadHead c ts t → subWord 64 t e.head < queueSize) :
    Puts ns i (e'.threads 0) ∧ (∀ j, j ≠ 0 → e'.threads j = e.threads j) ∧
      (((e'.threads 0).busy = (e.threads 0).busy ∧ e'.accepted = e.accepted) ∨
        ((e.threads 0).busy = true ∧ (e'.threads 0).busy = false ∧
          e'.accepted = e.accepted ++ [tick ns i])) := by
  unfold threadStep at hstep
  split at hstep
  · next c ts hpc =>
    split at hstep
    · cases hstep
      exact ⟨hputs, fun _ _ => rfl, .inl ⟨rfl, rfl⟩⟩
    · cases hstep
      rw [hpc] at hputs ⊢
      rw [Engine.goto_self]
      exact ⟨hputs, fun j hj => Engine.goto_of_ne _ hj _, .inl ⟨rfl, rfl⟩⟩
  · next c ts hpc =>
    cases hstep
    rw [hpc] at hputs ⊢
    rw [Engine.goto_self]
    exact ⟨hputs, fun j hj => Engine.goto_of_ne _ hj _, .inl ⟨rfl, rfl⟩⟩
  · next c ts t hpc =>
    rw [if_pos (hfull c ts t hpc)] at hstep
    cases hstep
    rw [hpc] at hputs ⊢
    rw [Engine.goto_self]
    exact ⟨hputs, fun j hj => Engine.goto_of_ne _ hj _, .inl ⟨rfl, rfl⟩⟩
  · next c ts t w todo hpc =>
    cases hstep
    rw [hpc] at hputs ⊢
    rw [Engine.goto_self]
    exact ⟨hputs, fun j hj => Engine.goto_of_ne _ hj _, .inl ⟨rfl, rfl⟩⟩
  · next c ts t hpc =>
    cases hstep
    rw [hpc] at hputs ⊢
    rw [Engine.goto_self]
    obtain ⟨rfl, rfl⟩ := hputs
    exact ⟨trivial, fun j hj => Engine.goto_of_ne _ hj _, .inr ⟨rfl, rfl, rfl⟩⟩
  · next hpc =>
    cases hstep
    rw [hpc]
    rw [Engine.goto_self]
    exact ⟨trivial, fun j hj => Engine.goto_of_ne _ hj _, .inl ⟨rfl, rfl⟩⟩
  · cases hstep

/-- What a step of the worker leaves alone, and what it keeps. -/
structure Works (e e' : Engine) : Prop where
  threads : e'.threads = e.threads
  tail : e'.tail = e.tail
  running : e'.running = e.running
  accepted : e'.accepted = e.accepted
  inside : e.worker ≠ .exited ∧ e'.worker ≠ .opening
  left : LeftKnows e e.worker → LeftKnows e' e'.worker
  flushed : e.written <+: e.printed → e'.written <+: e'.printed

theorem works_of_workerStep (hstep : workerStep e = some e') : Works e e' := by
  unfold workerStep at hstep
  split at hstep
  · next hw =>
    cases hstep
    refine ⟨rfl, rfl, rfl, rfl, ⟨by rw [hw]; nofun, ?_⟩, fun _ => ?_, id⟩
    · dsimp only
      split <;> nofun
    · dsimp only
      split
      · trivial
      · next hrunning => exact Bool.eq_false_iff.mpr hrunning
  · next hw =>
    cases hstep
    exact ⟨rfl, rfl, rfl, rfl, ⟨by rw [hw]; nofun, nofun⟩, fun h => by rw [hw] at h; exact h, id⟩
  · next hd hw =>
    cases hstep
    refine ⟨rfl, rfl, rfl, rfl, ⟨by rw [hw]; nofun, ?_⟩, fun h => ?_, id⟩
    · dsimp only
      split <;> nofun
    · rw [hw] at h
      dsimp only
      split
      · trivial
      · exact h
  · next hw =>
    cases hstep
    exact ⟨rfl, rfl, rfl, rfl, ⟨by rw [hw]; nofun, nofun⟩, fun _ => trivial, id⟩
  · next hd hw =>
    cases hstep
    refine ⟨rfl, rfl, rfl, rfl, ⟨by rw [hw]; nofun, ?_⟩, fun _ => ?_, id⟩
    · dsimp only
      split <;> nofun
    · dsimp only
      split <;> trivial
  · next hw =>
    cases hstep
    exact ⟨rfl, rfl, rfl, rfl, ⟨by rw [hw]; nofun, nofun⟩, fun _ => trivial, id⟩
  · next hw =>
    cases hstep
    exact ⟨rfl, rfl, rfl, rfl, ⟨by rw [hw]; nofun, nofun⟩, fun _ => trivial, id⟩
  · next event hw =>
    cases hstep
    refine ⟨rfl, rfl, rfl, rfl, ⟨by rw [hw]; nofun, ?_⟩, fun _ => ?_,
      fun h => h.trans (List.prefix_append _ _)⟩
    · dsimp only
      split <;> nofun
    · dsimp only
      split <;> trivial
  · next hw =>
    cases hstep
    exact ⟨rfl, rfl, rfl, rfl, ⟨by rw [hw]; nofun, nofun⟩, fun _ => trivial,
      fun _ => List.prefix_rfl⟩
  · next hw =>
    cases hstep
    exact ⟨rfl, rfl, rfl, rfl, ⟨by rw [hw]; nofun, nofun⟩,
      fun h => by rw [hw] at h; exact .inl ⟨h, rfl⟩,
      fun _ => List.prefix_rfl⟩
  · cases hstep

/-- Nothing is taken out of an empty ring. -/
theorem head_workerStep (hrep : Rep e lo hi) (hstep : workerStep e = some e')
    (hempty : e.head = e.tail) : e'.head = e.head := by
  have hinv := hrep.worker
  unfold workerStep at hstep
  split at hstep
  case h_7 hd event hw =>
    -- a worker that is done with a copy has found an event
    rw [hw] at hinv
    have hlt : lo < hi := hinv.2.1
    rw [hrep.head_eq_tail_iff] at hempty
    omega
  all_goals
    cases hstep
    try rfl

/-- **A step of the worker of the benchmark.** -/
theorem works_of_liveWorkerStep (hrep : Rep e lo hi) (hstep : liveWorkerStep e = some e') :
    (∃ lo', Rep e' lo' hi) ∧ Works e e' ∧ (e.head = e.tail → e'.head = e.head) := by
  unfold liveWorkerStep at hstep
  split at hstep
  · next event hw =>
    cases hstep
    refine ⟨⟨lo, hrep.printed hw _ ?_ ?_⟩, ⟨rfl, rfl, rfl, rfl, ⟨by rw [hw]; nofun, ?_⟩,
      fun _ => ?_, fun h => h.trans (List.prefix_append _ _)⟩, fun _ => rfl⟩
    · split <;> trivial
    · split <;> nofun
    · dsimp only
      split <;> nofun
    · dsimp only
      split <;> trivial
  · exact ⟨rep_workerStep hrep hstep, works_of_workerStep hstep, head_workerStep hrep hstep⟩

namespace LiveInv

/-- A worker's step. -/
theorem work (h : LiveInv total ns s) (hstep : liveWorkerStep s.engine = some e) :
    LiveInv total ns { s with engine := e } := by
  obtain ⟨lo, hi, hrep⟩ := h.rep
  obtain ⟨⟨lo', hrep'⟩, hworks, hhead⟩ := works_of_liveWorkerStep hrep hstep
  have hempty : s.engine.head = s.engine.tail → e.head = e.tail := fun heq => by
    rw [hhead heq, hworks.tail, heq]
  refine ⟨⟨lo', hi, hrep'⟩, ?_, ?_, fun j hj => ?_, fun hrun => ?_, hworks.left h.worker,
    hworks.flushed h.flushed, fun hopening => absurd hopening hworks.inside.2⟩
  · have haccepted := h.accepted
    simp only [LiveBench.issued, hworks.threads, hworks.accepted] at haccepted ⊢
    exact haccepted
  · have hmain := h.main
    dsimp only
    cases hm : s.main with
    | waitTail hd =>
      rw [hm] at hmain
      exact fun heq => hempty (hmain (heq.trans hworks.tail))
    | stopping =>
      rw [hm] at hmain
      exact hempty hmain
    | joining =>
      rw [hm] at hmain
      exact hempty hmain
    | returned =>
      rw [hm] at hmain
      exact absurd hmain.2 hworks.inside.1
    | waitHead => trivial
    | sleeping => trivial
    | _ =>
      rw [hm] at hmain
      simpa only [MainKnows, hworks.threads] using hmain
  · rw [hworks.threads]
    exact h.alone j hj
  · exact h.running (hworks.running ▸ hrun)

/-- The worker opens the file, or fails to. -/
theorem openFile (h : LiveInv total ns s) {ok : Bool}
    (hstep : Logger.step s.engine (.openFile ok) = some e) :
    LiveInv total ns { s with engine := e } := by
  obtain ⟨lo, hi, hrep⟩ := h.rep
  dsimp only [Logger.step] at hstep
  split at hstep
  · next hw =>
    cases hstep
    have hprinted := h.unopened hw
    refine ⟨⟨lo, hi, hrep.work ?_ (by rw [hw]; nofun) ?_⟩, h.accepted, ?_, h.alone, h.running, ?_,
      h.flushed, ?_⟩
    · split <;> trivial
    · split <;> nofun
    · have hmain := h.main
      dsimp only
      cases hm : s.main with
      | returned =>
        rw [hm] at hmain
        rw [hmain.2] at hw
        cases hw
      | _ =>
        rw [hm] at hmain
        exact hmain
    · dsimp only
      split
      · trivial
      · exact .inr hprinted
    · dsimp only
      split <;> nofun
  · cases hstep

/-- `main` moves with the ring as it is. -/
theorem goto (h : LiveInv total ns s) {m : LivePc} (hmain : MainKnows total ns s.engine m)
    (hissued : (LiveBench.mk s.engine m).issued total = s.issued total)
    (hrun : s.main.stopped = true → m.stopped = true) :
    LiveInv total ns { s with main := m } where
  rep := h.rep
  accepted := by
    rw [hissued]
    exact h.accepted
  main := hmain
  alone := h.alone
  running := fun hstopped => hrun (h.running hstopped)
  worker := h.worker
  flushed := h.flushed
  unopened := h.unopened

/-- `main` takes a step of its thread. -/
theorem thread (h : LiveInv total ns s) {m : LivePc} (hrep : ∃ lo hi, Rep e lo hi)
    (hbeside : Beside s.engine e) (hothers : ∀ j, j ≠ 0 → e.threads j = s.engine.threads j)
    (haccepted : e.accepted =
      (List.range ((LiveBench.mk e m).issued total)).map fun i => tick ns (i + 1))
    (hmain : MainKnows total ns e m) (hrun : s.main.stopped = false) :
    LiveInv total ns ⟨e, m⟩ where
  rep := hrep
  accepted := haccepted
  main := hmain
  alone := fun j hj => (hothers j hj).trans (h.alone j hj)
  running := fun hstopped => by
    have hmust := h.running (hbeside.running ▸ hstopped)
    rw [hrun] at hmust
    cases hmust
  worker := by
    have hworker := h.worker
    dsimp only
    rw [hbeside.worker]
    cases hw : s.engine.worker with
    | testHead =>
      rw [hw] at hworker
      exact hbeside.running.trans hworker
    | testTail hd =>
      rw [hw] at hworker
      exact hbeside.running.trans hworker
    | closing =>
      rw [hw] at hworker
      exact hbeside.running.trans hworker
    | exited =>
      rw [hw] at hworker
      rcases hworker with ⟨hstopped, hwritten⟩ | hprinted
      · exact .inl ⟨hbeside.running.trans hstopped,
          hbeside.written.trans (hwritten.trans hbeside.printed.symm)⟩
      · exact .inr (hbeside.printed.trans hprinted)
    | _ => trivial
  flushed := by
    rw [hbeside.written, hbeside.printed]
    exact h.flushed
  unopened := fun hopening => by
    rw [hbeside.printed]
    exact h.unopened (hbeside.worker ▸ hopening)

/-- `main` goes for the lock, with the event of round `i`. -/
theorem spin (h : LiveInv total ns s) {i : ℕ} (hissued : s.issued total = i - 1)
    (hi : 1 ≤ i ∧ i ≤ total) (hrun : s.main.stopped = false) :
    LiveInv total ns ⟨s.engine.goto 0 (.spin (tickCall i) (ns i)), .putting i⟩ := by
  obtain ⟨lo, hi', hrep⟩ := h.rep
  have hrep' : Rep (s.engine.goto 0 (.spin (tickCall i) (ns i))) lo hi' :=
    hrep.goto s.engine.lock trivial nofun fun j _ hj => hrep.held j hj
  refine h.thread ⟨lo, hi', hrep'⟩ ⟨rfl, rfl, rfl, rfl, rfl⟩
    (fun j hj => Engine.goto_of_ne _ hj _) ?_ ⟨?_, hi⟩ hrun
  · have haccepted := h.accepted
    rw [hissued] at haccepted
    have hbusy : (LiveBench.mk (s.engine.goto 0 (.spin (tickCall i) (ns i)))
        (.putting i)).issued total = i - 1 := by
      rw [LiveBench.issued, Engine.goto_self]
      rfl
    rw [hbusy]
    exact haccepted
  · rw [Engine.goto_self]
    exact ⟨rfl, rfl⟩

/-- `main` goes on with the event of round `i`. -/
theorem put (h : LiveInv total ns s) {i : ℕ} (hm : s.main = .putting i)
    (hstep : threadStep s.engine 0 = some e)
    (hfull : ∀ c ts t, s.engine.threads 0 = .loadHead c ts t →
      subWord 64 t s.engine.head < queueSize) :
    LiveInv total ns { s with engine := e } := by
  obtain ⟨lo, hi, hrep⟩ := h.rep
  obtain ⟨hi', hrep'⟩ := rep_threadStep hrep hstep
  have hmain := h.main
  rw [hm] at hmain
  obtain ⟨hputs, hi⟩ := hmain
  obtain ⟨hputs', hothers, hcases⟩ := puts_threadStep hputs hstep hfull
  have haccepted := h.accepted
  rw [LiveBench.issued, hm] at haccepted
  refine h.thread ⟨lo, hi', hrep'⟩ (beside_threadStep hstep) hothers ?_ (by
    rw [hm]
    exact ⟨hputs', hi⟩) (by rw [hm]; rfl)
  rw [LiveBench.issued, hm]
  dsimp only at haccepted ⊢
  rcases hcases with ⟨hbusy, hsame⟩ | ⟨hbusy, hdone, hmore⟩
  · rw [hsame, hbusy]
    exact haccepted
  · -- the event is in
    rw [if_pos hbusy] at haccepted
    have hsucc : i = i - 1 + 1 := by omega
    rw [hmore, haccepted, hdone, if_neg Bool.false_ne_true]
    conv_rhs => rw [hsucc, List.range_succ, List.map_append]
    rw [List.map_singleton, ← hsucc]

/-- **A step of `main`.** -/
theorem mainStep (h : LiveInv total ns s) (hstep : liveMainStep total ns s = some s') :
    LiveInv total ns s' := by
  have hmain := h.main
  unfold liveMainStep at hstep
  split at hstep
  · next i hm =>
    cases hstep
    rw [hm] at hmain
    obtain ⟨hidle, hpos, hle⟩ := hmain
    have hissued : s.issued total = i - 1 := by rw [LiveBench.issued, hm]
    have hrun : s.main.stopped = true → False := by
      rw [hm]
      exact Bool.false_ne_true
    by_cases hi : i ≤ total
    · rw [if_pos hi]
      exact h.goto ⟨hidle, hpos, hi⟩ hissued.symm fun hs => (hrun hs).elim
    · rw [if_neg hi]
      refine h.goto trivial ?_ fun hs => (hrun hs).elim
      rw [hissued]
      show total = i - 1
      omega
  · next i hm =>
    cases hstep
    rw [hm] at hmain
    exact h.spin (by rw [LiveBench.issued, hm]) hmain.2 (by rw [hm]; rfl)
  · next i hm =>
    rw [hm] at hmain
    obtain ⟨hputs, hpos, hle⟩ := hmain
    split at hstep
    · next hidle =>
      cases hstep
      refine h.goto ⟨hidle, by omega, by omega⟩ ?_ fun hs => by rw [hm] at hs; cases hs
      rw [LiveBench.issued, LiveBench.issued, hm, hidle]
      rfl
    · next c ts t hpc =>
      split at hstep
      · next hfull =>
        -- the ring is full
        cases hstep
        have hsub : threadStep s.engine 0 = some (s.engine.goto 0 .unlock) := by
          rw [threadStep, hpc]
          dsimp only
          rw [if_neg (by omega)]
        obtain ⟨lo, hi, hrep⟩ := h.rep
        obtain ⟨hi', hrep'⟩ := rep_threadStep hrep hsub
        refine h.thread ⟨lo, hi', hrep'⟩ (beside_threadStep hsub)
          (fun j hj => Engine.goto_of_ne _ hj _) ?_ ⟨Engine.goto_self _ _ _, hpos, hle⟩
          (by rw [hm]; rfl)
        have haccepted := h.accepted
        rw [LiveBench.issued, hm] at haccepted
        dsimp only at haccepted
        rw [hpc] at haccepted
        exact haccepted
      · next hroom =>
        cases hstep
        have hsub :
            threadStep s.engine 0 = some (s.engine.goto 0 (.write c ts t (c.stores ts))) := by
          rw [threadStep, hpc]
          dsimp only
          rw [if_pos (by omega)]
        refine h.put hm hsub fun c' ts' t' hpc' => ?_
        rw [hpc] at hpc'
        cases hpc'
        omega
    · next hidle hload =>
      obtain ⟨e, he, rfl⟩ := Option.map_eq_some_iff.mp hstep
      exact h.put hm he fun c ts t hpc => absurd hpc (hload c ts t)
  · next i hm =>
    obtain ⟨e, he, rfl⟩ := Option.map_eq_some_iff.mp hstep
    rw [hm] at hmain
    obtain ⟨hunlock, hpos, hle⟩ := hmain
    obtain ⟨lo, hi, hrep⟩ := h.rep
    obtain ⟨hi', hrep'⟩ := rep_threadStep hrep he
    have hbeside := beside_threadStep he
    have haccepted := h.accepted
    rw [LiveBench.issued, hm] at haccepted
    rw [threadStep, hunlock] at he
    cases he
    exact h.thread ⟨lo, hi', hrep'⟩ hbeside (fun j hj => Engine.goto_of_ne _ hj _) haccepted
      ⟨Engine.goto_self _ _ _, hpos, hle⟩ (by rw [hm]; rfl)
  · next i hm =>
    cases hstep
    rw [hm] at hmain
    exact h.spin (by rw [LiveBench.issued, hm]) hmain.2 (by rw [hm]; rfl)
  · next hm =>
    cases hstep
    refine h.goto (m := .waitTail s.engine.head) id ?_ fun hs => by rw [hm] at hs; cases hs
    rw [LiveBench.issued, LiveBench.issued, hm]
  · next hd hm =>
    cases hstep
    rw [hm] at hmain
    have hissued : s.issued total = total := by rw [LiveBench.issued, hm]
    have hrun : s.main.stopped = true → False := by
      rw [hm]
      exact Bool.false_ne_true
    by_cases heq : hd = s.engine.tail
    · rw [if_pos heq]
      exact h.goto (hmain heq) hissued.symm fun hs => (hrun hs).elim
    · rw [if_neg heq]
      exact h.goto trivial hissued.symm fun hs => (hrun hs).elim
  · next hm =>
    cases hstep
    refine h.goto trivial ?_ fun hs => by rw [hm] at hs; cases hs
    rw [LiveBench.issued, LiveBench.issued, hm]
  · next hm =>
    cases hstep
    rw [hm] at hmain
    obtain ⟨lo, hi, hrep⟩ := h.rep
    have haccepted := h.accepted
    rw [LiveBench.issued, hm] at haccepted
    refine ⟨⟨lo, hi, hrep.setRunning false⟩, haccepted, hmain, h.alone, fun _ => rfl, ?_,
      h.flushed, h.unopened⟩
    have hworker := h.worker
    dsimp only
    cases hw : s.engine.worker with
    | exited =>
      rw [hw] at hworker
      exact hworker.imp (fun hleft => ⟨rfl, hleft.2⟩) id
    | testHead => rfl
    | testTail hd => rfl
    | closing => rfl
    | _ => trivial
  · next hm =>
    rw [hm] at hmain
    split at hstep
    · next hw =>
      cases hstep
      refine h.goto ⟨hmain, hw⟩ ?_ fun _ => rfl
      rw [LiveBench.issued, LiveBench.issued, hm]
    · cases hstep
  · cases hstep

end LiveInv

/-- **Every step of the program preserves the invariant.** -/
theorem liveInv_step {a : LiveAct} (h : LiveInv total ns s)
    (hstep : liveStep total ns s a = some s') :
    LiveInv total ns s' := by
  cases a with
  | main => exact h.mainStep hstep
  | openFile ok =>
    obtain ⟨e, he, rfl⟩ := Option.map_eq_some_iff.mp hstep
    exact h.openFile he
  | worker =>
    obtain ⟨e, he, rfl⟩ := Option.map_eq_some_iff.mp hstep
    exact h.work he

/-- **The invariant holds in every reachable state.** -/
theorem liveInv_of_reachable (h : (liveMachine total ns).Reachable s) : LiveInv total ns s := by
  refine h.invariant ?_ fun u a v hu hst => liveInv_step hu hst
  rintro s ⟨memory, rfl⟩
  exact ⟨⟨0, 0, rep_initEngine memory⟩, rfl, ⟨rfl, le_rfl, by omega⟩, fun _ _ => rfl, nofun, trivial,
    List.prefix_rfl, fun _ => rfl⟩

end Steps

/-! ### The file -/

/-- The call of round `i`, with its clock. -/
def loggedTick (ns : ℕ → Int64) (i : ℕ) : Logged where
  level := text "DEBUG"
  msg := text "Arbitrage ring buffer saturation tick"
  sequence := .ofNat i
  timestampNs := ns i
  level_isScalar := by decide
  msg_isScalar := by decide
  level_noNul := by decide
  msg_noNul := by decide
  level_length := by decide
  msg_length := by decide

theorem event_loggedTick (ns : ℕ → Int64) (i : ℕ) : (loggedTick ns i).event = tick ns i := by
  have hlevel : utf8 (text "DEBUG") = "DEBUG".toUTF8.data.toList := by decide
  have hmsg : utf8 (text "Arbitrage ring buffer saturation tick") =
      "Arbitrage ring buffer saturation tick".toUTF8.data.toList := by decide
  rw [Logged.event, Call.record, tick, Call.record]
  simp only [Logged.call, loggedTick, tickCall, hlevel, hmsg]

theorem plain_loggedTick (ns : ℕ → Int64) (i : ℕ) : (loggedTick ns i).Plain where
  level := by
    show IsPlain (text "DEBUG")
    decide
  msg := by
    show IsPlain (text "Arbitrage ring buffer saturation tick")
    decide
  ne_timestampNs := by
    show text "DEBUG" ≠ text "timestamp_ns"
    decide
  ne_sequence := by
    show text "DEBUG" ≠ text "sequence"
    decide

/-- The calls of the first rounds. -/
def loggedTicks (ns : ℕ → Int64) (k : ℕ) : List Logged :=
  (List.range k).map fun i => loggedTick ns (i + 1)

theorem events_loggedTicks (ns : ℕ → Int64) (k : ℕ) :
    (loggedTicks ns k).map Logged.event = (List.range k).map fun i => tick ns (i + 1) := by
  rw [loggedTicks, List.map_map]
  exact List.map_congr_left fun i _ => event_loggedTick ns (i + 1)

theorem take_loggedTicks (ns : ℕ → Int64) {j k : ℕ} (h : j ≤ k) :
    (loggedTicks ns k).take j = loggedTicks ns j := by
  rw [loggedTicks, ← List.map_take, List.take_range, Nat.min_eq_left h, loggedTicks]

theorem LiveInv.issued_le {total : ℕ} {ns : ℕ → Int64} {s : LiveBench} (h : LiveInv total ns s) :
    s.issued total ≤ total := by
  have hmain := h.main
  rw [LiveBench.issued]
  cases hm : s.main with
  | test i | clock i | full i | yielding i =>
    rw [hm] at hmain
    obtain ⟨-, hpos, hle⟩ := hmain
    dsimp only
    omega
  | putting i =>
    rw [hm] at hmain
    obtain ⟨-, hpos, hle⟩ := hmain
    dsimp only
    split <;> omega
  | _ => exact le_rfl

/-- Once `main` has returned the ring is empty, and the worker has flushed everything. -/
theorem LiveInv.written_of_returned {total : ℕ} {ns : ℕ → Int64} {s : LiveBench}
    (h : LiveInv total ns s) (htotal : 0 < total) (hreturned : s.main = .returned) :
    s.engine.written = (List.range total).map fun i => tick ns (i + 1) := by
  obtain ⟨lo, hi, hrep⟩ := h.rep
  have hmain := h.main
  rw [hreturned] at hmain
  obtain ⟨hempty, hexited⟩ := hmain
  obtain rfl := hrep.head_eq_tail_iff.mp hempty
  have hlog := hrep.log
  rw [window_self, List.append_nil, taken_eq_nil (by rw [hexited]; nofun), List.append_nil,
    h.accepted, LiveBench.issued, hreturned] at hlog
  have hworker := h.worker
  rw [hexited] at hworker
  rcases hworker with ⟨-, hwritten⟩ | hnothing
  · rw [hwritten, hlog]
  · -- a worker without a file would have left the ticks in the ring
    rw [hnothing] at hlog
    have hlen := congrArg List.length hlog
    rw [List.length_map, List.length_range] at hlen
    exact absurd hlen.symm htotal.ne'

/-- **Every tick gets into the file once and in order.**  At every moment the dashboards find
the first rounds, at least those that are flushed; and when `main` returns, the file has all
of them.  The file is the run's own: one that an earlier run has left, before `fopen` truncates
it, is not read here. -/
theorem live_bench_complete {total : ℕ} {ns : ℕ → Int64} {s : LiveBench} (htotal : 0 < total)
    (h : (liveMachine total ns).Reachable s) :
    (∀ n, (logFile s.engine.written).length ≤ n → ∃ k torn,
      s.engine.written.length ≤ k ∧ k ≤ s.engine.printed.length ∧ k ≤ total ∧
        loadJsonl ((logFile s.engine.printed).take n) =
          (loggedTicks ns k).map Logged.record ∧
        getLatestMetric (some ((logFile s.engine.printed).take n)) =
          some (shown ((loggedTicks ns k).map Logged.row) torn)) ∧
      (s.main = .returned → s.engine.written = s.engine.printed ∧
        loadJsonl (logFile s.engine.written) = (loggedTicks ns total).map Logged.record) := by
  have hinv := liveInv_of_reachable h
  have hplain : ∀ k, ∀ l ∈ loggedTicks ns k, l.Plain := by
    intro k l hl
    obtain ⟨i, -, rfl⟩ := List.mem_map.mp hl
    exact plain_loggedTick ns (i + 1)
  obtain ⟨lo, hi, hrep⟩ := hinv.rep
  have hlog := hrep.log
  rw [List.append_assoc, hinv.accepted, ← events_loggedTicks] at hlog
  constructor
  · intro n hn
    have hfile : (logFile (([] : List Logged).map Logged.event ++ s.engine.written)).length ≤ n := hn
    obtain ⟨k, torn, hle, hge, hload, hlatest, -⟩ := read_log hlog hinv.flushed (hplain _) hfile
    simp only [List.length_nil, Nat.zero_add] at hle hge
    -- what is printed has been issued
    have hlen := congrArg List.length hlog
    rw [List.length_append, List.length_map, loggedTicks, List.length_map, List.length_range] at hlen
    have htake := take_loggedTicks ns (show k ≤ s.issued total by omega)
    rw [List.nil_append, htake] at hload hlatest
    have hissued := hinv.issued_le
    exact ⟨k, torn, hle, hge, by omega, hload, hlatest⟩
  · intro hreturned
    have hwritten := hinv.written_of_returned htotal hreturned
    rw [← events_loggedTicks] at hwritten
    have hissued : s.issued total = total := by rw [LiveBench.issued, hreturned]
    refine ⟨?_, by rw [hwritten, loadJsonl_logFile (hplain total)]⟩
    -- everything that is printed is already in the file
    have hlen := congrArg List.length hlog
    rw [hissued, ← hwritten, List.length_append] at hlen
    exact hinv.flushed.eq_of_length_le (by omega)

/-- One event: the worker prints it, `main` finds the counters equal, and the worker leaves. -/
def oneTick : List LiveAct :=
  [.openFile true] ++ List.replicate 55 .main ++ List.replicate 151 .worker ++
    List.replicate 3 .main ++ List.replicate 4 .worker ++ [.main]

theorem live_bench_complete_oneTick :
    ∃ s, (liveMachine 1 fun _ => 5).Reachable s ∧ s.main = .returned ∧
      loadJsonl (logFile s.engine.written) = [(loggedTick (fun _ => 5) 1).record] := by
  have hexec : ((liveMachine 1 fun _ => 5).exec (fun _ _ => true)
      ⟨initEngine fun _ => .blank, .test 1⟩ oneTick).map (fun s => s.main) = some .returned := by
    decide +kernel
  obtain ⟨s, hs, hend⟩ := Machine.exists_path_of_exec hexec
  have hreach : (liveMachine 1 fun _ => 5).Reachable s := hs.reachable (.init ⟨_, rfl⟩)
  exact ⟨s, hreach, hend, ((live_bench_complete Nat.one_pos hreach).2 hend).2⟩

end Logger
end SovereignSeed
