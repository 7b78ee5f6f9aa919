import SovereignSeed.Utils.AsyncLogger

/-!
# The logger drains

The worker leaves its loop only after it has read the stop event as set, and then the queue
as empty.  What was accepted before `close` was entered was in the queue before the event
was set; the worker alone takes things out, and writes each before it reads the event
again.  So when it leaves, all of that is in the file, whatever other threads put into the
queue meanwhile.

## Main definitions

* `Inv` — the queue, the worker and the file of a run in which the file does not fail.

## Main results

* `inv_step` — what a step preserves.
* `close_drains` — **when `close` returns, the file has received what was accepted before
  it was entered, once and in order.**
-/

namespace SovereignSeed
namespace Utils

open Python Json
open Fifo (Run pushed popped)

variable {T : Type*} {s s' : AsyncJSONLogger T} {before : Bytes}

/-- The item that the worker has taken and not written. -/
def WorkerPc.inHand : WorkerPc → List PyStr
  | .write item => [item]
  | _ => []

/-- The number of items for which the worker has not called `task_done`. -/
def WorkerPc.busy : WorkerPc → ℕ
  | .write _ => 1
  | .flush => 1
  | .taskDone => 1
  | _ => 0

/-- The worker has read the stop event as set, for the last time or not. -/
def WorkerPc.stopping : WorkerPc → Bool
  | .testEmpty => true
  | .closing => true
  | .ended => true
  | _ => false

/-- The worker has left its loop. -/
def WorkerPc.left : WorkerPc → Bool
  | .closing => true
  | .ended => true
  | _ => false

/-- The worker leaves on account of the stop event. -/
theorem WorkerPc.stopping_of_left {p : WorkerPc} (h : p.left = true) : p.stopping = true := by
  cases p with
  | closing => rfl
  | ended => rfl
  | _ => cases h

/-- The invariant of a run in which the file does not fail. -/
structure Inv (before : Bytes) (s : AsyncJSONLogger T) : Prop where
  run : Run maxsize s.calls s.queue
  tasks : s.unfinishedTasks = s.queue.length + s.worker.busy
  /-- What was taken out is written, but for the item in hand. -/
  written : ∃ written, popped s.calls = written ++ s.worker.inHand ∧
    s.file ++ s.buffer = before ++ written.flatMap line
  flushed : s.worker ≠ .flush → s.buffer = []
  stopped : s.worker.stopping = true → s.stopEvent = true
  closed : s.stopEvent = true → s.closer = .join ∨ s.closer = .returned
  entered : s.atClose <+: pushed s.calls
  drained : s.worker.left = true → s.atClose <+: popped s.calls
  returned : s.closer = .returned → s.worker = .ended

/-- The file fails. -/
def Act.fails : Act T → Bool
  | .fail _ => true
  | _ => false

/-- An action in which the file does not fail. -/
def Sound (_ : AsyncJSONLogger T) (a : Act T) : Prop := a.fails = false

namespace Inv

theorem init (before : Bytes) : Inv before (init T before) where
  run := .start
  tasks := rfl
  written := ⟨[], rfl, rfl⟩
  flushed _ := rfl
  stopped := nofun
  closed := nofun
  entered := List.prefix_rfl
  drained := nofun
  returned := nofun

/-! ### The threads -/

/-- A step of a thread that leaves the queue as it is. -/
theorem clients (h : Inv before s) (clients : T → Option PyStr) :
    Inv before { s with clients := clients } :=
  { h with }

/-- A record that finds room. -/
theorem put (h : Inv before s) (item : PyStr) (clients : T → Option PyStr)
    (hroom : s.queue.length < maxsize) :
    Inv before { s with
      queue := s.queue ++ [item], unfinishedTasks := s.unfinishedTasks + 1
      clients := clients, calls := s.calls ++ [.push item true] } :=
  { h with
    run := h.run.call (.push s.queue item hroom)
    tasks := by
      have htasks := h.tasks
      simp only [List.length_append, List.length_singleton]
      omega
    written := by simpa using h.written
    entered := by
      simp only [Fifo.pushed_append]
      exact h.entered.trans (List.prefix_append _ _)
    drained := by simpa using h.drained }

/-- A record that finds the queue full. -/
theorem drop (h : Inv before s) (item : PyStr) (clients : T → Option PyStr)
    (hfull : s.queue.length = maxsize) :
    Inv before { s with clients := clients, calls := s.calls ++ [.push item false] } :=
  { h with
    run := h.run.call (.full s.queue item hfull)
    written := by simpa using h.written
    entered := by simpa using h.entered
    drained := by simpa using h.drained }

/-- A queue that has no room is full. -/
theorem length_of_full (h : Inv before s) (hroom : ¬s.queue.length < maxsize) :
    s.queue.length = maxsize := by
  have hle := h.run.length_le
  omega

/-! ### The worker -/

section Worker

variable {p q : WorkerPc}

/-- Only between a write and the flush behind it does the buffer hold anything. -/
theorem buffer_eq_nil (h : Inv before s) (hpc : s.worker = q) (hflush : q ≠ .flush) :
    s.buffer = [] := by
  apply h.flushed
  rw [hpc]
  exact hflush

/-- `close` does not return before the worker has ended. -/
theorem closer_ne_returned (h : Inv before s) (hpc : s.worker = q) (hended : q ≠ .ended) :
    s.closer ≠ .returned := by
  intro hret
  rw [h.returned hret] at hpc
  exact hended hpc.symm

/-- A step of the worker between two tests. -/
theorem turn (h : Inv before s) (hpc : s.worker = q) (hended : q ≠ .ended) (hflush : q ≠ .flush)
    (hbusy : p.busy = q.busy) (hhand : p.inHand = q.inHand)
    (hstop : p.stopping = true → s.stopEvent = true)
    (hleft : p.left = true → s.atClose <+: popped s.calls) :
    Inv before { s with worker := p } :=
  { h with
    tasks := by
      have htasks := h.tasks
      rw [hpc, ← hbusy] at htasks
      exact htasks
    written := by
      have hwritten := h.written
      rw [hpc, ← hhand] at hwritten
      exact hwritten
    flushed := fun _ => h.buffer_eq_nil hpc hflush
    stopped := hstop
    drained := hleft
    returned := fun hret => absurd hret (h.closer_ne_returned hpc hended) }

/-- The worker takes an item. -/
theorem take (h : Inv before s) (hpc : s.worker = .get) {item : PyStr} {rest : List PyStr}
    (hqueue : s.queue = item :: rest) :
    Inv before { s with
      queue := rest, worker := .write item, calls := s.calls ++ [.pop (some item)] } :=
  { h with
    run := h.run.call (hqueue ▸ .pop item rest)
    tasks := by
      have htasks := h.tasks
      rw [hpc, hqueue, List.length_cons] at htasks
      exact htasks
    written := by
      obtain ⟨written, hpopped, hfile⟩ := h.written
      refine ⟨written, ?_, hfile⟩
      rw [Fifo.popped_append, hpopped, hpc]
      simp [WorkerPc.inHand]
    flushed := fun _ => h.buffer_eq_nil hpc nofun
    stopped := nofun
    entered := by simpa using h.entered
    drained := nofun
    returned := fun hret => absurd hret (h.closer_ne_returned hpc nofun) }

/-- The time of `get` is over, with the queue still empty. -/
theorem expire (h : Inv before s) (hpc : s.worker = .get) (hqueue : s.queue = []) :
    Inv before { s with worker := .testStop, calls := s.calls ++ [.pop none] } :=
  { h with
    run := h.run.call (hqueue ▸ .empty)
    tasks := by
      have htasks := h.tasks
      rw [hpc] at htasks
      exact htasks
    written := by
      have hwritten := h.written
      rw [hpc] at hwritten
      simpa [WorkerPc.inHand] using hwritten
    flushed := fun _ => h.buffer_eq_nil hpc nofun
    stopped := nofun
    entered := by simpa using h.entered
    drained := nofun
    returned := fun hret => absurd hret (h.closer_ne_returned hpc nofun) }

/-- A write: all of the line is in the file or in the buffer. -/
theorem write (h : Inv before s) {item : PyStr} (hpc : s.worker = .write item) (spilled : ℕ) :
    Inv before { s with
      file := s.file ++ (s.buffer ++ line item).take spilled
      buffer := (s.buffer ++ line item).drop spilled
      worker := .flush } :=
  { h with
    tasks := by
      have htasks := h.tasks
      rw [hpc] at htasks
      exact htasks
    written := by
      obtain ⟨written, hpopped, hfile⟩ := h.written
      rw [hpc] at hpopped
      refine ⟨written ++ [item], by simpa [WorkerPc.inHand] using hpopped, ?_⟩
      rw [List.append_assoc, List.take_append_drop, ← List.append_assoc, hfile,
        List.flatMap_append, List.flatMap_singleton, List.append_assoc]
    flushed := fun hne => absurd rfl hne
    stopped := nofun
    drained := nofun
    returned := fun hret => absurd hret (h.closer_ne_returned hpc nofun) }

/-- What is in the buffer gets into the file. -/
theorem flush (h : Inv before s) (hpc : s.worker = q) (hended : q ≠ .ended)
    (hbusy : p.busy = q.busy) (hhand : p.inHand = q.inHand)
    (hstop : p.stopping = true → s.stopEvent = true)
    (hleft : p.left = true → s.atClose <+: popped s.calls) :
    Inv before { s with file := s.file ++ s.buffer, buffer := [], worker := p } :=
  { h with
    tasks := by
      have htasks := h.tasks
      rw [hpc, ← hbusy] at htasks
      exact htasks
    written := by
      obtain ⟨written, hpopped, hfile⟩ := h.written
      rw [hpc, ← hhand] at hpopped
      exact ⟨written, hpopped, by rw [List.append_nil, hfile]⟩
    flushed := fun _ => rfl
    stopped := hstop
    drained := hleft
    returned := fun hret => absurd hret (h.closer_ne_returned hpc hended) }

/-- The call of `task_done`, which there is an item for. -/
theorem taskDone (h : Inv before s) (hpc : s.worker = .taskDone) :
    s.unfinishedTasks ≠ 0 ∧
      Inv before { s with unfinishedTasks := s.unfinishedTasks - 1, worker := .testStop } := by
  have htasks := h.tasks
  rw [hpc] at htasks
  have hone : s.unfinishedTasks = s.queue.length + 1 := htasks
  refine ⟨by omega, ?_⟩
  exact
    { h with
      tasks := by
        show s.unfinishedTasks - 1 = s.queue.length
        omega
      written := by
        have hwritten := h.written
        rw [hpc] at hwritten
        exact hwritten
      flushed := fun _ => h.buffer_eq_nil hpc nofun
      stopped := nofun
      drained := nofun
      returned := fun hret => absurd hret (h.closer_ne_returned hpc nofun) }

/-- The worker reads the queue as empty after the stop event as set: everything that was
accepted has been taken out. -/
theorem drained_of_empty (h : Inv before s) (hqueue : s.queue = []) :
    s.atClose <+: popped s.calls := by
  have hall := h.run.popped_append
  rw [hqueue, List.append_nil] at hall
  rw [hall]
  exact h.entered

theorem work (h : Inv before s) (hst : workStep s = some s') : Inv before s' := by
  unfold workStep at hst
  split at hst
  · next hpc =>
    cases hst
    exact h.turn hpc nofun nofun rfl rfl nofun nofun
  · next hpc =>
    cases hst
    split
    · next hstop =>
      exact h.turn hpc nofun nofun rfl rfl (fun _ => hstop) nofun
    · exact h.turn hpc nofun nofun rfl rfl nofun nofun
  · next hpc =>
    have hstop := h.stopped (by rw [hpc]; rfl)
    cases hst
    split
    · next hqueue =>
      exact h.turn hpc nofun nofun rfl rfl (fun _ => hstop) fun _ => h.drained_of_empty hqueue
    · exact h.turn hpc nofun nofun rfl rfl nofun nofun
  · next hpc =>
    split at hst
    · cases hst
    · next item rest hqueue =>
      cases hst
      exact h.take hpc hqueue
  · cases hst
  · next hpc =>
    cases hst
    exact h.flush hpc nofun rfl rfl nofun nofun
  · next hpc =>
    obtain ⟨hpos, hdone⟩ := h.taskDone hpc
    rw [if_neg hpos] at hst
    cases hst
    exact hdone
  · next hpc =>
    have hstop := h.stopped (by rw [hpc]; rfl)
    have hdrained := h.drained (by rw [hpc]; rfl)
    cases hst
    exact h.flush hpc nofun rfl rfl (fun _ => hstop) fun _ => hdrained
  · cases hst

end Worker

/-! ### Closing -/

/-- Before `close` is called nobody sets the stop event. -/
theorem stopEvent_ne_true (h : Inv before s) (hpc : s.closer = .idle) : s.stopEvent ≠ true := by
  intro hstop
  rcases h.closed hstop with hjoin | hret
  · rw [hpc] at hjoin
    cases hjoin
  · rw [hpc] at hret
    cases hret

/-- `close` is entered, with the worker still in its loop. -/
theorem enter (h : Inv before s) (hpc : s.closer = .idle) :
    Inv before { s with closer := .setStop, atClose := pushed s.calls } :=
  { h with
    closed := fun hstop => absurd hstop (h.stopEvent_ne_true hpc)
    entered := List.prefix_rfl
    drained := fun hleft =>
      -- the worker does not leave before the stop event is set
      absurd (h.stopped (WorkerPc.stopping_of_left hleft)) (h.stopEvent_ne_true hpc)
    returned := nofun }

theorem setStop (h : Inv before s) :
    Inv before { s with stopEvent := true, closer := .join } :=
  { h with
    stopped := fun _ => rfl
    closed := fun _ => .inl rfl
    returned := nofun }

theorem join (h : Inv before s) (hended : s.worker = .ended) :
    Inv before { s with closer := .returned } :=
  { h with
    closed := fun _ => .inr rfl
    returned := fun _ => hended }

end Inv

/-! ### Whole runs -/

section Runs

variable [DecidableEq T]

/-- **Every step in which the file does not fail preserves the invariant.** -/
theorem inv_step (h : Inv before s) {a : Act T} (hok : Sound s a) (hst : step s a = some s') :
    Inv before s' := by
  cases a with
  | log t timestamp level message kwargs =>
    simp only [step] at hst
    split at hst
    · cases hst
      exact h.clients _
    · cases hst
  | put t =>
    simp only [step] at hst
    split at hst
    · split at hst
      · next hroom =>
        cases hst
        exact h.put _ _ hroom
      · next hroom =>
        cases hst
        exact h.drop _ _ (h.length_of_full hroom)
    · cases hst
  | work => exact h.work hst
  | expire =>
    simp only [step] at hst
    split at hst
    · next hpc hqueue =>
      cases hst
      exact h.expire hpc hqueue
    · cases hst
  | write spilled =>
    simp only [step] at hst
    split at hst
    · next item hpc =>
      cases hst
      exact h.write hpc spilled
    · cases hst
  | fail spilled => cases hok
  | close =>
    simp only [step] at hst
    split at hst
    · next hpc =>
      cases hst
      exact h.enter hpc
    · cases hst
  | closeStep =>
    simp only [step] at hst
    split at hst
    · cases hst
      exact h.setStop
    · split at hst
      · next hended =>
        cases hst
        exact h.join hended
      · cases hst
    · cases hst

theorem inv_of_path {as : List (Act T)} (h : (machine T).Path Sound (Utils.init T before) as s) :
    Inv before s :=
  h.invariant (fun _ _ _ hu hok hst => inv_step hu hok hst) (.init before)

/-- **The logger drains on `close`**: in every run in which the file does not fail, when
`close` has returned, the file has received the lines of a row of records, in the order of
the queue, that begins with all records accepted before `close` was entered.  A record is
dropped only if the queue holds 10000 records when its thread puts it. -/
theorem close_drains {as : List (Act T)}
    (h : (machine T).Path Sound (Utils.init T before) as s) :
    (s.closer = .returned → ∃ written, s.file = before ++ written.flatMap line ∧
      s.atClose <+: written ∧ written <+: pushed s.calls) ∧
      Run maxsize s.calls s.queue ∧
      ∀ t item s', step s (.put t) = some s' → s'.calls = s.calls ++ [.push item false] →
        s.queue.length = 10000 := by
  have hinv := inv_of_path h
  refine ⟨fun hret => ?_, hinv.run, ?_⟩
  · have hended := hinv.returned hret
    obtain ⟨written, hpopped, hfile⟩ := hinv.written
    rw [hinv.buffer_eq_nil hended nofun, List.append_nil] at hfile
    have hhand : s.worker.inHand = [] := by rw [hended]; rfl
    rw [hhand, List.append_nil] at hpopped
    subst hpopped
    exact ⟨_, hfile, hinv.drained (by rw [hended]; rfl), hinv.run.popped_prefix⟩
  · intro t item s' hst hcalls
    simp only [step] at hst
    split at hst
    · split at hst
      · cases hst
        simp at hcalls
      · next hroom => exact hinv.length_of_full hroom
    · cases hst

/-- Thread 0 logs, then `close` is entered; thread 1 logs beside it, and so does thread 2
behind the last look at the queue. -/
def closeSchedule : List (Act ℕ) :=
  [.log 0 .zero (.str (text "INFO")) (.str (text "up")) [], .put 0, .work, .close,
    .log 1 .zero (.str (text "DEBUG")) (.str (text "tick")) [], .put 1, .closeStep, .work, .work,
    .work, .write 4, .work, .work, .work, .work, .work, .write 0, .work, .work, .work, .work,
    .log 2 .zero (.str (text "INFO")) (.str (text "late")) [], .put 2, .work, .closeStep]

theorem close_drains_three_threads : ∃ s : AsyncJSONLogger ℕ,
    s.closer = .returned ∧ s.atClose.length = 1 ∧ (pushed s.calls).length = 3 ∧
      ((s.closer = .returned → ∃ written, s.file = [] ++ written.flatMap line ∧
        s.atClose <+: written ∧ written <+: pushed s.calls) ∧
        Run maxsize s.calls s.queue ∧
        ∀ t item s', step s (.put t) = some s' → s'.calls = s.calls ++ [.push item false] →
          s.queue.length = 10000) := by
  have hexec : ((machine ℕ).exec (fun _ a => !a.fails) (Utils.init ℕ []) closeSchedule).map
      (fun s => (s.closer, s.atClose.length, (pushed s.calls).length)) =
        some (.returned, 1, 3) := by
    decide +kernel
  obtain ⟨s, hs, hread⟩ := Machine.exists_path_of_exec hexec
  simp only [Prod.mk.injEq] at hread
  obtain ⟨hclosed, hfirst, hall⟩ := hread
  have hsound : (machine ℕ).Path Sound (Utils.init ℕ []) closeSchedule s :=
    hs.mono fun u a ha => by simpa [Sound] using ha
  exact ⟨s, hclosed, hfirst, hall, close_drains hsound⟩

end Runs

end Utils
end SovereignSeed
