import SovereignSeed.Audit.Conservation
import SovereignSeed.Mpmc.Progress

/-!
# The audit engine gets to its end

`main` waits for the workers, for `head`, and for the logger; a worker waits for room in the ring,
and only the logger makes room.  From every reachable state some schedule ends all of this, with
two exceptions: if the log file did not open, the logger has returned, `head` stays where it is, and
`main` waits for ever; and so it does where the product of the two constants overflows to more than
there are trades.

The logger on its own comes back to its exit test, and on its way takes the front record, if that
is published.  A published record at the front is what a ring shows that is not empty, as soon as
no worker has stopped in the middle of its copy.  So the workers' rounds come to an end one after
the other, and then `main` and the logger leave.

## Main definitions

* `RunInv` — what the program keeps beside `AuditInv`.
* `logging` — only the logger moves.

## Main results

* `can_drain` — the logger empties the ring.
* `can_finish_rounds` — the workers return.
* `audit_can_finish_iff` — **`main` can get to its end exactly if the log file opens and `main`
  does not wait for more trades than there are.**
-/

namespace SovereignSeed
namespace Audit

open Mpmc

variable {P : ℕ} {Q : QueueSize} {F : Feed P} {M : ℕ}

/-! ### What else the program keeps -/

/-- A logger that has not called anything yet leaves `head` alone, one inside of a call is at some
point of it, and `main` waits for the logger behind its store to `running`. -/
structure RunInv (s : AuditEngine P) : Prop where
  unread : s.logger = .opening ∨ s.logger = .openFailed → s.queue.head = 0
  called : s.logger = .inDequeue → s.queue.pc none ≠ .idle
  stopped : s.main = .joiningLogger ∨ s.main = .done → s.running = false

/-- A step of the queue is none of the logger's first two control points, nor of `main`. -/
theorem RunInv.of_queue {s : AuditEngine P} (h : RunInv s)
    {q : Queue (Thread P) (Fin 6) (BitVec 64)}
    {issued : Fin P → ℕ} (hhead : s.logger ≠ .inDequeue → q.head = s.queue.head)
    (hpc : s.queue.pc none ≠ .idle → q.pc none ≠ .idle) :
    RunInv { s with queue := q, issued := issued } where
  unread := by
    intro hl
    have hout : s.logger ≠ .inDequeue := by
      rintro heq
      rw [heq] at hl
      rcases hl with hl | hl <;> cases hl
    exact (hhead hout).trans (h.unread hl)
  called := fun hl => hpc (h.called hl)
  stopped := h.stopped

theorem runInv_loggerStep {s s' : AuditEngine P} (h : RunInv s) {choice : Bool}
    (hs : loggerStep Q s choice = some s') : RunInv s' := by
  unfold loggerStep at hs
  split at hs
  · next hl =>
    cases hs
    refine ⟨fun _ => h.unread (.inl hl), ?_, h.stopped⟩
    cases choice <;> exact fun hf => by cases hf
  · cases hs
  · cases hs
    refine ⟨?_, ?_, h.stopped⟩ <;> cases s.running <;> simp
  · cases hs
    refine ⟨?_, ?_, h.stopped⟩ <;> cases choice <;> simp
  · cases hs
    refine ⟨?_, ?_, h.stopped⟩ <;> dsimp only <;> split <;> simp
  · cases hs
    refine ⟨?_, ?_, h.stopped⟩ <;> dsimp only <;> split <;> simp
  · -- the call
    obtain ⟨q, hq, rfl⟩ := Option.map_eq_some_iff.mp hs
    refine ⟨by simp, fun _ => ?_, h.stopped⟩
    simp only [step] at hq
    split at hq
    · cases hq
      simp
    · cases hq
  · split at hs
    · next ret buf hpc =>
      cases hs
      refine ⟨?_, ?_, h.stopped⟩ <;> cases ret <;> simp
    · cases hs
  · cases hs
    exact ⟨by simp, by simp, h.stopped⟩
  · cases hs
    exact ⟨by simp, by simp, h.stopped⟩
  · cases hs
    exact ⟨by simp, by simp, h.stopped⟩
  · cases hs
    exact ⟨by simp, by simp, h.stopped⟩
  · cases hs

theorem runInv_mainStep {s s' : AuditEngine P} (h : RunInv s) (hs : mainStep M s = some s') :
    RunInv s' := by
  unfold mainStep at hs
  split at hs
  · split at hs
    · split at hs
      · cases hs
        exact ⟨h.unread, h.called, by simp⟩
      · cases hs
    · cases hs
      exact ⟨h.unread, h.called, by simp⟩
  · cases hs
    refine ⟨h.unread, h.called, ?_⟩
    dsimp only
    split <;> simp
  · cases hs
    exact ⟨h.unread, h.called, fun _ => rfl⟩
  · next hm =>
    split at hs
    · cases hs
      exact ⟨h.unread, h.called, fun _ => h.stopped (.inl hm)⟩
    · cases hs
  · cases hs

theorem runInv_of_reachable {s : AuditEngine P} (hM : P * M < 2 ^ 63)
    (hr : (auditMachine Q F M).Reachable s) : RunInv s := by
  induction hr with
  | init hs =>
    obtain ⟨mem, trade, rfl⟩ := hs
    exact ⟨fun _ => rfl, by simp [initEngine], by simp [initEngine]⟩
  | @step u v a hu hst ih =>
    have h := auditInv_of_reachable hM hu
    cases a with
    | queue t m =>
      dsimp only [auditMachine, auditStep] at hst
      split at hst
      · next hm =>
        obtain ⟨q, hq, rfl⟩ := Option.map_eq_some_iff.mp hst
        cases t with
        | some w =>
          obtain ⟨-, hhead, -, hnone, -⟩ := h.crew.producer (h.tail_lt hM) hm hq
          exact ih.of_queue (fun _ => hhead) (fun hne => hnone ▸ hne)
        | none =>
          obtain ⟨-, -, hready, -⟩ := h.crew.logger (h.tail_lt hM) hm hq
          refine ih.of_queue (fun hout => ?_) fun _ =>
            ne_idle_of_consumer (trans_of_step hq) h.parts.logger_pc hready
          rw [h.parts.logger_out hout] at hready
          cases hready
      · cases hst
    | worker w =>
      dsimp only [auditMachine, auditStep] at hst
      split at hst
      · obtain ⟨q, hq, rfl⟩ := Option.map_eq_some_iff.mp hst
        obtain ⟨-, hhead, -, hnone, -⟩ := h.crew.callEnqueue (h.tail_lt hM) hq
        exact ih.of_queue (fun _ => hhead) (fun hne => hnone ▸ hne)
      · cases hst
    | logger choice => exact runInv_loggerStep ih hst
    | main => exact runInv_mainStep ih hst

/-- A step of the program is a step of its queue, or leaves the queue as it is. -/
theorem queue_of_step {s s' : AuditEngine P} {a : Act P} (hs : auditStep Q F M s a = some s') :
    s'.queue = s.queue ∨ ∃ b, step Q s.queue b = some s'.queue := by
  cases a with
  | queue t m =>
    simp only [auditStep] at hs
    split at hs
    · obtain ⟨q, hq, rfl⟩ := Option.map_eq_some_iff.mp hs
      exact .inr ⟨_, hq⟩
    · cases hs
  | worker w =>
    simp only [auditStep] at hs
    split at hs
    · obtain ⟨q, hq, rfl⟩ := Option.map_eq_some_iff.mp hs
      exact .inr ⟨_, hq⟩
    · cases hs
  | logger choice =>
    simp only [auditStep, loggerStep] at hs
    split at hs
    case h_7 =>
      obtain ⟨q, hq, rfl⟩ := Option.map_eq_some_iff.mp hs
      exact .inr ⟨_, hq⟩
    all_goals grind
  | main =>
    simp only [auditStep, mainStep] at hs
    grind

/-- The queue of the program is in a state that the queue alone can reach. -/
theorem queue_of_reachable {s : AuditEngine P} (hr : (auditMachine Q F M).Reachable s) :
    (Mpmc.machine Q).Reachable s.queue := by
  induction hr with
  | init hs =>
    obtain ⟨mem, trade, rfl⟩ := hs
    exact .init ⟨mem, rfl⟩
  | step _ hst ih =>
    rcases queue_of_step hst with heq | ⟨b, hb⟩
    · rw [heq]
      exact ih
    · exact ih.step hb

/-! ### The logger on its own -/

/-- Only the logger moves. -/
def logging (_ : AuditEngine P) : Act P → Prop
  | .queue t _ => t = none
  | .logger _ => True
  | _ => False

/-- What a thread can do alone in the queue, it can do in the program. -/
theorem can_of_alone {s : AuditEngine P} {t : Thread P} {n : ℕ}
    {g : AuditEngine P → Act P → Prop} {R : Queue (Thread P) (Fin 6) (BitVec 64) → Prop}
    (hg : ∀ u m, g u (.queue t m)) (h : (Mpmc.machine Q).Within (alone t) n R s.queue) :
    (auditMachine Q F M).Can g (fun v => ∃ q, v = { s with queue := q } ∧ R q ∧
      ∀ u, u ≠ t → q.pc u = s.queue.pc u) s := by
  obtain ⟨as, q, -, hpath, hq⟩ := h
  obtain ⟨-, hother⟩ := frame_of_alone hpath
  refine ⟨as.map fun a => .queue t a.2, { s with queue := q }, ?_, q, rfl, hq, hother⟩
  clear hq hother
  generalize hqs : s.queue = q₀ at hpath
  induction hpath generalizing s with
  | nil =>
    rw [← hqs]
    exact .nil s
  | @cons q₀ q₁ q a as hmove hst _ ih =>
    obtain ⟨t', m⟩ := a
    obtain ⟨rfl, hm⟩ := hmove
    refine .cons (hg ..) ?_ (ih (s := { s with queue := q₁ }) rfl)
    have hst : step Q q₀ (t', m) = some q₁ := hst
    simp only [auditMachine, auditStep, hm, hqs, hst]
    rfl

/-- What the logger leaves as it is. -/
structure Undisturbed (s v : AuditEngine P) : Prop where
  running : v.running = s.running
  issued : v.issued = s.issued
  main : v.main = s.main
  tail : v.queue.tail = s.queue.tail
  worker : ∀ w, v.queue.pc (some w) = s.queue.pc (some w)

theorem Undisturbed.trans {s u v : AuditEngine P} (h : Undisturbed s u) (h' : Undisturbed u v) :
    Undisturbed s v where
  running := h'.running.trans h.running
  issued := h'.issued.trans h.issued
  main := h'.main.trans h.main
  tail := h'.tail.trans h.tail
  worker := fun w => (h'.worker w).trans (h.worker w)

theorem Undisturbed.finished {s v : AuditEngine P} (h : Undisturbed s v)
    (hfin : ∀ w, s.finished M w = true) (w : Fin P) : v.finished M w = true :=
  finished_frame (hfin w) (by rw [h.issued]) (h.worker w)

theorem undisturbed_loggerStep {s v : AuditEngine P} {choice : Bool}
    (hs : loggerStep Q s choice = some v) : Undisturbed s v := by
  unfold loggerStep at hs
  split at hs
  case h_7 =>
    obtain ⟨q, hq, rfl⟩ := Option.map_eq_some_iff.mp hs
    simp only [step] at hq
    split at hq
    · cases hq
      exact ⟨rfl, rfl, rfl, rfl, fun w => by simp⟩
    · cases hq
  case h_8 =>
    split at hs
    · cases hs
      exact ⟨rfl, rfl, rfl, rfl, fun _ => rfl⟩
    · cases hs
  all_goals
    cases hs
    try exact ⟨rfl, rfl, rfl, rfl, fun _ => rfl⟩

/-- **The logger's own run** leaves the rest of the program undisturbed. -/
theorem Can.undisturbed {s : AuditEngine P} {R : AuditEngine P → Prop} (hM : P * M < 2 ^ 63)
    (hr : (auditMachine Q F M).Reachable s) (h : (auditMachine Q F M).Can logging R s) :
    (auditMachine Q F M).Can logging
      (fun v => ((auditMachine Q F M).Reachable v ∧ Undisturbed s v) ∧ R v) s := by
  refine h.invariant ?_ ⟨hr, rfl, rfl, rfl, rfl, fun _ => rfl⟩
  rintro u a v ⟨hu, hsame⟩ hlog hst
  refine ⟨hu.step hst, hsame.trans ?_⟩
  cases a with
  | logger choice => exact undisturbed_loggerStep hst
  | worker | main => exact hlog.elim
  | queue t m =>
    obtain rfl : t = none := hlog
    have hinv := auditInv_of_reachable hM hu
    dsimp only [auditMachine, auditStep] at hst
    split at hst
    · next hm =>
      obtain ⟨q, hq, rfl⟩ := Option.map_eq_some_iff.mp hst
      obtain ⟨-, -, hready, -, hworker⟩ := hinv.crew.logger (hinv.tail_lt hM) hm hq
      obtain ⟨htail, -⟩ := consumer_step (trans_of_step hq) hinv.parts.logger_pc hready
      exact ⟨rfl, rfl, rfl, htail, hworker⟩
    · cases hst

/-- The logger is at its exit test, and `head` is `h`. -/
def TestsAt (h : ℕ) (s : AuditEngine P) : Prop := s.logger = .testRunning ∧ s.queue.head = h

section Logger

variable {s : AuditEngine P}

theorem can_of_loggerStep {v : AuditEngine P} {R : AuditEngine P → Prop} (choice : Bool)
    (hst : loggerStep Q s choice = some v) (h : (auditMachine Q F M).Can logging R v) :
    (auditMachine Q F M).Can logging R s :=
  .cons (a := .logger choice) trivial hst h

theorem can_of_addingCount (hl : s.logger = .addingCount) :
    (auditMachine Q F M).Can logging (TestsAt s.queue.head) s := by
  refine can_of_loggerStep true (by simp only [loggerStep, hl]; rfl) ?_
  exact .now ⟨rfl, rfl⟩

theorem can_of_addingProfit (hl : s.logger = .addingProfit) :
    (auditMachine Q F M).Can logging (TestsAt s.queue.head) s := by
  refine can_of_loggerStep true (by simp only [loggerStep, hl]; rfl) ?_
  exact can_of_addingCount rfl

theorem can_of_printing (hl : s.logger = .printing) :
    (auditMachine Q F M).Can logging (TestsAt s.queue.head) s := by
  refine can_of_loggerStep true (by simp only [loggerStep, hl]; rfl) ?_
  exact can_of_addingProfit rfl

theorem can_of_sleeping (hl : s.logger = .sleeping) :
    (auditMachine Q F M).Can logging (TestsAt s.queue.head) s := by
  refine can_of_loggerStep true (by simp only [loggerStep, hl]; rfl) ?_
  exact .now ⟨rfl, rfl⟩

/-- Back from `mpmc_dequeue`, the logger deals with its record, or sleeps. -/
theorem can_of_returned {q : Queue (Thread P) (Fin 6) (BitVec 64)} (hl : s.logger = .inDequeue)
    (hback : Returned none q) :
    (auditMachine Q F M).Can logging (TestsAt q.head) { s with queue := q } := by
  obtain ⟨ret, buf, hpc⟩ := hback
  refine can_of_loggerStep true (by simp only [loggerStep, hl, hpc]; rfl) ?_
  cases ret with
  | true => exact can_of_printing rfl
  | false => exact can_of_sleeping rfl

/-- A logger inside of `mpmc_dequeue` comes back to its exit test. -/
theorem can_of_inDequeue (hM : P * M < 2 ^ 63) (hr : (auditMachine Q F M).Reachable s)
    (hl : s.logger = .inDequeue) :
    (auditMachine Q F M).Can logging (fun v => v.logger = .testRunning) s := by
  have h := auditInv_of_reachable hM hr
  have hback : (auditMachine Q F M).Can logging
      (fun v => ∃ q, v = { s with queue := q } ∧ Returned none q) s := by
    by_cases hready : (s.queue.pc none).ready = true
    · refine .now ⟨s.queue, rfl, ?_⟩
      have hcons := h.parts.logger_pc
      have hcalled := (runInv_of_reachable hM hr).called hl
      cases hpc : s.queue.pc none with
      | dequeued ret buf => exact ⟨ret, buf, hpc⟩
      | idle => exact absurd hpc hcalled
      | _ =>
        rw [hpc] at hready
        cases hready
    · refine (can_of_alone (fun _ _ => rfl) (within_dequeued h.ring (h.tail_lt hM)
        h.parts.logger_pc (Bool.eq_false_iff.mpr hready))).imp ?_
      rintro v ⟨q, rfl, hq, -⟩
      exact ⟨q, rfl, hq⟩
  refine hback.trans ?_
  rintro v ⟨q, rfl, hq⟩
  exact (can_of_returned hl hq).imp fun v hv => hv.1

theorem loggerStep_calling (hl : s.logger = .calling) (hready : (s.queue.pc none).ready = true) :
    loggerStep Q s true = some { s with
      queue := s.queue.goto none (.deqLoadHead s.trade), logger := .inDequeue } := by
  simp only [loggerStep, hl]
  exact congrArg (Option.map _) (step_callDequeue (Q := Q) hready)

theorem can_of_calling (hM : P * M < 2 ^ 63) (hr : (auditMachine Q F M).Reachable s)
    (hl : s.logger = .calling) :
    (auditMachine Q F M).Can logging (fun v => v.logger = .testRunning) s := by
  have h := auditInv_of_reachable hM hr
  have hst := loggerStep_calling (Q := Q) hl (h.parts.logger_out (by simp [hl]))
  exact can_of_loggerStep true hst (can_of_inDequeue hM (hr.step (a := .logger true) hst) rfl)

/-- **The logger on its own** comes back to its exit test, or has left. -/
theorem can_test (hM : P * M < 2 ^ 63) (hr : (auditMachine Q F M).Reachable s)
    (hopen : s.logger ≠ .openFailed) :
    (auditMachine Q F M).Can logging
      (fun v => v.logger = .testRunning ∨ v.logger = .returned) s := by
  have hleave : ∀ {u : AuditEngine P} {h : ℕ}, (auditMachine Q F M).Reachable u →
      u.logger = .testTail h ∨ u.logger = .testHead h → (auditMachine Q F M).Can logging
        (fun v => v.logger = .testRunning ∨ v.logger = .returned) u := by
    intro u h hu hl
    obtain ⟨v, hst, hv⟩ : ∃ v, loggerStep Q u true = some v ∧
        (v.logger = .returned ∨ v.logger = .calling) := by
      rcases hl with hl | hl <;> simp only [loggerStep, hl] <;> exact ⟨_, rfl, by grind⟩
    refine can_of_loggerStep true hst ?_
    rcases hv with hv | hv
    · exact .now (.inr hv)
    · exact (can_of_calling hM (hu.step (a := .logger true) hst) hv).imp fun v hv => .inl hv
  cases hl : s.logger with
  | testRunning => exact .now (.inl hl)
  | returned => exact .now (.inr hl)
  | openFailed => exact absurd hl hopen
  | sleeping => exact (can_of_sleeping hl).imp fun v hv => .inl hv.1
  | printing => exact (can_of_printing hl).imp fun v hv => .inl hv.1
  | addingProfit => exact (can_of_addingProfit hl).imp fun v hv => .inl hv.1
  | addingCount => exact (can_of_addingCount hl).imp fun v hv => .inl hv.1
  | inDequeue => exact (can_of_inDequeue hM hr hl).imp fun v hv => .inl hv
  | calling => exact (can_of_calling hM hr hl).imp fun v hv => .inl hv
  | testTail head => exact hleave hr (.inl hl)
  | testHead tail => exact hleave hr (.inr hl)
  | opening =>
    refine can_of_loggerStep true (by simp only [loggerStep, hl]; rfl) ?_
    exact .now (.inl rfl)
  | testEmpty =>
    have hst : loggerStep Q s true = some { s with logger := .testTail s.queue.head } := by
      simp only [loggerStep, hl]
      rfl
    exact can_of_loggerStep true hst (hleave (hr.step (a := .logger true) hst) (.inl rfl))

/-- The exit test of a ring that is not empty lets the logger into its loop. -/
theorem can_enter {R : AuditEngine P → Prop} (hl : s.logger = .testRunning)
    (hne : s.queue.head ≠ s.queue.tail)
    (h : (auditMachine Q F M).Can logging R { s with logger := .calling }) :
    (auditMachine Q F M).Can logging R s := by
  cases hrun : s.running with
  | true =>
    have htest : loggerStep Q s true = some { s with logger := .calling } := by
      simp only [loggerStep, hl, hrun]
      rfl
    exact can_of_loggerStep true htest h
  | false =>
    have htest : loggerStep Q s true = some { s with logger := .testEmpty } := by
      simp only [loggerStep, hl, hrun]
      rfl
    refine can_of_loggerStep true htest ?_
    refine can_of_loggerStep true (by simp only [loggerStep]; rfl) ?_
    refine can_of_loggerStep true (by simp only [loggerStep, if_true]; rfl) ?_
    rwa [if_neg hne]

/-- The logger takes the front record, if it is published. -/
theorem can_take (hM : P * M < 2 ^ 63) (hr : (auditMachine Q F M).Reachable s)
    (hl : s.logger = .testRunning) (hne : s.queue.head ≠ s.queue.tail)
    (hseq : s.queue.seq (Q.slot s.queue.head) = s.queue.head + 1) :
    (auditMachine Q F M).Can logging (TestsAt (s.queue.head + 1)) s := by
  have h := auditInv_of_reachable hM hr
  have hhead := h.ring.head_le
  have htail := h.tail_lt hM
  have hcall := loggerStep_calling (Q := Q) (s := { s with logger := .calling }) rfl
    (h.parts.logger_out (by simp [hl]))
  refine can_enter hl hne (can_of_loggerStep true hcall ?_)
  have hat : (s.queue.goto none (.deqLoadHead s.trade)).pc none = .deqLoadHead s.trade :=
    by simp
  have hb : (s.queue.goto none (.deqLoadHead s.trade)).head < 2 ^ 63 :=
    Nat.lt_of_le_of_lt hhead htail
  refine (can_of_alone (fun _ _ => rfl)
    (within_handedOver (s := s.queue.goto none (.deqLoadHead s.trade)) hb hseq hat)).trans ?_
  rintro v ⟨q, rfl, hq, -⟩
  have hnext : q.head = s.queue.head + 1 := hq.2
  rw [← hnext]
  exact can_of_returned rfl hq.returned

/-- The workers have left no record half-written. -/
def Whole (s : AuditEngine P) : Prop := ∀ w, (s.queue.pc (some w)).writing = none

/-- **The logger empties the ring**, while no worker has stopped in the middle of its copy. -/
theorem can_drain (hM : P * M < 2 ^ 63) (hr : (auditMachine Q F M).Reachable s)
    (hl : s.logger = .testRunning) (hwhole : Whole s) :
    (auditMachine Q F M).Can logging
      (fun v => v.logger = .testRunning ∧ v.queue.head = v.queue.tail) s := by
  refine (Machine.can_of_measure (fun v => v.queue.tail - v.queue.head)
    (I := fun v => (auditMachine Q F M).Reachable v ∧ v.logger = .testRunning ∧ Whole v)
    (P := fun v => v.queue.head = v.queue.tail) ?_ ⟨hr, hl, hwhole⟩).imp
    fun v hv => ⟨hv.1.2.1, hv.2⟩
  rintro u ⟨hu, hl, hwhole⟩ hne
  have h := auditInv_of_reachable hM hu
  have hlt : u.queue.head < u.queue.tail := lt_of_le_of_ne h.ring.head_le hne
  have hseq := h.crew.front_published hwhole hlt
  refine (Can.undisturbed hM hu (can_take hM hu hl hne hseq)).imp ?_
  rintro v ⟨⟨hv, hsame⟩, hl', hhead⟩
  refine ⟨⟨hv, hl', fun w => ?_⟩, ?_⟩
  · rw [hsame.worker]
    exact hwhole w
  · have htail := hsame.tail
    omega

end Logger

/-! ### The workers -/

/-- What is left of the workers' rounds: two for each round to come, and one for the call that is
under way. -/
def AuditEngine.rest (s : AuditEngine P) (M : ℕ) : ℕ :=
  ∑ w, (2 * (M - s.issued w) + if (s.queue.pc (some w)).ready then 0 else 1)

/-- One worker has less left, and the others as much as before. -/
theorem rest_lt {s v : AuditEngine P} (w : Fin P)
    (hother : ∀ u, u ≠ w → v.issued u = s.issued u ∧
      v.queue.pc (some u) = s.queue.pc (some u))
    (hless : (2 * (M - v.issued w) + if (v.queue.pc (some w)).ready then 0 else 1) <
      2 * (M - s.issued w) + if (s.queue.pc (some w)).ready then 0 else 1) :
    v.rest M < s.rest M := by
  refine Finset.sum_lt_sum (fun u _ => ?_) ⟨w, Finset.mem_univ w, hless⟩
  by_cases hu : u = w
  · rw [hu]
    exact hless.le
  · obtain ⟨hissued, hpc⟩ := hother u hu
    rw [hissued, hpc]

theorem rest_undisturbed {s v : AuditEngine P} (h : Undisturbed s v) : v.rest M = s.rest M := by
  simp only [AuditEngine.rest, h.issued, h.worker]

/-- Going on: the program is in a reachable state, and its log file is open or about to be. -/
def Going (Q : QueueSize) (F : Feed P) (M : ℕ) (s : AuditEngine P) : Prop :=
  (auditMachine Q F M).Reachable s ∧ s.logger ≠ .openFailed

section Workers

variable {s : AuditEngine P} {w : Fin P}

/-- A worker that does not have to wait for room returns from its call. -/
theorem can_return (hM : P * M < 2 ^ 63) (hs : Going Q F M s)
    (hready : (s.queue.pc (some w)).ready = false)
    (hroom : (s.queue.pc (some w)).writing ≠ none ∨
      s.queue.seq (Q.slot s.queue.tail) = s.queue.tail) :
    (auditMachine Q F M).Can Machine.free (fun v => Going Q F M v ∧ v.rest M < s.rest M) s := by
  have h := auditInv_of_reachable hM hs.1
  have hback := can_of_alone (F := F) (M := M) (g := Machine.free) (fun _ _ => trivial)
    (within_enqueued (h.parts.worker_pc w) hready hroom)
  refine (hback.invariant (I := (auditMachine Q F M).Reachable)
    (fun _ _ _ hu _ hst => hu.step hst) hs.1).imp ?_
  rintro v ⟨hv, q, rfl, hq, hother⟩
  refine ⟨⟨hv, hs.2⟩, rest_lt w (fun u hu => ⟨rfl, hother (some u) (by simpa using hu)⟩) ?_⟩
  have hidle : q.pc (some w) = .idle := hq.1
  simp only [hidle, hready]
  simp [Pc.ready]

/-- A worker begins its next round. -/
theorem exists_round (hlt : s.issued w < M) (hready : (s.queue.pc (some w)).ready = true) :
    ∃ v, (auditMachine Q F M).step s (.worker w) = some v ∧ v.issued w = s.issued w + 1 ∧
      (v.queue.pc (some w)).ready = false ∧ v.logger = s.logger ∧
        ∀ u, u ≠ w → v.issued u = s.issued u ∧ v.queue.pc (some u) = s.queue.pc (some u) := by
  have hcall := step_callEnqueue (Q := Q) (d := (F.trade w (s.issued w)).words) hready
  have hst : (auditMachine Q F M).step s (.worker w) =
      some { s with
        queue := { s.queue.goto (some w) (.enqLoadTail (F.trade w (s.issued w)).words) with
          calls := s.queue.calls ++ [(some w, (F.trade w (s.issued w)).words)] }
        issued := Function.update s.issued w (s.issued w + 1) } := by
    simp only [auditMachine, auditStep]
    rw [if_pos hlt]
    exact congrArg (Option.map _) hcall
  refine ⟨_, hst, by simp, by simp [Pc.ready], rfl, fun u hu => ?_⟩
  simp [hu]

/-- While `running` is set, the logger has not left: it empties the ring. -/
theorem can_empty (hM : P * M < 2 ^ 63) (hs : Going Q F M s) (hrun : s.running = true)
    (hwhole : Whole s) :
    (auditMachine Q F M).Can Machine.free (fun v => Going Q F M v ∧ Undisturbed s v ∧
      v.logger = .testRunning ∧ v.queue.head = v.queue.tail) s := by
  refine ((Can.undisturbed hM hs.1 (can_test hM hs.1 hs.2)).trans ?_).mono fun _ _ _ => trivial
  rintro u ⟨⟨hu, hsame⟩, hl⟩
  have hrun' : u.running = true := hsame.running.trans hrun
  have htest : u.logger = .testRunning := by
    refine hl.resolve_right fun hret => ?_
    have hstopped := (auditInv_of_reachable hM hu).shutdown.leaving (by rw [hret]; rfl)
    rw [hrun'] at hstopped
    cases hstopped
  have hwhole' : Whole u := by
    intro w
    rw [hsame.worker]
    exact hwhole w
  refine (Can.undisturbed hM hu (can_drain hM hu htest hwhole')).imp ?_
  rintro v ⟨⟨hv, hsame'⟩, hl', hempty⟩
  exact ⟨⟨hv, by simp [hl']⟩, hsame.trans hsame', hl', hempty⟩

/-- **The workers' rounds come to an end.** -/
theorem can_finish_rounds (hM : P * M < 2 ^ 63) (hs : Going Q F M s) :
    (auditMachine Q F M).Can Machine.free
      (fun v => Going Q F M v ∧ ∀ w, v.finished M w = true) s := by
  refine Machine.can_of_measure (AuditEngine.rest · M) (fun s hs hnot => ?_) hs
  have h := auditInv_of_reachable hM hs.1
  obtain ⟨w, hw⟩ := not_forall.mp hnot
  have hrun := h.running_of_not_finished hw
  by_cases hwriting : ∃ u, (s.queue.pc (some u)).writing ≠ none
  · -- a worker in the middle of its copy
    obtain ⟨u, hu⟩ := hwriting
    refine can_return hM hs ?_ (.inl hu)
    by_contra hready
    exact hu (Pc.ready_iff (Bool.eq_true_of_not_eq_false hready)).2.1
  · have hwhole : Whole s := by
      intro u
      by_contra hu
      exact hwriting ⟨u, hu⟩
    by_cases hready : (s.queue.pc (some w)).ready = true
    · -- a worker between two rounds
      have hlt : s.issued w < M := by
        refine lt_of_le_of_ne (h.parts.issued_le w) fun heq => hw ?_
        simp [AuditEngine.finished, heq, hready]
      obtain ⟨v, hst, hissued, hpc, hlogger, hother⟩ := exists_round (F := F) (Q := Q) hlt hready
      refine .cons (a := .worker w) trivial hst (.now ⟨⟨hs.1.step hst, ?_⟩, rest_lt w hother ?_⟩)
      · rw [hlogger]
        exact hs.2
      · simp only [hissued, hpc, hready]
        simp
        omega
    · -- a worker that may have to wait for room
      refine (can_empty hM hs hrun hwhole).trans ?_
      rintro v ⟨hv, hsame, hl, hempty⟩
      have hv' := auditInv_of_reachable hM hv.1
      have hout := (Pc.ready_iff (hv'.parts.logger_out (by simp [hl]))).2.2
      have hrel := released_of_reachable (queue_of_reachable hv.1)
        (by rw [← hv'.ring.tail_eq]; exact hv'.tail_lt hM)
      have hfree := hv'.crew.free_of_empty hrel hout hempty
      rw [← rest_undisturbed hsame]
      refine can_return (w := w) hM hv ?_ (.inr hfree)
      rw [hsame.worker]
      exact Bool.eq_false_iff.mpr hready

end Workers

/-! ### The end -/

section End

variable {s : AuditEngine P}

/-- When every worker has returned, all trades have gone into the ring. -/
theorem tail_of_finished (h : AuditInv Q F M s) (hfin : ∀ w, s.finished M w = true) :
    s.queue.tail = P * M := by
  have hdone : ∀ w, s.issued w = M ∧ (s.queue.pc (some w)).ready = true := by
    intro w
    simpa [AuditEngine.finished] using hfin w
  rw [h.crew.tail_eq fun w => (hdone w).2, Finset.sum_congr rfl fun w _ => (hdone w).1]
  simp

theorem can_of_mainStep {v : AuditEngine P} {R : AuditEngine P → Prop}
    (hst : mainStep M s = some v) (h : (auditMachine Q F M).Can Machine.free R v) :
    (auditMachine Q F M).Can Machine.free R s :=
  .cons (a := .main) trivial hst h

/-- Workers that have returned have left no record half-written. -/
theorem whole_of_finished (hfin : ∀ w, s.finished M w = true) : Whole s := by
  intro w
  have hdone := hfin w
  rw [AuditEngine.finished, Bool.and_eq_true] at hdone
  exact (Pc.ready_iff hdone.2).2.1

/-- Behind the ring's last record and a cleared `running` the logger leaves. -/
theorem can_return_logger (hl : s.logger = .testRunning) (hrun : s.running = false)
    (hempty : s.queue.head = s.queue.tail) :
    (auditMachine Q F M).Can logging (fun v => v.logger = .returned) s := by
  have htest : loggerStep Q s true = some { s with logger := .testEmpty } := by
    simp only [loggerStep, hl, hrun]
    rfl
  refine can_of_loggerStep true htest ?_
  refine can_of_loggerStep true (by simp only [loggerStep]; rfl) ?_
  refine can_of_loggerStep true (by simp only [loggerStep, if_true]; rfl) ?_
  exact .now (by simp [hempty])

theorem can_of_joiningLogger (hM : P * M < 2 ^ 63) (hs : Going Q F M s)
    (hm : s.main = .joiningLogger) :
    (auditMachine Q F M).Can Machine.free (fun v => v.main = .done) s := by
  have hrun := (runInv_of_reachable hM hs.1).stopped (.inl hm)
  have hout : (auditMachine Q F M).Can logging (fun v => v.logger = .returned) s := by
    refine (Can.undisturbed hM hs.1 (can_test hM hs.1 hs.2)).trans ?_
    rintro u ⟨⟨hu, hsame⟩, hl | hl⟩
    · have hmain := (auditInv_of_reachable hM hu).shutdown.main
      rw [hsame.main, hm] at hmain
      have hwhole : Whole u := whole_of_finished hmain.1
      refine (Can.undisturbed hM hu (can_drain hM hu hl hwhole)).trans ?_
      rintro v ⟨⟨-, hsame'⟩, hl', hempty⟩
      exact can_return_logger hl' ((hsame.trans hsame').running.trans hrun) hempty
    · exact .now hl
  refine ((Can.undisturbed hM hs.1 hout).mono fun _ _ _ => trivial).trans ?_
  rintro v ⟨⟨-, hsame⟩, hl⟩
  have hst : mainStep M v = some { v with main := .done } := by
    simp only [mainStep, hsame.main, hm]
    exact if_pos (.inl hl)
  exact can_of_mainStep hst (.now rfl)

theorem can_of_stopping (hM : P * M < 2 ^ 63) (hs : Going Q F M s) (hm : s.main = .stopping) :
    (auditMachine Q F M).Can Machine.free (fun v => v.main = .done) s := by
  have hst : mainStep M s = some { s with running := false, main := .joiningLogger } := by
    simp only [mainStep, hm]
  exact can_of_mainStep hst (can_of_joiningLogger hM ⟨hs.1.step (a := .main) hst, hs.2⟩ rfl)

theorem can_of_waitHead (hM : P * M < 2 ^ 63) (hbound : tradesBound P M ≤ P * M)
    (hs : Going Q F M s) (hm : s.main = .waitHead) :
    (auditMachine Q F M).Can Machine.free (fun v => v.main = .done) s := by
  have h := auditInv_of_reachable hM hs.1
  have hfin : ∀ w, s.finished M w = true := by
    have hmain := h.shutdown.main
    rwa [hm] at hmain
  have hrun : s.running = true := by
    by_contra hrun
    have hstopped := h.shutdown.stopped (Bool.eq_false_iff.mpr hrun)
    rw [hm] at hstopped
    rcases hstopped with heq | heq <;> cases heq
  refine (can_empty hM hs hrun (whole_of_finished hfin)).trans ?_
  rintro v ⟨hv, hsame, -, hempty⟩
  have htail := tail_of_finished (auditInv_of_reachable hM hv.1) (hsame.finished hfin)
  have hst : mainStep M v = some { v with main := .stopping } := by
    simp only [mainStep, hsame.main, hm]
    rw [if_neg (by omega)]
  exact can_of_mainStep hst (can_of_stopping hM ⟨hv.1.step (a := .main) hst, hv.2⟩ rfl)

/-- `main` joins the workers that have returned, one after the other. -/
theorem can_of_joining (hM : P * M < 2 ^ 63) (hbound : tradesBound P M ≤ P * M)
    (hfin : ∀ w, s.finished M w = true) {k : ℕ} (hs : Going Q F M s) (hm : s.main = .joining k) :
    (auditMachine Q F M).Can Machine.free (fun v => v.main = .done) s := by
  obtain ⟨n, hn⟩ : ∃ n, P - k ≤ n := ⟨_, le_rfl⟩
  induction n generalizing s k with
  | zero =>
    have hst : mainStep M s = some { s with main := .waitHead } := by
      simp only [mainStep, hm]
      rw [dif_neg (by omega)]
    exact can_of_mainStep hst (can_of_waitHead hM hbound ⟨hs.1.step (a := .main) hst, hs.2⟩ rfl)
  | succ n ih =>
    by_cases hk : k < P
    · have hst : mainStep M s = some { s with main := .joining (k + 1) } := by
        simp only [mainStep, hm]
        rw [dif_pos hk, if_pos (hfin _)]
      refine can_of_mainStep hst (ih hfin ⟨hs.1.step (a := .main) hst, hs.2⟩ rfl ?_)
      omega
    · have hst : mainStep M s = some { s with main := .waitHead } := by
        simp only [mainStep, hm]
        rw [dif_neg hk]
      exact can_of_mainStep hst (can_of_waitHead hM hbound ⟨hs.1.step (a := .main) hst, hs.2⟩ rfl)

/-- **The program can get to its end, exactly if its log file opens and `main` does not wait for
more trades than there are**: from every state of every run with fewer than `2 ^ 63` trades, where
the product that `main` compares `head` with is not 0, some schedule takes `main` to its end, unless
`fopen` has failed or the product has overflowed to a larger number (as it does from `2 ^ 31` up to
`2 ^ 32`).  Then none does. -/
theorem audit_can_finish_iff (hM : P * M < 2 ^ 63) (hpos : 0 < tradesBound P M)
    (hr : (auditMachine Q F M).Reachable s) :
    (auditMachine Q F M).Can Machine.free (fun v => v.main = .done) s ↔
      s.logger ≠ .openFailed ∧ tradesBound P M ≤ P * M := by
  constructor
  · rintro ⟨as, v, hpath, hdone⟩
    have hv := hpath.reachable hr
    have h := auditInv_of_reachable hM hv
    have hmain := h.shutdown.main
    rw [hdone] at hmain
    have hwaited : tradesBound P M ≤ v.queue.head := hmain.2
    refine ⟨fun hl => ?_, ?_⟩
    · have hfailed : v.logger = .openFailed :=
        hpath.invariant (P := fun u => u.logger = .openFailed)
          (fun _ _ _ hu _ hst => (logger_of_ended hst (.inr hu)).trans hu) hl
      have hhead := (runInv_of_reachable hM hv).unread (.inr hfailed)
      omega
    · have hle := h.ring.head_le
      have htail := tail_of_finished h hmain.1
      omega
  · rintro ⟨hopen, hbound⟩
    refine (can_finish_rounds hM ⟨hr, hopen⟩).trans ?_
    rintro v ⟨hv, hfin⟩
    cases hm : v.main with
    | joining k => exact can_of_joining hM hbound hfin hv hm
    | waitHead => exact can_of_waitHead hM hbound hv hm
    | stopping => exact can_of_stopping hM hv hm
    | joiningLogger => exact can_of_joiningLogger hM hv hm
    | done => exact .now hm

end End

/-- Two workers with one trade each: worker 1 has returned, worker 0 has stopped in its copy, and
the logger is about to open its file. -/
def stoppedSchedule : List (Act 2) :=
  enqueueSchedule 1 ++ [.worker 0, .queue (some 0) .go, .queue (some 0) .go, .queue (some 0) .go,
    .queue (some 0) (.copy 3)]

theorem audit_can_finish_two_workers :
    ∃ s s' : AuditEngine 2, (s.queue.pc (some 0)).writing = some 1 ∧
      (auditMachine twoSlots (simulationFeed 2 (fun _ _ => 5) fun _ _ => 9) 1).step s
        (.logger false) = some s' ∧
      (auditMachine twoSlots (simulationFeed 2 (fun _ _ => 5) fun _ _ => 9) 1).Can Machine.free
        (fun v => v.main = .done) s ∧
      ¬(auditMachine twoSlots (simulationFeed 2 (fun _ _ => 5) fun _ _ => 9) 1).Can Machine.free
        (fun v => v.main = .done) s' := by
  have heval : ((auditMachine twoSlots (simulationFeed 2 (fun _ _ => 5) fun _ _ => 9) 1).exec
      (fun _ _ => true) (initEngine (fun _ _ => 0) fun _ => 0) stoppedSchedule).map
        (fun s => ((s.queue.pc (some 0)).writing, s.logger)) = some (some 1, .opening) := by
    decide
  obtain ⟨s, hpath, hq⟩ := Machine.exists_path_of_exec heval
  obtain ⟨hwriting, hl⟩ := Prod.mk.inj hq
  have hr := hpath.reachable (.init ⟨_, _, rfl⟩)
  have hst : (auditMachine twoSlots (simulationFeed 2 (fun _ _ => 5) fun _ _ => 9) 1).step s
      (.logger false) = some { s with logger := .openFailed } := by
    simp only [auditMachine, auditStep, loggerStep, hl]
    rfl
  refine ⟨s, _, hwriting, hst, ?_, ?_⟩
  · refine (audit_can_finish_iff (by decide) (by decide) hr).mpr ?_
    rw [hl]
    exact ⟨by simp, by decide⟩
  · intro hcan
    exact ((audit_can_finish_iff (by decide) (by decide) (hr.step hst)).mp hcan).1 rfl

end Audit
end SovereignSeed
