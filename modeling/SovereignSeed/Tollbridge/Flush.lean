import SovereignSeed.Tollbridge.Telemetry

/-!
# Flushes that succeed

Guards on the steps of a run, and what holds in the runs they let through: no row of a
batch is skipped, so the table, the rest of the batch and the queue stay in line
with the payloads put; a flush that has committed leaves nothing unsaved; and a
writer that has left its loop has left it with an empty queue.

## Main definitions

* `rowsSucceed`, `flushSucceeds` — the statements of the flushes do not raise.
* `Conserved` — the payloads are where they belong.
* `Flushed` — outside a flush the telemetry is saved.
* `RunInv`, `ExitInv` — how the writer left its loop.

## Main results

* `Conserved.step`, `Flushed.step`, `RunInv.step`, `ExitInv.step` — **the guarded
  steps preserve them.**
-/

namespace SovereignSeed
namespace Tollbridge

open Python

variable {C : Crypto} {cfg : Config} {eid : ℕ} {base : List TelemetryRow} {s s' : Engine} {a : Act}

/-! ### Guards -/

/-- The row the flush writes next. -/
def Engine.nextRow (s : Engine) : Option TelemetryRow :=
  match s.writer with
  | .writing _ k => s.batch[k]?
  | _ => none

/-- The step is no `BEGIN` and no row of a flush that raises. -/
def rowsSucceed (s : Engine) : Act → Bool
  | .flushBegin fault => !fault
  | .flushRow fault => !fault && s.nextRow.all TelemetryRow.bindable
  | _ => true

/-- The step is no statement of a flush that raises. -/
def flushSucceeds (s : Engine) (a : Act) : Bool :=
  rowsSucceed s a &&
    match a with
    | .flushCommit fault => !(fault && s.store.inTx)
    | _ => true

/-! ### No row is skipped -/

/-- The rows of the table, the rest of the batch and the queue are those of the
start and the payloads put, in order. -/
structure Conserved (base : List TelemetryRow) (s : Engine) : Prop where
  flushed : ∀ final k, s.writer = .flushed final k → k = s.batch.length
  eq : s.telemetry.view ++ s.batch.drop s.writer.written ++ s.queue = base ++ s.accepted

namespace Conserved

theorem of_fresh {file : Tables} : Conserved file.telemetry (.fresh file) where
  flushed := nofun
  eq := by
    change (file.telemetry ++ []) ++ [] = file.telemetry ++ []
    rw [List.append_nil]

theorem of_bystander (h : Conserved base s) (hb : Bystander s s') : Conserved base s' where
  flushed := by rw [hb.writer, hb.batch]; exact h.flushed
  eq := by rw [hb.view, hb.batch, hb.writer, hb.queue, hb.accepted]; exact h.eq

/-- A writer that moves between points where no row of the batch is written. -/
theorem setWriter (h : Conserved base s) {w : WriterPc} (hold : s.writer.written = 0)
    (hnew : w.written = 0) (hne : ∀ final k, w ≠ .flushed final k) :
    Conserved base { s with writer := w } where
  flushed := fun final k hw => absurd hw (hne final k)
  eq := by
    have heq := h.eq
    rw [hold] at heq
    rw [hnew]
    exact heq

/-- **A step that skips no row and closes on no unsaved one preserves the order.** -/
theorem step (h : Conserved base s) (hp : PipeInv cfg s) (hm : Moves C cfg eid s a s')
    (hrows : rowsSucceed s a = true)
    (hclose : a = .stopReturn → s.telemetry.file = s.telemetry.view) : Conserved base s' := by
  cases hm with
  | submit => exact h.of_bystander .submit
  | pcOnly => exact h.of_bystander .pcOnly
  | begun => exact h.of_bystander .begun
  | inserted => exact h.of_bystander (.inserted hp.sound)
  | committed => exact h.of_bystander .committed
  | start he hw =>
    refine ⟨fun _ _ heq => (by cases heq), ?_⟩
    have heq := h.eq
    rw [hw] at heq
    rw [Store.view_of_epoch_eq_none s.telemetry (by simpa [Engine.telemetry] using he)] at heq
    exact heq
  | stopCall => exact ⟨h.flushed, h.eq⟩
  | stopReturn hstop hw =>
    refine ⟨h.flushed, ?_⟩
    have heq := h.eq
    rw [← hclose rfl] at heq
    exact heq
  | put hcall hpc hroom =>
    refine ⟨h.flushed, ?_⟩
    change s.telemetry.view ++ s.batch.drop s.writer.written ++ (s.queue ++ [_]) =
      base ++ (s.accepted ++ [_])
    rw [← List.append_assoc, h.eq, List.append_assoc]
  | writerOnly hmove =>
    cases hmove with
    | start hw => exact h.setWriter (by rw [hw]; rfl) (written_loopTest s) (loopTest_ne s).2.2
    | timeout hw => exact h.setWriter (by rw [hw]; rfl) (written_afterGet cfg s) (afterGet_ne cfg s).2.2
    | cancel hw =>
      apply h.setWriter (by rw [hw]; rfl) (written_finalDrain s)
      intro final k
      rcases finalDrain_cases s with ⟨hd, -⟩ | ⟨hd, -⟩ <;> rw [hd] <;> rintro ⟨⟩
    | beginFailed hw hfail =>
      rcases hfail with he | rfl
      · exact absurd he (hp.epoch_ne_none hw (by rintro ⟨⟩))
      · cases hrows
    | rowFailed hw hk hfail =>
      rcases hfail with hbind | rfl
      · simp [rowsSucceed, Engine.nextRow, hw, hk, hbind] at hrows
      · cases hrows
    | commitFailed hw hk =>
      refine ⟨fun _ _ heq => by cases heq; exact hk, ?_⟩
      have heq := h.eq
      rw [hw] at heq
      exact heq
  | @got item rest hw hq =>
    refine ⟨fun final k heq => absurd heq ((afterGet_ne cfg _).2.2 final k), ?_⟩
    have heq := h.eq
    rw [hw, hq] at heq
    change s.telemetry.view ++ (s.batch ++ [item]).drop (Engine.afterGet cfg _).written ++ rest = _
    rw [written_afterGet, List.drop_zero, ← heq]
    simp [WriterPc.written]
  | flushBegun hw =>
    refine ⟨fun _ _ heq => (by cases heq), ?_⟩
    have heq := h.eq
    rw [hw] at heq
    rw [telemetry_of_beginTx (s := s) rfl, Store.view_beginTx]
    exact heq
  | @rowWritten final k item hw hk =>
    refine ⟨fun _ _ heq => (by cases heq), ?_⟩
    obtain ⟨hlt, hget⟩ := List.getElem?_eq_some_iff.mp hk
    have heq := h.eq
    rw [hw] at heq
    change (s.insertTelemetry item).telemetry.view ++ s.batch.drop (k + 1) ++ s.queue =
      base ++ s.accepted
    rw [view_insertTelemetry (hp.epoch_ne_none hw (by rintro ⟨⟩)) item, ← heq,
      List.append_assoc _ [item]]
    change _ = s.telemetry.view ++ s.batch.drop k ++ s.queue
    rw [List.drop_eq_getElem_cons hlt, hget]
    rfl
  | flushCommitted hw hk =>
    refine ⟨fun _ _ heq => by cases heq; exact hk, ?_⟩
    have heq := h.eq
    rw [hw] at heq
    rw [telemetry_of_commit (s := s) rfl, Store.view_commit]
    exact heq
  | @flushReturned final k hw =>
    have hk := h.flushed final k hw
    refine ⟨fun f n heq => ?_, ?_⟩
    · cases final with
      | true => cases heq
      | false => exact absurd heq ((loopTest_ne _).2.2 f n)
    · have heq := h.eq
      rw [hw, WriterPc.written, hk, List.drop_length] at heq
      change s.telemetry.view ++ ([] : List TelemetryRow).drop _ ++ s.queue = _
      rw [List.drop_nil]
      exact heq

/-- Every payload put is in the table, in the batch or in the queue. -/
theorem mem (h : Conserved base s) {item : TelemetryRow} (hitem : item ∈ s.accepted) :
    item ∈ s.telemetry.view ∨ item ∈ s.batch ∨ item ∈ s.queue := by
  have hmem : item ∈ s.telemetry.view ++ s.batch.drop s.writer.written ++ s.queue := by
    rw [h.eq]
    exact List.mem_append_right _ hitem
  rcases List.mem_append.mp hmem with hmem | hmem
  · rcases List.mem_append.mp hmem with hmem | hmem
    · exact .inl hmem
    · exact .inr (.inl (List.mem_of_mem_drop hmem))
  · exact .inr (.inr hmem)

end Conserved

/-! ### What is flushed is saved -/

/-- Outside a flush the telemetry is saved. -/
def Flushed (s : Engine) : Prop :=
  (∀ final k, s.writer ≠ .writing final k) → s.telemetry.file = s.telemetry.view

namespace Flushed

theorem of_fresh {file : Tables} : Flushed (.fresh file) := fun _ => rfl

theorem of_bystander (h : Flushed s) (hb : Bystander s s') : Flushed s' := fun hw => by
  rw [hb.writer] at hw
  rcases hb.file with heq | heq <;> rw [heq, hb.view]
  exact h hw

/-- **A step of a flush that succeeds leaves nothing unsaved behind.** -/
theorem step (h : Flushed s) (hp : PipeInv cfg s) (hm : Moves C cfg eid s a s')
    (hok : flushSucceeds s a = true) : Flushed s' := by
  obtain ⟨hrows, hcommit⟩ := Bool.and_eq_true_iff.mp hok
  have hkeep : ∀ {t : Engine}, (∀ final k, s.writer ≠ .writing final k) → t.store = s.store →
      t.telemetry.file = t.telemetry.view := fun hw ht => by
    rw [Engine.telemetry, ht]
    exact h hw
  cases hm with
  | submit => exact h.of_bystander .submit
  | pcOnly => exact h.of_bystander .pcOnly
  | begun => exact h.of_bystander .begun
  | inserted => exact h.of_bystander (.inserted hp.sound)
  | committed => exact h.of_bystander .committed
  | start => exact fun _ => rfl
  | stopCall => exact h
  | stopReturn => exact fun _ => rfl
  | put => exact h
  | writerOnly hmove =>
    refine fun _ => hkeep ?_ rfl
    cases hmove with
    | start hw => rw [hw]; rintro _ _ ⟨⟩
    | timeout hw => rw [hw]; rintro _ _ ⟨⟩
    | cancel hw => rw [hw]; rintro _ _ ⟨⟩
    | beginFailed hw => rw [hw]; rintro _ _ ⟨⟩
    | rowFailed hw hk hfail =>
      rcases hfail with hbind | rfl
      · simp [rowsSucceed, Engine.nextRow, hw, hk, hbind] at hrows
      · cases hrows
    | commitFailed hw hk htx => simp [htx] at hcommit
  | got hw => exact fun _ => hkeep (by rw [hw]; rintro _ _ ⟨⟩) rfl
  | flushBegun => exact fun hw => absurd rfl (hw _ _)
  | rowWritten => exact fun hw => absurd rfl (hw _ _)
  | flushCommitted =>
    intro _
    rw [telemetry_of_commit (s := s) rfl, Store.file_commit, Store.view_commit]
  | flushReturned hw => exact fun _ => hkeep (by rw [hw]; rintro _ _ ⟨⟩) rfl

/-- When `stop()` closes the connection everything is saved. -/
theorem of_stopReturn (h : Flushed s) (hm : Moves C cfg eid s .stopReturn s') :
    s.telemetry.file = s.telemetry.view := by
  cases hm with
  | stopReturn _ hw => exact h (by rw [hw]; nofun)
  | pcOnly _ hmove => cases hmove
  | writerOnly hmove => cases hmove

end Flushed

/-! ### How the writer left its loop -/

/-- The stop event is set, and the loop left, only on account of a `stop()`. -/
structure RunInv (s : Engine) : Prop where
  stopEvent : s.stopEvent = true → s.stopping = true ∨ s.store.epoch = none
  exited : s.writer.exited = true → s.stopping = true ∨ s.store.epoch = none

namespace RunInv

theorem of_fresh {file : Tables} : RunInv (.fresh file) := ⟨nofun, fun _ => .inr rfl⟩

theorem of_bystander (h : RunInv s) (hb : Bystander s s') : RunInv s' where
  stopEvent := by rw [hb.stopEvent, hb.stopping, hb.epoch]; exact h.stopEvent
  exited := by rw [hb.writer, hb.stopping, hb.epoch]; exact h.exited

/-- **Unless the writer is cancelled, a step leaves the loop for a `stop()` only.** -/
theorem step (h : RunInv s) (hp : PipeInv cfg s) (hm : Moves C cfg eid s a s')
    (hok : a ≠ .cancel) : RunInv s' := by
  cases hm with
  | submit => exact h.of_bystander .submit
  | pcOnly => exact h.of_bystander .pcOnly
  | begun => exact h.of_bystander .begun
  | inserted => exact h.of_bystander (.inserted hp.sound)
  | committed => exact h.of_bystander .committed
  | start => exact ⟨nofun, nofun⟩
  | stopCall => exact ⟨fun _ => .inl rfl, fun _ => .inl rfl⟩
  | stopReturn => exact ⟨fun _ => .inr rfl, fun _ => .inr rfl⟩
  | put => exact ⟨h.stopEvent, h.exited⟩
  | writerOnly hmove =>
    refine ⟨h.stopEvent, fun hexit => ?_⟩
    cases hmove with
    | start => exact h.stopEvent (exited_loopTest hexit).1
    | timeout => exact h.stopEvent (exited_afterGet hexit).1
    | cancel => exact absurd rfl hok
    | beginFailed hw => exact h.exited (by rw [hw]; exact hexit)
    | rowFailed hw => exact h.exited (by rw [hw]; exact hexit)
    | commitFailed hw => exact h.exited (by rw [hw]; exact hexit)
  | got => exact ⟨h.stopEvent, fun hexit => h.stopEvent (exited_afterGet hexit).1⟩
  | flushBegun hw =>
    exact ⟨by simpa using h.stopEvent, fun hexit => by simpa using h.exited (by rw [hw]; exact hexit)⟩
  | rowWritten hw =>
    have hepoch : ∀ {row}, (s.insertTelemetry row).store.epoch = s.store.epoch :=
      Store.epoch_write _ _
    refine ⟨fun hs => ?_, fun hexit => ?_⟩
    · exact hepoch.symm ▸ h.stopEvent hs
    · exact hepoch.symm ▸ h.exited (by rw [hw]; exact hexit)
  | flushCommitted hw =>
    exact ⟨by simpa using h.stopEvent, fun hexit => by simpa using h.exited (by rw [hw]; exact hexit)⟩
  | @flushReturned final k hw =>
    refine ⟨h.stopEvent, fun hexit => ?_⟩
    cases final with
    | true => exact h.exited (by rw [hw]; rfl)
    | false => exact h.stopEvent (exited_loopTest hexit).1

end RunInv

/-- The step of call `i` that puts its payload. -/
def Engine.putsNext (cfg : Config) (s : Engine) (i : ℕ) : Bool :=
  (s.calls i).any fun call => call.pc == .finished (.ok ()) && !s.queueFull cfg

/-- A writer that has left its loop has left it with an empty queue, and nothing
has been put since. -/
def ExitInv (s : Engine) : Prop := s.writer.exited = true → s.queue = []

namespace ExitInv

theorem of_fresh {file : Tables} : ExitInv (.fresh file) := fun _ => rfl

theorem of_bystander (h : ExitInv s) (hb : Bystander s s') : ExitInv s' := fun hexit => by
  rw [hb.queue]
  exact h (hb.writer ▸ hexit)

/-- **A step that neither puts after the loop nor cancels the writer over a queue
keeps the queue of an ended loop empty.** -/
theorem step (h : ExitInv s) (hp : PipeInv cfg s) (hm : Moves C cfg eid s a s')
    (hput : ∀ i now, a = .resume i now → s.writer.exited = true → s.putsNext cfg i = false)
    (hcancel : a = .cancel → s.queue = []) : ExitInv s' := by
  cases hm with
  | submit => exact h.of_bystander .submit
  | pcOnly => exact h.of_bystander .pcOnly
  | begun => exact h.of_bystander .begun
  | inserted => exact h.of_bystander (.inserted hp.sound)
  | committed => exact h.of_bystander .committed
  | start => exact nofun
  | stopCall => exact h
  | stopReturn => exact h
  | put hcall hpc hroom =>
    intro hexit
    have hno := hput _ _ rfl hexit
    simp [Engine.putsNext, hcall, hpc, hroom] at hno
  | writerOnly hmove =>
    intro hexit
    cases hmove with
    | start => exact (exited_loopTest hexit).2
    | timeout => exact (exited_afterGet hexit).2
    | cancel => exact hcancel rfl
    | beginFailed hw => exact h (by rw [hw]; exact hexit)
    | rowFailed hw => exact h (by rw [hw]; exact hexit)
    | commitFailed hw => exact h (by rw [hw]; exact hexit)
  | got => exact fun hexit => (exited_afterGet hexit).2
  | flushBegun hw => exact fun hexit => h (by rw [hw]; exact hexit)
  | rowWritten hw => exact fun hexit => h (by rw [hw]; exact hexit)
  | flushCommitted hw => exact fun hexit => h (by rw [hw]; exact hexit)
  | @flushReturned final k hw =>
    intro hexit
    cases final with
    | true => exact h (by rw [hw]; rfl)
    | false => exact (exited_loopTest hexit).2

end ExitInv

end Tollbridge
end SovereignSeed
