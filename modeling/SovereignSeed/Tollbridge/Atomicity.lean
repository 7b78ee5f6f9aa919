import SovereignSeed.Tollbridge.Persistence

/-!
# Whole batches

A flush inserts its rows one by one and commits at the end.  Nothing rolls back:
when a row raises, the rows before it stay in the transaction the connection has
open, which the next commit saves, whoever makes it.  And a commit of another
thread in the middle of a flush saves the rows written so far.

## Main definitions

* `AllOrNone` — a table has all rows of a batch, or none.
* `Engine.pending` — the rows that may still be written.
* `OrderInv` — no row is written twice.
* `FlushOf` — the steps from the beginning of a flush to the end of its thread.
* `keepsWhole` — a statement of a flush that raises leaves no part of the batch behind.
* `Settled` — a batch that is all or none wherever it may be seen.

## Main results

* `Settled.step` — **what is all or none stays so.**
* `flush_whole_iff` — **when a flush is all-or-nothing.**
-/

namespace SovereignSeed
namespace Tollbridge

open Python

variable {C : Crypto} {cfg : Config} {eid : ℕ} {base : List TelemetryRow} {s s' : Engine} {a : Act}

/-! ### All or none -/

/-- `table` has all of `rows`, or none of them. -/
def AllOrNone (rows table : List TelemetryRow) : Prop :=
  (∀ row ∈ rows, row ∈ table) ∨ ∀ row ∈ rows, row ∉ table

instance (rows table : List TelemetryRow) : Decidable (AllOrNone rows table) :=
  inferInstanceAs (Decidable (_ ∨ _))

/-- A table that has the same rows of the batch. -/
theorem AllOrNone.congr {rows table table' : List TelemetryRow} (h : AllOrNone rows table)
    (heq : ∀ row ∈ rows, row ∈ table' ↔ row ∈ table) : AllOrNone rows table' := by
  rcases h with hall | hnone
  · exact .inl fun row hrow => (heq row hrow).mpr (hall row hrow)
  · exact .inr fun row hrow hmem => hnone row hrow ((heq row hrow).mp hmem)

/-! ### The rows on the way -/

/-- The rows of the batch that the writer has not written; a flush that has ended
writes no more. -/
def WriterPc.unwritten (batch : List TelemetryRow) : WriterPc → List TelemetryRow
  | .flushed _ _ => []
  | w => batch.drop w.written

/-- The rows that may still be written. -/
def Engine.pending (s : Engine) : List TelemetryRow := s.writer.unwritten s.batch ++ s.queue

theorem unwritten_of_written_eq_zero {w : WriterPc} (batch : List TelemetryRow)
    (hw : w.written = 0) (hne : ∀ final k, w ≠ .flushed final k) : w.unwritten batch = batch := by
  cases w with
  | flushed final k => exact absurd rfl (hne final k)
  | writing final k => obtain rfl : k = 0 := hw; rfl
  | _ => rfl

theorem unwritten_nil (w : WriterPc) : w.unwritten [] = [] := by
  cases w <;> simp [WriterPc.unwritten]

/-- What a step does to the rows on the way: none appears but those put. -/
theorem pending_step (h : PipeInv cfg s) (hm : Moves C cfg eid s a s') :
    ∃ new, s'.accepted = s.accepted ++ new ∧ s'.pending.Sublist (s.pending ++ new) := by
  have hsame : ∀ {t : Engine}, t.accepted = s.accepted → t.pending.Sublist s.pending →
      ∃ new, t.accepted = s.accepted ++ new ∧ t.pending.Sublist (s.pending ++ new) :=
    fun haccepted hsub => ⟨[], by rw [haccepted, List.append_nil], by rwa [List.append_nil]⟩
  have hbystander : ∀ {t : Engine}, Bystander s t →
      ∃ new, t.accepted = s.accepted ++ new ∧ t.pending.Sublist (s.pending ++ new) := by
    intro t hb
    refine hsame hb.accepted ?_
    rw [Engine.pending, hb.writer, hb.batch, hb.queue]
    exact List.Sublist.refl _
  have hwriter : ∀ {w : WriterPc}, (w.unwritten s.batch).Sublist (s.writer.unwritten s.batch) →
      ∃ new, ({ s with writer := w } : Engine).accepted = s.accepted ++ new ∧
        ({ s with writer := w } : Engine).pending.Sublist (s.pending ++ new) :=
    fun hsub => hsame rfl (hsub.append (List.Sublist.refl _))
  cases hm with
  | submit => exact hbystander .submit
  | pcOnly => exact hbystander .pcOnly
  | begun => exact hbystander .begun
  | inserted => exact hbystander (.inserted h.sound)
  | committed => exact hbystander .committed
  | start he hw =>
    refine hsame rfl ?_
    change (WriterPc.unwritten s.batch .created ++ s.queue).Sublist _
    rw [Engine.pending, h.idle (.inr hw), unwritten_nil, unwritten_nil]
  | stopCall => exact hsame rfl (List.Sublist.refl _)
  | stopReturn => exact hsame rfl (List.Sublist.refl _)
  | @put i now call hcall hpc hroom =>
    refine ⟨[call.item C eid i now], rfl, ?_⟩
    change (s.writer.unwritten s.batch ++ (s.queue ++ [_])).Sublist _
    rw [Engine.pending, List.append_assoc]
  | writerOnly hmove =>
    apply hwriter
    cases hmove with
    | start hw =>
      rw [hw, unwritten_of_written_eq_zero _ (written_loopTest s) (loopTest_ne s).2.2]
      exact List.Sublist.refl _
    | timeout hw =>
      rw [hw, unwritten_of_written_eq_zero _ (written_afterGet cfg s) (afterGet_ne cfg s).2.2]
      exact List.Sublist.refl _
    | cancel hw =>
      rw [hw]
      rcases finalDrain_cases s with ⟨hd, -⟩ | ⟨hd, -⟩ <;> rw [hd] <;> exact List.Sublist.refl _
    | beginFailed => exact List.nil_sublist _
    | rowFailed => exact List.nil_sublist _
    | commitFailed => exact List.nil_sublist _
  | @got item rest hw hq =>
    refine hsame rfl ?_
    change ((Engine.afterGet cfg _).unwritten (s.batch ++ [item]) ++ rest).Sublist _
    rw [unwritten_of_written_eq_zero _ (written_afterGet cfg _) (afterGet_ne cfg _).2.2,
      Engine.pending, hw, hq, List.append_assoc]
    exact List.Sublist.refl _
  | flushBegun hw =>
    refine hsame rfl ?_
    rw [Engine.pending, Engine.pending, hw]
    exact List.Sublist.refl _
  | rowWritten hw hk =>
    refine hsame rfl ?_
    rw [Engine.pending, Engine.pending, hw]
    exact (List.drop_sublist_drop_left _ (Nat.le_succ _)).append (List.Sublist.refl _)
  | flushCommitted => exact hsame rfl ((List.nil_sublist _).append (List.Sublist.refl _))
  | flushReturned =>
    refine hsame rfl ?_
    change (WriterPc.unwritten [] _ ++ s.queue).Sublist _
    rw [unwritten_nil]
    exact (List.nil_sublist _).append (List.Sublist.refl _)

/-- What a step does to the table: it shows one of the rows on the way, or drops
what is not saved, and it may save what it shows. -/
theorem table_step (h : PipeInv cfg s) (hm : Moves C cfg eid s a s') :
    (s'.telemetry.view = s.telemetry.view ∨ s'.telemetry.view = s.telemetry.file ∨
      ∃ item, s'.telemetry.view = s.telemetry.view ++ [item] ∧ s.pending = item :: s'.pending ∧
        s'.accepted = s.accepted) ∧
      (s'.telemetry.file = s.telemetry.file ∨ s'.telemetry.file = s'.telemetry.view) := by
  have hbystander : ∀ {t : Engine}, Bystander s t →
      (t.telemetry.view = s.telemetry.view ∨ t.telemetry.view = s.telemetry.file ∨
        ∃ item, t.telemetry.view = s.telemetry.view ++ [item] ∧ s.pending = item :: t.pending ∧
          t.accepted = s.accepted) ∧
        (t.telemetry.file = s.telemetry.file ∨ t.telemetry.file = t.telemetry.view) :=
    fun hb => ⟨.inl hb.view, hb.file.imp id (·.trans hb.view.symm)⟩
  cases hm with
  | submit => exact hbystander .submit
  | pcOnly => exact hbystander .pcOnly
  | begun => exact hbystander .begun
  | inserted => exact hbystander (.inserted h.sound)
  | committed => exact hbystander .committed
  | start => exact ⟨.inr (.inl rfl), .inl rfl⟩
  | stopCall => exact ⟨.inl rfl, .inl rfl⟩
  | stopReturn => exact ⟨.inr (.inl rfl), .inl rfl⟩
  | put => exact ⟨.inl rfl, .inl rfl⟩
  | writerOnly => exact ⟨.inl rfl, .inl rfl⟩
  | got => exact ⟨.inl rfl, .inl rfl⟩
  | flushBegun =>
    rw [telemetry_of_beginTx (s := s) rfl, Store.view_beginTx]
    exact ⟨.inl rfl, .inl rfl⟩
  | @rowWritten final k item hw hk =>
    change ((s.insertTelemetry item).telemetry.view = _ ∨ (s.insertTelemetry item).telemetry.view = _ ∨
      ∃ row, (s.insertTelemetry item).telemetry.view = _ ∧ _) ∧
      ((s.insertTelemetry item).telemetry.file = _ ∨ (s.insertTelemetry item).telemetry.file =
        (s.insertTelemetry item).telemetry.view)
    refine ⟨.inr (.inr ⟨item, ?_, ?_, rfl⟩), ?_⟩
    · exact view_insertTelemetry (h.epoch_ne_none hw nofun) item
    · obtain ⟨hlt, hget⟩ := List.getElem?_eq_some_iff.mp hk
      change s.writer.unwritten s.batch ++ s.queue = item :: (s.batch.drop (k + 1) ++ s.queue)
      rw [hw]
      change s.batch.drop k ++ s.queue = _
      rw [List.drop_eq_getElem_cons hlt, hget]
      rfl
    · rw [telemetry_insertTelemetry]
      exact Store.file_write _ _
  | flushCommitted =>
    rw [telemetry_of_commit (s := s) rfl, Store.file_commit, Store.view_commit]
    exact ⟨.inl rfl, .inr rfl⟩
  | flushReturned => exact ⟨.inl rfl, .inl rfl⟩

/-! ### No row is written twice -/

/-- The rows of the table and those on the way are among those of the start and
the payloads put, in this order; and what is on the way has been put. -/
structure OrderInv (base : List TelemetryRow) (s : Engine) : Prop where
  order : (s.telemetry.view ++ s.pending).Sublist (base ++ s.accepted)
  put : ∀ item ∈ s.pending, item ∈ s.accepted

namespace OrderInv

theorem of_fresh {file : Tables} : OrderInv file.telemetry (.fresh file) where
  order := by
    change (file.telemetry ++ []).Sublist (file.telemetry ++ [])
    exact List.Sublist.refl _
  put := nofun

/-- **Every step preserves the order.** -/
theorem step (h : OrderInv base s) (hp : PipeInv cfg s) (hm : Moves C cfg eid s a s') :
    OrderInv base s' := by
  obtain ⟨new, haccepted, hpending⟩ := pending_step hp hm
  refine ⟨?_, fun item hitem => ?_⟩
  · have hput : (s.telemetry.view ++ s.pending ++ new).Sublist (base ++ s'.accepted) := by
      rw [haccepted, ← List.append_assoc]
      exact h.order.append (List.Sublist.refl _)
    rcases (table_step hp hm).1 with hview | hview | ⟨item, hview, hnext, hsame⟩
    · rw [hview]
      exact ((List.Sublist.refl _).append hpending).trans (by rwa [← List.append_assoc])
    · rw [hview]
      exact (hp.sound.durable.sublist.append hpending).trans (by rwa [← List.append_assoc])
    · rw [hview, hsame, List.append_assoc]
      change (s.telemetry.view ++ item :: s'.pending).Sublist _
      rw [← hnext]
      exact h.order
  · rw [haccepted]
    rcases List.mem_append.mp (hpending.subset hitem) with hitem | hitem
    · exact List.mem_append_left _ (h.put item hitem)
    · exact List.mem_append_right _ hitem

/-- The rows that come from a call are distinct. -/
theorem nodup (h : OrderInv base s) (hitems : ItemInv C eid base s)
    (hbase : ∀ row ∈ base, row.caller = none) :
    ((s.telemetry.view ++ s.pending).filter fun row => row.caller.isSome).Nodup := by
  have hnil : base.filter (fun row => row.caller.isSome) = [] := by
    rw [List.filter_eq_nil_iff]
    intro row hrow
    simp [hbase row hrow]
  have hsub := h.order.filter fun row => row.caller.isSome
  rw [List.filter_append base, hnil, List.nil_append] at hsub
  exact (hitems.callers.of_map.filter _).sublist hsub

/-- A row on the way comes from a call. -/
theorem isSome_caller (h : OrderInv base s) (hitems : ItemInv C eid base s) {item : TelemetryRow}
    (hitem : item ∈ s.pending) : item.caller.isSome = true := by
  obtain ⟨i, call, now, -, -, rfl⟩ := hitems.to_accepted item (h.put item hitem)
  rfl

/-- A row on the way has not been written. -/
theorem not_mem_view (h : OrderInv base s) (hitems : ItemInv C eid base s)
    (hbase : ∀ row ∈ base, row.caller = none) {item : TelemetryRow} (hitem : item ∈ s.pending) :
    item ∉ s.telemetry.view := by
  intro hview
  have hsome := h.isSome_caller hitems hitem
  have hnodup := h.nodup hitems hbase
  rw [List.filter_append] at hnodup
  exact (List.nodup_append.mp hnodup).2.2 item (List.mem_filter.mpr ⟨hview, hsome⟩) item
    (List.mem_filter.mpr ⟨hitem, hsome⟩) rfl

/-- A row of the batch is not in the queue as well. -/
theorem not_mem_queue (h : OrderInv base s) (hitems : ItemInv C eid base s)
    (hbase : ∀ row ∈ base, row.caller = none) {item : TelemetryRow}
    (hitem : item ∈ s.writer.unwritten s.batch) : item ∉ s.queue := by
  intro hqueue
  have hsome := h.isSome_caller hitems (List.mem_append_left _ hitem)
  have hnodup := h.nodup hitems hbase
  rw [List.filter_append, Engine.pending, List.filter_append] at hnodup
  exact (List.nodup_append.mp (List.nodup_append.mp hnodup).2.1).2.2 item
    (List.mem_filter.mpr ⟨hitem, hsome⟩) item (List.mem_filter.mpr ⟨hqueue, hsome⟩) rfl

end OrderInv

/-- What holds in every reachable state, with rows of the start that come from no call. -/
structure BatchInv (C : Crypto) (cfg : Config) (eid : ℕ) (base : List TelemetryRow) (s : Engine) :
    Prop where
  engine : EngineInv C cfg eid base s
  order : OrderInv base s
  old : ∀ row ∈ base, row.caller = none

namespace BatchInv

theorem of_init (h : (engineMachine C cfg eid).init s) :
    BatchInv C cfg eid s.telemetry.file s := by
  have hengine := EngineInv.of_init h
  obtain ⟨file, hfile, rfl⟩ := h
  exact ⟨hengine, .of_fresh, hfile.telemetry⟩

theorem step (h : BatchInv C cfg eid base s) (hm : Moves C cfg eid s a s') :
    BatchInv C cfg eid base s' :=
  ⟨h.engine.step hm, h.order.step h.engine.pipe hm, h.old⟩

theorem path {ok : Engine → Act → Prop} {as : List Act} (h : BatchInv C cfg eid base s)
    (hpath : (engineMachine C cfg eid).Path ok s as s') : BatchInv C cfg eid base s' :=
  hpath.invariant (fun _ _ _ hv _ hst => hv.step (moves_of_step hst)) h

end BatchInv

/-! ### Settled batches -/

/-- A batch with no row on the way any more, of which the connection sees all or
none, and the file has all or none. -/
structure Settled (batch : List TelemetryRow) (s : Engine) : Prop where
  put : ∀ row ∈ batch, row ∈ s.accepted
  gone : ∀ row ∈ batch, row ∉ s.pending
  view : AllOrNone batch s.telemetry.view
  file : AllOrNone batch s.telemetry.file

namespace Settled

variable {batch : List TelemetryRow}

/-- **A settled batch stays settled**, whatever is committed, fails or is closed later. -/
theorem step (h : Settled batch s) (hinv : BatchInv C cfg eid base s)
    (hm : Moves C cfg eid s a s') : Settled batch s' := by
  have hp := hinv.engine.pipe
  obtain ⟨new, haccepted, hpending⟩ := pending_step hp hm
  obtain ⟨hview, hfile⟩ := table_step hp hm
  have hview' : AllOrNone batch s'.telemetry.view := by
    rcases hview with heq | heq | ⟨item, heq, hnext, -⟩
    · rw [heq]
      exact h.view
    · rw [heq]
      exact h.file
    · refine h.view.congr fun row hrow => ?_
      have hne : row ≠ item := by
        rintro rfl
        apply h.gone row hrow
        rw [hnext]
        exact List.mem_cons_self
      simp [heq, hne]
  refine ⟨fun row hrow => ?_, fun row hrow hmem => ?_, hview', ?_⟩
  · rw [haccepted]
    exact List.mem_append_left _ (h.put row hrow)
  · rcases List.mem_append.mp (hpending.subset hmem) with hold | hnew
    · exact h.gone row hrow hold
    · exact (hinv.step hm).engine.items.not_mem_late haccepted (h.put row hrow) hnew
  · rcases hfile with heq | heq
    · rw [heq]
      exact h.file
    · rw [heq]
      exact hview'

theorem path {ok : Engine → Act → Prop} {as : List Act} (h : Settled batch s)
    (hinv : BatchInv C cfg eid base s) (hpath : (engineMachine C cfg eid).Path ok s as s') :
    Settled batch s' :=
  (hpath.invariant (P := fun v => BatchInv C cfg eid base v ∧ Settled batch v)
    (fun _ _ _ hv _ hst => ⟨hv.1.step (moves_of_step hst), hv.2.step hv.1 (moves_of_step hst)⟩)
    ⟨hinv, h⟩).2

end Settled

/-! ### One flush -/

/-- The thread of a flush is to run, or runs. -/
def WriterPc.onThread : WriterPc → Bool
  | .starting _ => true
  | .writing _ _ => true
  | _ => false

/-- The steps `as` lead from the beginning of a flush to the end of its thread. -/
def FlushOf (C : Crypto) (cfg : Config) (eid : ℕ) (s : Engine) (as : List Act) (t : Engine) :
    Prop :=
  (∃ final, s.writer = .starting final) ∧
    (engineMachine C cfg eid).Path (fun v _ => v.writer.onThread = true) s as t ∧
    t.writer.onThread = false

/-- The step is no statement of a flush that leaves a part of the batch behind: it
does not raise, or it is the first of the rows, or it is the commit and the rows
that others have saved are all or none. -/
def keepsWhole (v : Engine) (a : Act) : Bool :=
  flushSucceeds v a ||
    match a with
    | .flushRow _ => v.writer.written == 0
    | .flushCommit _ => decide (AllOrNone v.batch v.telemetry.file)
    | _ => true

/-- While the thread of the flush of `batch` runs, the rows written are in the table. -/
structure Flushing (batch : List TelemetryRow) (v : Engine) : Prop where
  same : v.batch = batch
  put : ∀ row ∈ batch, row ∈ v.accepted
  written : ∀ row ∈ batch.take v.writer.written, row ∈ v.telemetry.view

namespace Flushing

variable {batch : List TelemetryRow}

/-- A flush that begins. -/
theorem of_starting {final : Bool} (h : OrderInv base s) (hw : s.writer = .starting final) :
    Flushing s.batch s where
  same := rfl
  put := fun row hrow => h.put row (by
    rw [Engine.pending, hw]
    exact List.mem_append_left _ hrow)
  written := by rw [hw]; exact nofun

/-- A step after which the thread is still running. -/
theorem step (h : Flushing batch s) (hp : PipeInv cfg s) (hm : Moves C cfg eid s a s')
    (hthread : s.writer.onThread = true) (hthread' : s'.writer.onThread = true) :
    Flushing batch s' := by
  obtain ⟨new, haccepted, -⟩ := pending_step hp hm
  have hput : ∀ row ∈ batch, row ∈ s'.accepted := fun row hrow => by
    rw [haccepted]
    exact List.mem_append_left _ (h.put row hrow)
  have hbystander : Bystander s s' → Flushing batch s' := fun hb =>
    ⟨hb.batch.trans h.same, hput, by rw [hb.writer, hb.view]; exact h.written⟩
  cases hm with
  | submit => exact hbystander .submit
  | pcOnly => exact hbystander .pcOnly
  | begun => exact hbystander .begun
  | inserted => exact hbystander (.inserted hp.sound)
  | committed => exact hbystander .committed
  | start _ hw => rw [hw] at hthread; cases hthread
  | stopCall => exact ⟨h.same, hput, h.written⟩
  | stopReturn _ hw => rw [hw] at hthread; cases hthread
  | put => exact ⟨h.same, hput, h.written⟩
  | writerOnly hmove =>
    cases hmove with
    | start hw => rw [hw] at hthread; cases hthread
    | timeout hw => rw [hw] at hthread; cases hthread
    | cancel hw => rw [hw] at hthread; cases hthread
    | beginFailed => cases hthread'
    | rowFailed => cases hthread'
    | commitFailed => cases hthread'
  | got hw => rw [hw] at hthread; cases hthread
  | flushBegun => exact ⟨h.same, hput, nofun⟩
  | @rowWritten final k item hw hk =>
    have hview := view_insertTelemetry (hp.epoch_ne_none hw nofun) item
    refine ⟨h.same, hput, fun row hrow => ?_⟩
    change row ∈ (s.insertTelemetry item).telemetry.view
    change row ∈ batch.take (k + 1) at hrow
    rw [h.same] at hk
    rw [List.take_add_one, hk] at hrow
    rw [hview]
    rcases List.mem_append.mp hrow with hrow | hrow
    · have hold := h.written
      rw [hw] at hold
      exact List.mem_append_left _ (hold row hrow)
    · obtain rfl : row = item := by simpa using hrow
      exact List.mem_append_right _ (List.mem_singleton_self _)
  | flushCommitted => cases hthread'
  | flushReturned hw => rw [hw] at hthread; cases hthread

/-- The rows of the batch not written yet are on the way. -/
theorem mem_unwritten (h : Flushing batch s) (hthread : s.writer.onThread = true)
    {row : TelemetryRow} (hrow : row ∈ batch.drop s.writer.written) :
    row ∈ s.writer.unwritten s.batch := by
  rw [h.same]
  cases hw : s.writer with
  | starting final => rw [hw] at hrow; exact hrow
  | writing final k => rw [hw] at hrow; exact hrow
  | _ => rw [hw] at hthread; cases hthread

/-- The rows of the batch not written yet are not in the table. -/
theorem not_mem_view (h : Flushing batch s) (hinv : BatchInv C cfg eid base s)
    (hthread : s.writer.onThread = true) {row : TelemetryRow}
    (hrow : row ∈ batch.drop s.writer.written) : row ∉ s.telemetry.view :=
  hinv.order.not_mem_view hinv.engine.items hinv.old
    (List.mem_append_left _ (h.mem_unwritten hthread hrow))

/-- The rows of the batch are not in the queue. -/
theorem not_mem_queue (h : Flushing batch s) (hinv : BatchInv C cfg eid base s)
    (hthread : s.writer.onThread = true) {row : TelemetryRow} (hrow : row ∈ batch) :
    row ∉ s.queue := by
  rw [← List.take_append_drop s.writer.written batch] at hrow
  rcases List.mem_append.mp hrow with hrow | hrow
  · intro hqueue
    exact hinv.order.not_mem_view hinv.engine.items hinv.old (List.mem_append_right _ hqueue)
      (h.written row hrow)
  · exact hinv.order.not_mem_queue hinv.engine.items hinv.old (h.mem_unwritten hthread hrow)

end Flushing

/-! ### The end of a flush -/

/-- Where a thread ends that was running. -/
inductive FlushEnds (s : Engine) : Act → Engine → Prop
  | beginFailed {final fault : Bool} : s.writer = .starting final →
      FlushEnds s (.flushBegin fault) { s with writer := .flushed final 0 }
  | rowFailed {final fault : Bool} {k : ℕ} {item : TelemetryRow} : s.writer = .writing final k →
      s.batch[k]? = some item → flushSucceeds s (.flushRow fault) = false →
      FlushEnds s (.flushRow fault) { s with writer := .flushed final k }
  | commitFailed {final : Bool} {k : ℕ} : s.writer = .writing final k → k = s.batch.length →
      flushSucceeds s (.flushCommit true) = false →
      FlushEnds s (.flushCommit true) { s with writer := .flushed final k }
  | committed {final fault : Bool} {k : ℕ} : s.writer = .writing final k → k = s.batch.length →
      flushSucceeds s (.flushCommit fault) = true →
      FlushEnds s (.flushCommit fault) { s with store := s.store.commit, writer := .flushed final k }

/-- A commit of a flush either raises or succeeds. -/
theorem flushEnds_of_flushCommit {final fault : Bool} {k : ℕ} (hw : s.writer = .writing final k)
    (h : (engineMachine C cfg eid).step s (.flushCommit fault) = some s') :
    FlushEnds s (.flushCommit fault) s' := by
  change s.stepWriter cfg (.flushCommit fault) = some s' at h
  simp only [Engine.stepWriter, hw] at h
  split at h
  · next hk =>
    split at h
    · next hfail =>
      cases h
      obtain ⟨rfl, htx⟩ := hfail
      exact .commitFailed hw hk (by simp [flushSucceeds, htx])
    · next hok =>
      cases h
      refine .committed hw hk ?_
      cases fault with
      | true => simpa [flushSucceeds, rowsSucceed] using hok
      | false => rfl
  · cases h

theorem flushEnds_of_step (h : (engineMachine C cfg eid).step s a = some s')
    (hthread : s.writer.onThread = true) (hend : s'.writer.onThread = false) :
    FlushEnds s a s' := by
  have hkeep : ∀ {P : Prop} {t : Engine}, t.writer = s.writer → t.writer.onThread = false → P := by
    intro P t hw ht
    rw [hw, hthread] at ht
    cases ht
  have hm : Moves C cfg eid s a s' := moves_of_step h
  cases hm with
  | submit => exact hkeep rfl hend
  | pcOnly => exact hkeep rfl hend
  | begun => exact hkeep rfl hend
  | inserted => exact hkeep rfl hend
  | committed => exact hkeep rfl hend
  | start _ hw => rw [hw] at hthread; cases hthread
  | stopCall => exact hkeep rfl hend
  | stopReturn => exact hkeep rfl hend
  | put => exact hkeep rfl hend
  | writerOnly hmove =>
    cases hmove with
    | start hw => rw [hw] at hthread; cases hthread
    | timeout hw => rw [hw] at hthread; cases hthread
    | cancel hw => rw [hw] at hthread; cases hthread
    | beginFailed hw => exact .beginFailed hw
    | rowFailed hw hk hfail =>
      refine .rowFailed hw hk ?_
      rcases hfail with hbind | rfl
      · simp [flushSucceeds, rowsSucceed, Engine.nextRow, hw, hk, hbind]
      · simp [flushSucceeds, rowsSucceed]
    | commitFailed hw => exact flushEnds_of_flushCommit hw h
  | got hw => rw [hw] at hthread; cases hthread
  | flushBegun => cases hend
  | rowWritten => cases hend
  | flushCommitted hw => exact flushEnds_of_flushCommit hw h
  | flushReturned hw => rw [hw] at hthread; cases hthread

/-- A step after which the thread is still running raises nothing. -/
theorem keepsWhole_of_onThread (hm : Moves C cfg eid s a s') (hthread' : s'.writer.onThread = true) :
    keepsWhole s a = true := by
  cases hm with
  | flushCommitted => cases hthread'
  | @rowWritten final k item hw hk hbind =>
    simp [keepsWhole, flushSucceeds, rowsSucceed, Engine.nextRow, hw, hk, hbind]
  | writerOnly hmove =>
    cases hmove with
    | rowFailed => cases hthread'
    | commitFailed => cases hthread'
    | _ => simp [keepsWhole]
  | pcOnly _ hmove => cases hmove <;> simp [keepsWhole]
  | _ => simp [keepsWhole]

/-- **The end of a flush**: the batch is all or none exactly when the last statement
leaves no part of it behind. -/
theorem flushEnds_iff {batch : List TelemetryRow} (hinv : BatchInv C cfg eid base s)
    (hflush : Flushing batch s) (hends : FlushEnds s a s') :
    (AllOrNone batch s'.telemetry.view ∧ AllOrNone batch s'.telemetry.file) ↔
      keepsWhole s a = true := by
  have hsound := hinv.engine.pipe.sound
  have hnone : s.writer.onThread = true → s.writer.written = 0 →
      AllOrNone batch s.telemetry.view ∧ AllOrNone batch s.telemetry.file := by
    intro hthread hzero
    have hview : ∀ row ∈ batch, row ∉ s.telemetry.view := fun row hrow =>
      hflush.not_mem_view hinv hthread (by rwa [hzero])
    exact ⟨.inr hview, .inr fun row hrow hmem => hview row hrow (hsound.mem_view hmem)⟩
  have hall : s.writer.written = s.batch.length → ∀ row ∈ batch, row ∈ s.telemetry.view := by
    intro hlen row hrow
    apply hflush.written row
    rwa [hlen, hflush.same, List.take_length]
  cases hends with
  | beginFailed hw =>
    refine iff_of_true ?_ (by simp [keepsWhole])
    exact hnone (by rw [hw]; rfl) (by rw [hw]; rfl)
  | @rowFailed final fault k item hw hk hfail =>
    have hkeep : keepsWhole s (.flushRow fault) = (k == 0) := by
      simp [keepsWhole, hfail, hw, WriterPc.written]
    rw [hkeep, beq_iff_eq]
    change AllOrNone batch s.telemetry.view ∧ AllOrNone batch s.telemetry.file ↔ k = 0
    constructor
    · rintro ⟨hview, -⟩
      by_contra hne
      rw [hflush.same] at hk
      obtain ⟨hlt, rfl⟩ := List.getElem?_eq_some_iff.mp hk
      -- the first row is written, the one that raised is not
      have hfirst : batch[0] ∈ batch.take k :=
        List.mem_take_iff_getElem.mpr ⟨0, by omega, rfl⟩
      have hlast : batch[k] ∈ batch.drop k :=
        List.mem_drop_iff_getElem.mpr ⟨0, by omega, rfl⟩
      have hseen : batch[0] ∈ s.telemetry.view := hflush.written _ (by rw [hw]; exact hfirst)
      have hunseen : batch[k] ∉ s.telemetry.view :=
        hflush.not_mem_view hinv (by rw [hw]; rfl) (by rw [hw]; exact hlast)
      rcases hview with hall | hnone
      · exact hunseen (hall _ (List.getElem_mem hlt))
      · exact hnone _ (List.getElem_mem _) hseen
    · intro hzero
      exact hnone (by rw [hw]; rfl) (by rw [hw]; exact hzero)
  | @commitFailed final k hw hk hfail =>
    have hview : AllOrNone batch s.telemetry.view := .inl (hall (by rw [hw]; exact hk))
    change AllOrNone batch s.telemetry.view ∧ AllOrNone batch s.telemetry.file ↔ _
    simp [keepsWhole, hfail, hflush.same, hview]
  | @committed final fault k hw hk hok =>
    have hview := hall (by rw [hw]; exact hk)
    have hstore : ({ s with store := s.store.commit, writer := .flushed final k } :
        Engine).telemetry = s.telemetry.commit := telemetry_of_commit rfl
    rw [hstore, Store.view_commit, Store.file_commit]
    exact iff_of_true ⟨.inl hview, .inl hview⟩ (by simp [keepsWhole, hok])

/-- While the thread runs, nothing raises, and the rows written are in the table. -/
theorem flushing_path {batch : List TelemetryRow} {as : List Act}
    (hpath : (engineMachine C cfg eid).Path (fun v _ => v.writer.onThread = true) s as s')
    (hend : s'.writer.onThread = true) (hinv : BatchInv C cfg eid base s)
    (hflush : Flushing batch s) :
    (engineMachine C cfg eid).Path (fun v a => keepsWhole v a = true) s as s' ∧
      Flushing batch s' := by
  induction hpath with
  | nil => exact ⟨.nil _, hflush⟩
  | @cons v w u a as hthread hst hrest ih =>
    have hnext : w.writer.onThread = true := by
      cases hrest with
      | nil => exact hend
      | cons hok => exact hok
    have hm := moves_of_step hst
    obtain ⟨hkeep, hlast⟩ := ih hend (hinv.step hm)
      (hflush.step hinv.engine.pipe hm hthread hnext)
    exact ⟨.cons (keepsWhole_of_onThread hm hnext) hst hkeep, hlast⟩

/-! ### The result -/

/-- **A flush is all-or-nothing exactly when no statement of it leaves a part of
the batch behind**: then the connection sees all rows or none when its thread
ends, and whatever happens later, the file has all or none. -/
theorem flush_whole_iff (C : Crypto) (cfg : Config) (eid : ℕ) {s₀ s t : Engine}
    {pre as : List Act} (h0 : (engineMachine C cfg eid).init s₀)
    (h : (engineMachine C cfg eid).Path Machine.free s₀ pre s)
    (hflush : FlushOf C cfg eid s as t) :
    (AllOrNone s.batch t.telemetry.view ∧ ∀ later u,
        (engineMachine C cfg eid).Path Machine.free t later u →
          AllOrNone s.batch u.telemetry.file) ↔
      (engineMachine C cfg eid).Path (fun v a => keepsWhole v a = true) s as t := by
  have hinv : BatchInv C cfg eid s₀.telemetry.file s := (BatchInv.of_init h0).path h
  obtain ⟨⟨final, hw⟩, hpath, hend⟩ := hflush
  have hstart : s.writer.onThread = true := by rw [hw]; rfl
  obtain rfl | ⟨as, a, rfl⟩ := List.eq_nil_or_concat as
  · cases hpath
    rw [hstart] at hend
    cases hend
  · rw [List.concat_eq_append] at hpath ⊢
    obtain ⟨v, hto, hthread, hst⟩ := hpath.last
    obtain ⟨hkeep, hflushing⟩ := flushing_path hto hthread hinv (.of_starting hinv.order hw)
    have hv := hinv.path hto
    have hends := flushEnds_of_step hst hthread hend
    have hiff := flushEnds_iff hv hflushing hends
    constructor
    · rintro ⟨hview, hlater⟩
      have hlast := hiff.mp ⟨hview, hlater [] t (.nil t)⟩
      exact hkeep.trans (.cons hlast hst (.nil t))
    · intro hguard
      obtain ⟨v', hto', hlast, -⟩ := hguard.last
      obtain rfl := hto.unique hto'
      obtain ⟨hview, hfile⟩ := hiff.mpr hlast
      have hsettled : Settled s.batch t := by
        refine ⟨fun row hrow => ?_, fun row hrow => ?_, hview, hfile⟩
        · obtain ⟨new, haccepted, -⟩ := pending_step hv.engine.pipe (moves_of_step hst)
          rw [haccepted]
          exact List.mem_append_left _ (hflushing.put row hrow)
        · have hqueue := hflushing.not_mem_queue hv hthread hrow
          cases hends <;> exact hqueue
      exact ⟨hview, fun later u hto => (hsettled.path (hv.step (moves_of_step hst)) hto).file⟩

/-- Bob's payload and one whose asset type is a lone surrogate, in a batch of two. -/
def mixedBatch : List Act :=
  [.start, .writerStart] ++ submission 0 bobFirst ++ submission 1 aliceSurrogate ++ [.get, .get]

/-- The flush of it: the second row cannot be bound. -/
def mixedFlush : List Act := [.flushBegin false, .flushRow false, .flushRow false]

/-- **A failed flush is saved in part**: the record of Alice's next request is
committed, and Bob's row with it. -/
theorem failed_flush_saved_in_part :
    ¬ ∀ pre s as t later u,
      (engineMachine clientCrypto ⟨10, 2⟩ 0).Path Machine.free (.fresh ⟨[], []⟩) pre s →
      FlushOf clientCrypto ⟨10, 2⟩ 0 s as t →
      (engineMachine clientCrypto ⟨10, 2⟩ 0).Path Machine.free t later u →
        AllOrNone s.batch u.telemetry.file := by
  intro hwhole
  have hexec : (((engineMachine clientCrypto ⟨10, 2⟩ 0).exec (fun _ _ => true) (.fresh ⟨[], []⟩)
      mixedBatch).bind fun s =>
        ((engineMachine clientCrypto ⟨10, 2⟩ 0).exec (fun v _ => v.writer.onThread) s
          mixedFlush).bind fun t =>
          ((engineMachine clientCrypto ⟨10, 2⟩ 0).exec (fun _ _ => true) t
            (.flushReturn :: submission 2 aliceFirst)).map fun u =>
              (s.writer, t.writer.onThread, decide (AllOrNone s.batch u.telemetry.file))) =
      some (.starting false, false, false) := by decide +kernel
  obtain ⟨s, hs, hexec⟩ := Option.bind_eq_some_iff.mp hexec
  obtain ⟨t, ht, hexec⟩ := Option.bind_eq_some_iff.mp hexec
  obtain ⟨u, hu, hend⟩ := Option.map_eq_some_iff.mp hexec
  simp only [Prod.mk.injEq, decide_eq_false_iff_not] at hend
  obtain ⟨hw, hout, hpart⟩ := hend
  exact hpart (hwhole _ s _ t _ u ((Machine.path_of_exec hs).mono fun _ _ _ => trivial)
    ⟨⟨false, hw⟩, Machine.path_of_exec ht, hout⟩
    ((Machine.path_of_exec hu).mono fun _ _ _ => trivial))

/-- The same two payloads the other way round: the first row raises, and none is
ever saved. -/
theorem failed_flush_of_first_row : ∃ s t : Engine, ∃ pre as,
    (engineMachine clientCrypto ⟨10, 2⟩ 0).Path Machine.free (.fresh ⟨[], []⟩) pre s ∧
      FlushOf clientCrypto ⟨10, 2⟩ 0 s as t ∧ s.batch.length = 2 ∧
      ∀ later u, (engineMachine clientCrypto ⟨10, 2⟩ 0).Path Machine.free t later u →
        AllOrNone s.batch u.telemetry.file := by
  have hexec : (((engineMachine clientCrypto ⟨10, 2⟩ 0).exec (fun _ _ => true) (.fresh ⟨[], []⟩)
      ([.start, .writerStart] ++ submission 0 aliceSurrogate ++ submission 1 bobFirst ++
        [.get, .get])).bind fun s =>
        ((engineMachine clientCrypto ⟨10, 2⟩ 0).exec
          (fun v a => v.writer.onThread && keepsWhole v a) s
          [.flushBegin false, .flushRow false]).map fun t =>
            (s.writer, t.writer.onThread, s.batch.length)) =
      some (.starting false, false, 2) := by decide +kernel
  obtain ⟨s, hs, hexec⟩ := Option.bind_eq_some_iff.mp hexec
  obtain ⟨t, ht, hend⟩ := Option.map_eq_some_iff.mp hexec
  simp only [Prod.mk.injEq] at hend
  obtain ⟨hw, hout, hlen⟩ := hend
  have hpath : (engineMachine clientCrypto ⟨10, 2⟩ 0).Path Machine.free (.fresh ⟨[], []⟩) _ s :=
    (Machine.path_of_exec hs).mono fun _ _ _ => trivial
  have hguard := Machine.path_of_exec ht
  have hflush : FlushOf clientCrypto ⟨10, 2⟩ 0 s _ t :=
    ⟨⟨false, hw⟩, hguard.mono fun _ _ hok => (Bool.and_eq_true_iff.mp hok).1, hout⟩
  have hwhole := (flush_whole_iff clientCrypto ⟨10, 2⟩ 0 ⟨_, Tables.initial_nil, rfl⟩ hpath
    hflush).mpr (hguard.mono fun _ _ hok => (Bool.and_eq_true_iff.mp hok).2)
  exact ⟨s, t, _, _, hpath, hflush, hlen, hwhole.2⟩

end Tollbridge
end SovereignSeed
