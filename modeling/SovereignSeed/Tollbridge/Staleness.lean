import SovereignSeed.Tollbridge.Persistence

/-!
# Batches that wait

The writer waits for an item no longer than the flush interval, and a wait that
times out is to flush what is in the batch.  The condition after the `try` asks
for a full batch or a stop event, though, and a batch that is full is flushed
before the next wait.  So a batch with something in it is flushed at a timeout
when the engine is stopping, and otherwise stays in memory.

## Main definitions

* `WriterPc.inFlush` — the writer is inside an iteration that flushes.
* `TimedOutIteration` — from a wait that times out to the end of its iteration.

## Main results

* `timeout_flushes_iff` — **when a timeout leaves nothing in memory.**
-/

namespace SovereignSeed
namespace Tollbridge

open Python

variable {C : Crypto} {cfg : Config} {eid : ℕ} {base : List TelemetryRow} {s s' : Engine} {a : Act}

/-! ### One iteration of the loop -/

/-- The writer is in the flush of an iteration of its loop. -/
def WriterPc.inFlush : WriterPc → Bool
  | .starting final => !final
  | .writing final _ => !final
  | .flushed final _ => !final
  | _ => false

/-- A wait times out in state `s`, and in state `u` its iteration of the loop has
ended; in between nothing but a flush is under way, whose statements succeed. -/
def TimedOutIteration (C : Crypto) (cfg : Config) (eid : ℕ) (s : Engine) (bs : List Act)
    (u : Engine) : Prop :=
  ∃ t, (engineMachine C cfg eid).step s .timeout = some t ∧
    (engineMachine C cfg eid).Path
      (fun v a => flushSucceeds v a = true ∧ v.writer.inFlush = true) t bs u ∧
    u.writer.inFlush = false

theorem inFlush_finalDrain (s : Engine) : s.finalDrain.inFlush = false := by
  rcases finalDrain_cases s with ⟨h, -⟩ | ⟨h, -⟩ <;> rw [h] <;> rfl

theorem inFlush_loopTest (s : Engine) : s.loopTest.inFlush = false := by
  rcases loopTest_cases s with h | ⟨h, -⟩ <;> rw [h]
  · rfl
  · exact inFlush_finalDrain s

/-- What follows a wait that has timed out. -/
theorem timeout_cases {t : Engine} (h : (engineMachine C cfg eid).step s .timeout = some t) :
    s.writer = .getting ∧ t = { s with writer := s.afterGet cfg } := by
  have hm : Moves C cfg eid s .timeout t := moves_of_step h
  cases hm with
  | pcOnly _ hmove => cases hmove
  | writerOnly hmove =>
    cases hmove with
    | timeout hw => exact ⟨hw, rfl⟩

/-- A writer that waits flushes after a timeout if there is something to flush and
the stop event is set. -/
theorem afterGet_of_getting (h : PipeInv cfg s) (hw : s.writer = .getting) :
    s.afterGet cfg =
      if s.batch ≠ [] ∧ s.stopEvent = true then .starting false else s.loopTest := by
  have hlt := h.getting hw
  unfold Engine.afterGet
  by_cases hnil : s.batch = []
  · simp [hnil]
  · have hpos : 0 < s.batch.length := List.length_pos_iff.mpr hnil
    have hsmall : ¬cfg.batchSize ≤ s.batch.length := by omega
    simp [hnil, hsmall]

/-! ### The flush of an iteration -/

/-- Since state `s` the writer has taken nothing from the queue, and it has ended
its flush only by emptying the batch. -/
structure SinceTimeout (s v : Engine) : Prop where
  put : ∃ late, v.queue = s.queue ++ late ∧ v.accepted = s.accepted ++ late
  ended : v.writer.inFlush = true ∨ (v.batch = [] ∧ ∀ final k, v.writer ≠ .writing final k)

namespace SinceTimeout

theorem of_bystander {v v' : Engine} (h : SinceTimeout s v) (hb : Bystander v v') :
    SinceTimeout s v' where
  put := by rw [hb.queue, hb.accepted]; exact h.put
  ended := by rw [hb.writer, hb.batch]; exact h.ended

/-- A writer that moves inside its flush. -/
theorem of_inFlush {v v' : Engine} (h : SinceTimeout s v) (hqueue : v'.queue = v.queue)
    (haccepted : v'.accepted = v.accepted) (hflush : v'.writer.inFlush = true) :
    SinceTimeout s v' where
  put := by rw [hqueue, haccepted]; exact h.put
  ended := .inl hflush

/-- **A step inside the flush.** -/
theorem step {v v' : Engine} (h : SinceTimeout s v) (hp : PipeInv cfg v)
    (hflush : v.writer.inFlush = true) (hm : Moves C cfg eid v a v') : SinceTimeout s v' := by
  cases hm with
  | submit => exact h.of_bystander .submit
  | pcOnly => exact h.of_bystander .pcOnly
  | begun => exact h.of_bystander .begun
  | inserted => exact h.of_bystander (.inserted hp.sound)
  | committed => exact h.of_bystander .committed
  | start _ hw => rw [hw] at hflush; cases hflush
  | stopCall => exact ⟨h.put, h.ended⟩
  | stopReturn => exact ⟨h.put, h.ended⟩
  | @put i now call hcall hpc hroom =>
    obtain ⟨late, hqueue, haccepted⟩ := h.put
    refine ⟨⟨late ++ [call.item C eid i now], ?_, ?_⟩, h.ended⟩
    · simp only [hqueue, List.append_assoc]
    · simp only [haccepted, List.append_assoc]
  | writerOnly hmove =>
    cases hmove with
    | start hw => rw [hw] at hflush; cases hflush
    | timeout hw => rw [hw] at hflush; cases hflush
    | cancel hw => rw [hw] at hflush; cases hflush
    | beginFailed hw => rw [hw] at hflush; exact h.of_inFlush rfl rfl hflush
    | rowFailed hw => rw [hw] at hflush; exact h.of_inFlush rfl rfl hflush
    | commitFailed hw => rw [hw] at hflush; exact h.of_inFlush rfl rfl hflush
  | got hw => rw [hw] at hflush; cases hflush
  | flushBegun hw => rw [hw] at hflush; exact h.of_inFlush rfl rfl hflush
  | rowWritten hw => rw [hw] at hflush; exact h.of_inFlush rfl rfl hflush
  | flushCommitted hw => rw [hw] at hflush; exact h.of_inFlush rfl rfl hflush
  | @flushReturned final k hw =>
    rw [hw] at hflush
    cases final with
    | true => cases hflush
    | false => exact ⟨h.put, .inr ⟨rfl, (loopTest_ne _).2.1⟩⟩

end SinceTimeout

/-- Outside a flush what was taken from the queue is in the file or in the batch. -/
theorem taken_saved (h : FlushInv C cfg eid base s) (hw : ∀ final k, s.writer ≠ .writing final k)
    {item : TelemetryRow} (hitem : item ∈ s.accepted) (htaken : item ∉ s.queue) :
    item ∈ s.telemetry.file ∨ item ∈ s.batch := by
  rw [h.flushed hw]
  rcases h.conserved.mem hitem with hmem | hmem | hmem
  · exact .inl hmem
  · exact .inr hmem
  · exact absurd hmem htaken

/-! ### The result -/

/-- **A timeout leaves nothing in memory exactly when there was nothing in the
batch, or the engine is stopping.** -/
theorem timeout_flushes_iff (C : Crypto) (cfg : Config) (eid : ℕ) {s₀ s u : Engine}
    {as bs : List Act} (h0 : (engineMachine C cfg eid).init s₀)
    (h : (engineMachine C cfg eid).Path (fun v a => flushSucceeds v a = true) s₀ as s)
    (hiter : TimedOutIteration C cfg eid s bs u) :
    (u.batch = [] ∧ ∀ item ∈ s.accepted, item ∉ s.queue → item ∈ u.telemetry.file) ↔
      s.batch = [] ∨ s.stopEvent = true := by
  have hinv : FlushInv C cfg eid s₀.telemetry.file s :=
    h.invariant (fun _ _ _ hv hok hst => hv.step (moves_of_step hst) hok) (.of_init h0)
  obtain ⟨t, hst, hpath, hend⟩ := hiter
  obtain ⟨hw, rfl⟩ := timeout_cases hst
  have hafter := afterGet_of_getting hinv.engine.pipe hw
  by_cases hflush : s.batch ≠ [] ∧ s.stopEvent = true
  · rw [if_pos hflush] at hafter
    refine ⟨fun _ => .inr hflush.2, fun _ => ?_⟩
    have ht : FlushInv C cfg eid s₀.telemetry.file { s with writer := s.afterGet cfg } :=
      hinv.step (moves_of_step (a := .timeout) hst) rfl
    have hsince : SinceTimeout s { s with writer := s.afterGet cfg } :=
      ⟨⟨[], (List.append_nil _).symm, (List.append_nil _).symm⟩, .inl (by simp [hafter]; rfl)⟩
    obtain ⟨hu, hsince⟩ := hpath.invariant
      (P := fun v => FlushInv C cfg eid s₀.telemetry.file v ∧ SinceTimeout s v)
      (fun v a v' hv hok hst => ⟨hv.1.step (moves_of_step hst) hok.1,
        hv.2.step hv.1.engine.pipe hok.2 (moves_of_step hst)⟩) ⟨ht, hsince⟩
    obtain ⟨late, hqueue, haccepted⟩ := hsince.put
    rcases hsince.ended with hin | ⟨hnil, hidle⟩
    · rw [hend] at hin
      cases hin
    · refine ⟨hnil, fun item hitem htaken => ?_⟩
      have hgone : item ∉ u.queue := by
        rw [hqueue, List.mem_append, not_or]
        exact ⟨htaken, hu.engine.items.not_mem_late haccepted hitem⟩
      have hput : item ∈ u.accepted := by
        rw [haccepted]
        exact List.mem_append_left _ hitem
      rcases taken_saved hu hidle hput hgone with hsaved | hbatch
      · exact hsaved
      · rw [hnil] at hbatch
        cases hbatch
  · rw [if_neg hflush] at hafter
    -- nothing is flushed: the iteration has ended with the timeout
    have hu : u = { s with writer := s.afterGet cfg } := by
      cases hpath with
      | nil => rfl
      | cons hok =>
        have hin := hok.2
        change (s.afterGet cfg).inFlush = true at hin
        rw [hafter, inFlush_loopTest] at hin
        cases hin
    subst hu
    refine ⟨fun hleft => .inl hleft.1, fun hcond => ?_⟩
    have hnil : s.batch = [] := by
      rcases hcond with hnil | hstop
      · exact hnil
      · by_contra hne
        exact hflush ⟨hne, hstop⟩
    refine ⟨hnil, fun item hitem htaken => ?_⟩
    rcases taken_saved hinv (by rw [hw]; nofun) hitem htaken with hsaved | hbatch
    · exact hsaved
    · rw [hnil] at hbatch
      cases hbatch

/-- One payload is taken from the queue, which stays empty. -/
def idleRun : List Act := [.start, .writerStart] ++ submission 0 aliceFirst ++ [.get]

/-- **An accepted payload stays in memory through an idle interval**: the batch
takes two, and after the timeout the first is in it still. -/
theorem timeout_keeps_batch :
    ¬ ∀ s as bs u, (engineMachine clientCrypto ⟨10, 2⟩ 0).Path
        (fun v a => flushSucceeds v a = true) (.fresh ⟨[], []⟩) as s →
      TimedOutIteration clientCrypto ⟨10, 2⟩ 0 s bs u →
      u.batch = [] ∧ ∀ item ∈ s.accepted, item ∉ s.queue → item ∈ u.telemetry.file := by
  intro hempty
  have hexec : ((engineMachine clientCrypto ⟨10, 2⟩ 0).exec flushSucceeds (.fresh ⟨[], []⟩)
      idleRun).map (fun s => (s.writer, s.stopEvent, s.batch.length)) =
      some (.getting, false, 1) := by decide +kernel
  obtain ⟨s, hpath, hend⟩ := Machine.exists_path_of_exec hexec
  simp only [Prod.mk.injEq] at hend
  obtain ⟨hw, hstop, hlen⟩ := hend
  have hstep : (engineMachine clientCrypto ⟨10, 2⟩ 0).step s .timeout =
      some { s with writer := s.afterGet ⟨10, 2⟩ } := if_pos hw
  have hafter : s.afterGet ⟨10, 2⟩ = .getting := by
    simp [Engine.afterGet, Engine.loopTest, hstop, hlen]
  obtain ⟨hnil, -⟩ := hempty s _ [] _ hpath ⟨_, hstep, .nil _, by rw [hafter]; rfl⟩
  change s.batch = [] at hnil
  rw [hnil] at hlen
  cases hlen

/-- The same payload when `stop()` has been called meanwhile: the timeout flushes it. -/
theorem timeout_flushes_stopping : ∃ s u : Engine,
    (engineMachine clientCrypto ⟨10, 2⟩ 0).Path (fun v a => flushSucceeds v a = true)
        (.fresh ⟨[], []⟩) (idleRun ++ [.stopCall]) s ∧
      s.batch ≠ [] ∧ u.batch = [] ∧
      ∀ item ∈ s.accepted, item ∉ s.queue → item ∈ u.telemetry.file := by
  have hexec : (((engineMachine clientCrypto ⟨10, 2⟩ 0).exec flushSucceeds (.fresh ⟨[], []⟩)
      (idleRun ++ [.stopCall])).bind fun s =>
        ((engineMachine clientCrypto ⟨10, 2⟩ 0).step s .timeout).bind fun t =>
          ((engineMachine clientCrypto ⟨10, 2⟩ 0).exec
            (fun v a => flushSucceeds v a && v.writer.inFlush) t
            [.flushBegin false, .flushRow false, .flushCommit false, .flushReturn]).map fun u =>
              (s.stopEvent, s.batch.isEmpty, u.writer.inFlush)) =
      some (true, false, false) := by decide +kernel
  obtain ⟨s, hs, hexec⟩ := Option.bind_eq_some_iff.mp hexec
  obtain ⟨t, ht, hexec⟩ := Option.bind_eq_some_iff.mp hexec
  obtain ⟨u, hu, hend⟩ := Option.map_eq_some_iff.mp hexec
  simp only [Prod.mk.injEq] at hend
  obtain ⟨hstop, hne, hout⟩ := hend
  have hpath := Machine.path_of_exec hs
  have hiter : TimedOutIteration clientCrypto ⟨10, 2⟩ 0 s _ u :=
    ⟨t, ht, (Machine.path_of_exec hu).mono fun _ _ hok => by simpa using hok, hout⟩
  have hleft := (timeout_flushes_iff clientCrypto ⟨10, 2⟩ 0 ⟨_, Tables.initial_nil, rfl⟩ hpath
    hiter).mpr (.inr hstop)
  exact ⟨s, u, hpath, by simpa using hne, hleft⟩

end Tollbridge
end SovereignSeed
