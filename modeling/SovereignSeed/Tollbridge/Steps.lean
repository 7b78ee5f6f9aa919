import SovereignSeed.Tollbridge.Engine

/-!
# What a step of the engine does

The step function is a program; the results below are about what it can do.
This is said once, as a relation between a state and the next, and the
invariants are read off the relation.

## Main definitions

* `PcMove` — the steps of a call that change its control point only.
* `WriterMove` — the steps of the writer that change its control point only.
* `Moves` — all steps.

## Main results

* `insertResult_eq_ok_iff` — when an `INSERT` succeeds.
* `moves_of_step` — **every step is one of the moves.**
-/

namespace SovereignSeed
namespace Tollbridge

open Python

variable {C : Crypto} {cfg : Config} {eid : ℕ} {s s' : Engine}

/-! ### The relation -/

/-- The steps of call `i` that change its control point and nothing else. -/
inductive PcMove (cfg : Config) (eid : ℕ) (s : Engine) (i : ℕ) (call : Call) : Act → CallPc → Prop
  | noConnection : call.pc = .scheduled → s.store.epoch = none →
      PcMove cfg eid s i call (.openCursor i) (.finished (.error .other))
  | cursor {e : ℕ} : call.pc = .scheduled → s.store.epoch = some e →
      PcMove cfg eid s i call (.openCursor i) (.cursor e)
  | beginFailed {e : ℕ} {fault : Bool} : call.pc = .cursor e →
      s.store.epoch ≠ some e ∨ fault = true →
      PcMove cfg eid s i call (.beginInsert i fault) (.finished (.error .other))
  | insertFailed {e : ℕ} {fault : Bool} {err : DbError} : call.pc = .begun e →
      s.insertResult e (call.vaultRow eid i) fault = .error err →
      PcMove cfg eid s i call (.insert i fault) (.finished (.error err))
  | commitFailed {e : ℕ} {fault : Bool} : call.pc = .inserted e →
      s.store.epoch = none ∨ (fault = true ∧ s.store.inTx = true) →
      PcMove cfg eid s i call (.commitInsert i fault) (.finished (.error .other))
  | replay {now : ClockReading} : call.pc = .finished (.error .integrity) →
      PcMove cfg eid s i call (.resume i now) (.returned (.rejected "NONCE_REPLAY_DETECTED"))
  | databaseFault {now : ClockReading} : call.pc = .finished (.error .other) →
      PcMove cfg eid s i call (.resume i now) (.returned (.rejected "INTERNAL_DATABASE_FAULT"))
  | backpressure {now : ClockReading} : call.pc = .finished (.ok ()) → s.queueFull cfg = true →
      PcMove cfg eid s i call (.resume i now)
        (.returned (.rejected "BACKPRESSURE_REJECTION_QUEUE_FULL"))

/-- The steps of the writer that change its control point and nothing else. -/
inductive WriterMove (cfg : Config) (s : Engine) : Act → WriterPc → Prop
  | start : s.writer = .created → WriterMove cfg s .writerStart s.loopTest
  | timeout : s.writer = .getting → WriterMove cfg s .timeout (s.afterGet cfg)
  | cancel : s.writer = .getting → WriterMove cfg s .cancel s.finalDrain
  | beginFailed {final fault : Bool} : s.writer = .starting final →
      s.store.epoch = none ∨ fault = true →
      WriterMove cfg s (.flushBegin fault) (.flushed final 0)
  | rowFailed {final fault : Bool} {k : ℕ} {item : TelemetryRow} : s.writer = .writing final k →
      s.batch[k]? = some item → item.bindable = false ∨ fault = true →
      WriterMove cfg s (.flushRow fault) (.flushed final k)
  | commitFailed {final : Bool} {k : ℕ} : s.writer = .writing final k → k = s.batch.length →
      s.store.inTx = true → WriterMove cfg s (.flushCommit true) (.flushed final k)

/-- What a step can do. -/
inductive Moves (C : Crypto) (cfg : Config) (eid : ℕ) (s : Engine) : Act → Engine → Prop
  | start : s.store.epoch = none → s.writer = .done → s.stopping = false →
      Moves C cfg eid s .start s.start
  | stopCall : s.store.epoch ≠ none → s.stopping = false →
      Moves C cfg eid s .stopCall { s with stopEvent := true, stopping := true }
  | stopReturn : s.stopping = true → s.writer = .done →
      Moves C cfg eid s .stopReturn { s with store := s.store.close, stopping := false }
  | submit (now : ClockReading) (r : Request) :
      Moves C cfg eid s (.submit now r) (s.submit C now r)
  | pcOnly {a : Act} {i : ℕ} {call : Call} {pc : CallPc} : s.calls i = some call →
      PcMove cfg eid s i call a pc → Moves C cfg eid s a (s.setPc i call pc)
  | begun {i e : ℕ} {call : Call} : s.calls i = some call → call.pc = .cursor e →
      s.store.epoch = some e →
      Moves C cfg eid s (.beginInsert i false)
        ({ s with store := s.store.beginTx }.setPc i call (.begun e))
  | inserted {i e : ℕ} {call : Call} : s.calls i = some call → call.pc = .begun e →
      s.insertResult e (call.vaultRow eid i) false = .ok () →
      Moves C cfg eid s (.insert i false)
        ((s.insertVault (call.vaultRow eid i)).setPc i call (.inserted e))
  | committed {i e : ℕ} {fault : Bool} {call : Call} : s.calls i = some call →
      call.pc = .inserted e → s.store.epoch ≠ none →
      Moves C cfg eid s (.commitInsert i fault)
        ({ s with store := s.store.commit }.setPc i call (.finished (.ok ())))
  | put {i : ℕ} {now : ClockReading} {call : Call} : s.calls i = some call →
      call.pc = .finished (.ok ()) → s.queueFull cfg = false →
      Moves C cfg eid s (.resume i now)
        { s.setPc i call (.returned .accepted) with
          queue := s.queue ++ [call.item C eid i now]
          accepted := s.accepted ++ [call.item C eid i now] }
  | writerOnly {a : Act} {w : WriterPc} : WriterMove cfg s a w →
      Moves C cfg eid s a { s with writer := w }
  | got {item : TelemetryRow} {rest : List TelemetryRow} : s.writer = .getting →
      s.queue = item :: rest →
      Moves C cfg eid s .get
        { s with
          queue := rest
          batch := s.batch ++ [item]
          writer := { s with queue := rest, batch := s.batch ++ [item] }.afterGet cfg }
  | flushBegun {final : Bool} : s.writer = .starting final → s.store.epoch ≠ none →
      Moves C cfg eid s (.flushBegin false)
        { s with store := s.store.beginTx, writer := .writing final 0 }
  | rowWritten {final : Bool} {k : ℕ} {item : TelemetryRow} : s.writer = .writing final k →
      s.batch[k]? = some item → item.bindable = true →
      Moves C cfg eid s (.flushRow false)
        { s.insertTelemetry item with writer := .writing final (k + 1) }
  | flushCommitted {final fault : Bool} {k : ℕ} : s.writer = .writing final k →
      k = s.batch.length → Moves C cfg eid s (.flushCommit fault)
        { s with store := s.store.commit, writer := .flushed final k }
  | flushReturned {final : Bool} {k : ℕ} : s.writer = .flushed final k →
      Moves C cfg eid s .flushReturn
        { s with
          batch := []
          writer := if final then .done else { s with batch := [] }.loopTest }

/-! ### The step function satisfies it -/

/-- When an `INSERT` succeeds. -/
theorem insertResult_eq_ok_iff {e : ℕ} {row : VaultRow} {fault : Bool} :
    s.insertResult e row fault = .ok () ↔
      s.store.epoch = some e ∧ row.bindable = true ∧ fault = false ∧ row.timestampSec ≠ .nan ∧
        row.key ∉ s.vault.view.map VaultRow.key := by
  unfold Engine.insertResult Engine.onConnection
  by_cases he : s.store.epoch = some e <;> cases row.bindable <;> cases fault <;>
    by_cases hts : row.timestampSec = .nan <;>
    by_cases hkey : row.key ∈ s.vault.view.map VaultRow.key <;> simp_all

/-- A failing call leads nowhere but to its next control point. -/
theorem moves_of_stepCall {a : Act} {i : ℕ} {call : Call} (hcall : s.calls i = some call)
    (ha : a = .openCursor i ∨ (∃ b, a = .beginInsert i b) ∨ (∃ b, a = .insert i b) ∨
      (∃ b, a = .commitInsert i b) ∨ ∃ now, a = .resume i now)
    (h : s.stepCall C cfg eid i call a = some s') : Moves C cfg eid s a s' := by
  rcases ha with rfl | ⟨fault, rfl⟩ | ⟨fault, rfl⟩ | ⟨fault, rfl⟩ | ⟨now, rfl⟩
  · simp only [Engine.stepCall] at h
    split at h
    · next hpc =>
      split at h
      · next he =>
        cases h
        exact .pcOnly hcall (.noConnection hpc he)
      · next e he =>
        cases h
        exact .pcOnly hcall (.cursor hpc he)
    · cases h
  · simp only [Engine.stepCall] at h
    split at h
    · next e hpc =>
      split at h
      · next hfail =>
        cases h
        refine .pcOnly hcall (.beginFailed hpc ?_)
        simpa [Engine.onConnection] using hfail
      · next hok =>
        cases h
        obtain ⟨he, rfl⟩ : s.store.epoch = some e ∧ fault = false := by
          simpa [Engine.onConnection] using hok
        exact .begun hcall hpc he
    · cases h
  · simp only [Engine.stepCall] at h
    split at h
    · next e hpc =>
      split at h
      · next err hr =>
        cases h
        exact .pcOnly hcall (.insertFailed hpc hr)
      · next hr =>
        cases h
        obtain rfl : fault = false := (insertResult_eq_ok_iff.mp hr).2.2.1
        exact .inserted hcall hpc hr
    · cases h
  · simp only [Engine.stepCall] at h
    split at h
    · next e hpc =>
      split at h
      · next hfail =>
        cases h
        exact .pcOnly hcall (.commitFailed hpc hfail)
      · next hok =>
        cases h
        exact .committed hcall hpc fun he => hok (.inl he)
    · cases h
  · simp only [Engine.stepCall] at h
    split at h
    · next result hpc =>
      cases h
      rcases result with (_ | _) | _
      · exact .pcOnly hcall (.replay hpc)
      · exact .pcOnly hcall (.databaseFault hpc)
      · simp only [Engine.respond, Engine.put]
        split
        · next hfull => exact .pcOnly hcall (.backpressure hpc hfull)
        · next hroom => exact .put hcall hpc (by simpa using hroom)
    · cases h

theorem moves_of_stepWriter {a : Act} (h : s.stepWriter cfg a = some s') :
    Moves C cfg eid s a s' := by
  unfold Engine.stepWriter at h
  split at h
  · split at h
    · next hw =>
      cases h
      exact .writerOnly (.start hw)
    · cases h
  · split at h
    · next hw =>
      split at h
      · cases h
      · next item rest hq =>
        cases h
        exact .got hw hq
    · cases h
  · split at h
    · next hw =>
      cases h
      exact .writerOnly (.timeout hw)
    · cases h
  · split at h
    · next hw =>
      cases h
      exact .writerOnly (.cancel hw)
    · cases h
  · split at h
    · next fault _ final hw =>
      split at h
      · next hfail =>
        cases h
        exact .writerOnly (.beginFailed hw hfail)
      · next hok =>
        cases h
        obtain ⟨he, hf⟩ := not_or.mp hok
        obtain rfl : fault = false := by simpa using hf
        exact .flushBegun hw he
    · cases h
  · split at h
    · next fault _ final k hw =>
      obtain ⟨item, hitem, h⟩ := Option.bind_eq_some_iff.mp h
      split at h
      · next hfail =>
        cases h
        exact .writerOnly (.rowFailed hw hitem (by simpa using hfail))
      · next hok =>
        cases h
        obtain ⟨hbind, rfl⟩ : item.bindable = true ∧ fault = false := by simpa using hok
        exact .rowWritten hw hitem hbind
    · cases h
  · split at h
    · next fault _ final k hw =>
      split at h
      · next hk =>
        split at h
        · next hfail =>
          cases h
          obtain ⟨rfl, htx⟩ := hfail
          exact .writerOnly (.commitFailed hw hk htx)
        · cases h
          exact .flushCommitted hw hk
      · cases h
    · cases h
  · split at h
    · next final k hw =>
      cases h
      exact .flushReturned hw
    · cases h
  · cases h

/-- **Every step is one of the moves.** -/
theorem moves_of_step {a : Act} (h : s.step C cfg eid a = some s') : Moves C cfg eid s a s' := by
  have hcalls : ∀ {i}, (s.calls i).bind (fun call => s.stepCall C cfg eid i call a) = some s' →
      (a = .openCursor i ∨ (∃ b, a = .beginInsert i b) ∨ (∃ b, a = .insert i b) ∨
        (∃ b, a = .commitInsert i b) ∨ ∃ now, a = .resume i now) → Moves C cfg eid s a s' := by
    intro i h ha
    obtain ⟨call, hcall, h⟩ := Option.bind_eq_some_iff.mp h
    exact moves_of_stepCall hcall ha h
  cases a with
  | start =>
    simp only [Engine.step] at h
    split at h
    · next hs =>
      cases h
      exact .start hs.1 hs.2.1 hs.2.2
    · cases h
  | stopCall =>
    simp only [Engine.step] at h
    split at h
    · next hs =>
      cases h
      exact .stopCall hs.1 hs.2
    · cases h
  | stopReturn =>
    simp only [Engine.step] at h
    split at h
    · next hs =>
      cases h
      exact .stopReturn hs.1 hs.2
    · cases h
  | submit now r =>
    cases h
    exact .submit now r
  | openCursor i => exact hcalls h (.inl rfl)
  | beginInsert i fault => exact hcalls h (.inr (.inl ⟨_, rfl⟩))
  | insert i fault => exact hcalls h (.inr (.inr (.inl ⟨_, rfl⟩)))
  | commitInsert i fault => exact hcalls h (.inr (.inr (.inr (.inl ⟨_, rfl⟩))))
  | resume i now => exact hcalls h (.inr (.inr (.inr (.inr ⟨_, rfl⟩))))
  | writerStart => exact moves_of_stepWriter h
  | get => exact moves_of_stepWriter h
  | timeout => exact moves_of_stepWriter h
  | cancel => exact moves_of_stepWriter h
  | flushBegin fault => exact moves_of_stepWriter h
  | flushRow fault => exact moves_of_stepWriter h
  | flushCommit fault => exact moves_of_stepWriter h
  | flushReturn => exact moves_of_stepWriter h

end Tollbridge
end SovereignSeed
