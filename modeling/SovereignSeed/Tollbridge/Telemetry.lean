import SovereignSeed.Tollbridge.Vault

/-!
# The way of a payload

A payload goes from the queue into the batch of the writer and from there into
`ingress_telemetry`.  Whatever the faults, the queue and the batch stay within
their bounds, and what lies anywhere on the way has been put by an accepted call.

## Main definitions

* `WriterPc.exited` — the writer has left its loop.
* `Bystander` — the steps that leave the payloads alone.
* `PipeInv`, `ItemInv` — the invariants of the payloads.
* `EngineInv` — all that holds in every reachable state.

## Main results

* `PipeInv.step`, `ItemInv.step` — **the invariants are preserved.**
* `EngineInv.of_path` — **they hold along every run.**
-/

namespace SovereignSeed
namespace Tollbridge

open Python

variable {C : Crypto} {cfg : Config} {eid : ℕ} {s s' : Engine} {a : Act}

/-! ### Where the writer goes -/

/-- The writer has left its loop. -/
def WriterPc.exited : WriterPc → Bool
  | .starting final => final
  | .writing final _ => final
  | .flushed final _ => final
  | .done => true
  | _ => false

theorem finalDrain_cases (s : Engine) :
    (s.finalDrain = .done ∧ s.batch = []) ∨ (s.finalDrain = .starting true ∧ s.batch ≠ []) := by
  unfold Engine.finalDrain
  split
  · next h => exact .inl ⟨rfl, h⟩
  · next h => exact .inr ⟨rfl, h⟩

theorem loopTest_cases (s : Engine) :
    s.loopTest = .getting ∨
      (s.loopTest = s.finalDrain ∧ s.stopEvent = true ∧ s.queue = []) := by
  unfold Engine.loopTest
  split
  · exact .inl rfl
  · next h =>
    rw [not_or, Bool.not_eq_false, not_not] at h
    exact .inr ⟨rfl, h⟩

theorem afterGet_cases (cfg : Config) (s : Engine) :
    (s.afterGet cfg = .starting false ∧ s.batch ≠ []) ∨
      (s.afterGet cfg = s.loopTest ∧ (s.batch.length < cfg.batchSize ∨ s.batch = [])) := by
  unfold Engine.afterGet
  split
  · split
    · next h => exact .inr ⟨rfl, .inr h⟩
    · next h => exact .inl ⟨rfl, h⟩
  · next h => exact .inr ⟨rfl, .inl (Nat.lt_of_not_le fun hle => h (.inl hle))⟩

@[simp] theorem written_finalDrain (s : Engine) : s.finalDrain.written = 0 := by
  rcases finalDrain_cases s with ⟨h, -⟩ | ⟨h, -⟩ <;> rw [h] <;> rfl

@[simp] theorem written_loopTest (s : Engine) : s.loopTest.written = 0 := by
  rcases loopTest_cases s with h | ⟨h, -⟩ <;> rw [h]
  · rfl
  · exact written_finalDrain s

@[simp] theorem written_afterGet (cfg : Config) (s : Engine) : (s.afterGet cfg).written = 0 := by
  rcases afterGet_cases cfg s with ⟨h, -⟩ | ⟨h, -⟩ <;> rw [h]
  · rfl
  · exact written_loopTest s

/-- The loop is left with the stop event set and the queue empty. -/
theorem exited_loopTest (h : s.loopTest.exited = true) : s.stopEvent = true ∧ s.queue = [] := by
  rcases loopTest_cases s with hget | ⟨-, hstop⟩
  · rw [hget] at h
    cases h
  · exact hstop

theorem exited_afterGet (h : (s.afterGet cfg).exited = true) :
    s.stopEvent = true ∧ s.queue = [] := by
  rcases afterGet_cases cfg s with ⟨hflush, -⟩ | ⟨hloop, -⟩
  · rw [hflush] at h
    cases h
  · rw [hloop] at h
    exact exited_loopTest h

/-- No batch is under way, or none at all, where the loop test leads. -/
theorem loopTest_ne (s : Engine) : s.loopTest ≠ .created ∧ (∀ f k, s.loopTest ≠ .writing f k) ∧
    ∀ f k, s.loopTest ≠ .flushed f k := by
  rcases loopTest_cases s with h | ⟨h, -⟩
  · rw [h]
    exact ⟨nofun, nofun, nofun⟩
  · rcases finalDrain_cases s with ⟨hd, -⟩ | ⟨hd, -⟩ <;> rw [h, hd] <;> exact ⟨nofun, nofun, nofun⟩

theorem afterGet_ne (cfg : Config) (s : Engine) : s.afterGet cfg ≠ .created ∧
    (∀ f k, s.afterGet cfg ≠ .writing f k) ∧ ∀ f k, s.afterGet cfg ≠ .flushed f k := by
  rcases afterGet_cases cfg s with ⟨h, -⟩ | ⟨h, -⟩ <;> rw [h]
  · exact ⟨nofun, nofun, nofun⟩
  · exact loopTest_ne s

/-- The loop ends at once only with an empty batch. -/
theorem batch_of_loopTest_done (h : s.loopTest = .done) : s.batch = [] := by
  rcases loopTest_cases s with hget | ⟨hdrain, -⟩
  · rw [hget] at h
    cases h
  · rcases finalDrain_cases s with ⟨-, hb⟩ | ⟨hs, -⟩
    · exact hb
    · rw [hdrain, hs] at h
      cases h

/-! ### The telemetry as a table -/

theorem telemetry_insertTelemetry (row : TelemetryRow) :
    (s.insertTelemetry row).telemetry = s.telemetry.write (· ++ [row]) :=
  Store.map_write _ _ fun _ => rfl

/-- On an open connection a row is seen at once. -/
theorem view_insertTelemetry (h : s.store.epoch ≠ none) (row : TelemetryRow) :
    (s.insertTelemetry row).telemetry.view = s.telemetry.view ++ [row] := by
  obtain ⟨e, he⟩ := Option.ne_none_iff_exists'.mp h
  rw [telemetry_insertTelemetry]
  exact Store.view_write _ _ (e := e) (by simpa [Engine.telemetry] using he)

theorem telemetry_insertVault (h : s.telemetry.Sound) (row : VaultRow) :
    (s.insertVault row).telemetry = s.telemetry :=
  (Store.map_write Tables.telemetry s.store fun _ => rfl).trans h.write_id

theorem telemetry_of_beginTx {t : Engine} (h : t.store = s.store.beginTx) :
    t.telemetry = s.telemetry.beginTx := by
  rw [Engine.telemetry, h]
  exact Store.map_beginTx _ _

theorem telemetry_of_commit {t : Engine} (h : t.store = s.store.commit) :
    t.telemetry = s.telemetry.commit := by
  rw [Engine.telemetry, h]
  exact Store.map_commit _ _

/-- A step that leaves the way of the payloads alone. -/
structure Bystander (s s' : Engine) : Prop where
  queue : s'.queue = s.queue
  batch : s'.batch = s.batch
  writer : s'.writer = s.writer
  accepted : s'.accepted = s.accepted
  stopEvent : s'.stopEvent = s.stopEvent
  stopping : s'.stopping = s.stopping
  epoch : s'.store.epoch = s.store.epoch
  telemetry : s'.telemetry = s.telemetry ∨ s'.telemetry = s.telemetry.beginTx ∨
    s'.telemetry = s.telemetry.commit

namespace Bystander

variable {i : ℕ} {call : Call} {pc : CallPc}

theorem submit {now : ClockReading} {r : Request} : Bystander s (s.submit C now r) :=
  ⟨rfl, rfl, rfl, rfl, rfl, rfl, rfl, .inl rfl⟩

theorem pcOnly : Bystander s (s.setPc i call pc) := ⟨rfl, rfl, rfl, rfl, rfl, rfl, rfl, .inl rfl⟩

theorem begun : Bystander s ({ s with store := s.store.beginTx }.setPc i call pc) :=
  ⟨rfl, rfl, rfl, rfl, rfl, rfl, Store.epoch_beginTx _, .inr (.inl (telemetry_of_beginTx rfl))⟩

theorem inserted (h : s.telemetry.Sound) {row : VaultRow} :
    Bystander s ((s.insertVault row).setPc i call pc) :=
  ⟨rfl, rfl, rfl, rfl, rfl, rfl, Store.epoch_write _ _, .inl (telemetry_insertVault h row)⟩

theorem committed : Bystander s ({ s with store := s.store.commit }.setPc i call pc) :=
  ⟨rfl, rfl, rfl, rfl, rfl, rfl, Store.epoch_commit _, .inr (.inr (telemetry_of_commit rfl))⟩

theorem view (h : Bystander s s') : s'.telemetry.view = s.telemetry.view := by
  rcases h.telemetry with heq | heq | heq <;> simp [heq]

theorem sound (h : Bystander s s') (hs : s.telemetry.Sound) : s'.telemetry.Sound := by
  rcases h.telemetry with heq | heq | heq <;> rw [heq]
  · exact hs
  · exact hs.beginTx
  · exact hs.commit

/-- A bystander saves rows, or leaves the file as it is. -/
theorem file (h : Bystander s s') :
    s'.telemetry.file = s.telemetry.file ∨ s'.telemetry.file = s.telemetry.view := by
  rcases h.telemetry with heq | heq | heq <;> simp [heq]

end Bystander

/-! ### The invariant of all runs -/

/-- What holds of the queue, the batch and the writer in every reachable state. -/
structure PipeInv (cfg : Config) (s : Engine) : Prop where
  sound : s.telemetry.Sound
  /-- The connection stays open while there is a writer task. -/
  running : s.writer ≠ .done → s.store.epoch ≠ none
  written_le : s.writer.written ≤ s.batch.length
  queue_le : 0 < cfg.maxQueueDepth → s.queue.length ≤ cfg.maxQueueDepth
  batch_le : s.batch.length ≤ max 1 cfg.batchSize
  getting : s.writer = .getting → s.batch.length < max 1 cfg.batchSize
  idle : s.writer = .created ∨ s.writer = .done → s.batch = []

namespace PipeInv

theorem of_fresh {file : Tables} : PipeInv cfg (.fresh file) where
  sound := Store.sound_of_epoch_eq_none rfl
  running := fun h => absurd rfl h
  written_le := Nat.le_refl _
  queue_le := fun _ => Nat.zero_le _
  batch_le := Nat.zero_le _
  getting := nofun
  idle := fun _ => rfl

theorem of_bystander (h : PipeInv cfg s) (hb : Bystander s s') : PipeInv cfg s' where
  sound := hb.sound h.sound
  running := by rw [hb.writer, hb.epoch]; exact h.running
  written_le := by rw [hb.writer, hb.batch]; exact h.written_le
  queue_le := by rw [hb.queue]; exact h.queue_le
  batch_le := by rw [hb.batch]; exact h.batch_le
  getting := by rw [hb.writer, hb.batch]; exact h.getting
  idle := by rw [hb.writer, hb.batch]; exact h.idle

/-- What the loop does after its `try` with a batch within its bound. -/
theorem afterGet_spec {t : Engine} (hle : t.batch.length ≤ max 1 cfg.batchSize) :
    (t.afterGet cfg = .getting → t.batch.length < max 1 cfg.batchSize) ∧
      (t.afterGet cfg = .created ∨ t.afterGet cfg = .done → t.batch = []) := by
  rcases afterGet_cases cfg t with ⟨hflush, -⟩ | ⟨hloop, hsmall⟩
  · rw [hflush]
    exact ⟨nofun, by rintro (h | h) <;> cases h⟩
  · rw [hloop]
    refine ⟨fun _ => ?_, ?_⟩
    · rcases hsmall with hlt | hnil
      · omega
      · rw [hnil]; exact Nat.lt_of_lt_of_le Nat.zero_lt_one (le_max_left _ _)
    · rintro (h | h)
      · exact absurd h (loopTest_ne t).1
      · exact batch_of_loopTest_done h

/-- A writer that has not ended has a connection. -/
theorem epoch_ne_none (h : PipeInv cfg s) {w : WriterPc} (hw : s.writer = w) (hlive : w ≠ .done) :
    s.store.epoch ≠ none := by
  apply h.running
  rw [hw]
  exact hlive

/-- A writer that changes its control point only. -/
theorem setWriter (h : PipeInv cfg s) {v w : WriterPc} (hv : s.writer = v) (hlive : v ≠ .done)
    (hwritten : w.written ≤ s.batch.length)
    (hget : w = .getting → s.batch.length < max 1 cfg.batchSize)
    (hidle : w = .created ∨ w = .done → s.batch = []) : PipeInv cfg { s with writer := w } where
  sound := h.sound
  running := fun _ => h.epoch_ne_none hv hlive
  written_le := hwritten
  queue_le := h.queue_le
  batch_le := h.batch_le
  getting := hget
  idle := hidle

/-- **Every step preserves the invariant.** -/
theorem step (h : PipeInv cfg s) (hm : Moves C cfg eid s a s') : PipeInv cfg s' := by
  have hone : 0 < max 1 cfg.batchSize := Nat.lt_of_lt_of_le Nat.zero_lt_one (le_max_left _ _)
  cases hm with
  | submit => exact h.of_bystander .submit
  | pcOnly => exact h.of_bystander .pcOnly
  | begun => exact h.of_bystander .begun
  | inserted => exact h.of_bystander (.inserted h.sound)
  | committed => exact h.of_bystander .committed
  | start he hw =>
    have hnil := h.idle (.inr hw)
    exact ⟨h.sound.openSession, fun _ => nofun, Nat.zero_le _, h.queue_le, h.batch_le, nofun,
      fun _ => hnil⟩
  | stopCall => exact ⟨h.sound, h.running, h.written_le, h.queue_le, h.batch_le, h.getting, h.idle⟩
  | stopReturn _ hw =>
    exact ⟨h.sound.close, fun hne => absurd hw hne, h.written_le, h.queue_le, h.batch_le, h.getting,
      h.idle⟩
  | put hcall hpc hroom =>
    refine ⟨h.sound, h.running, h.written_le, fun hpos => ?_, h.batch_le, h.getting, h.idle⟩
    have hlt : s.queue.length < cfg.maxQueueDepth := by
      simpa [Engine.queueFull, hpos] using hroom
    rw [List.length_append, List.length_singleton]
    exact hlt
  | writerOnly hmove =>
    cases hmove with
    | start hw =>
      have hnil := h.idle (.inl hw)
      refine h.setWriter hw nofun (by simp) (fun _ => by rw [hnil]; exact hone) ?_
      exact fun _ => hnil
    | timeout hw =>
      obtain ⟨hget, hidle⟩ := afterGet_spec (t := s) h.batch_le
      exact h.setWriter hw nofun (by simp) hget hidle
    | cancel hw =>
      refine h.setWriter hw nofun (by simp) (fun _ => h.getting hw) ?_
      rcases finalDrain_cases s with ⟨hd, hnil⟩ | ⟨hd, -⟩
      · exact fun _ => hnil
      · rw [hd]
        rintro (h | h) <;> cases h
    | beginFailed hw =>
      exact h.setWriter hw nofun (Nat.zero_le _) nofun (by rintro (h | h) <;> cases h)
    | rowFailed hw =>
      have hle := h.written_le
      rw [hw] at hle
      exact h.setWriter hw nofun hle nofun (by rintro (h | h) <;> cases h)
    | commitFailed hw =>
      have hle := h.written_le
      rw [hw] at hle
      exact h.setWriter hw nofun hle nofun (by rintro (h | h) <;> cases h)
  | @got item rest hw hq =>
    have hlt := h.getting hw
    have hle : (s.batch ++ [item]).length ≤ max 1 cfg.batchSize := by
      rw [List.length_append, List.length_singleton]
      exact hlt
    obtain ⟨hget, hidle⟩ := afterGet_spec
      (t := { s with queue := rest, batch := s.batch ++ [item] }) hle
    refine ⟨h.sound, fun _ => h.epoch_ne_none hw nofun, by simp, fun hpos => ?_, hle, hget, hidle⟩
    have hq' := h.queue_le hpos
    rw [hq, List.length_cons] at hq'
    exact Nat.le_of_succ_le hq'
  | flushBegun hw he =>
    refine ⟨?_, fun _ => by simpa using he, Nat.zero_le _, h.queue_le, h.batch_le, nofun,
      by rintro (h | h) <;> cases h⟩
    rw [telemetry_of_beginTx (s := s) rfl]
    exact h.sound.beginTx
  | @rowWritten final k item hw hk hbind =>
    have hlen : k < s.batch.length := (List.getElem?_eq_some_iff.mp hk).1
    refine ⟨?_, fun _ => ?_, hlen, h.queue_le, h.batch_le, nofun, by rintro (h | h) <;> cases h⟩
    · exact (telemetry_insertTelemetry item).symm ▸ h.sound.append item
    · exact (Store.epoch_write _ _).symm ▸ h.epoch_ne_none hw nofun
  | flushCommitted hw hk =>
    refine ⟨?_, fun _ => ?_, Nat.le_of_eq hk, h.queue_le, h.batch_le, nofun,
      by rintro (h | h) <;> cases h⟩
    · rw [telemetry_of_commit (s := s) rfl]
      exact h.sound.commit
    · exact (Store.epoch_commit s.store).symm ▸ h.epoch_ne_none hw nofun
  | @flushReturned final k hw =>
    refine ⟨h.sound, fun _ => h.epoch_ne_none hw nofun, ?_, h.queue_le, Nat.zero_le _, fun _ => hone,
      fun _ => rfl⟩
    cases final with
    | true => exact Nat.le_refl _
    | false => exact Nat.le_of_eq (written_loopTest _)

end PipeInv

/-! ### Payloads and calls -/

/-- The payloads put are those of the accepted calls, and what lies in the table,
the batch and the queue was there at the start or has been put. -/
structure ItemInv (C : Crypto) (eid : ℕ) (base : List TelemetryRow) (s : Engine) : Prop where
  of_accepted : ∀ {i call}, s.calls i = some call → call.pc = .returned .accepted →
    ∃ now, call.item C eid i now ∈ s.accepted
  to_accepted : ∀ item ∈ s.accepted, ∃ i call now, s.calls i = some call ∧
    call.pc = .returned .accepted ∧ item = call.item C eid i now
  callers : (s.accepted.map TelemetryRow.caller).Nodup
  origin : ∀ item, item ∈ s.telemetry.view ∨ item ∈ s.batch ∨ item ∈ s.queue →
    item ∈ base ∨ item ∈ s.accepted

namespace ItemInv

variable {base : List TelemetryRow}

theorem of_fresh {file : Tables} : ItemInv C eid file.telemetry (.fresh file) where
  of_accepted := nofun
  to_accepted := nofun
  callers := List.nodup_nil
  origin := fun item h => by
    rcases h with h | h | h
    · exact .inl h
    · cases h
    · cases h

/-- A step that neither accepts nor shows anything new. -/
theorem of_subset (h : ItemInv C eid base s) (hcalls : s'.calls = s.calls)
    (haccepted : s'.accepted = s.accepted)
    (hsub : ∀ item, item ∈ s'.telemetry.view ∨ item ∈ s'.batch ∨ item ∈ s'.queue →
      item ∈ s.telemetry.view ∨ item ∈ s.batch ∨ item ∈ s.queue) : ItemInv C eid base s' where
  of_accepted := by rw [hcalls, haccepted]; exact h.of_accepted
  to_accepted := by rw [hcalls, haccepted]; exact h.to_accepted
  callers := by rw [haccepted]; exact h.callers
  origin := fun item hitem => by rw [haccepted]; exact h.origin item (hsub item hitem)

theorem of_bystander (h : ItemInv C eid base s) (hb : Bystander s s')
    (hcalls : s'.calls = s.calls) : ItemInv C eid base s' :=
  h.of_subset hcalls hb.accepted fun item => by rw [hb.view, hb.batch, hb.queue]; exact id

/-- A call that moves without being accepted. -/
theorem setPc (h : ItemInv C eid base s) {i : ℕ} {call : Call} {pc : CallPc}
    (hcall : s.calls i = some call) (hold : call.pc ≠ .returned .accepted)
    (hnew : pc ≠ .returned .accepted) : ItemInv C eid base (s.setPc i call pc) where
  of_accepted := fun hc hpc => by
    rcases setPc_calls hc with ⟨rfl, rfl⟩ | ⟨-, hc⟩
    · exact absurd hpc hnew
    · exact h.of_accepted hc hpc
  to_accepted := fun item hitem => by
    obtain ⟨j, call', now, hc, hpc, rfl⟩ := h.to_accepted item hitem
    have hne : j ≠ i := by
      rintro rfl
      rw [hcall] at hc
      cases hc
      exact hold hpc
    exact ⟨j, call', now, (Function.update_of_ne hne _ _).trans hc, hpc, rfl⟩
  callers := h.callers
  origin := h.origin

/-- A call whose payload is put. -/
theorem put (h : ItemInv C eid base s) {i : ℕ} {call : Call} {now : ClockReading}
    (hcall : s.calls i = some call) (hold : call.pc ≠ .returned .accepted) :
    ItemInv C eid base { s.setPc i call (.returned .accepted) with
      queue := s.queue ++ [call.item C eid i now]
      accepted := s.accepted ++ [call.item C eid i now] } where
  of_accepted := fun {j call'} hc hpc => by
    rcases setPc_calls hc with ⟨rfl, rfl⟩ | ⟨-, hc⟩
    · exact ⟨now, List.mem_append_right _ (List.mem_singleton_self _)⟩
    · obtain ⟨now', hmem⟩ := h.of_accepted hc hpc
      exact ⟨now', List.mem_append_left _ hmem⟩
  to_accepted := fun item hitem => by
    rcases List.mem_append.mp hitem with hitem | hitem
    · obtain ⟨j, call', now', hc, hpc, rfl⟩ := h.to_accepted item hitem
      have hne : j ≠ i := by
        rintro rfl
        rw [hcall] at hc
        cases hc
        exact hold hpc
      exact ⟨j, call', now', (Function.update_of_ne hne _ _).trans hc, hpc, rfl⟩
    · obtain rfl := List.mem_singleton.mp hitem
      exact ⟨i, { call with pc := .returned .accepted }, now, Function.update_self _ _ _, rfl, rfl⟩
  callers := by
    rw [List.map_append]
    apply h.callers.append (List.nodup_singleton _)
    intro c hc hc'
    obtain rfl := List.mem_singleton.mp hc'
    obtain ⟨item, hitem, heq⟩ := List.mem_map.mp hc
    -- an earlier payload of the same call would make it accepted already
    obtain ⟨j, call', now', hcj, hpc, rfl⟩ := h.to_accepted item hitem
    obtain rfl : j = i := (Prod.mk.inj (Option.some.inj heq)).2
    rw [hcall] at hcj
    cases hcj
    exact hold hpc
  origin := fun item hitem => by
    rcases hitem with hitem | hitem | hitem
    · exact (h.origin item (.inl hitem)).imp id (List.mem_append_left _)
    · exact (h.origin item (.inr (.inl hitem))).imp id (List.mem_append_left _)
    · rcases List.mem_append.mp hitem with hitem | hitem
      · exact (h.origin item (.inr (.inr hitem))).imp id (List.mem_append_left _)
      · exact .inr (List.mem_append_right _ hitem)

/-- **Every step preserves the invariant.** -/
theorem step (h : ItemInv C eid base s) (hv : VaultInv eid s) (hp : PipeInv cfg s)
    (hm : Moves C cfg eid s a s') : ItemInv C eid base s' := by
  have hsame : ∀ {t : Engine}, t.telemetry.view = s.telemetry.view → t.batch = s.batch →
      t.queue = s.queue → t.calls = s.calls → t.accepted = s.accepted → ItemInv C eid base t :=
    fun hview hbatch hqueue hcalls haccepted =>
      h.of_subset hcalls haccepted fun item => by rw [hview, hbatch, hqueue]; exact id
  have hfile : ∀ item, item ∈ s.telemetry.file ∨ item ∈ s.batch ∨ item ∈ s.queue →
      item ∈ s.telemetry.view ∨ item ∈ s.batch ∨ item ∈ s.queue :=
    fun item => Or.imp_left hp.sound.mem_view
  cases hm with
  | submit now r =>
    refine ⟨fun hc hpc => ?_, fun item hitem => ?_, h.callers, h.origin⟩
    · exact h.of_accepted (submit_calls_old hc (by rw [hpc]; nofun) (by rw [hpc]; nofun)) hpc
    · obtain ⟨j, call, now', hc, hpc, rfl⟩ := h.to_accepted item hitem
      exact ⟨j, call, now', hv.calls_submit hc, hpc, rfl⟩
  | pcOnly hcall hmove =>
    refine h.setPc hcall (fun heq => ?_) fun heq => ?_
    · cases hmove <;> simp_all
    · have hk := hmove.kept_iff
      rw [heq] at hk
      cases hk
  | begun hcall hpc he =>
    have hopen : ItemInv C eid base { s with store := s.store.beginTx } :=
      hsame (by rw [telemetry_of_beginTx (s := s) rfl, Store.view_beginTx]) rfl rfl rfl rfl
    exact hopen.setPc hcall (by rw [hpc]; nofun) nofun
  | @inserted i e call hcall hpc hr =>
    have hins : ItemInv C eid base (s.insertVault (call.vaultRow eid i)) :=
      hsame (by rw [telemetry_insertVault hp.sound]) rfl rfl rfl rfl
    exact hins.setPc hcall (by rw [hpc]; nofun) nofun
  | committed hcall hpc he =>
    have hsaved : ItemInv C eid base { s with store := s.store.commit } :=
      hsame (by rw [telemetry_of_commit (s := s) rfl, Store.view_commit]) rfl rfl rfl rfl
    exact hsaved.setPc hcall (by rw [hpc]; nofun) nofun
  | put hcall hpc hroom => exact h.put hcall (by rw [hpc]; nofun)
  | start => exact h.of_subset rfl rfl hfile
  | stopCall => exact hsame rfl rfl rfl rfl rfl
  | stopReturn => exact h.of_subset rfl rfl hfile
  | writerOnly => exact hsame rfl rfl rfl rfl rfl
  | @got item rest hw hq =>
    refine h.of_subset rfl rfl fun x hx => ?_
    rw [hq]
    rcases hx with hx | hx | hx
    · exact .inl hx
    · rcases List.mem_append.mp hx with hx | hx
      · exact .inr (.inl hx)
      · exact .inr (.inr (List.mem_cons.mpr (.inl (List.mem_singleton.mp hx))))
    · exact .inr (.inr (List.mem_cons_of_mem _ hx))
  | flushBegun =>
    exact hsame (by rw [telemetry_of_beginTx (s := s) rfl, Store.view_beginTx]) rfl rfl rfl rfl
  | @rowWritten final k item hw hk hbind =>
    have hview := view_insertTelemetry (hp.epoch_ne_none hw nofun) item
    refine h.of_subset rfl rfl fun x hx => ?_
    rcases hx with hx | hx | hx
    · change x ∈ (s.insertTelemetry item).telemetry.view at hx
      rw [hview] at hx
      rcases List.mem_append.mp hx with hx | hx
      · exact .inl hx
      · obtain rfl := List.mem_singleton.mp hx
        exact .inr (.inl (List.mem_of_getElem? hk))
    · exact .inr (.inl hx)
    · exact .inr (.inr hx)
  | flushCommitted =>
    exact hsame (by rw [telemetry_of_commit (s := s) rfl, Store.view_commit]) rfl rfl rfl rfl
  | flushReturned =>
    refine h.of_subset rfl rfl fun x hx => ?_
    rcases hx with hx | hx | hx
    · exact .inl hx
    · cases hx
    · exact .inr (.inr hx)

/-- A payload put earlier is not among those put later. -/
theorem not_mem_late (h : ItemInv C eid base s) {early late : List TelemetryRow}
    (haccepted : s.accepted = early ++ late) {item : TelemetryRow} (hitem : item ∈ early) :
    item ∉ late := by
  intro hlate
  have hnodup := h.callers
  rw [haccepted, List.map_append] at hnodup
  exact (List.nodup_append.mp hnodup).2.2 _ (List.mem_map_of_mem hitem) _
    (List.mem_map_of_mem hlate) rfl

end ItemInv

/-! ### All runs -/

/-- What holds in every reachable state, whatever the faults. -/
structure EngineInv (C : Crypto) (cfg : Config) (eid : ℕ) (base : List TelemetryRow) (s : Engine) :
    Prop where
  vault : VaultInv eid s
  calls : AdmitInv C eid s
  pipe : PipeInv cfg s
  items : ItemInv C eid base s

namespace EngineInv

variable {base : List TelemetryRow} {s₀ : Engine} {ok : Engine → Act → Prop} {as : List Act}

theorem of_init (h : (engineMachine C cfg eid).init s) :
    EngineInv C cfg eid s.telemetry.file s := by
  obtain ⟨file, hfile, rfl⟩ := h
  exact ⟨.of_fresh hfile.keys, .of_fresh, .of_fresh, .of_fresh⟩

theorem step (h : EngineInv C cfg eid base s) (hm : Moves C cfg eid s a s') :
    EngineInv C cfg eid base s' :=
  ⟨h.vault.step hm, h.calls.step hm, h.pipe.step hm, h.items.step h.vault h.pipe hm⟩

/-- **The invariant holds along every run.** -/
theorem of_path (h0 : (engineMachine C cfg eid).init s₀)
    (h : (engineMachine C cfg eid).Path ok s₀ as s) :
    EngineInv C cfg eid s₀.telemetry.file s :=
  h.invariant (fun _ _ _ hu _ hst => hu.step (moves_of_step hst)) (.of_init h0)

end EngineInv

end Tollbridge
end SovereignSeed
