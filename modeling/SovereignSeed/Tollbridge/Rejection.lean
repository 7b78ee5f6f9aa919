import SovereignSeed.Tollbridge.Telemetry

/-!
# What a rejection leaves behind

A rejected submission is to leave nothing in the vault and nothing on the queue, so
that it can be made again.  The record is committed before the queue is tried, and
a `commit` that fails does not take the `INSERT` back; a run must take neither
step.  In such runs a submission that the database serves, and that finds room on
the queue, is accepted after five steps of its own.

## Main definitions

* `Act.caller?` — the call that takes a step.
* `Request.storable`, `serves` — what a submission needs to be accepted.
* `CallPc.served`, `Served` — the control points of a submission that is served.
* `submissionAt`, `Answered` — a submission with nothing in between.

## Main results

* `own_step_enabled` — a call that has not returned can take its next step.
* `Served.step`, `Served.of_path` — **a served call goes on.**
* `exists_answered` — a running engine can accept what passes its checks.
* `rejected_leaves_no_trace` — **a rejected call leaves nothing behind**;
  `backpressure_leaves_row` is a run in which one does.
-/

namespace SovereignSeed
namespace Tollbridge

open Python

variable {C : Crypto} {cfg : Config} {eid : ℕ} {s s' : Engine} {a : Act}

/-! ### The steps of a call -/

/-- The call that takes the step. -/
def Act.caller? : Act → Option ℕ
  | .openCursor i => some i
  | .beginInsert i _ => some i
  | .insert i _ => some i
  | .commitInsert i _ => some i
  | .resume i _ => some i
  | _ => none

theorem PcMove.caller? {i : ℕ} {call : Call} {pc : CallPc} (h : PcMove cfg eid s i call a pc) :
    a.caller? = some i := by
  cases h <;> rfl

theorem WriterMove.caller? {w : WriterPc} (h : WriterMove cfg s a w) : a.caller? = none := by
  cases h <;> rfl

/-- A call that has not returned can take its next step. -/
theorem own_step_enabled {i : ℕ} {call : Call} (hcall : s.calls i = some call)
    (hpc : ∀ response, call.pc ≠ .returned response) :
    ∃ a, a.caller? = some i ∧ (s.step C cfg eid a).isSome = true := by
  cases h : call.pc with
  | scheduled =>
    refine ⟨.openCursor i, rfl, ?_⟩
    cases he : s.store.epoch <;> simp [Engine.step, Engine.stepCall, hcall, h, he]
  | cursor e =>
    refine ⟨.beginInsert i false, rfl, ?_⟩
    by_cases he : s.onConnection e = true <;> simp [Engine.step, Engine.stepCall, hcall, h, he]
  | begun e =>
    refine ⟨.insert i false, rfl, ?_⟩
    cases hr : s.insertResult e (call.vaultRow eid i) false <;>
      simp [Engine.step, Engine.stepCall, hcall, h, hr]
  | inserted e =>
    refine ⟨.commitInsert i false, rfl, ?_⟩
    by_cases he : s.store.epoch = none <;> simp [Engine.step, Engine.stepCall, hcall, h, he]
  | finished result =>
    refine ⟨.resume i call.submittedAt, rfl, ?_⟩
    simp [Engine.step, Engine.stepCall, hcall, h]
  | returned response => exact absurd h (hpc response)

/-! ### Submissions that are served -/

/-- The vault can store the record: its text has a UTF-8 form, its time is a number. -/
def Request.storable (r : Request) : Bool :=
  encodable r.clientPubkey && encodable r.nonce && encodable r.signatureHex &&
    decide (r.timestampSec ≠ .nan)

/-- What is recorded has passed its checks and is storable. -/
theorem AdmitInv.checked (h : AdmitInv C eid s) {i : ℕ} {call : Call}
    (hcall : s.calls i = some call) (hpc : call.pc.kept = true) :
    validateSubmission C call.submittedAt call.request = .ok () ∧
      call.request.storable = true := by
  have hlive : call.pc.rejected = false := by
    revert hpc
    cases call.pc with
    | returned response => cases response <;> simp [CallPc.kept, CallPc.rejected]
    | _ => exact fun _ => rfl
  obtain ⟨hbind, hts⟩ := h.stored hcall hpc
  refine ⟨h.admitted hcall hlive, ?_⟩
  simp only [VaultRow.bindable, Call.vaultRow, Bool.and_eq_true] at hbind
  simp [Request.storable, hbind, hts]

/-- A call that has done its `INSERT` and is not rejected holds the key. -/
def Engine.keyKept (s : Engine) (key : PyStr × PyStr) : Bool :=
  (List.range s.submitted).any fun i =>
    (s.calls i).any fun call => call.pc.kept && call.request.key == key

/-- The database works for call `i`, its key is free, and there is room on the queue. -/
def serves (cfg : Config) (i : ℕ) (key : PyStr × PyStr) (s : Engine) : Act → Bool
  | .stopReturn => false
  | .beginInsert j fault => !(j == i && fault)
  | .insert j fault => !(j == i && (fault || s.keyKept key))
  | .commitInsert j fault => !(j == i && fault)
  | .resume j _ => !(j == i && s.queueFull cfg)
  | _ => true

/-- The control point of a served call after `k` steps. -/
def CallPc.served (e : ℕ) : ℕ → CallPc
  | 0 => .scheduled
  | 1 => .cursor e
  | 2 => .begun e
  | 3 => .inserted e
  | 4 => .finished (.ok ())
  | _ => .returned .accepted

/-- Call `i` has taken `k` steps and has been served on connection `e`. -/
structure Served (i : ℕ) (r : Request) (e k : ℕ) (s : Engine) : Prop where
  epoch : s.store.epoch = some e
  call : ∃ now, s.calls i = some ⟨r, now, .served e k⟩

namespace Served

variable {base : List VaultRow} {i e k : ℕ} {r : Request}

/-- A step of others. -/
theorem of_other (h : Served i r e k s) (hcalls : s'.calls i = s.calls i)
    (hepoch : s'.store.epoch = s.store.epoch) (hcaller : a.caller? ≠ some i) :
    Served i r e (if a.caller? = some i then k + 1 else k) s' where
  epoch := hepoch.trans h.epoch
  call := by
    rw [if_neg hcaller, hcalls]
    exact h.call

/-- A step of the call itself. -/
theorem of_own (h : Served i r e k s) {call : Call} {t : Engine} (hcall : s.calls i = some call)
    (hepoch : t.store.epoch = s.store.epoch) (hcaller : a.caller? = some i) :
    Served i r e (if a.caller? = some i then k + 1 else k)
      (t.setPc i call (.served e (k + 1))) where
  epoch := hepoch.trans h.epoch
  call := by
    obtain ⟨now, hi⟩ := h.call
    rw [hcall] at hi
    cases hi
    rw [if_pos hcaller]
    exact ⟨now, Function.update_self _ _ _⟩

/-- The `INSERT` of a served call succeeds. -/
theorem insert_ok (h : Served i r e k s) (hv : VaultInv eid s) (ht : TraceInv eid s)
    (hr : RowInv eid base s) (hbase : ∀ row ∈ base, row.key ≠ r.key) (hstore : r.storable = true)
    {call : Call} (hcall : s.calls i = some call) (hkey : s.keyKept r.key = false) :
    s.insertResult e (call.vaultRow eid i) false = .ok () := by
  obtain ⟨now, hi⟩ := h.call
  rw [hcall] at hi
  cases hi
  simp only [Request.storable, Bool.and_eq_true, decide_eq_true_eq] at hstore
  obtain ⟨⟨⟨hpubkey, hnonce⟩, hsig⟩, hts⟩ := hstore
  have hbind : (Call.vaultRow eid i ⟨r, now, .served e k⟩).bindable = true := by
    simp [VaultRow.bindable, Call.vaultRow, hpubkey, hnonce, hsig]
  refine insertResult_eq_ok_iff.mpr ⟨h.epoch, hbind, rfl, hts, ?_⟩
  intro hmem
  obtain ⟨row, hrow, heq⟩ := List.mem_map.mp hmem
  rcases hr row hrow with hold | ⟨j, call', hj, rfl⟩
  · exact hbase row hold heq
  · -- a row of a call is that of a call that is kept
    obtain ⟨call'', hj', hkept, -⟩ := ht _ hrow j rfl
    rw [hj] at hj'
    cases hj'
    have hlt : j < s.submitted := hv.lt_submitted hj
    have hany : s.keyKept r.key = true := by
      refine List.any_eq_true.mpr ⟨j, List.mem_range.mpr hlt, ?_⟩
      have hkey' : call'.request.key = r.key := heq
      simp [hj, hkept, hkey']
    rw [hkey] at hany
    cases hany

/-- **A step that serves the call takes it on, or leaves it where it is.** -/
theorem step (h : Served i r e k s) (hv : VaultInv eid s) (ht : TraceInv eid s)
    (hr : RowInv eid base s) (hbase : ∀ row ∈ base, row.key ≠ r.key) (hstore : r.storable = true)
    (hm : Moves C cfg eid s a s') (hok : serves cfg i r.key s a = true) :
    Served i r e (if a.caller? = some i then k + 1 else k) s' := by
  obtain ⟨now, hi⟩ := h.call
  have hother : ∀ {t : Engine} {j : ℕ} {call : Call} {pc : CallPc}, t.calls = s.calls →
      t.store.epoch = s.store.epoch → a.caller? = some j → j ≠ i →
      Served i r e (if a.caller? = some i then k + 1 else k) (t.setPc j call pc) := by
    intro t j call pc hcalls hepoch hcaller hj
    refine h.of_other ?_ hepoch ?_
    · exact (Function.update_of_ne (Ne.symm hj) _ _).trans (congrFun hcalls i)
    · rw [hcaller]
      exact fun heq => hj (Option.some.inj heq)
  cases hm with
  | start he =>
    rw [h.epoch] at he
    cases he
  | stopReturn => cases hok
  | submit =>
    exact h.of_other ((hv.calls_submit hi).trans hi.symm) rfl nofun
  | @pcOnly _ j call pc hcall hmove =>
    by_cases hj : j = i
    · subst hj
      have hpc : call.pc = .served e k := by
        rw [hcall] at hi
        cases hi
        rfl
      cases hmove with
      | noConnection _ he =>
        rw [h.epoch] at he
        cases he
      | cursor hsched he =>
        rw [h.epoch] at he
        cases he
        rw [hpc] at hsched
        rcases k with _ | _ | _ | _ | _ | k <;> cases hsched
        exact h.of_own hcall rfl rfl
      | beginFailed hcur hfail =>
        rw [hpc] at hcur
        rcases k with _ | _ | _ | _ | _ | k <;> cases hcur
        rcases hfail with he | rfl
        · exact absurd h.epoch he
        · simp [serves] at hok
      | @insertFailed _ fault _ hbegun hr' =>
        rw [hpc] at hbegun
        rcases k with _ | _ | _ | _ | _ | k <;> cases hbegun
        obtain ⟨rfl, hkey⟩ : fault = false ∧ s.keyKept r.key = false := by
          simpa [serves] using hok
        rw [h.insert_ok hv ht hr hbase hstore hcall hkey] at hr'
        cases hr'
      | commitFailed _ hfail =>
        rcases hfail with he | ⟨rfl, -⟩
        · rw [h.epoch] at he
          cases he
        · simp [serves] at hok
      | replay hfin =>
        rw [hpc] at hfin
        rcases k with _ | _ | _ | _ | _ | k <;> cases hfin
      | databaseFault hfin =>
        rw [hpc] at hfin
        rcases k with _ | _ | _ | _ | _ | k <;> cases hfin
      | backpressure _ hfull => simp [serves, hfull] at hok
    · exact hother rfl rfl hmove.caller? hj
  | @begun j e' call hcall hcur he =>
    by_cases hj : j = i
    · subst hj
      rw [hcall] at hi
      cases hi
      rcases k with _ | _ | _ | _ | _ | k <;> cases hcur
      exact h.of_own (t := { s with store := s.store.beginTx }) hcall (Store.epoch_beginTx _) rfl
    · exact hother (t := { s with store := s.store.beginTx }) rfl (Store.epoch_beginTx _) rfl hj
  | @inserted j e' call hcall hbegun hr' =>
    by_cases hj : j = i
    · subst hj
      rw [hcall] at hi
      cases hi
      rcases k with _ | _ | _ | _ | _ | k <;> cases hbegun
      exact h.of_own (t := s.insertVault _) hcall (Store.epoch_write _ _) rfl
    · exact hother (t := s.insertVault _) rfl (Store.epoch_write _ _) rfl hj
  | @committed j e' _ call hcall hins =>
    by_cases hj : j = i
    · subst hj
      rw [hcall] at hi
      cases hi
      rcases k with _ | _ | _ | _ | _ | k <;> cases hins
      exact h.of_own (t := { s with store := s.store.commit }) hcall (Store.epoch_commit _) rfl
    · exact hother (t := { s with store := s.store.commit }) rfl (Store.epoch_commit _) rfl hj
  | @put j now' call hcall hfin =>
    by_cases hj : j = i
    · subst hj
      rw [hcall] at hi
      cases hi
      rcases k with _ | _ | _ | _ | _ | k <;> cases hfin
      have hput := h.of_own (a := .resume j now') (t := s) hcall rfl rfl
      exact ⟨hput.epoch, hput.call⟩
    · have hput : Served i r e _ (s.setPc j call (.returned .accepted)) :=
        hother (t := s) rfl rfl rfl hj
      exact ⟨hput.epoch, hput.call⟩
  | writerOnly hmove => exact h.of_other rfl rfl (by rw [hmove.caller?]; nofun)
  | stopCall => exact h.of_other rfl rfl nofun
  | got => exact h.of_other rfl rfl nofun
  | flushBegun => exact h.of_other rfl (Store.epoch_beginTx _) nofun
  | rowWritten => exact h.of_other rfl (Store.epoch_write _ _) nofun
  | flushCommitted => exact h.of_other rfl (Store.epoch_commit _) nofun
  | flushReturned => exact h.of_other rfl rfl nofun

/-- **Along a run that serves the call it takes one control point a step.** -/
theorem of_path {ok : Engine → Act → Prop} {as : List Act} {t : Engine}
    (h : (engineMachine C cfg eid).Path ok s as t)
    (hok : ∀ u a, ok u a → rejectsNoRow cfg eid u a = true ∧ serves cfg i r.key u a = true)
    (hbase : ∀ row ∈ base, row.key ≠ r.key) (hstore : r.storable = true) :
    ∀ {k}, Served i r e k s → VaultInv eid s → TraceInv eid s → RowInv eid base s →
      Served i r e (k + as.countP fun a => a.caller? = some i) t := by
  induction h with
  | nil => exact fun hs _ _ _ => hs
  | @cons s u t a as hguard hst _ ih =>
    intro k hs hv ht hr
    have hm : Moves C cfg eid s a u := moves_of_step hst
    obtain ⟨hrejects, hserves⟩ := hok s a hguard
    have hnext := ih (hs.step hv ht hr hbase hstore hm hserves) (hv.step hm)
      (ht.step hv hm hrejects) (hr.step hv hm)
    by_cases hcaller : a.caller? = some i
    · rw [if_pos hcaller, Nat.add_assoc, Nat.add_comm 1] at hnext
      simpa [List.countP_cons, hcaller] using hnext
    · rw [if_neg hcaller] at hnext
      simpa [List.countP_cons, hcaller] using hnext

/-- A served call has returned `accepted`, or has not returned. -/
theorem accepted_or (h : Served i r e k s) : ∃ call, s.calls i = some call ∧ call.request = r ∧
    (call.pc = .returned .accepted ∨ k < 5 ∧ ∀ response, call.pc ≠ .returned response) := by
  obtain ⟨now, hi⟩ := h.call
  refine ⟨_, hi, rfl, ?_⟩
  rcases k with _ | _ | _ | _ | _ | k
  · exact .inr ⟨by omega, nofun⟩
  · exact .inr ⟨by omega, nofun⟩
  · exact .inr ⟨by omega, nofun⟩
  · exact .inr ⟨by omega, nofun⟩
  · exact .inr ⟨by omega, nofun⟩
  · exact .inl rfl

end Served

/-! ### A submission with nothing in between -/

/-- All steps of the submission of `r` as call `i`, checked at `now`. -/
def submissionAt (i : ℕ) (now : ClockReading) (r : Request) : List Act :=
  [.submit now r, .openCursor i, .beginInsert i false, .insert i false, .commitInsert i false,
    .resume i now]

/-- The engine with one more call, and the database as `store` has it. -/
def Engine.withCall (s : Engine) (store : Store Tables) (call : Call) : Engine :=
  { s with
    store := store
    calls := Function.update s.calls s.submitted (some call)
    submitted := s.submitted + 1 }

@[simp] theorem Engine.calls_withCall {store : Store Tables} {call : Call} :
    (s.withCall store call).calls s.submitted = some call := Function.update_self _ _ _

/-- What the submission of `r` leaves behind. -/
structure Answered (s : Engine) (now : ClockReading) (r : Request) (t : Engine) : Prop where
  calls : t.calls = Function.update s.calls s.submitted (some ⟨r, now, .returned .accepted⟩)
  submitted : t.submitted = s.submitted + 1
  epoch : t.store.epoch = s.store.epoch
  keys : t.vault.view.map VaultRow.key = s.vault.view.map VaultRow.key ++ [r.key]
  queue : t.queue.length = s.queue.length + 1

/-- **A request that passes its checks is accepted** by a running engine, where nothing
comes in between, its key is new and the queue has room. -/
theorem exists_answered {now : ClockReading} {r : Request} {e : ℕ}
    (hopen : s.store.epoch = some e) (hvalid : validateSubmission C now r = .ok ())
    (hstore : r.storable = true) (hkey : r.key ∉ s.vault.view.map VaultRow.key)
    (hroom : s.queueFull cfg = false) :
    ∃ t, (engineMachine C cfg eid).Path (fun u a => commitsRecord eid u a = true) s
        (submissionAt s.submitted now r) t ∧ Answered s now r t := by
  have hbegun : s.store.beginTx.epoch = some e := (Store.epoch_beginTx _).trans hopen
  have hsubmit : Engine.step C cfg eid s (.submit now r) =
      some (s.withCall s.store ⟨r, now, .scheduled⟩) := by
    simp [Engine.step, Engine.submit, hvalid, Engine.withCall]
  have hcursor : Engine.step C cfg eid (s.withCall s.store ⟨r, now, .scheduled⟩)
      (.openCursor s.submitted) = some (s.withCall s.store ⟨r, now, .cursor e⟩) := by
    simp [Engine.step, Engine.stepCall, Engine.withCall, Engine.setPc, hopen]
  have hbegin : Engine.step C cfg eid (s.withCall s.store ⟨r, now, .cursor e⟩)
      (.beginInsert s.submitted false) =
        some (s.withCall s.store.beginTx ⟨r, now, .begun e⟩) := by
    simp [Engine.step, Engine.stepCall, Engine.withCall, Engine.setPc, Engine.onConnection, hopen]
  have hresult : (s.withCall s.store.beginTx ⟨r, now, .begun e⟩).insertResult e
      (Call.vaultRow eid s.submitted ⟨r, now, .begun e⟩) false = .ok () := by
    simp only [Request.storable, Bool.and_eq_true, decide_eq_true_eq] at hstore
    obtain ⟨⟨⟨hpubkey, hnonce⟩, hsig⟩, hts⟩ := hstore
    have hbind : (Call.vaultRow eid s.submitted ⟨r, now, .begun e⟩).bindable = true := by
      simp [VaultRow.bindable, Call.vaultRow, hpubkey, hnonce, hsig]
    have hnew : r.key ∉ (s.withCall s.store.beginTx ⟨r, now, .begun e⟩).vault.view.map
        VaultRow.key := by
      simpa [Engine.vault, Engine.withCall] using hkey
    exact insertResult_eq_ok_iff.mpr ⟨hbegun, hbind, rfl, hts, hnew⟩
  -- the row is in the transaction, and then in the file
  obtain ⟨written, hwritten⟩ : ∃ written : Store Tables, written = s.store.beginTx.write fun t =>
      { t with vault := t.vault ++ [Call.vaultRow eid s.submitted ⟨r, now, .begun e⟩] } := ⟨_, rfl⟩
  have hinsert : Engine.step C cfg eid (s.withCall s.store.beginTx ⟨r, now, .begun e⟩)
      (.insert s.submitted false) = some (s.withCall written ⟨r, now, .inserted e⟩) := by
    rw [Engine.step, Engine.calls_withCall, Option.bind_some]
    simp only [Engine.stepCall, hresult]
    simp [Engine.insertVault, Engine.withCall, Engine.setPc, hwritten]
  have hview : written.view = { s.store.view with
      vault := s.store.view.vault ++ [Call.vaultRow eid s.submitted ⟨r, now, .begun e⟩] } := by
    rw [hwritten, Store.view_write _ _ hbegun, Store.view_beginTx]
  have hepoch : written.epoch = some e := by
    rw [hwritten, Store.epoch_write, hbegun]
  have hcommit : Engine.step C cfg eid (s.withCall written ⟨r, now, .inserted e⟩)
      (.commitInsert s.submitted false) =
        some (s.withCall written.commit ⟨r, now, .finished (.ok ())⟩) := by
    simp [Engine.step, Engine.stepCall, Engine.withCall, Engine.setPc, hepoch]
  have hrow : commitsRecord eid (s.withCall written ⟨r, now, .inserted e⟩)
      (.commitInsert s.submitted false) = true := by
    have hmem : Call.vaultRow eid s.submitted ⟨r, now, .inserted e⟩ ∈ written.view.vault := by
      rw [hview]
      exact List.mem_append_right _ (List.mem_singleton.mpr rfl)
    simp [commitsRecord, Engine.vault, Engine.withCall, hmem]
  have hresume : ∃ t, Engine.step C cfg eid
      (s.withCall written.commit ⟨r, now, .finished (.ok ())⟩) (.resume s.submitted now) = some t ∧
        Answered s now r t := by
    have hroom' : (s.withCall written.commit ⟨r, now, .finished (.ok ())⟩).queueFull cfg = false :=
      hroom
    refine ⟨_, by
      rw [Engine.step, Engine.calls_withCall, Option.bind_some]
      simp only [Engine.stepCall, Engine.respond, Engine.put, hroom', Bool.false_eq_true, if_false]
      rfl, ?_⟩
    constructor
    · simp [Engine.withCall, Engine.setPc]
    · rfl
    · exact (Store.epoch_commit _).trans (hepoch.trans hopen.symm)
    · simp [Engine.withCall, Engine.setPc, Engine.vault, hview]
      rfl
    · simp [Engine.withCall]
  obtain ⟨t, hresume, hanswered⟩ := hresume
  exact ⟨t, .cons rfl hsubmit (.cons rfl hcursor (.cons rfl hbegin (.cons rfl hinsert
    (.cons hrow hcommit (.cons rfl hresume (.nil t)))))), hanswered⟩

/-- A new engine on an empty vault accepts the first such request. -/
theorem exists_answered_first {now : ClockReading} {r : Request}
    (hvalid : validateSubmission C now r = .ok ()) (hstore : r.storable = true) :
    ∃ t, (engineMachine C cfg eid).Path (fun u a => commitsRecord eid u a = true)
        (.fresh ⟨[], []⟩) (.start :: submissionAt 0 now r) t ∧
      Answered (Engine.fresh ⟨[], []⟩).start now r t := by
  have hroom : (Engine.fresh ⟨[], []⟩).start.queueFull cfg = false := by
    rcases Nat.eq_zero_or_pos cfg.maxQueueDepth with hzero | hpos
    · simp [Engine.queueFull, hzero]
    · simp [Engine.queueFull, Engine.start, Engine.fresh, hpos.ne']
  obtain ⟨t, hpath, hanswered⟩ : ∃ t, (engineMachine C cfg eid).Path
      (fun u a => commitsRecord eid u a = true) (Engine.fresh ⟨[], []⟩).start
      (submissionAt 0 now r) t ∧ Answered (Engine.fresh ⟨[], []⟩).start now r t :=
    exists_answered (e := 0) rfl hvalid hstore List.not_mem_nil hroom
  exact ⟨t, .cons rfl rfl hpath, hanswered⟩

/-! ### Rejected calls -/

/-- A call that is not accepted has nothing on the way to the table. -/
theorem ItemInv.not_mem {base : List TelemetryRow} (h : ItemInv C eid base s)
    (hbase : ∀ row ∈ base, row.caller = none) {i : ℕ} {call : Call}
    (hcall : s.calls i = some call) (hpc : call.pc ≠ .returned .accepted) {item : TelemetryRow}
    (hitem : item ∈ s.telemetry.view ∨ item ∈ s.batch ∨ item ∈ s.queue) :
    item.caller ≠ some (eid, i) := by
  intro hcaller
  rcases h.origin item hitem with hold | hput
  · rw [hbase item hold] at hcaller
    cases hcaller
  · obtain ⟨j, call', now, hj, hpc', rfl⟩ := h.to_accepted item hput
    obtain rfl : j = i := (Prod.mk.inj (Option.some.inj hcaller)).2
    rw [hcall] at hj
    cases hj
    exact hpc hpc'

/-- **A rejected call leaves nothing behind**, in a run that rejects none that has
its row in the vault; and a submission made then is accepted, if the database
works for it, its key is free and the queue has room: it has returned `accepted`,
or has taken less than five steps and can take the next. -/
theorem rejected_leaves_no_trace (C : Crypto) (cfg : Config) (eid : ℕ) {s₀ s : Engine}
    {as : List Act} (h0 : (engineMachine C cfg eid).init s₀)
    (h : (engineMachine C cfg eid).Path (fun u a => rejectsNoRow cfg eid u a = true) s₀ as s) :
    (∀ i call reason, s.calls i = some call → call.pc = .returned (.rejected reason) →
      (∀ row ∈ s.vault.view, row.caller ≠ some (eid, i)) ∧
        ∀ item, item ∈ s.telemetry.view ∨ item ∈ s.batch ∨ item ∈ s.queue →
          item.caller ≠ some (eid, i)) ∧
      ∀ now r, s.store.epoch ≠ none → validateSubmission C now r = .ok () → r.storable = true →
        (∀ row ∈ s₀.vault.file, row.key ≠ r.key) → ∀ bs t,
        (engineMachine C cfg eid).Path (fun u a => rejectsNoRow cfg eid u a = true ∧
          serves cfg s.submitted r.key u a = true) s (.submit now r :: bs) t →
        ∃ call, t.calls s.submitted = some call ∧ call.request = r ∧
          (call.pc = .returned .accepted ∨
            (bs.countP fun a => a.caller? = some s.submitted) < 5 ∧
              (∀ response, call.pc ≠ .returned response) ∧
              ∃ a, a.caller? = some s.submitted ∧ (t.step C cfg eid a).isSome = true) := by
  obtain ⟨hinv, htrace, hrows⟩ := h.invariant
    (P := fun u => EngineInv C cfg eid s₀.telemetry.file u ∧ TraceInv eid u ∧
      RowInv eid s₀.vault.file u)
    (fun u b v hu hok hst => by
      have hm : Moves C cfg eid u b v := moves_of_step hst
      exact ⟨hu.1.step hm, hu.2.1.step hu.1.vault hm hok, hu.2.2.step hu.1.vault hm⟩)
    (by
      have hengine := EngineInv.of_init h0
      obtain ⟨file, hfile, rfl⟩ := h0
      exact ⟨hengine, .of_fresh hfile.vault, .of_fresh⟩)
  refine ⟨fun i call reason hcall hpc => ⟨?_, ?_⟩, ?_⟩
  · intro row hrow hcaller
    obtain ⟨call', hcall', hkept, -⟩ := htrace row hrow i hcaller
    rw [hcall] at hcall'
    cases hcall'
    rw [hpc] at hkept
    cases hkept
  · have hbase : ∀ row ∈ s₀.telemetry.file, row.caller = none := by
      obtain ⟨file, hfile, rfl⟩ := h0
      exact hfile.telemetry
    intro item hitem
    exact hinv.items.not_mem hbase hcall (by rw [hpc]; nofun) hitem
  · intro now r hopen hvalid hstore hbase bs t hpath
    obtain ⟨e, he⟩ := Option.ne_none_iff_exists'.mp hopen
    obtain ⟨u, hok, hst, hrest⟩ := hpath.head
    have hm : Moves C cfg eid s (.submit now r) u := moves_of_step hst
    have hserved : Served s.submitted r e 0 u := by
      obtain rfl : s.submit C now r = u := Option.some.inj hst
      refine ⟨he, now, ?_⟩
      simp [Engine.submit, hvalid, CallPc.served]
    have hlast := Served.of_path hrest (fun _ _ => id) hbase hstore hserved
      (hinv.vault.step hm) (htrace.step hinv.vault hm hok.1) (hrows.step hinv.vault hm)
    obtain ⟨call, hcall, hreq, hpc⟩ := hlast.accepted_or
    refine ⟨call, hcall, hreq, hpc.imp id fun hlive => ⟨?_, hlive.2, ?_⟩⟩
    · simpa using hlive.1
    · exact own_step_enabled hcall hlive.2

/-- **A call rejected for backpressure leaves its row in the vault.** -/
theorem backpressure_leaves_row :
    ¬ ∀ s as, (engineMachine clientCrypto ⟨1, 10⟩ 0).Path Machine.free (.fresh ⟨[], []⟩) as s →
      ∀ i call reason, s.calls i = some call → call.pc = .returned (.rejected reason) →
        ∀ row ∈ s.vault.view, row.caller ≠ some (0, i) := by
  intro htrace
  have hexec : ((engineMachine clientCrypto ⟨1, 10⟩ 0).exec (fun _ _ => true) (.fresh ⟨[], []⟩)
      ([.start, .writerStart] ++ submission 0 aliceFirst ++ submission 1 bobFirst)).map
      (fun s => (s.calls 1, s.vault.view.map VaultRow.caller)) =
      some (some ⟨bobFirst, clock, .returned (.rejected "BACKPRESSURE_REJECTION_QUEUE_FULL")⟩,
        [some (0, 0), some (0, 1)]) := by decide +kernel
  obtain ⟨s, hpath, hend⟩ := Machine.exists_path_of_exec hexec
  simp only [Prod.mk.injEq] at hend
  have hmem : some (0, 1) ∈ s.vault.view.map VaultRow.caller := by
    rw [hend.2]
    exact List.mem_cons_of_mem _ (List.mem_singleton_self _)
  obtain ⟨row, hrow, hcaller⟩ := List.mem_map.mp hmem
  exact htrace s _ (hpath.mono fun _ _ _ => trivial) 1 _ _ hend.1 rfl row hrow hcaller

/-- A submission whose statement fails, made again when the database works. -/
theorem rejected_leaves_no_trace_retry : ∃ s t,
    (engineMachine clientCrypto ⟨10, 10⟩ 0).Path
        (fun u a => rejectsNoRow ⟨10, 10⟩ 0 u a = true) (.fresh ⟨[], []⟩)
        [.start, .writerStart, .submit clock aliceFirst, .openCursor 0, .beginInsert 0 true,
          .resume 0 clock] s ∧
      (engineMachine clientCrypto ⟨10, 10⟩ 0).Path
        (fun u a => rejectsNoRow ⟨10, 10⟩ 0 u a = true ∧
          serves ⟨10, 10⟩ s.submitted aliceFirst.key u a = true) s (submission 1 aliceFirst) t ∧
      (∀ row ∈ s.vault.view, row.caller ≠ some (0, 0)) ∧
      ∃ call, t.calls 1 = some call ∧ call.pc = .returned .accepted := by
  have hexec : (((engineMachine clientCrypto ⟨10, 10⟩ 0).exec (rejectsNoRow ⟨10, 10⟩ 0)
      (.fresh ⟨[], []⟩) [.start, .writerStart, .submit clock aliceFirst, .openCursor 0,
        .beginInsert 0 true, .resume 0 clock]).bind fun s =>
      ((engineMachine clientCrypto ⟨10, 10⟩ 0).exec (fun u a => rejectsNoRow ⟨10, 10⟩ 0 u a &&
        serves ⟨10, 10⟩ 1 aliceFirst.key u a) s (submission 1 aliceFirst)).map
        fun _ => (s.calls 0, s.submitted, s.store.epoch)) =
      some (some ⟨aliceFirst, clock, .returned (.rejected "INTERNAL_DATABASE_FAULT")⟩, 1, some 0) := by
    decide +kernel
  obtain ⟨s, hs, hexec⟩ := Option.bind_eq_some_iff.mp hexec
  obtain ⟨t, ht, hend⟩ := Option.map_eq_some_iff.mp hexec
  simp only [Prod.mk.injEq] at hend
  obtain ⟨hcall, hsub, hepoch⟩ := hend
  have hpath := Machine.path_of_exec hs
  have hretry := (Machine.path_of_exec ht).mono fun u a hok => Bool.and_eq_true_iff.mp hok
  have hvalid : validateSubmission clientCrypto clock aliceFirst = .ok () := by decide +kernel
  obtain ⟨hrejected, hserved⟩ := rejected_leaves_no_trace clientCrypto ⟨10, 10⟩ 0
    ⟨_, Tables.initial_nil, rfl⟩ hpath
  refine ⟨s, t, hpath, by rw [hsub]; exact hretry, (hrejected 0 _ _ hcall rfl).1, ?_⟩
  obtain ⟨call, hcall', -, hpc⟩ := hserved clock aliceFirst (by rw [hepoch]; nofun) hvalid
    (by decide) nofun _ t (by rw [hsub]; exact hretry)
  rw [hsub] at hcall' hpc
  exact ⟨call, hcall', hpc.resolve_right fun hlive => absurd hlive.1 (by decide)⟩

end Tollbridge
end SovereignSeed
