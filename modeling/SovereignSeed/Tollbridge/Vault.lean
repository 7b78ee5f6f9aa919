import SovereignSeed.Tollbridge.Steps

/-!
# The idempotency vault

What holds of the vault and of the calls in every reachable state, whatever the
faults: the keys of the vault are unique, a call that has done its `INSERT` on
the open connection has its row in the vault, and only admitted calls get there.

Two further facts hold in the runs the code is written for.  When no commit finds
its row gone with the connection of its `INSERT`, a recorded call has its row in
the file.  When no call is rejected with its row in the vault, the vault has no
row of a rejected call.

## Main definitions

* `CallPc.kept`, `CallPc.recorded` — what a control point says of the row.
* `VaultInv`, `RowInv`, `AdmitInv` — the invariants of all runs.
* `DurableInv`, `TraceInv` — the invariants of guarded runs.

## Main results

* `vault_file_prefix` — **the vault file only grows.**
* `VaultInv.step`, `RowInv.step`, `AdmitInv.step`, `DurableInv.step`, `TraceInv.step` —
  **the invariants are preserved.**
-/

namespace SovereignSeed
namespace Tollbridge

open Python

variable {C : Crypto} {cfg : Config} {eid : ℕ} {s s' : Engine} {a : Act}

/-! ### Control points -/

/-- The connection a call holds on to. -/
def CallPc.epoch? : CallPc → Option ℕ
  | .cursor e => some e
  | .begun e => some e
  | .inserted e => some e
  | _ => none

/-- The call has done its `INSERT` and is not rejected. -/
def CallPc.kept : CallPc → Bool
  | .inserted _ => true
  | .finished (.ok _) => true
  | .returned .accepted => true
  | _ => false

/-- The call has committed its record and is not rejected. -/
def CallPc.recorded : CallPc → Bool
  | .finished (.ok _) => true
  | .returned .accepted => true
  | _ => false

theorem CallPc.kept_of_recorded {pc : CallPc} (h : pc.recorded = true) : pc.kept = true := by
  unfold CallPc.recorded at h
  split at h
  · rfl
  · rfl
  · cases h

/-- The strings the vault is keyed by. -/
def Request.key (r : Request) : PyStr × PyStr := (r.clientPubkey, r.nonce)

/-- A step that only moves a call does not record it. -/
theorem PcMove.kept_iff {i : ℕ} {call : Call} {pc : CallPc} (h : PcMove cfg eid s i call a pc) :
    pc.kept = false := by
  cases h <;> rfl

@[simp] theorem vaultRow_setPc (i : ℕ) (call : Call) (pc : CallPc) :
    ({ call with pc := pc } : Call).vaultRow eid i = call.vaultRow eid i := rfl

/-- The calls after call `i` has moved. -/
theorem setPc_calls {i j : ℕ} {call call' : Call} {pc : CallPc}
    (h : (s.setPc i call pc).calls j = some call') :
    (j = i ∧ call' = { call with pc := pc }) ∨ (j ≠ i ∧ s.calls j = some call') := by
  by_cases hij : j = i
  · subst hij
    simp only [Engine.setPc, Function.update_self, Option.some.injEq] at h
    exact .inl ⟨rfl, h.symm⟩
  · simp only [Engine.setPc, Function.update_of_ne hij] at h
    exact .inr ⟨hij, h⟩

/-- The calls after a submission. -/
theorem submit_calls {now : ClockReading} {r : Request} {j : ℕ} {call : Call}
    (h : (s.submit C now r).calls j = some call) :
    (j = s.submitted ∧ call.request = r ∧ call.submittedAt = now ∧
        ((call.pc = .scheduled ∧ validateSubmission C now r = .ok ()) ∨
          ∃ reason, call.pc = .returned (.rejected reason))) ∨
      (j ≠ s.submitted ∧ s.calls j = some call) := by
  by_cases hj : j = s.submitted
  · subst hj
    simp only [Engine.submit, Function.update_self, Option.some.injEq] at h
    subst h
    refine .inl ⟨rfl, rfl, rfl, ?_⟩
    cases hadmit : validateSubmission C now r with
    | ok u => exact .inl ⟨rfl, rfl⟩
    | error reason => exact .inr ⟨reason, rfl⟩
  · simp only [Engine.submit, Function.update_of_ne hj] at h
    exact .inr ⟨hj, h⟩

/-- A new call is scheduled or rejected; any other call is an old one. -/
theorem submit_calls_old {now : ClockReading} {r : Request} {j : ℕ} {call : Call}
    (h : (s.submit C now r).calls j = some call) (hscheduled : call.pc ≠ .scheduled)
    (hrejected : ∀ reason, call.pc ≠ .returned (.rejected reason)) : s.calls j = some call := by
  rcases submit_calls h with ⟨-, -, -, ⟨hpc, -⟩ | ⟨reason, hpc⟩⟩ | ⟨-, hold⟩
  · exact absurd hpc hscheduled
  · exact absurd hpc (hrejected reason)
  · exact hold

/-! ### The vault as a table -/

theorem vault_insertVault (row : VaultRow) :
    (s.insertVault row).vault = s.vault.write (· ++ [row]) :=
  Store.map_write _ _ fun _ => rfl

/-- On an open connection a row is seen at once. -/
theorem view_insertVault {e : ℕ} (he : s.store.epoch = some e) (row : VaultRow) :
    (s.insertVault row).vault.view = s.vault.view ++ [row] := by
  rw [vault_insertVault]
  exact Store.view_write _ _ (e := e) (by simpa [Engine.vault] using he)

theorem vault_insertTelemetry (h : s.vault.Sound) (row : TelemetryRow) :
    (s.insertTelemetry row).vault = s.vault :=
  (Store.map_write Tables.vault s.store fun _ => rfl).trans h.write_id

/-- What a step does to the vault. -/
theorem Moves.vault (hm : Moves C cfg eid s a s') (h : s.vault.Sound) :
    s'.vault = s.vault ∨ s'.vault = s.vault.openSession ∨ s'.vault = s.vault.close ∨
      s'.vault = s.vault.beginTx ∨ s'.vault = s.vault.commit ∨
      ∃ i call, s.calls i = some call ∧
        s'.vault = s.vault.write (· ++ [call.vaultRow eid i]) := by
  cases hm with
  | start => exact .inr (.inl rfl)
  | stopReturn => exact .inr (.inr (.inl rfl))
  | begun => exact .inr (.inr (.inr (.inl (Store.map_beginTx _ _))))
  | flushBegun => exact .inr (.inr (.inr (.inl (Store.map_beginTx _ _))))
  | committed => exact .inr (.inr (.inr (.inr (.inl (Store.map_commit _ _)))))
  | flushCommitted => exact .inr (.inr (.inr (.inr (.inl (Store.map_commit _ _)))))
  | inserted hcall =>
    exact .inr (.inr (.inr (.inr (.inr ⟨_, _, hcall, vault_insertVault _⟩))))
  | rowWritten => exact .inl (vault_insertTelemetry h _)
  | stopCall => exact .inl rfl
  | submit => exact .inl rfl
  | pcOnly => exact .inl rfl
  | put => exact .inl rfl
  | writerOnly => exact .inl rfl
  | got => exact .inl rfl
  | flushReturned => exact .inl rfl

/-- **The vault file only grows.** -/
theorem vault_file_prefix (hm : Moves C cfg eid s a s') (h : s.vault.Sound) :
    s.vault.file <+: s'.vault.file := by
  rcases hm.vault h with heq | heq | heq | heq | heq | ⟨i, call, -, heq⟩ <;> rw [heq]
  · exact List.prefix_rfl
  · exact List.prefix_rfl
  · exact List.prefix_rfl
  · exact h.commit_durable
  · exact h.append_durable _

/-- A row of the vault was there before, or is that of a call. -/
theorem mem_vault_view (hm : Moves C cfg eid s a s') (h : s.vault.Sound) {row : VaultRow}
    (hrow : row ∈ s'.vault.view) :
    row ∈ s.vault.view ∨ ∃ i call, s.calls i = some call ∧ row = call.vaultRow eid i := by
  rcases hm.vault h with heq | heq | heq | heq | heq | ⟨i, call, hcall, heq⟩ <;> rw [heq] at hrow
  · exact .inl hrow
  · exact .inl (h.mem_view hrow)
  · exact .inl (h.mem_view hrow)
  · exact .inl (by simpa using hrow)
  · exact .inl (by simpa using hrow)
  · rcases Store.mem_view_append hrow with hold | rfl
    · exact .inl hold
    · exact .inr ⟨i, call, hcall, rfl⟩

/-! ### The invariant of all runs -/

/-- What holds of the vault and the calls in every reachable state. -/
structure VaultInv (eid : ℕ) (s : Engine) : Prop where
  sound : s.vault.Sound
  /-- `PRIMARY KEY (client_pubkey, nonce)`. -/
  keys : (s.vault.view.map VaultRow.key).Nodup
  fresh : ∀ i, s.submitted ≤ i → s.calls i = none
  epoch_lt : ∀ {i call e}, s.calls i = some call → call.pc.epoch? = some e → e < s.vault.opened
  inserted : ∀ {i call e}, s.calls i = some call → call.pc = .inserted e →
    s.vault.epoch = some e → call.vaultRow eid i ∈ s.vault.view

namespace VaultInv

/-- A new engine object on a file with unique keys. -/
theorem of_fresh {file : Tables} (h : (file.vault.map VaultRow.key).Nodup) :
    VaultInv eid (.fresh file) where
  sound := Store.sound_of_epoch_eq_none rfl
  keys := h
  fresh := fun _ _ => rfl
  epoch_lt := fun hc => by cases hc
  inserted := fun hc => by cases hc

/-- A step that shows the same rows on the same connection, to the same calls. -/
theorem of_view (h : VaultInv eid s) (hsound : s'.vault.Sound)
    (hview : s'.vault.view = s.vault.view) (hepoch : s'.vault.epoch = s.vault.epoch)
    (hopened : s'.vault.opened = s.vault.opened) (hcalls : s'.calls = s.calls)
    (hsubmitted : s'.submitted = s.submitted) : VaultInv eid s' where
  sound := hsound
  keys := by rw [hview]; exact h.keys
  fresh := by rw [hsubmitted, hcalls]; exact h.fresh
  epoch_lt := by rw [hcalls, hopened]; exact h.epoch_lt
  inserted := by rw [hcalls, hepoch, hview]; exact h.inserted

theorem of_eq (h : VaultInv eid s) (hvault : s'.vault = s.vault) (hcalls : s'.calls = s.calls)
    (hsubmitted : s'.submitted = s.submitted) : VaultInv eid s' :=
  h.of_view (by rw [hvault]; exact h.sound) (by rw [hvault]) (by rw [hvault]) (by rw [hvault])
    hcalls hsubmitted

/-- A call that moves. -/
theorem setPc (h : VaultInv eid s) {i : ℕ} {call : Call} {pc : CallPc}
    (hcall : s.calls i = some call) (hepoch : ∀ e, pc.epoch? = some e → e < s.vault.opened)
    (hrow : ∀ e, pc = .inserted e → call.vaultRow eid i ∈ s.vault.view) :
    VaultInv eid (s.setPc i call pc) where
  sound := h.sound
  keys := h.keys
  fresh := fun j hj => by
    have hji : j ≠ i := by
      rintro rfl
      rw [h.fresh j hj] at hcall
      cases hcall
    exact (Function.update_of_ne hji _ _).trans (h.fresh j hj)
  epoch_lt := fun hc he => by
    rcases setPc_calls hc with ⟨rfl, rfl⟩ | ⟨-, hc⟩
    · exact hepoch _ he
    · exact h.epoch_lt hc he
  inserted := fun hc hpc he => by
    rcases setPc_calls hc with ⟨rfl, rfl⟩ | ⟨-, hc⟩
    · exact hrow _ hpc
    · exact h.inserted hc hpc he

theorem openSession (h : VaultInv eid s) : VaultInv eid s.start where
  sound := h.sound.openSession
  keys := h.keys.sublist (h.sound.durable.sublist.map _)
  fresh := h.fresh
  epoch_lt := fun hc he => Nat.lt_succ_of_lt (h.epoch_lt hc he)
  inserted := fun hc hpc he => by
    -- the new connection has a number no call holds
    have hlt := h.epoch_lt hc (by rw [hpc]; rfl)
    obtain rfl : s.vault.opened = _ := Option.some.inj he
    exact absurd hlt (Nat.lt_irrefl _)

theorem close (h : VaultInv eid s) {b : Bool} :
    VaultInv eid { s with store := s.store.close, stopping := b } where
  sound := h.sound.close
  keys := h.keys.sublist (h.sound.durable.sublist.map _)
  fresh := h.fresh
  epoch_lt := h.epoch_lt
  inserted := fun _ _ he => by cases he

theorem insertVault (h : VaultInv eid s) {e : ℕ} {row : VaultRow}
    (hr : s.insertResult e row false = .ok ()) : VaultInv eid (s.insertVault row) := by
  obtain ⟨he, -, -, -, hkey⟩ := insertResult_eq_ok_iff.mp hr
  have hv := vault_insertVault (s := s) row
  have hview := view_insertVault he row
  refine ⟨hv ▸ h.sound.append row, ?_, h.fresh, fun hc hpc => ?_, fun hc hpc he' => ?_⟩
  · rw [hview, List.map_append]
    exact h.keys.append (List.nodup_singleton _) fun k hk hk' => by
      rw [List.mem_singleton.mp hk'] at hk
      exact hkey hk
  · rw [hv, Store.opened_write]
    exact h.epoch_lt hc hpc
  · rw [hview]
    rw [hv, Store.epoch_write] at he'
    exact List.mem_append_left _ (h.inserted hc hpc he')

/-- **Every step preserves the invariant.** -/
theorem step (h : VaultInv eid s) (hm : Moves C cfg eid s a s') : VaultInv eid s' := by
  have hbegin : ∀ {t : Engine}, t.vault = s.vault.beginTx → t.calls = s.calls →
      t.submitted = s.submitted → VaultInv eid t := fun ht hc hs =>
    h.of_view (ht ▸ h.sound.beginTx) (by simp [ht]) (by simp [ht]) (by simp [ht]) hc hs
  have hcommit : ∀ {t : Engine}, t.vault = s.vault.commit → t.calls = s.calls →
      t.submitted = s.submitted → VaultInv eid t := fun ht hc hs =>
    h.of_view (ht ▸ h.sound.commit) (by simp [ht]) (by simp [ht]) (by simp [ht]) hc hs
  have hlt : ∀ {e}, s.store.epoch = some e → e < s.vault.opened := fun he =>
    h.sound.epoch_lt _ (by simpa [Engine.vault] using he)
  cases hm with
  | start => exact h.openSession
  | stopCall => exact h.of_eq rfl rfl rfl
  | stopReturn => exact h.close
  | submit now r =>
    refine ⟨h.sound, h.keys, fun j hj => ?_, fun hc he => ?_, fun hc hpc he => ?_⟩
    · have hne : j ≠ s.submitted := Nat.ne_of_gt hj
      exact (Function.update_of_ne hne _ _).trans (h.fresh j (Nat.le_of_succ_le hj))
    · refine h.epoch_lt (submit_calls_old hc ?_ ?_) he
      · intro hpc
        rw [hpc] at he
        cases he
      · intro reason hpc
        rw [hpc] at he
        cases he
    · exact h.inserted (submit_calls_old hc (by rw [hpc]; nofun) (by rw [hpc]; nofun)) hpc he
  | pcOnly hcall hmove =>
    refine h.setPc hcall (fun e he => ?_) fun e he => ?_
    · cases hmove with
      | cursor _ hs => cases he; exact hlt hs
      | _ => cases he
    · have hkept := hmove.kept_iff
      rw [he] at hkept
      cases hkept
  | begun hcall hpc he =>
    have hopen : VaultInv eid { s with store := s.store.beginTx } :=
      hbegin (Store.map_beginTx _ _) rfl rfl
    refine hopen.setPc hcall (fun e' he' => ?_) fun _ h => by cases h
    cases he'
    exact hlt he
  | inserted hcall hpc hr =>
    have hrow : ∀ e, s.store.epoch = some e → ∀ row, row ∈ (s.insertVault row).vault.view := by
      intro e he row
      rw [view_insertVault he]
      exact List.mem_append_right _ (List.mem_singleton_self _)
    have he := (insertResult_eq_ok_iff.mp hr).1
    refine (h.insertVault hr).setPc hcall (fun e' he' => ?_) fun e' _ => hrow _ he _
    cases he'
    rw [vault_insertVault, Store.opened_write]
    exact hlt he
  | committed hcall hpc he =>
    have hsaved : VaultInv eid { s with store := s.store.commit } :=
      hcommit (Store.map_commit _ _) rfl rfl
    exact hsaved.setPc hcall (fun _ h => by cases h) (fun _ h => by cases h)
  | put hcall hpc hroom =>
    exact (h.setPc hcall (fun _ h => by cases h) (fun _ h => by cases h)).of_eq rfl rfl rfl
  | writerOnly => exact h.of_eq rfl rfl rfl
  | got => exact h.of_eq rfl rfl rfl
  | flushBegun => exact hbegin (Store.map_beginTx _ _) rfl rfl
  | rowWritten => exact h.of_eq (vault_insertTelemetry h.sound _) rfl rfl
  | flushCommitted => exact hcommit (Store.map_commit _ _) rfl rfl
  | flushReturned => exact h.of_eq rfl rfl rfl

end VaultInv

/-! ### Rows and calls -/

/-- The calls are those submitted. -/
theorem VaultInv.lt_submitted (h : VaultInv eid s) {i : ℕ} {call : Call}
    (hcall : s.calls i = some call) : i < s.submitted := by
  by_contra hge
  rw [h.fresh i (Nat.le_of_not_lt hge)] at hcall
  cases hcall

/-- A submission leaves the calls before it alone. -/
theorem VaultInv.calls_submit (h : VaultInv eid s) {now : ClockReading} {r : Request} {i : ℕ}
    {call : Call} (hcall : s.calls i = some call) : (s.submit C now r).calls i = some call :=
  (Function.update_of_ne (Nat.ne_of_lt (h.lt_submitted hcall)) _ _).trans hcall

/-- A call keeps its arguments. -/
theorem VaultInv.keeps_call (h : VaultInv eid s) (hm : Moves C cfg eid s a s') {i : ℕ}
    {call : Call} (hcall : s.calls i = some call) :
    ∃ pc, s'.calls i = some { call with pc := pc } := by
  have hmoved : ∀ {t : Engine} {j : ℕ} {call' : Call} {pc : CallPc}, t.calls = s.calls →
      s.calls j = some call' → ∃ pc', (t.setPc j call' pc).calls i = some { call with pc := pc' } := by
    intro t j call' pc ht hj
    by_cases hij : i = j
    · subst hij
      rw [hcall] at hj
      cases hj
      exact ⟨pc, Function.update_self _ _ _⟩
    · exact ⟨call.pc, (Function.update_of_ne hij _ _).trans (ht ▸ hcall)⟩
  cases hm with
  | submit =>
    exact ⟨call.pc, h.calls_submit hcall⟩
  | pcOnly hj => exact hmoved rfl hj
  | begun hj => exact hmoved (t := { s with store := s.store.beginTx }) rfl hj
  | inserted hj => exact hmoved (t := s.insertVault _) rfl hj
  | committed hj => exact hmoved (t := { s with store := s.store.commit }) rfl hj
  | put hj => exact hmoved (t := s) rfl hj
  | start => exact ⟨_, hcall⟩
  | stopCall => exact ⟨_, hcall⟩
  | stopReturn => exact ⟨_, hcall⟩
  | writerOnly => exact ⟨_, hcall⟩
  | got => exact ⟨_, hcall⟩
  | flushBegun => exact ⟨_, hcall⟩
  | rowWritten => exact ⟨_, hcall⟩
  | flushCommitted => exact ⟨_, hcall⟩
  | flushReturned => exact ⟨_, hcall⟩

/-- Every row of the vault was there at the start or is that of a call. -/
def RowInv (eid : ℕ) (base : List VaultRow) (s : Engine) : Prop :=
  ∀ row ∈ s.vault.view, row ∈ base ∨ ∃ i call, s.calls i = some call ∧ row = call.vaultRow eid i

theorem RowInv.of_fresh {file : Tables} : RowInv eid file.vault (.fresh file) :=
  fun _ hrow => .inl hrow

/-- **Every step preserves the invariant.** -/
theorem RowInv.step {base : List VaultRow} (h : RowInv eid base s) (hv : VaultInv eid s)
    (hm : Moves C cfg eid s a s') : RowInv eid base s' := by
  have hcall : ∀ {row i call}, s.calls i = some call → row = call.vaultRow eid i →
      ∃ i call, s'.calls i = some call ∧ row = call.vaultRow eid i := by
    intro row i call hcall hrow
    obtain ⟨pc, hcall'⟩ := hv.keeps_call hm hcall
    exact ⟨i, _, hcall', hrow⟩
  intro row hrow
  rcases mem_vault_view hm hv.sound hrow with hold | ⟨i, call, hi, heq⟩
  · rcases h row hold with hbase | ⟨i, call, hi, heq⟩
    · exact .inl hbase
    · exact .inr (hcall hi heq)
  · exact .inr (hcall hi heq)

/-! ### Admitted calls -/

/-- The call has returned a rejection. -/
def CallPc.rejected : CallPc → Bool
  | .returned (.rejected _) => true
  | _ => false

/-- Only admitted calls go on, and only a record that can be bound and has a
timestamp is stored. -/
structure AdmitInv (C : Crypto) (eid : ℕ) (s : Engine) : Prop where
  admitted : ∀ {i call}, s.calls i = some call → call.pc.rejected = false →
    validateSubmission C call.submittedAt call.request = .ok ()
  stored : ∀ {i call}, s.calls i = some call → call.pc.kept = true →
    (call.vaultRow eid i).bindable = true ∧ call.request.timestampSec ≠ .nan

/-- A call that moves on has not returned. -/
theorem PcMove.not_rejected {i : ℕ} {call : Call} {pc : CallPc}
    (h : PcMove cfg eid s i call a pc) : call.pc.rejected = false := by
  cases h <;> simp_all [CallPc.rejected]

namespace AdmitInv

theorem of_fresh {file : Tables} : AdmitInv C eid (.fresh file) where
  admitted := fun hc => by cases hc
  stored := fun hc => by cases hc

theorem of_calls (h : AdmitInv C eid s) (hcalls : s'.calls = s.calls) : AdmitInv C eid s' where
  admitted := by rw [hcalls]; exact h.admitted
  stored := by rw [hcalls]; exact h.stored

theorem setPc (h : AdmitInv C eid s) {i : ℕ} {call : Call} {pc : CallPc}
    (hcall : s.calls i = some call) (hlive : call.pc.rejected = false)
    (hstored : pc.kept = true →
      (call.vaultRow eid i).bindable = true ∧ call.request.timestampSec ≠ .nan) :
    AdmitInv C eid (s.setPc i call pc) where
  admitted := fun hc hr => by
    rcases setPc_calls hc with ⟨rfl, rfl⟩ | ⟨-, hc⟩
    · have hadmit := h.admitted hcall hlive
      exact hadmit
    · exact h.admitted hc hr
  stored := fun hc hk => by
    rcases setPc_calls hc with ⟨rfl, rfl⟩ | ⟨-, hc⟩
    · exact hstored hk
    · exact h.stored hc hk

/-- **Every step preserves the invariant.** -/
theorem step (h : AdmitInv C eid s) (hm : Moves C cfg eid s a s') : AdmitInv C eid s' := by
  cases hm with
  | submit now r =>
    refine ⟨fun hc hr => ?_, fun hc hk => ?_⟩
    · rcases submit_calls hc with ⟨-, hreq, hnow, ⟨-, hadmit⟩ | ⟨_, hpc⟩⟩ | ⟨-, hc⟩
      · rw [hreq, hnow]; exact hadmit
      · rw [hpc] at hr; cases hr
      · exact h.admitted hc hr
    · refine h.stored (submit_calls_old hc ?_ ?_) hk
      · intro hpc
        rw [hpc] at hk
        cases hk
      · intro reason hpc
        rw [hpc] at hk
        cases hk
  | pcOnly hcall hmove =>
    apply h.setPc hcall hmove.not_rejected
    intro hk
    rw [hmove.kept_iff] at hk
    cases hk
  | begun hcall hpc he =>
    have hopen : AdmitInv C eid { s with store := s.store.beginTx } := h.of_calls rfl
    exact hopen.setPc hcall (by rw [hpc]; rfl) (fun hk => by cases hk)
  | @inserted i e call hcall hpc hr =>
    obtain ⟨-, hbind, -, hts, -⟩ := insertResult_eq_ok_iff.mp hr
    have hins : AdmitInv C eid (s.insertVault (call.vaultRow eid i)) := h.of_calls rfl
    exact hins.setPc hcall (by rw [hpc]; rfl) fun _ => ⟨hbind, hts⟩
  | committed hcall hpc he =>
    have hsaved : AdmitInv C eid { s with store := s.store.commit } := h.of_calls rfl
    exact hsaved.setPc hcall (by rw [hpc]; rfl) fun _ => h.stored hcall (by rw [hpc]; rfl)
  | put hcall hpc hroom =>
    have hput : AdmitInv C eid (s.setPc _ _ (.returned .accepted)) :=
      h.setPc hcall (by rw [hpc]; rfl) fun _ => h.stored hcall (by rw [hpc]; rfl)
    exact hput.of_calls rfl
  | start => exact h.of_calls rfl
  | stopCall => exact h.of_calls rfl
  | stopReturn => exact h.of_calls rfl
  | writerOnly => exact h.of_calls rfl
  | got => exact h.of_calls rfl
  | flushBegun => exact h.of_calls rfl
  | rowWritten => exact h.of_calls rfl
  | flushCommitted => exact h.of_calls rfl
  | flushReturned => exact h.of_calls rfl

end AdmitInv

/-! ### Recorded calls are durable -/

/-- The step is no commit of a call whose row was lost with its connection. -/
def commitsRecord (eid : ℕ) (s : Engine) : Act → Bool
  | .commitInsert i _ =>
    s.store.epoch == none ||
      (s.calls i).all fun call => decide (call.vaultRow eid i ∈ s.vault.view)
  | _ => true

/-- A recorded call has its row in the vault file. -/
def DurableInv (eid : ℕ) (s : Engine) : Prop :=
  ∀ i call, s.calls i = some call → call.pc.recorded = true →
    call.vaultRow eid i ∈ s.vault.file

namespace DurableInv

theorem of_fresh {file : Tables} : DurableInv eid (.fresh file) := fun _ _ hc => by cases hc

/-- The rows of the calls stay in a file that only grows. -/
theorem of_prefix (h : DurableInv eid s) (hcalls : s'.calls = s.calls)
    (hfile : s.vault.file <+: s'.vault.file) : DurableInv eid s' := fun i call hc hr =>
  hfile.subset (h i call (hcalls ▸ hc) hr)

theorem setPc (h : DurableInv eid s) {i : ℕ} {call : Call} {pc : CallPc}
    (hrow : pc.recorded = true → call.vaultRow eid i ∈ s.vault.file) :
    DurableInv eid (s.setPc i call pc) := fun j call' hc hr => by
  rcases setPc_calls hc with ⟨rfl, rfl⟩ | ⟨-, hc⟩
  · exact hrow hr
  · exact h j call' hc hr

/-- **A step that commits no lost row preserves durability.** -/
theorem step (h : DurableInv eid s) (hv : VaultInv eid s) (hm : Moves C cfg eid s a s')
    (hok : commitsRecord eid s a = true) : DurableInv eid s' := by
  have hfile := vault_file_prefix hm hv.sound
  cases hm with
  | submit now r =>
    intro j call hc hr
    refine h j call (submit_calls_old hc ?_ ?_) hr
    · intro hpc
      rw [hpc] at hr
      cases hr
    · intro reason hpc
      rw [hpc] at hr
      cases hr
  | pcOnly hcall hmove =>
    apply h.setPc
    intro hr
    have hkept := hmove.kept_iff
    rw [CallPc.kept_of_recorded hr] at hkept
    cases hkept
  | begun hcall hpc he =>
    have hopen : DurableInv eid { s with store := s.store.beginTx } := h.of_prefix rfl hfile
    exact hopen.setPc fun hr => by cases hr
  | @inserted i e call hcall hpc hr =>
    have hins : DurableInv eid (s.insertVault (call.vaultRow eid i)) := h.of_prefix rfl hfile
    exact hins.setPc fun hr => by cases hr
  | @committed i e _ call hcall hpc he =>
    have hsaved : DurableInv eid { s with store := s.store.commit } := h.of_prefix rfl hfile
    apply hsaved.setPc
    intro _
    have hmem : call.vaultRow eid i ∈ s.vault.view := by
      simpa [commitsRecord, hcall, he] using hok
    rw [show ({ s with store := s.store.commit } : Engine).vault = s.vault.commit from
      Store.map_commit _ _, Store.file_commit]
    exact hmem
  | put hcall hpc hroom =>
    have hput : DurableInv eid (s.setPc _ _ (.returned .accepted)) :=
      h.setPc fun _ => h _ _ hcall (by rw [hpc]; rfl)
    exact hput.of_prefix rfl List.prefix_rfl
  | start => exact h.of_prefix rfl hfile
  | stopCall => exact h.of_prefix rfl hfile
  | stopReturn => exact h.of_prefix rfl hfile
  | writerOnly => exact h.of_prefix rfl hfile
  | got => exact h.of_prefix rfl hfile
  | flushBegun => exact h.of_prefix rfl hfile
  | rowWritten => exact h.of_prefix rfl hfile
  | flushCommitted => exact h.of_prefix rfl hfile
  | flushReturned => exact h.of_prefix rfl hfile

end DurableInv

/-! ### Rejected calls leave no row -/

/-- Call `i` has a row in the vault. -/
def Engine.hasRow (eid : ℕ) (s : Engine) (i : ℕ) : Bool :=
  s.vault.view.any fun row => row.caller == some (eid, i)

/-- The step does not reject a call that has its row in the vault: its commit
does not raise, and it does not find the queue full. -/
def rejectsNoRow (cfg : Config) (eid : ℕ) (s : Engine) : Act → Bool
  | .commitInsert i fault =>
    !(s.hasRow eid i && (s.store.epoch == none || (fault && s.store.inTx)))
  | .resume i _ => !(s.hasRow eid i && s.queueFull cfg)
  | _ => true

/-- Every row of the engine's calls is that of a call that is not rejected. -/
def TraceInv (eid : ℕ) (s : Engine) : Prop :=
  ∀ row ∈ s.vault.view, ∀ i, row.caller = some (eid, i) →
    ∃ call, s.calls i = some call ∧ call.pc.kept = true ∧ row = call.vaultRow eid i

namespace TraceInv

theorem of_fresh {file : Tables} (h : ∀ row ∈ file.vault, row.caller = none) :
    TraceInv eid (.fresh file) := fun row hrow i hi => by
  rw [h row hrow] at hi
  cases hi

/-- A step that shows no new rows. -/
theorem of_subset (h : TraceInv eid s) (hcalls : s'.calls = s.calls)
    (hview : ∀ row ∈ s'.vault.view, row ∈ s.vault.view) : TraceInv eid s' :=
  fun row hrow i hi => hcalls ▸ h row (hview row hrow) i hi

theorem kept_of_hasRow (h : TraceInv eid s) {i : ℕ} {call : Call} (hcall : s.calls i = some call)
    (hrow : s.hasRow eid i = true) : call.pc.kept = true := by
  obtain ⟨row, hmem, hi⟩ := List.any_eq_true.mp hrow
  obtain ⟨call', hcall', hk, -⟩ := h row hmem i (by simpa using hi)
  rw [hcall] at hcall'
  cases hcall'
  exact hk

theorem setPc (h : TraceInv eid s) {i : ℕ} {call : Call} {pc : CallPc}
    (hcall : s.calls i = some call) (hkeep : s.hasRow eid i = true → pc.kept = true) :
    TraceInv eid (s.setPc i call pc) := by
  intro row hrow j hj
  obtain ⟨call', hcall', hk, rfl⟩ := h row hrow j hj
  by_cases hji : j = i
  · subst hji
    rw [hcall] at hcall'
    cases hcall'
    refine ⟨{ call with pc := pc }, Function.update_self _ _ _, hkeep ?_, rfl⟩
    exact List.any_eq_true.mpr ⟨_, hrow, by simp [Call.vaultRow]⟩
  · exact ⟨call', (Function.update_of_ne hji _ _).trans hcall', hk, rfl⟩

/-- **A step that rejects no call with a row leaves no row of a rejected call.** -/
theorem step (h : TraceInv eid s) (hv : VaultInv eid s) (hm : Moves C cfg eid s a s')
    (hok : rejectsNoRow cfg eid s a = true) : TraceInv eid s' := by
  have hbegin : ∀ {t : Engine}, t.vault = s.vault.beginTx → t.calls = s.calls → TraceInv eid t :=
    fun ht hc => h.of_subset hc (by simp [ht])
  have hcommit : ∀ {t : Engine}, t.vault = s.vault.commit → t.calls = s.calls → TraceInv eid t :=
    fun ht hc => h.of_subset hc (by simp [ht])
  have hsame : ∀ {t : Engine}, t.vault = s.vault → t.calls = s.calls → TraceInv eid t :=
    fun ht hc => h.of_subset hc (by simp [ht])
  cases hm with
  | start => exact h.of_subset rfl fun row hrow => hv.sound.mem_view hrow
  | stopCall => exact hsame rfl rfl
  | stopReturn => exact h.of_subset rfl fun row hrow => hv.sound.mem_view hrow
  | submit now r =>
    intro row hrow j hj
    obtain ⟨call, hcall, hk, rfl⟩ := h row hrow j hj
    exact ⟨call, hv.calls_submit hcall, hk, rfl⟩
  | pcOnly hcall hmove =>
    apply h.setPc hcall
    intro hrow
    have hk := h.kept_of_hasRow hcall hrow
    cases hmove with
    | commitFailed hpc hfail =>
      -- a commit that raises, excluded by the guard
      rcases hfail with he | ⟨rfl, htx⟩
      · simp [rejectsNoRow, hrow, he] at hok
      · simp [rejectsNoRow, hrow, htx] at hok
    | backpressure hpc hfull => simp [rejectsNoRow, hrow, hfull] at hok
    | noConnection hpc => rw [hpc] at hk; cases hk
    | cursor hpc => rw [hpc] at hk; cases hk
    | beginFailed hpc => rw [hpc] at hk; cases hk
    | insertFailed hpc => rw [hpc] at hk; cases hk
    | replay hpc => rw [hpc] at hk; cases hk
    | databaseFault hpc => rw [hpc] at hk; cases hk
  | begun hcall hpc he =>
    have hopen : TraceInv eid { s with store := s.store.beginTx } :=
      hbegin (Store.map_beginTx _ _) rfl
    apply hopen.setPc hcall
    intro hrow
    have hk := hopen.kept_of_hasRow hcall hrow
    rw [hpc] at hk
    cases hk
  | @inserted i e call hcall hpc hr =>
    obtain ⟨he, -⟩ := insertResult_eq_ok_iff.mp hr
    intro row hrow j hj
    change row ∈ (s.insertVault _).vault.view at hrow
    rw [view_insertVault he] at hrow
    rcases List.mem_append.mp hrow with hrow | hrow
    · obtain ⟨call', hcall', hk, rfl⟩ := h row hrow j hj
      have hne : j ≠ i := by
        rintro rfl
        rw [hcall] at hcall'
        cases hcall'
        rw [hpc] at hk
        cases hk
      exact ⟨call', (Function.update_of_ne hne _ _).trans hcall', hk, rfl⟩
    · obtain rfl := List.mem_singleton.mp hrow
      cases hj
      exact ⟨{ call with pc := .inserted e }, Function.update_self _ _ _, rfl, rfl⟩
  | committed hcall hpc he =>
    have hsaved : TraceInv eid { s with store := s.store.commit } :=
      hcommit (Store.map_commit _ _) rfl
    exact hsaved.setPc hcall fun _ => rfl
  | put hcall hpc hroom =>
    have hput : TraceInv eid (s.setPc _ _ (.returned .accepted)) := h.setPc hcall fun _ => rfl
    exact hput.of_subset rfl fun row hrow => hrow
  | writerOnly => exact hsame rfl rfl
  | got => exact hsame rfl rfl
  | flushBegun => exact hbegin (Store.map_beginTx _ _) rfl
  | rowWritten => exact hsame (vault_insertTelemetry hv.sound _) rfl
  | flushCommitted => exact hcommit (Store.map_commit _ _) rfl
  | flushReturned => exact hsame rfl rfl

end TraceInv

end Tollbridge
end SovereignSeed
