import SovereignSeed.Tollbridge.Agreement
import SovereignSeed.Tollbridge.Completion
import SovereignSeed.Tollbridge.Freshness

/-!
# What a submission returns

A submission is to be accepted if it is fresh, signed and new and finds room on the
queue, and to be called a replay if it is fresh and signed and not new.  The vault is
asked when the thread of the submission executes its `INSERT`, the queue when the
coroutine resumes; other calls and the writer run in between.  What the code reports is
the class of an exception: a timestamp that is no number violates `NOT NULL`, and is
called a replay as well.

## Main definitions

* `Act.isInsert`, `Act.isResume` — the steps that ask the vault and the queue.
* `undisturbed` — no fault strikes the call, and the connection stays open.
* `record`, `answer`, `CallPc.foreseen` — what comes of a call, from what it will find.
* `Misreported` — the submissions with another outcome.

## Main results

* `Underway.step`, `Underway.of_path` — **a call comes to what is foreseen.**
* `outcome_exact_iff` — **a submission returns, and what it returns is exact unless it is
  misreported**; `nan_is_called_a_replay` is a run in which it is.
-/

namespace SovereignSeed
namespace Tollbridge

open Python

variable {C : Crypto} {cfg : Config} {eid : ℕ} {s s' t : Engine} {a : Act}

/-! ### The steps that ask -/

/-- The step executes the `INSERT` of call `i`. -/
def Act.isInsert (i : ℕ) : Act → Bool
  | .insert j _ => j == i
  | _ => false

/-- Call `i` resumes. -/
def Act.isResume (i : ℕ) : Act → Bool
  | .resume j _ => j == i
  | _ => false

/-- No fault strikes call `i`, and the connection stays open. -/
def undisturbed (i : ℕ) : Act → Bool
  | .stopReturn => false
  | .beginInsert j fault => !(j == i && fault)
  | .insert j fault => !(j == i && fault)
  | .commitInsert j fault => !(j == i && fault)
  | _ => true

/-- The text of the vault record can be bound. -/
def Request.bindable (r : Request) : Bool :=
  encodable r.clientPubkey && encodable r.nonce && encodable r.signatureHex

/-- The vault has a row with the key of `r`. -/
def KeyUsed (r : Request) (u : Engine) : Prop := r.key ∈ u.vault.view.map VaultRow.key

instance (r : Request) (u : Engine) : Decidable (KeyUsed r u) :=
  inferInstanceAs (Decidable (_ ∈ _))

/-- What comes of the `INSERT` of `r` in state `u`. -/
def record (r : Request) (u : Engine) : Except DbError Unit :=
  if r.bindable = false then .error .other
  else if r.timestampSec = .nan ∨ KeyUsed r u then .error .integrity
  else .ok ()

/-- What a call that resumes in state `v` returns. -/
def answer (cfg : Config) (v : Engine) : Except DbError Unit → Response
  | .error .integrity => .rejected "NONCE_REPLAY_DETECTED"
  | .error .other => .rejected "INTERNAL_DATABASE_FAULT"
  | .ok () => if v.queueFull cfg then .rejected "BACKPRESSURE_REJECTION_QUEUE_FULL" else .accepted

/-- What a call at a control point returns, if it asks the vault in state `u` and the queue
in state `v`. -/
def CallPc.foreseen (cfg : Config) (r : Request) (u v : Engine) : CallPc → Response
  | .returned response => response
  | .finished result => answer cfg v result
  | .inserted _ => answer cfg v (.ok ())
  | _ => answer cfg v (record r u)

theorem insertResult_eq_record {e i : ℕ} {call : Call} (h : s.store.epoch = some e) :
    s.insertResult e (call.vaultRow eid i) false = record call.request s := by
  have hbind : (call.vaultRow eid i).bindable = call.request.bindable := rfl
  have hkey : (call.vaultRow eid i).key = call.request.key := rfl
  have htime : (call.vaultRow eid i).timestampSec = call.request.timestampSec := rfl
  unfold Engine.insertResult record KeyUsed Engine.onConnection
  rw [hbind, hkey, htime]
  cases call.request.bindable <;> simp [h]

/-! ### A call on its way -/

/-- Call `i` is at a control point, on the connection `e`, which is open. -/
structure Underway (i : ℕ) (r : Request) (now : ClockReading) (e : ℕ) (pc : CallPc) (s : Engine) :
    Prop where
  submitted : i < s.submitted
  epoch : s.store.epoch = some e
  call : s.calls i = some ⟨r, now, pc⟩
  holds : ∀ e', pc.epoch? = some e' → e' = e

/-- The step leaves the call underway, and what is foreseen of it as it was. -/
def GoesOn (cfg : Config) (i : ℕ) (r : Request) (now : ClockReading) (e : ℕ) (pc : CallPc)
    (s : Engine) (a : Act) (s' : Engine) : Prop :=
  ∃ pc', Underway i r now e pc' s' ∧ ∀ u v,
    pc.foreseen cfg r (if a.isInsert i then s else u) (if a.isResume i then s else v) =
      pc'.foreseen cfg r u v

namespace Underway

variable {i e : ℕ} {r : Request} {now : ClockReading} {pc : CallPc}

/-- A step of others. -/
theorem of_other (h : Underway i r now e pc s) (hsub : s.submitted ≤ s'.submitted)
    (hcalls : s'.calls i = s.calls i) (hepoch : s'.store.epoch = s.store.epoch)
    (hcaller : a.caller? ≠ some i) : GoesOn cfg i r now e pc s a s' := by
  have hasks : a.isInsert i = false ∧ a.isResume i = false := by
    cases a <;> simp_all [Act.caller?, Act.isInsert, Act.isResume]
  refine ⟨pc, ⟨h.submitted.trans_le hsub, hepoch.trans h.epoch, hcalls.trans h.call, h.holds⟩, ?_⟩
  intro u v
  rw [hasks.1, hasks.2]
  rfl

/-- A step of call `j` that is not `i`. -/
theorem of_call (h : Underway i r now e pc s) {j : ℕ} {call : Call} {pc' : CallPc} (hj : j ≠ i)
    (hsub : t.submitted = s.submitted) (hcalls : t.calls = s.calls)
    (hepoch : t.store.epoch = s.store.epoch) (hcaller : a.caller? = some j) :
    GoesOn cfg i r now e pc s a (t.setPc j call pc') := by
  refine h.of_other hsub.ge ?_ hepoch ?_
  · exact (Function.update_of_ne (Ne.symm hj) _ _).trans (congrFun hcalls i)
  · rw [hcaller]
    exact fun heq => hj (Option.some.inj heq)

/-- A step of the call itself. -/
theorem of_own (h : Underway i r now e pc s) {call : Call} {pc' : CallPc}
    (hcall : s.calls i = some call) (hsub : t.submitted = s.submitted)
    (hepoch : t.store.epoch = s.store.epoch) (hholds : ∀ e', pc'.epoch? = some e' → e' = e)
    (hforeseen : ∀ u v,
      pc.foreseen cfg r (if a.isInsert i then s else u) (if a.isResume i then s else v) =
        pc'.foreseen cfg r u v) : GoesOn cfg i r now e pc s a (t.setPc i call pc') := by
  have hi := h.call
  rw [hcall] at hi
  cases hi
  exact ⟨pc', ⟨h.submitted.trans_eq hsub.symm, hepoch.trans h.epoch, Function.update_self _ _ _,
    hholds⟩, hforeseen⟩

/-- **A step takes the call to a control point from which the same is foreseen.** -/
theorem step (h : Underway i r now e pc s) (hm : Moves C cfg eid s a s')
    (hok : undisturbed i a = true) : GoesOn cfg i r now e pc s a s' := by
  -- the control point of the call, whoever finds the call in the table
  have hown : ∀ {call : Call}, s.calls i = some call → call.request = r ∧ call.pc = pc := by
    intro call hcall
    rw [h.call] at hcall
    cases hcall
    exact ⟨rfl, rfl⟩
  cases hm with
  | start he =>
    rw [h.epoch] at he
    cases he
  | stopReturn => cases hok
  | submit => exact h.of_other (Nat.le_succ _) (Function.update_of_ne h.submitted.ne _ _) rfl nofun
  | @pcOnly _ j call pc' hcall hmove =>
    by_cases hj : j = i
    · subst hj
      obtain ⟨hr, hpc⟩ := hown hcall
      subst hr hpc
      cases hmove with
      | noConnection _ he =>
        rw [h.epoch] at he
        cases he
      | cursor hpc he =>
        rw [h.epoch] at he
        cases he
        exact h.of_own hcall rfl rfl (fun _ he' => (Option.some.inj he').symm)
          fun u v => by rw [hpc]; rfl
      | beginFailed hpc hfail =>
        rcases hfail with he | rfl
        · exact absurd (h.holds _ (by rw [hpc]; rfl) ▸ h.epoch) he
        · simp [undisturbed] at hok
      | @insertFailed e' fault err hpc hr =>
        obtain rfl : fault = false := by simpa [undisturbed] using hok
        obtain rfl : e' = e := h.holds e' (by rw [hpc]; rfl)
        rw [insertResult_eq_record h.epoch] at hr
        refine h.of_own hcall rfl rfl nofun fun u v => ?_
        simp [hpc, CallPc.foreseen, Act.isInsert, Act.isResume, hr]
      | commitFailed hpc hfail =>
        rcases hfail with he | ⟨rfl, -⟩
        · rw [h.epoch] at he
          cases he
        · simp [undisturbed] at hok
      | replay hpc => exact h.of_own hcall rfl rfl nofun fun u v => by rw [hpc]; rfl
      | databaseFault hpc => exact h.of_own hcall rfl rfl nofun fun u v => by rw [hpc]; rfl
      | backpressure hpc hfull =>
        refine h.of_own hcall rfl rfl nofun fun u v => ?_
        simp [hpc, CallPc.foreseen, Act.isResume, answer, hfull]
    · exact h.of_call hj rfl rfl rfl hmove.caller?
  | @begun j e' call hcall hpc he =>
    by_cases hj : j = i
    · subst hj
      obtain ⟨hr, hpc'⟩ := hown hcall
      subst hr hpc'
      rw [h.epoch] at he
      cases he
      exact h.of_own (t := { s with store := s.store.beginTx }) hcall rfl (Store.epoch_beginTx _)
        (fun _ he' => (Option.some.inj he').symm) fun u v => by rw [hpc]; rfl
    · exact h.of_call (t := { s with store := s.store.beginTx }) hj rfl rfl
        (Store.epoch_beginTx _) rfl
  | @inserted j e' call hcall hpc hr =>
    by_cases hj : j = i
    · subst hj
      obtain ⟨hr', hpc'⟩ := hown hcall
      subst hr' hpc'
      obtain rfl : e' = e := h.holds e' (by rw [hpc]; rfl)
      rw [insertResult_eq_record h.epoch] at hr
      refine h.of_own (t := s.insertVault (call.vaultRow eid j)) hcall rfl (Store.epoch_write _ _)
        (fun _ he' => (Option.some.inj he').symm) fun u v => ?_
      simp [hpc, CallPc.foreseen, Act.isInsert, Act.isResume, hr]
    · exact h.of_call (t := s.insertVault (call.vaultRow eid j)) hj rfl rfl
        (Store.epoch_write _ _) rfl
  | @committed j e' fault call hcall hpc he =>
    by_cases hj : j = i
    · subst hj
      obtain ⟨hr, hpc'⟩ := hown hcall
      subst hr hpc'
      exact h.of_own (t := { s with store := s.store.commit }) hcall rfl (Store.epoch_commit _)
        nofun fun u v => by rw [hpc]; rfl
    · exact h.of_call (t := { s with store := s.store.commit }) hj rfl rfl
        (Store.epoch_commit _) rfl
  | @put j now' call hcall hpc hroom =>
    have hput :
        GoesOn cfg i r now e pc s (.resume j now') (s.setPc j call (.returned .accepted)) := by
      by_cases hj : j = i
      · subst hj
        obtain ⟨hr, hpc'⟩ := hown hcall
        subst hr hpc'
        refine h.of_own hcall rfl rfl nofun fun u v => ?_
        simp [hpc, CallPc.foreseen, Act.isResume, answer, hroom]
      · exact h.of_call (t := s) hj rfl rfl rfl rfl
    obtain ⟨pc', hunder, hforeseen⟩ := hput
    exact ⟨pc', ⟨hunder.submitted, hunder.epoch, hunder.call, hunder.holds⟩, hforeseen⟩
  | writerOnly hmove => exact h.of_other le_rfl rfl rfl (by rw [hmove.caller?]; nofun)
  | stopCall => exact h.of_other le_rfl rfl rfl nofun
  | got => exact h.of_other le_rfl rfl rfl nofun
  | flushBegun => exact h.of_other le_rfl rfl (Store.epoch_beginTx _) nofun
  | rowWritten => exact h.of_other le_rfl rfl (Store.epoch_write _ _) nofun
  | flushCommitted => exact h.of_other le_rfl rfl (Store.epoch_commit _) nofun
  | flushReturned => exact h.of_other le_rfl rfl rfl nofun

/-- **Along a run the call comes to what is foreseen.** -/
theorem of_path {ok : Engine → Act → Prop} {as : List Act}
    (h : (engineMachine C cfg eid).Path ok s as t)
    (hok : ∀ u a, ok u a → undisturbed i a = true) :
    ∀ {pc}, Underway i r now e pc s → ∃ pc', Underway i r now e pc' t ∧
      pc.foreseen cfg r ((engineMachine C cfg eid).stateAt (Act.isInsert i) s as)
        ((engineMachine C cfg eid).stateAt (Act.isResume i) s as) = pc'.foreseen cfg r t t := by
  induction h with
  | nil s => exact fun hs => ⟨_, hs, rfl⟩
  | @cons s u t a as hguard hst _ ih =>
    intro pc hs
    obtain ⟨pc', hu, hforeseen⟩ := hs.step (moves_of_step hst) (hok s a hguard)
    obtain ⟨pc'', ht, heq⟩ := ih hu
    refine ⟨pc'', ht, ?_⟩
    rw [Machine.stateAt_cons hst, Machine.stateAt_cons hst, hforeseen, heq]

end Underway

/-! ### What is returned -/

/-- The signature of the request verifies. -/
def Verified (C : Crypto) (r : Request) : Prop :=
  (verifyEd25519Envelope C r.clientPubkey (r.signedBytes C) r.signatureHex).1 = true

/-- The submissions with another outcome than they should have: a signed timestamp that is
no number is called a replay; a timestamp outside the window is let in, or called a replay,
if its distance is rounded; and a record that cannot be bound is a fault of the database. -/
def Misreported (C : Crypto) (cfg : Config) (now : ClockReading) (r : Request) (u v : Engine) :
    Prop :=
  Verified C r ∧
    (r.timestampSec = .nan ∧ r.bindable = true ∨
      (KeyUsed r u ∨ v.queueFull cfg = false) ∧
        (RoundedOff now r.timestampSec ∧ r.bindable = true ∨
          Within now r.timestampSec ∧ r.bindable = false))

/-- The response is the one the submission should have, given the vault of `u` and the
queue of `v`. -/
def Exact (C : Crypto) (cfg : Config) (now : ClockReading) (r : Request) (u v : Engine)
    (response : Response) : Prop :=
  (response = .accepted ↔ Within now r.timestampSec ∧ Verified C r ∧ ¬KeyUsed r u ∧
      v.queueFull cfg = false) ∧
    (response = .rejected "NONCE_REPLAY_DETECTED" ↔
      Within now r.timestampSec ∧ Verified C r ∧ KeyUsed r u)

/-- The response of a submission that passes the checks. -/
theorem answer_record_iff (cfg : Config) (r : Request) (u v : Engine) :
    (answer cfg v (record r u) = .accepted ↔ r.bindable = true ∧ r.timestampSec ≠ .nan ∧
        ¬KeyUsed r u ∧ v.queueFull cfg = false) ∧
      (answer cfg v (record r u) = .rejected "NONCE_REPLAY_DETECTED" ↔
        r.bindable = true ∧ (r.timestampSec = .nan ∨ KeyUsed r u)) := by
  unfold record
  cases r.bindable <;> by_cases hnan : r.timestampSec = .nan <;> by_cases hkey : KeyUsed r u <;>
    cases hfull : v.queueFull cfg <;> simp [answer, hnan, hkey, hfull]

/-- What passes the freshness test. -/
theorem fresh_iff (now : ClockReading) (ts : PyFloat) :
    verifyTimestampFreshness now ts = true ↔ ts = .nan ∨ Within now ts ∨ RoundedOff now ts := by
  rw [verifyTimestampFreshness_iff]
  refine or_congr_right ⟨fun ⟨hfinite, hle⟩ => ?_, ?_⟩
  · rcases le_or_gt |now.val.toRat - ts.toRat| 300 with h | h
    · exact .inl ⟨hfinite, h⟩
    · exact .inr ⟨hfinite, h, hle⟩
  · rintro (⟨hfinite, h⟩ | ⟨hfinite, -, h⟩)
    · refine ⟨hfinite, h.trans ?_⟩
      norm_num
    · exact ⟨hfinite, h⟩

/-- The checks reject with a reason of their own, or pass. -/
theorem validateSubmission_cases (C : Crypto) (now : ClockReading) (r : Request) :
    (∃ reason, validateSubmission C now r = .error reason ∧ reason ≠ "NONCE_REPLAY_DETECTED" ∧
        ¬(verifyTimestampFreshness now r.timestampSec = true ∧ Verified C r)) ∨
      validateSubmission C now r = .ok () ∧
        verifyTimestampFreshness now r.timestampSec = true ∧ Verified C r := by
  unfold validateSubmission
  by_cases hfresh : verifyTimestampFreshness now r.timestampSec = false
  · refine .inl ⟨"TIMESTAMP_STALE", if_pos hfresh, by decide, ?_⟩
    rintro ⟨htrue, -⟩
    rw [hfresh] at htrue
    cases htrue
  · rw [if_neg hfresh]
    cases hverify : verifyEd25519Envelope C r.clientPubkey (r.signedBytes C) r.signatureHex with
    | mk ok reason =>
      cases ok with
      | false =>
        refine .inl ⟨reason, rfl, ?_, fun h => ?_⟩
        · rintro rfl
          exact absurd (mem_signatureReasons hverify) (by decide)
        · have hverified := h.2
          rw [Verified, hverify] at hverified
          cases hverified
      | true =>
        refine .inr ⟨rfl, by simpa using hfresh, ?_⟩
        rw [Verified, hverify]

/-- What is within the window is a number, and is not rounded. -/
theorem Within.ne_nan {now : ClockReading} {ts : PyFloat} (h : Within now ts) : ts ≠ .nan := by
  rintro rfl
  cases h.1

theorem Within.not_roundedOff {now : ClockReading} {ts : PyFloat} (h : Within now ts) :
    ¬RoundedOff now ts := fun hoff => absurd h.2 (not_le.mpr hoff.2.1)

/-- A submission that does not pass the checks is exact, and not misreported. -/
theorem exact_of_refused {now : ClockReading} {r : Request} {reason : String}
    (hreason : reason ≠ "NONCE_REPLAY_DETECTED")
    (h : ¬(verifyTimestampFreshness now r.timestampSec = true ∧ Verified C r)) (cfg : Config)
    (u v : Engine) : Exact C cfg now r u v (.rejected reason) ∧ ¬Misreported C cfg now r u v := by
  rw [fresh_iff] at h
  refine ⟨⟨iff_of_false nofun ?_, iff_of_false (fun heq => ?_) ?_⟩, ?_⟩
  · rintro ⟨hwithin, hverified, -⟩
    exact h ⟨.inr (.inl hwithin), hverified⟩
  · exact hreason (Response.rejected.inj heq)
  · rintro ⟨hwithin, hverified, -⟩
    exact h ⟨.inr (.inl hwithin), hverified⟩
  · rintro ⟨hverified, ⟨hnan, -⟩ | ⟨-, ⟨hoff, -⟩ | ⟨hwithin, -⟩⟩⟩
    · exact h ⟨.inl hnan, hverified⟩
    · exact h ⟨.inr (.inr hoff), hverified⟩
    · exact h ⟨.inr (.inl hwithin), hverified⟩

/-- A submission that passes the checks is exact unless it is misreported. -/
theorem exact_iff_of_passed {now : ClockReading} {r : Request} {u v : Engine}
    (hfresh : verifyTimestampFreshness now r.timestampSec = true) (hverified : Verified C r) :
    Exact C cfg now r u v (answer cfg v (record r u)) ↔ ¬Misreported C cfg now r u v := by
  obtain ⟨haccepted, hreplay⟩ := answer_record_iff cfg r u v
  unfold Exact Misreported
  rw [haccepted, hreplay]
  -- just one of the three holds of the timestamp; the rest is propositional
  have hone :
      (r.timestampSec = .nan ↔ ¬Within now r.timestampSec ∧ ¬RoundedOff now r.timestampSec) ∧
      (RoundedOff now r.timestampSec → ¬Within now r.timestampSec) := by
    refine ⟨⟨fun hnan => ⟨fun h => h.ne_nan hnan, fun h => ?_⟩, fun h => ?_⟩,
      fun hoff hwithin => hwithin.not_roundedOff hoff⟩
    · rw [hnan] at h
      cases h.1
    · exact ((fresh_iff _ _).mp hfresh).resolve_right (not_or.mpr h)
  obtain ⟨hnan, hno⟩ := hone
  rw [ne_eq, hnan]
  clear hnan haccepted hreplay hfresh
  revert hno hverified
  generalize Within now r.timestampSec = within
  generalize RoundedOff now r.timestampSec = off
  generalize KeyUsed r u = used
  generalize Verified C r = verified
  intro hverified hno
  by_cases hwithin : within
  · have hoff : ¬off := fun hoff => hno hoff hwithin
    by_cases hused : used <;> cases v.queueFull cfg <;> cases r.bindable <;>
      simp [hverified, hwithin, hoff, hused]
  · by_cases hoff : off <;> by_cases hused : used <;> cases v.queueFull cfg <;>
      cases r.bindable <;> simp [hverified, hwithin, hoff, hused]

/-- The engine in which the next call of `s` executes its `INSERT`, in the run `as`. -/
def askedVault (C : Crypto) (cfg : Config) (eid : ℕ) (s : Engine) (as : List Act) : Engine :=
  (engineMachine C cfg eid).stateAt (Act.isInsert s.submitted) s as

/-- The engine in which the next call of `s` resumes, in the run `as`. -/
def askedQueue (C : Crypto) (cfg : Config) (eid : ℕ) (s : Engine) (as : List Act) : Engine :=
  (engineMachine C cfg eid).stateAt (Act.isResume s.submitted) s as

/-- **A submission returns, and what it returns is exact unless it is misreported**: in
every run from a state with a connection in which no fault strikes the submission and the
connection stays open, with the vault as it is at its `INSERT` and the queue as it is when
it resumes. -/
theorem outcome_exact_iff (C : Crypto) (cfg : Config) (eid : ℕ) (now : ClockReading) (r : Request)
    {s : Engine} (hopen : s.store.epoch ≠ none) :
    Returns C cfg eid now s r ∧ ∀ as t response,
      (engineMachine C cfg eid).Path (fun _ a => undisturbed s.submitted a = true) s
        (.submit now r :: as) t →
      t.calls s.submitted = some ⟨r, now, .returned response⟩ →
        let u := askedVault C cfg eid s (.submit now r :: as)
        let v := askedQueue C cfg eid s (.submit now r :: as)
        (Exact C cfg now r u v response ↔ ¬Misreported C cfg now r u v) := by
  refine ⟨submission_returns C cfg eid now s r, fun as t response hpath hreturned => ?_⟩
  intro u v
  obtain ⟨e, he⟩ := Option.ne_none_iff_exists'.mp hopen
  cases hpath with
  | @cons _ s₁ _ _ _ hguard hst hrest =>
  obtain rfl : s.submit C now r = s₁ := Option.some.inj hst
  have hu : u =
      (engineMachine C cfg eid).stateAt (Act.isInsert s.submitted) (s.submit C now r) as :=
    Machine.stateAt_cons hst as
  have hv : v =
      (engineMachine C cfg eid).stateAt (Act.isResume s.submitted) (s.submit C now r) as :=
    Machine.stateAt_cons hst as
  -- the response is what the control point behind the checks foresees
  have hforeseen : ∀ pc, (s.submit C now r).calls s.submitted = some ⟨r, now, pc⟩ →
      pc.epoch? = none → response = pc.foreseen cfg r u v := by
    intro pc hcall hnone
    have hstart : Underway s.submitted r now e pc (s.submit C now r) :=
      ⟨Nat.lt_succ_self _, he, hcall, fun e' he' => by rw [hnone] at he'; cases he'⟩
    obtain ⟨pc', ht, heq⟩ := hstart.of_path hrest fun _ _ h => h
    have hcall' := ht.call
    rw [hreturned] at hcall'
    cases hcall'
    rw [hu, hv, heq]
    rfl
  rcases validateSubmission_cases C now r with
    ⟨reason, hreason, hne, hno⟩ | ⟨hok, hfresh, hverified⟩
  · have hsubmitted : (s.submit C now r).calls s.submitted =
        some ⟨r, now, .returned (.rejected reason)⟩ := by
      simp only [Engine.submit, hreason, Function.update_self]
    rw [hforeseen _ hsubmitted rfl]
    obtain ⟨hexact, hnot⟩ := exact_of_refused hne hno cfg u v
    exact iff_of_true hexact hnot
  · have hsubmitted : (s.submit C now r).calls s.submitted = some ⟨r, now, .scheduled⟩ := by
      simp only [Engine.submit, hok, Function.update_self]
    rw [hforeseen _ hsubmitted rfl]
    exact exact_iff_of_passed hfresh hverified

/-- A started engine on an empty file. -/
def startedEngine : Engine := (Engine.fresh ⟨[], []⟩).start

theorem reachable_startedEngine (C : Crypto) (cfg : Config) (eid : ℕ) :
    (engineMachine C cfg eid).Reachable startedEngine :=
  .step (a := .start) (.init ⟨_, Tables.initial_nil, rfl⟩) rfl

/-- A run of a first submission, in which it is undisturbed. -/
theorem exists_run (C : Crypto) (as : List Act) (call : Call)
    (h : ((engineMachine C ⟨10, 10⟩ 0).exec (fun _ a => undisturbed 0 a) startedEngine as).map
      (fun t => t.calls 0) = some (some call)) :
    ∃ t, (engineMachine C ⟨10, 10⟩ 0).Path
      (fun _ a => undisturbed startedEngine.submitted a = true) startedEngine as t ∧
        t.calls startedEngine.submitted = some call :=
  Machine.exists_path_of_exec h

theorem outcome_exact_iff_first : ∃ t : Engine,
    t.calls 0 = some ⟨aliceFirst, clock, .returned .accepted⟩ ∧
      let u := askedVault clientCrypto ⟨10, 10⟩ 0 startedEngine (submission 0 aliceFirst)
      let v := askedQueue clientCrypto ⟨10, 10⟩ 0 startedEngine (submission 0 aliceFirst)
      (Exact clientCrypto ⟨10, 10⟩ clock aliceFirst u v .accepted ↔
        ¬Misreported clientCrypto ⟨10, 10⟩ clock aliceFirst u v) := by
  obtain ⟨t, hpath, hcall⟩ := exists_run clientCrypto (submission 0 aliceFirst)
    ⟨aliceFirst, clock, .returned .accepted⟩ (by decide +kernel)
  exact ⟨t, hcall, (outcome_exact_iff clientCrypto ⟨10, 10⟩ 0 clock aliceFirst
    (s := startedEngine) (by decide)).2 _ t .accepted hpath hcall⟩

/-- The request whose timestamp is no number; its `INSERT` fails, so nothing is committed. -/
def nanRequest : Request := { nanHeader with rawPayload := emptyObject }

/-- **A timestamp that is no number is called a replay**, of nothing. -/
theorem nan_is_called_a_replay :
    ¬∀ (C : Crypto) (cfg : Config) (eid : ℕ) (now : ClockReading) (r : Request) (s : Engine),
      (engineMachine C cfg eid).Reachable s → s.store.epoch ≠ none → ∀ as t response,
      (engineMachine C cfg eid).Path (fun _ a => undisturbed s.submitted a = true) s
        (.submit now r :: as) t →
      t.calls s.submitted = some ⟨r, now, .returned response⟩ →
        Exact C cfg now r (askedVault C cfg eid s (.submit now r :: as))
          (askedQueue C cfg eid s (.submit now r :: as)) response := by
  intro h
  obtain ⟨t, hpath, hcall⟩ := exists_run nanCrypto
    [.submit clock nanRequest, .openCursor 0, .beginInsert 0 false, .insert 0 false,
      .resume 0 clock]
    ⟨nanRequest, clock, .returned (.rejected "NONCE_REPLAY_DETECTED")⟩ (by decide +kernel)
  have hexact := h nanCrypto ⟨10, 10⟩ 0 clock nanRequest startedEngine
    (reachable_startedEngine _ _ _) (by decide) _ t _ hpath hcall
  cases (hexact.2.mp rfl).1.1

end Tollbridge
end SovereignSeed
