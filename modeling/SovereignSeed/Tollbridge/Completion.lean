import SovereignSeed.Tollbridge.Rejection

/-!
# A submission returns

Each step of a call brings it nearer to its return, and no step of another takes
it back.  A submission has therefore returned after five steps of its own,
whatever fails and whatever runs in between.

## Main definitions

* `CallPc.stepsLeft` — how many steps a call has before it.
* `Returning` — a call and the steps it has taken.
* `Returns` — a submission that returns.

## Main results

* `Returning.step`, `Returning.of_path` — **a call keeps to its steps.**
* `submission_returns` — **a submission returns after five steps of its own.**
-/

namespace SovereignSeed
namespace Tollbridge

open Python

variable {C : Crypto} {cfg : Config} {eid : ℕ} {s s' t : Engine} {a : Act}

/-- The steps a call has before it. -/
def CallPc.stepsLeft : CallPc → ℕ
  | .scheduled => 5
  | .cursor _ => 4
  | .begun _ => 3
  | .inserted _ => 2
  | .finished _ => 1
  | .returned _ => 0

theorem CallPc.stepsLeft_eq_zero {pc : CallPc} (h : pc.stepsLeft = 0) :
    ∃ response, pc = .returned response := by
  cases pc with
  | returned response => exact ⟨response, rfl⟩
  | _ => cases h

/-- A step of a call alone is progress. -/
theorem PcMove.stepsLeft_lt {i : ℕ} {call : Call} {pc : CallPc}
    (h : PcMove cfg eid s i call a pc) : pc.stepsLeft < call.pc.stepsLeft := by
  cases h with
  | noConnection hpc => simp [hpc, CallPc.stepsLeft]
  | cursor hpc => simp [hpc, CallPc.stepsLeft]
  | beginFailed hpc => simp [hpc, CallPc.stepsLeft]
  | insertFailed hpc => simp [hpc, CallPc.stepsLeft]
  | commitFailed hpc => simp [hpc, CallPc.stepsLeft]
  | replay hpc => simp [hpc, CallPc.stepsLeft]
  | databaseFault hpc => simp [hpc, CallPc.stepsLeft]
  | backpressure hpc => simp [hpc, CallPc.stepsLeft]

/-! ### A call on its way -/

/-- Call `i` of request `r` has taken `k` steps and has at most `5 - k` before it. -/
structure Returning (i : ℕ) (r : Request) (k : ℕ) (s : Engine) : Prop where
  submitted : i < s.submitted
  call : ∃ call, s.calls i = some call ∧ call.request = r ∧ k + call.pc.stepsLeft ≤ 5

namespace Returning

variable {i k : ℕ} {r : Request}

/-- A step of others. -/
theorem of_other (h : Returning i r k s) (hsub : s.submitted ≤ s'.submitted)
    (hcalls : s'.calls i = s.calls i) (hcaller : a.caller? ≠ some i) :
    Returning i r (if a.caller? = some i then k + 1 else k) s' where
  submitted := h.submitted.trans_le hsub
  call := by
    rw [if_neg hcaller, hcalls]
    exact h.call

/-- A step of call `j`, which may be `i`. -/
theorem of_call (h : Returning i r k s) {j : ℕ} {call : Call} {pc : CallPc}
    (hcall : s.calls j = some call) (hsub : t.submitted = s.submitted) (hcalls : t.calls = s.calls)
    (hcaller : a.caller? = some j) (hlt : pc.stepsLeft < call.pc.stepsLeft) :
    Returning i r (if a.caller? = some i then k + 1 else k) (t.setPc j call pc) := by
  by_cases hj : j = i
  · subst hj
    obtain ⟨call', hcall', hr, hk⟩ := h.call
    rw [hcall] at hcall'
    cases hcall'
    -- one more step taken, at least one fewer to take
    refine ⟨h.submitted.trans_eq hsub.symm, { call with pc := pc }, Function.update_self _ _ _,
      hr, ?_⟩
    rw [if_pos hcaller]
    simp only
    omega
  · refine h.of_other hsub.ge ?_ ?_
    · exact (Function.update_of_ne (Ne.symm hj) _ _).trans (congrFun hcalls i)
    · rw [hcaller]
      exact fun heq => hj (Option.some.inj heq)

/-- **A step takes the call on, or leaves it where it is.** -/
theorem step (h : Returning i r k s) (hm : Moves C cfg eid s a s') :
    Returning i r (if a.caller? = some i then k + 1 else k) s' := by
  cases hm with
  | submit =>
    -- a new submission gets a new number
    exact h.of_other (Nat.le_succ _) (Function.update_of_ne h.submitted.ne _ _) nofun
  | pcOnly hcall hmove => exact h.of_call hcall rfl rfl hmove.caller? hmove.stepsLeft_lt
  | begun hcall hpc =>
    exact h.of_call (t := { s with store := s.store.beginTx }) hcall rfl rfl rfl
      (by simp [hpc, CallPc.stepsLeft])
  | @inserted j e call hcall hpc =>
    exact h.of_call (t := s.insertVault (call.vaultRow eid j)) hcall rfl rfl rfl
      (by simp [hpc, CallPc.stepsLeft])
  | committed hcall hpc =>
    exact h.of_call (t := { s with store := s.store.commit }) hcall rfl rfl rfl
      (by simp [hpc, CallPc.stepsLeft])
  | @put j now call hcall hpc =>
    have hput : Returning i r _ (s.setPc j call (.returned .accepted)) :=
      h.of_call (a := .resume j now) (t := s) hcall rfl rfl rfl (by simp [hpc, CallPc.stepsLeft])
    exact ⟨hput.submitted, hput.call⟩
  | writerOnly hmove => exact h.of_other le_rfl rfl (by rw [hmove.caller?]; nofun)
  | start => exact h.of_other le_rfl rfl nofun
  | stopCall => exact h.of_other le_rfl rfl nofun
  | stopReturn => exact h.of_other le_rfl rfl nofun
  | got => exact h.of_other le_rfl rfl nofun
  | flushBegun => exact h.of_other le_rfl rfl nofun
  | rowWritten => exact h.of_other le_rfl rfl nofun
  | flushCommitted => exact h.of_other le_rfl rfl nofun
  | flushReturned => exact h.of_other le_rfl rfl nofun

/-- **Along a run the call keeps to its steps.** -/
theorem of_path {ok : Engine → Act → Prop} {as : List Act}
    (h : (engineMachine C cfg eid).Path ok s as t) :
    ∀ {k}, Returning i r k s → Returning i r (k + as.countP fun a => a.caller? = some i) t := by
  induction h with
  | nil => exact fun hs => hs
  | @cons s u t a as _ hst _ ih =>
    intro k hs
    have hnext := ih (hs.step (moves_of_step hst))
    -- the bound is on the steps of `i` alone; those of others may run on for ever
    by_cases hcaller : a.caller? = some i
    · rw [if_pos hcaller, Nat.add_assoc, Nat.add_comm 1] at hnext
      simpa [List.countP_cons, hcaller] using hnext
    · rw [if_neg hcaller] at hnext
      simpa [List.countP_cons, hcaller] using hnext

end Returning

/-! ### Submissions -/

/-- The submission of `r` in state `s` returns: in every run from there it has
returned, or it has taken less than five steps and can take the next. -/
def Returns (C : Crypto) (cfg : Config) (eid : ℕ) (now : ClockReading) (s : Engine) (r : Request) :
    Prop :=
  ∀ as t, (engineMachine C cfg eid).Path Machine.free s (.submit now r :: as) t →
    ∃ call, t.calls s.submitted = some call ∧ call.request = r ∧
      ((∃ response, call.pc = .returned response) ∨
        (as.countP fun a => a.caller? = some s.submitted) < 5 ∧
          ∃ a, a.caller? = some s.submitted ∧ (t.step C cfg eid a).isSome = true)

/-- **A submission returns**, from whatever state of the engine. -/
theorem submission_returns (C : Crypto) (cfg : Config) (eid : ℕ) (now : ClockReading) (s : Engine)
    (r : Request) : Returns C cfg eid now s r := by
  intro as t hpath
  cases hpath with
  | @cons _ u _ _ _ _ hst hrest =>
  obtain rfl : s.submit C now r = u := Option.some.inj hst
  have hstart : Returning s.submitted r 0 (s.submit C now r) := by
    refine ⟨Nat.lt_succ_self _, _, Function.update_self _ _ _, rfl, ?_⟩
    split <;> simp [CallPc.stepsLeft]
  obtain ⟨call, hcall, hr, hk⟩ := (hstart.of_path hrest).call
  refine ⟨call, hcall, hr, ?_⟩
  -- where a step is left, nothing can block it
  by_cases hleft : call.pc.stepsLeft = 0
  · exact .inl (CallPc.stepsLeft_eq_zero hleft)
  · refine .inr ⟨by omega, own_step_enabled hcall fun response hpc => hleft ?_⟩
    rw [hpc]
    rfl

end Tollbridge
end SovereignSeed
