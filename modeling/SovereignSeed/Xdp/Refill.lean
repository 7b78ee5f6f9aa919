import SovereignSeed.Xdp.Conservation

/-!
# The refill loop never waits

`xsk_ring_prod__reserve` answers with all slots asked for or with none, and with none
only if the fill ring has too few.  The thread of `xdp_ingress.c` is prepared for both:
it goes around its loop again after a short answer, and sleeps after an empty one.

Neither happens.  A frame of the batch is not in the fill ring, and there are at most as
many frames as slots, so that the fill ring has a free slot for each frame of the batch —
also while the kernel takes others, since that frees more.

## Main definitions

* `xskRingProdReserve`, `libxdp` — the machine of `Xdp.Ingress` with the answers of
  `libxdp`.
* `Pc.firstPass` — the loop is in its first pass, for the whole batch.
* `Pc.left` — the steps that the thread has left in the loop.

## Main results

* `Rep.le_freeSlots` — **the fill ring has room for the batch.**
* `left_of_step` — a step of the thread is one less to go; the kernel takes none away.
* `refill_never_waits` — **the loop ends after one pass, whatever the kernel does.**
-/

namespace SovereignSeed
namespace Xdp

variable {S : Setup} {s s' t : Xsk} {c : Counters} {idxRx rcvd filled ret : ℕ}

/-! ### The answers of `libxdp` -/

/-- The fill slots that hold no unconsumed entry. -/
def Xsk.freeSlots (S : Setup) (s : Xsk) : ℕ := S.size - subWord 32 s.cachedProd s.fill.consumer

/-- `xsk_ring_prod__reserve`: all slots or none. -/
def xskRingProdReserve (S : Setup) (s : Xsk) (n : ℕ) : ℕ := if n ≤ s.freeSlots S then n else 0

/-- An action in which a reserve gets the answer of `libxdp`. -/
def Answered (S : Setup) (s : Xsk) : Act → Prop
  | .reserve ret =>
    match s.pc with
    | .reserve _ rcvd filled => ret = xskRingProdReserve S s (rcvd - filled)
    | _ => True
  | _ => True

instance (S : Setup) (s : Xsk) : DecidablePred (Answered S s)
  | .reserve ret => by
    unfold Answered
    cases s.pc <;> infer_instance
  | .take => inferInstanceAs (Decidable True)
  | .post _ _ => inferInstanceAs (Decidable True)
  | .peek _ => inferInstanceAs (Decidable True)
  | .go => inferInstanceAs (Decidable True)

/-- The thread and the kernel under every interleaving, over `libxdp`. -/
def libxdp (S : Setup) : Machine Xsk Act where
  init := (machine S).init
  step s a := if Answered S s a then step S s a else none

theorem libxdp_step {a : Act} (h : (libxdp S).step s a = some s') :
    Answered S s a ∧ step S s a = some s' := by
  simp only [libxdp] at h
  split at h
  · next hanswer => exact ⟨hanswer, h⟩
  · cases h

/-- A run over `libxdp` is one of the machine that takes any answer. -/
theorem reachable_of_libxdp (hr : (libxdp S).Reachable s) : (machine S).Reachable s := by
  refine hr.invariant (P := (machine S).Reachable) (fun s hs => .init hs) ?_
  intro u a v hu hst
  exact .step hu (libxdp_step hst).2

/-! ### Room for the batch -/

/-- **The fill ring has room for the batch**: what has not been given back of it is
neither in the fill ring nor on the way there. -/
theorem Rep.le_freeSlots (h : Rep S s c) (hpc : s.pc = .reserve idxRx rcvd filled) :
    rcvd - filled ≤ s.freeSlots S := by
  have hinv : PcInv S s c (.reserve idxRx rcvd filled) := hpc ▸ h.pc
  obtain ⟨hbatch, -, -, hres⟩ := hinv
  have hsize := S.size_lt
  have hcount := h.length_eq
  have hframes : S.frames.length ≤ S.size := S.length_le
  have hbase := hbatch.base_add
  have hold := hbatch.oldest_eq
  have hfill := h.fillCons_le
  have hpeek := h.rxPeek_le
  have hlap := h.fillRes_le
  have hwords : subWord 32 s.cachedProd s.fill.consumer = c.fillProd - c.fillCons := by
    rw [h.fillRes_eq, hres, h.fillCons_eq, subWord_mod hfill (by omega)]
  rw [Xsk.freeSlots, hwords]
  omega

theorem le_freeSlots_of_reachable (hr : (libxdp S).Reachable s)
    (hpc : s.pc = .reserve idxRx rcvd filled) : rcvd - filled ≤ s.freeSlots S := by
  obtain ⟨c, hc⟩ := rep_of_reachable (reachable_of_libxdp hr)
  exact hc.le_freeSlots hpc

/-- A reserve is answered with all that it asks for. -/
theorem ret_eq_of_reserve (hr : (libxdp S).Reachable s) (hpc : s.pc = .reserve idxRx rcvd filled)
    (h : (libxdp S).step s (.reserve ret) = some s') : ret = rcvd - filled := by
  have hanswer := (libxdp_step h).1
  simp only [Answered, hpc] at hanswer
  rw [hanswer]
  exact if_pos (le_freeSlots_of_reachable hr hpc)

/-- And it is answered. -/
theorem exists_reserve (hr : (libxdp S).Reachable s) (hpc : s.pc = .reserve idxRx rcvd filled)
    (hlt : filled < rcvd) : ∃ s', (libxdp S).step s (.reserve (rcvd - filled)) = some s' := by
  have hroom := le_freeSlots_of_reachable hr hpc
  have hanswer : Answered S s (.reserve (rcvd - filled)) := by
    simp only [Answered, hpc]
    exact (if_pos hroom).symm
  have hfits : rcvd - filled ≤ rcvd - filled ∧
      subWord 32 s.cachedProd s.fill.consumer + (rcvd - filled) ≤ S.size := by
    unfold Xsk.freeSlots at hroom
    omega
  simp only [libxdp, if_pos hanswer, step, hpc, if_pos hfits]
  rw [if_neg (by omega)]
  exact ⟨_, rfl⟩

/-- The thread never sleeps on an empty answer. -/
theorem reserve_zero_eq_none (hr : (libxdp S).Reachable s) :
    (libxdp S).step s (.reserve 0) = none := by
  by_contra hne
  obtain ⟨s', hst⟩ := Option.ne_none_iff_exists'.mp hne
  obtain ⟨c, hc⟩ := rep_of_reachable (reachable_of_libxdp hr)
  have hinv : PcInv S s c s.pc := hc.pc
  cases hpc : s.pc with
  | reserve idxRx rcvd filled =>
    rw [hpc] at hinv
    have hret := ret_eq_of_reserve hr hpc hst
    have hlt := hinv.2.1
    omega
  | _ =>
    have hnone := (libxdp_step hst).2
    simp [step, hpc] at hnone

/-! ### One pass -/

/-- The loop is in its first pass, for the whole batch. -/
def Pc.firstPass : Pc → Prop
  | .reserve _ rcvd filled => filled = 0 ∧ 0 < rcvd
  | .reread _ rcvd filled ret _ i => filled = 0 ∧ ret = rcvd ∧ i < ret
  | .refill _ rcvd filled ret _ i _ => filled = 0 ∧ ret = rcvd ∧ i < ret
  | .submit _ rcvd filled ret => filled = 0 ∧ ret = rcvd
  | _ => True

/-- The steps that the thread has left in the loop. -/
def Pc.left : Pc → ℕ
  | .reserve _ rcvd _ => 2 * rcvd + 2
  | .reread _ _ _ ret _ i => 2 * (ret - i) + 1
  | .refill _ _ _ ret _ i _ => 2 * (ret - i)
  | .submit _ _ _ _ => 1
  | _ => 0

/-- The thread takes the step, not the kernel. -/
def Act.ofThread : Act → Bool
  | .take => false
  | .post _ _ => false
  | _ => true

theorem pc_of_kernel {a : Act} (h : step S s a = some s') (ha : a.ofThread = false) :
    s'.pc = s.pc := by
  cases a with
  | take =>
    simp only [step] at h
    split at h
    · cases h
    · cases h; rfl
  | post addr len =>
    simp only [step] at h
    split at h
    · cases h; rfl
    · cases h
  | _ => cases ha

/-- The thread is in front of a call whose answer it goes by. -/
def Pc.calling : Pc → Bool
  | .peek => true
  | .reserve _ _ _ => true
  | _ => false

/-- Anywhere else there is one thing that the thread can do. -/
theorem eq_go_of_step {a : Act} (h : step S s a = some s') (ha : a.ofThread = true)
    (hpc : s.pc.calling = false) : a = .go := by
  cases a with
  | take => cases ha
  | post addr len => cases ha
  | go => rfl
  | peek n =>
    simp only [step] at h
    split at h
    · next hpeek =>
      rw [hpeek] at hpc
      cases hpc
    · cases h
  | reserve ret =>
    simp only [step] at h
    split at h
    · next hreserve =>
      rw [hreserve] at hpc
      cases hpc
    · cases h

/-- One step of the thread in the first pass. -/
inductive Turn : Pc → Pc → Prop
  | reserve (idxRx rcvd idxFill : ℕ) :
      0 < rcvd → Turn (.reserve idxRx rcvd 0) (.reread idxRx rcvd 0 rcvd idxFill 0)
  | reread (idxRx rcvd idxFill i : ℕ) (addr : Addr) :
      i < rcvd →
        Turn (.reread idxRx rcvd 0 rcvd idxFill i) (.refill idxRx rcvd 0 rcvd idxFill i addr)
  | next (idxRx rcvd idxFill i : ℕ) (addr : Addr) :
      i + 1 < rcvd →
        Turn (.refill idxRx rcvd 0 rcvd idxFill i addr) (.reread idxRx rcvd 0 rcvd idxFill (i + 1))
  | last (idxRx idxFill i : ℕ) (addr : Addr) :
      Turn (.refill idxRx (i + 1) 0 (i + 1) idxFill i addr) (.submit idxRx (i + 1) 0 (i + 1))
  | submit (idxRx rcvd : ℕ) : Turn (.submit idxRx rcvd 0 rcvd) .peek

namespace Turn

variable {p p' : Pc}

theorem firstPass (h : Turn p p') : p'.firstPass := by
  cases h with
  | reserve idxRx rcvd idxFill hpos => exact ⟨rfl, rfl, hpos⟩
  | reread idxRx rcvd idxFill i addr hi => exact ⟨rfl, rfl, hi⟩
  | next idxRx rcvd idxFill i addr hi => exact ⟨rfl, rfl, hi⟩
  | last idxRx idxFill i addr => exact ⟨rfl, rfl⟩
  | submit idxRx rcvd => exact trivial

/-- A step in the loop is one less to go. -/
theorem left (h : Turn p p') : p'.left + 1 = p.left := by
  cases h with
  | reserve idxRx rcvd idxFill hpos => simp only [Pc.left]; omega
  | reread idxRx rcvd idxFill i addr hi => rfl
  | next idxRx rcvd idxFill i addr hi => simp only [Pc.left]; omega
  | last idxRx idxFill i addr => simp only [Pc.left]; omega
  | submit idxRx rcvd => rfl

/-- And the loop is left for the next peek. -/
theorem eq_peek (h : Turn p p') (hleft : p'.left = 0) : p' = .peek := by
  cases h with
  | submit idxRx rcvd => rfl
  | next idxRx rcvd idxFill i addr hi => simp only [Pc.left] at hleft; omega
  | reserve idxRx rcvd idxFill hpos => simp only [Pc.left] at hleft; omega
  | reread idxRx rcvd idxFill i addr hi => simp only [Pc.left] at hleft; omega
  | last idxRx idxFill i addr => cases hleft

end Turn

/-- **A step of the thread in the loop stays in the first pass.** -/
theorem turn_of_step (hr : (libxdp S).Reachable s) (hfirst : s.pc.firstPass)
    (hleft : s.pc.left ≠ 0) {a : Act} (ha : a.ofThread = true)
    (h : (libxdp S).step s a = some s') : Turn s.pc s'.pc := by
  have hst := (libxdp_step h).2
  cases hpc : s.pc with
  | peek => exact absurd (by rw [hpc]; rfl) hleft
  | desc idxRx rcvd i => exact absurd (by rw [hpc]; rfl) hleft
  | release idxRx rcvd => exact absurd (by rw [hpc]; rfl) hleft
  | reserve idxRx rcvd filled =>
    rw [hpc] at hfirst
    obtain ⟨rfl, hpos⟩ := hfirst
    cases a with
    | reserve ret =>
      -- all slots are there, so they are what the reserve answers with
      obtain rfl : ret = rcvd := ret_eq_of_reserve hr hpc h
      simp only [step, hpc, if_neg hpos.ne'] at hst
      split at hst
      · cases hst
        exact .reserve idxRx ret s.cachedProd hpos
      · cases hst
    | take => cases ha
    | post addr len => cases ha
    | _ => simp [step, hpc] at hst
  | reread idxRx rcvd filled ret idxFill i =>
    rw [hpc] at hfirst
    obtain ⟨rfl, rfl, hi⟩ := hfirst
    obtain rfl := eq_go_of_step hst ha (by rw [hpc]; rfl)
    simp only [step, hpc] at hst
    cases hst
    exact .reread idxRx ret idxFill i _ hi
  | refill idxRx rcvd filled ret idxFill i addr =>
    rw [hpc] at hfirst
    obtain ⟨rfl, rfl, hi⟩ := hfirst
    obtain rfl := eq_go_of_step hst ha (by rw [hpc]; rfl)
    simp only [step, hpc] at hst
    cases hst
    dsimp only
    split
    · next hlt => exact .next idxRx ret idxFill i addr hlt
    · next hge =>
      obtain rfl : ret = i + 1 := by omega
      exact .last idxRx idxFill i addr
  | submit idxRx rcvd filled ret =>
    rw [hpc] at hfirst
    obtain ⟨rfl, rfl⟩ := hfirst
    obtain rfl := eq_go_of_step hst ha (by rw [hpc]; rfl)
    simp only [step, hpc] at hst
    cases hst
    rw [if_neg (by omega)]
    exact .submit idxRx ret

/-- A step of the thread outside of the loop is not one into a later pass. -/
theorem firstPass_of_enter (hr : (libxdp S).Reachable s) (hleft : s.pc.left = 0) {a : Act}
    (ha : a.ofThread = true) (h : step S s a = some s') : s'.pc.firstPass := by
  obtain ⟨c, hc⟩ := rep_of_reachable (reachable_of_libxdp hr)
  have hinv : PcInv S s c s.pc := hc.pc
  cases hpc : s.pc with
  | peek =>
    cases a with
    | peek n =>
      simp only [step, hpc] at h
      split at h
      · split at h
        · cases h
          rw [hpc]
          exact trivial
        · cases h; exact trivial
      · cases h
    | take => cases ha
    | post addr len => cases ha
    | _ => simp [step, hpc] at h
  | desc idxRx rcvd i =>
    obtain rfl := eq_go_of_step h ha (by rw [hpc]; rfl)
    simp only [step, hpc] at h
    cases h
    show Pc.firstPass (if i + 1 < rcvd then _ else _)
    split <;> exact trivial
  | release idxRx rcvd =>
    rw [hpc] at hinv
    obtain rfl := eq_go_of_step h ha (by rw [hpc]; rfl)
    simp only [step, hpc] at h
    cases h
    exact ⟨rfl, hinv.2.1⟩
  | refill idxRx rcvd filled ret idxFill i addr =>
    rw [hpc] at hinv hleft
    have hi := hinv.2.1
    simp only [Pc.left] at hleft
    omega
  | _ =>
    rw [hpc] at hleft
    cases hleft

/-- The invariant over whole runs. -/
theorem firstPass_of_reachable (hr : (libxdp S).Reachable s) : s.pc.firstPass := by
  induction hr with
  | init hs =>
    obtain ⟨rxMem, fillMem, rfl⟩ := hs
    exact trivial
  | @step s s' a hr hst ih =>
    cases ha : a.ofThread with
    | false =>
      rw [pc_of_kernel (libxdp_step hst).2 ha]
      exact ih
    | true =>
      by_cases hleft : s.pc.left = 0
      · exact firstPass_of_enter hr hleft ha (libxdp_step hst).2
      · exact (turn_of_step hr ih hleft ha hst).firstPass

/-- In the loop the thread always has a step. -/
theorem exists_turn (hr : (libxdp S).Reachable s) (hleft : s.pc.left ≠ 0) :
    ∃ a s', a.ofThread = true ∧ (libxdp S).step s a = some s' := by
  have hfirst := firstPass_of_reachable hr
  cases hpc : s.pc with
  | reserve idxRx rcvd filled =>
    rw [hpc] at hfirst
    obtain ⟨rfl, hpos⟩ := hfirst
    obtain ⟨s', hst⟩ := exists_reserve hr hpc hpos
    exact ⟨_, s', rfl, hst⟩
  | peek => exact absurd (by rw [hpc]; rfl) hleft
  | desc idxRx rcvd i => exact absurd (by rw [hpc]; rfl) hleft
  | release idxRx rcvd => exact absurd (by rw [hpc]; rfl) hleft
  | _ => exact ⟨.go, _, rfl, by simp only [libxdp, Answered, if_true, step, hpc]; rfl⟩

/-- **The thread is out of the loop after as many steps as are left**, whatever the kernel
does between them. -/
theorem left_of_path {ok : Xsk → Act → Prop} {as : List Act} (h : (libxdp S).Path ok s as t)
    (hr : (libxdp S).Reachable s) (hle : as.countP Act.ofThread ≤ s.pc.left)
    (hout : s.pc.left = 0 → s.pc = .peek) :
    t.pc.left + as.countP Act.ofThread = s.pc.left ∧ (t.pc.left = 0 → t.pc = .peek) := by
  induction h with
  | nil s => exact ⟨rfl, hout⟩
  | @cons s u t a as _ hst _ ih =>
    have hru : (libxdp S).Reachable u := .step hr hst
    cases ha : a.ofThread with
    | false =>
      rw [List.countP_cons_of_neg (by simp [ha])] at hle ⊢
      rw [← pc_of_kernel (libxdp_step hst).2 ha] at hle hout ⊢
      exact ih hru hle hout
    | true =>
      rw [List.countP_cons_of_pos ha] at hle ⊢
      have hturn := turn_of_step hr (firstPass_of_reachable hr) (by omega) ha hst
      have hone := hturn.left
      obtain ⟨hrest, hpeek⟩ := ih hru (by omega) hturn.eq_peek
      exact ⟨by omega, hpeek⟩

/-! ### Every reachable state -/

/-- **The refill loop never waits**: in every reachable state over `libxdp`, at a reserve it
is the first of its batch and the ring has all the slots; the answer is the whole batch, and
no reserve is answered with none, which is what the thread would sleep on.  A submit is
that of the whole batch.  In the loop the thread always has a step, and after two of them
for each frame and two more, however many of the kernel come between, it is back at its
peek. -/
theorem refill_never_waits (hr : (libxdp S).Reachable s) :
    (∀ idxRx rcvd filled, s.pc = .reserve idxRx rcvd filled →
      filled = 0 ∧ rcvd ≤ s.freeSlots S ∧
        (∃ s', (libxdp S).step s (.reserve rcvd) = some s') ∧
        (∀ ret s', (libxdp S).step s (.reserve ret) = some s' → ret = rcvd) ∧
        ∀ ok as t, (libxdp S).Path ok s as t → as.countP Act.ofThread = 2 * rcvd + 2 →
          t.pc = .peek) ∧
      (libxdp S).step s (.reserve 0) = none ∧
      (∀ idxRx rcvd filled ret, s.pc = .submit idxRx rcvd filled ret →
        filled = 0 ∧ ret = rcvd) ∧
      (s.pc.left ≠ 0 → ∃ a s', a.ofThread = true ∧ (libxdp S).step s a = some s') := by
  have hfirst := firstPass_of_reachable hr
  refine ⟨?_, reserve_zero_eq_none hr, ?_, exists_turn hr⟩
  · intro idxRx rcvd filled hpc
    rw [hpc] at hfirst
    obtain ⟨rfl, hpos⟩ := hfirst
    refine ⟨rfl, le_freeSlots_of_reachable hr hpc, exists_reserve hr hpc hpos,
      fun ret s' hst => ret_eq_of_reserve hr hpc hst, ?_⟩
    intro ok as t hpath hcount
    have hleft : s.pc.left = 2 * rcvd + 2 := by rw [hpc]; rfl
    obtain ⟨hsum, hpeek⟩ := left_of_path hpath hr (by omega) (by omega)
    exact hpeek (by omega)
  · intro idxRx rcvd filled ret hpc
    rw [hpc] at hfirst
    exact hfirst

/-- In the setup of the source the kernel takes and posts while a batch of two is given
back. -/
def refillSchedule : List Act :=
  [.take, .take, .post 4096 64, .post 0 60, .peek 2, .go, .go, .go, .take]

theorem refill_never_waits_default :
    ∃ s : Xsk, (libxdp defaultSetup).Reachable s ∧ s.pc = .reserve 0 2 0 ∧
      ((∀ idxRx rcvd filled, s.pc = .reserve idxRx rcvd filled →
        filled = 0 ∧ rcvd ≤ s.freeSlots defaultSetup ∧
          (∃ s', (libxdp defaultSetup).step s (.reserve rcvd) = some s') ∧
          (∀ ret s', (libxdp defaultSetup).step s (.reserve ret) = some s' → ret = rcvd) ∧
          ∀ ok as t, (libxdp defaultSetup).Path ok s as t →
            as.countP Act.ofThread = 2 * rcvd + 2 → t.pc = .peek) ∧
        (libxdp defaultSetup).step s (.reserve 0) = none ∧
        (∀ idxRx rcvd filled ret, s.pc = .submit idxRx rcvd filled ret →
          filled = 0 ∧ ret = rcvd) ∧
        (s.pc.left ≠ 0 →
          ∃ a s', a.ofThread = true ∧ (libxdp defaultSetup).step s a = some s')) := by
  have hexec : ((libxdp defaultSetup).exec (fun _ _ => true)
      (createRing defaultSetup (fun _ => ⟨0, 0⟩) fun _ => 0) refillSchedule).map
        (fun s => match s.pc with
          | .reserve idxRx rcvd filled => [idxRx, rcvd, filled]
          | _ => []) = some [0, 2, 0] := by
    decide +kernel
  obtain ⟨s, hs, hread⟩ := Machine.exists_path_of_exec hexec
  have hreach : (libxdp defaultSetup).Reachable s := hs.reachable (.init ⟨_, _, rfl⟩)
  refine ⟨s, hreach, ?_, refill_never_waits hreach⟩
  split at hread
  · next idxRx rcvd filled hpc =>
    cases hread
    exact hpc
  · cases hread

end Xdp
end SovereignSeed
