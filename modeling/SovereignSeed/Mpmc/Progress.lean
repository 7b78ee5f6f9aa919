import SovereignSeed.Foundation.Progress
import SovereignSeed.Mpmc.Crew
import SovereignSeed.Mpmc.Exclusivity

/-!
# A thread on its own

What becomes of a call when all the other threads stand still, wherever they have been stopped.
A call of `mpmc_dequeue` returns within a few steps, and so does one of `mpmc_enqueue`, unless
the ring is full: then it spins, for as long as nobody else moves.  A thread that has been stopped
in the middle of a call holds its cell, but keeps nobody from returning: a consumer finds the
ring empty, and a producer finds it full only if its own cell is the one that is held.

The compare-and-swap of the thread does not fail spuriously on these paths, and it copies every
word once.

## Main definitions

* `alone` — only one thread moves, inside of a call.

## Main results

* `within_dequeued`, `within_enqueued` — the calls that return.
* `not_can_of_full` — the call that does not.
* `alone_returns` — **`mpmc_dequeue` returns alone, `mpmc_enqueue` exactly if the ring is not
  full.**
-/

namespace SovereignSeed
namespace Mpmc

open Machine

variable {Tid ι α : Type*} {Q : QueueSize}

/-- Only thread `t` moves, inside of a call. -/
def alone (t : Tid) (_ : Queue Tid ι α) (a : Tid × Move ι α) : Prop := a.1 = t ∧ a.2.inner = true

/-- The difference to a number that is at most half the words ahead is negative. -/
theorem dif_neg_of_lt {seq pos : ℕ} (hlt : seq < pos) (hle : pos ≤ seq + 2 ^ 63) :
    dif seq pos < 0 := by
  have hdif : dif seq pos = Int.bmod ((seq : ℤ) - pos) (2 ^ 64) := bmod_sub_eq_bmod _ _ _
  rw [hdif, Int.bmod_eq_of_le_mul_two (by push_cast; omega) (by push_cast; omega)]
  omega

section Alone

variable [DecidableEq Tid] [Fintype ι] [DecidableEq ι] {s : Queue Tid ι α} {t : Tid}
  {d buf : Payload ι α} {pos : ℕ} {done : Finset ι}

/-- A thread on its own moves nobody else, and calls nothing. -/
theorem frame_of_alone {s' : Queue Tid ι α} {as : List (Tid × Move ι α)}
    (h : (machine Q).Path (alone t) s as s') :
    s'.calls = s.calls ∧ ∀ u, u ≠ t → s'.pc u = s.pc u := by
  refine h.invariant (P := fun v => v.calls = s.calls ∧ ∀ u, u ≠ t → v.pc u = s.pc u) ?_
    ⟨rfl, fun _ _ => rfl⟩
  rintro u ⟨t', m⟩ v ⟨hcalls, hother⟩ ⟨rfl, hm⟩ hst
  obtain ⟨-, hcalls', hother'⟩ := inner_step hst hm
  exact ⟨hcalls'.trans hcalls, fun w hw => (hother' w hw).trans (hother w hw)⟩

/-! ### A producer -/

theorem step_yield (hpc : s.pc t = .enqYield d) :
    (machine Q).step s (t, .go) = some (s.goto t (.enqLoadTail d)) := by
  simp only [machine, step, hpc]

/-- A look at a sequence number leads on, back, or to a yield. -/
theorem exists_step_enqLoadSeq (hpc : s.pc t = .enqLoadSeq d pos) :
    ∃ p, (machine Q).step s (t, .go) = some (s.goto t p) ∧
      (p = .enqCas d pos ∨ p = .enqYield d ∨ p = .enqLoadTail d) := by
  simp only [machine, step, hpc]
  split
  · exact ⟨_, rfl, .inl rfl⟩
  split
  · exact ⟨_, rfl, .inr (.inl rfl)⟩
  · exact ⟨_, rfl, .inr (.inr rfl)⟩

theorem step_casTail (hpc : s.pc t = .enqCas d pos) (hne : s.tail ≠ pos) :
    (machine Q).step s (t, .go) = some (s.goto t (.enqLoadSeq d s.tail)) := by
  simp only [machine, step, hpc]
  exact if_neg hne

/-- Thread `t` is back from `mpmc_enqueue`, and `head` is still `h`. -/
def Enqueued (t : Tid) (h : ℕ) (s : Queue Tid ι α) : Prop := s.pc t = .idle ∧ s.head = h

/-- A producer that holds a ticket copies its payload and publishes it. -/
theorem within_publish (hpc : s.pc t = .enqCopy d pos done) :
    (machine Q).Within (alone t) (Fintype.card ι + 1) (Enqueued t s.head) s := by
  have hfill : (machine Q).Within (alone t) (Fintype.card ι)
      (fun v => v.pc t = .enqCopy d pos Finset.univ ∧ v.head = s.head) s := by
    refine Within.fill (I := fun done v => v.pc t = .enqCopy d pos done ∧ v.head = s.head) ?_ _
      done s ⟨hpc, rfl⟩ (Finset.card_le_univ _)
    rintro done i v ⟨hv, hhead⟩
    exact ⟨(t, .copy i), _, ⟨rfl, rfl⟩, step_write hv, Function.update_self .., hhead⟩
  refine hfill.trans fun v hv => ?_
  exact .cons ⟨rfl, rfl⟩ (step_publish hv.1) (.now ⟨Function.update_self .., hv.2⟩)

/-- A producer that looks at a free cell claims it. -/
theorem within_claim (hseq : s.seq (Q.slot s.tail) = s.tail) (hpc : s.pc t = .enqLoadSeq d s.tail) :
    (machine Q).Within (alone t) (Fintype.card ι + 3) (Enqueued t s.head) s := by
  refine .cons ⟨rfl, rfl⟩ (step_enqSeqEq hpc hseq) ?_
  refine .cons ⟨rfl, rfl⟩ (step_claimEnqueue (Function.update_self ..) rfl) ?_
  exact within_publish (Function.update_self ..)

theorem within_cas (hseq : s.seq (Q.slot s.tail) = s.tail) (hpc : s.pc t = .enqCas d pos) :
    (machine Q).Within (alone t) (Fintype.card ι + 4) (Enqueued t s.head) s := by
  by_cases htail : s.tail = pos
  · refine .mono (.cons ⟨rfl, rfl⟩ (step_claimEnqueue hpc htail) ?_)
      (show Fintype.card ι + 1 + 1 ≤ _ by omega)
    exact within_publish (Function.update_self ..)
  · refine .cons ⟨rfl, rfl⟩ (step_casTail hpc htail) ?_
    exact within_claim hseq (Function.update_self ..)

theorem within_loadTail (hseq : s.seq (Q.slot s.tail) = s.tail) (hpc : s.pc t = .enqLoadTail d) :
    (machine Q).Within (alone t) (Fintype.card ι + 4) (Enqueued t s.head) s := by
  refine .cons ⟨rfl, rfl⟩ (step_loadTail hpc) ?_
  exact within_claim hseq (Function.update_self ..)

theorem within_yield (hseq : s.seq (Q.slot s.tail) = s.tail) (hpc : s.pc t = .enqYield d) :
    (machine Q).Within (alone t) (Fintype.card ι + 5) (Enqueued t s.head) s := by
  refine .cons ⟨rfl, rfl⟩ (step_yield hpc) ?_
  exact within_loadTail hseq (Function.update_self ..)

/-- **A producer returns alone** if it holds a ticket or the cell of `tail` is free. -/
theorem within_enqueued (hprod : (s.pc t).producing = true) (hready : (s.pc t).ready = false)
    (hopen : (s.pc t).writing ≠ none ∨ s.seq (Q.slot s.tail) = s.tail) :
    (machine Q).Within (alone t) (Fintype.card ι + 6) (Enqueued t s.head) s := by
  cases hpc : s.pc t with
  | enqCopy d pos done => exact (within_publish hpc).mono (by omega)
  | idle | dequeued =>
    rw [hpc] at hready
    cases hready
  | deqLoadHead | deqLoadSeq | deqCas | deqCopy =>
    rw [hpc] at hprod
    cases hprod
  | enqLoadTail d =>
    have hseq := hopen.resolve_left (by simp [hpc, Pc.writing])
    exact (within_loadTail hseq hpc).mono (by omega)
  | enqYield d =>
    have hseq := hopen.resolve_left (by simp [hpc, Pc.writing])
    exact (within_yield hseq hpc).mono (by omega)
  | enqCas d pos =>
    have hseq := hopen.resolve_left (by simp [hpc, Pc.writing])
    exact (within_cas hseq hpc).mono (by omega)
  | enqLoadSeq d pos =>
    have hseq := hopen.resolve_left (by simp [hpc, Pc.writing])
    obtain ⟨p, hst, hp⟩ := exists_step_enqLoadSeq hpc
    have hat : (s.goto t p).pc t = p := Function.update_self ..
    refine .cons ⟨rfl, rfl⟩ hst ?_
    rcases hp with rfl | rfl | rfl
    · exact (within_cas (s := s.goto t _) hseq hat).mono (by omega)
    · exact within_yield (s := s.goto t _) hseq hat
    · exact (within_loadTail (s := s.goto t _) hseq hat).mono (by omega)

/-- The control points of a producer without a ticket, while the cell of `tail` is not free. -/
def Pc.waits (tail : ℕ) : Pc ι α → Prop
  | .enqLoadTail _ => True
  | .enqYield _ => True
  | .enqLoadSeq _ _ => True
  | .enqCas _ pos => pos ≠ tail
  | _ => False

omit [DecidableEq Tid] [Fintype ι] [DecidableEq ι] in
theorem Pc.waits.not_ready {p : Pc ι α} {tail : ℕ} (h : p.waits tail) : p.ready = false := by
  cases p <;> first | rfl | exact h.elim

/-- A thread that waits goes on waiting. -/
theorem waits_of_trans (h : Inv Q s) (hb : s.tail < 2 ^ 63)
    (hseq : s.seq (Q.slot s.tail) ≠ s.tail) {u v : Queue Tid ι α} (htail : u.tail = s.tail)
    (hsame : u.seq = s.seq) (hwaits : (u.pc t).waits s.tail) (htrans : Trans Q u t v) :
    v.tail = s.tail ∧ v.seq = s.seq ∧ (v.pc t).waits s.tail := by
  cases htrans with
  | @move p hloc =>
    refine ⟨htail, hsame, ?_⟩
    rw [Queue.goto_pc, Function.update_self]
    generalize u.pc t = q at hloc hwaits
    cases hloc with
    | loadTail | yield | enqSeqLt | enqSeqGt | enqCasFail => trivial
    | enqSeqEq d pos hdif =>
      rintro rfl
      rw [hsame] at hdif
      exact hseq ((dif_eq_zero_iff (h.seq_lt hb s.tail) (by omega)).mp hdif)
    | callDequeue buf hr =>
      rw [hwaits.not_ready] at hr
      cases hr
    | loadHead | deqSeqEq | deqSeqLt | deqSeqGt | deqCasFail | read => exact hwaits.elim
  | callEnqueue d hr =>
    rw [hwaits.not_ready] at hr
    cases hr
  | claimEnqueue d pos hpc hpos =>
    rw [hpc] at hwaits
    exact absurd (hpos.symm.trans htail) hwaits
  | write d pos done i hpc | publish d pos hpc | claimDequeue buf pos hpc | release buf pos hpc =>
    rw [hpc] at hwaits
    exact hwaits.elim

/-- **A producer without a ticket does not return alone** while the cell of `tail` is not free. -/
theorem not_can_of_full (h : Inv Q s) (hb : s.tail < 2 ^ 63) (hprod : (s.pc t).producing = true)
    (hready : (s.pc t).ready = false) (hwriting : (s.pc t).writing = none)
    (hseq : s.seq (Q.slot s.tail) ≠ s.tail) :
    ¬(machine Q).Can (alone t) (fun v => (v.pc t).ready = true) s := by
  rintro ⟨as, v, hpath, hv⟩
  have hwaits : (s.pc t).waits s.tail := by
    have hthread := h.thread t
    cases hpc : s.pc t with
    | enqCas d pos =>
      rw [hpc] at hthread
      rintro rfl
      exact hseq (hthread.2 rfl)
    | enqCopy d pos done =>
      rw [hpc] at hwriting
      cases hwriting
    | idle | dequeued =>
      rw [hpc] at hready
      cases hready
    | deqLoadHead | deqLoadSeq | deqCas | deqCopy =>
      rw [hpc] at hprod
      cases hprod
    | enqLoadTail | enqYield | enqLoadSeq => trivial
  have hstay : v.tail = s.tail ∧ v.seq = s.seq ∧ (v.pc t).waits s.tail := by
    refine hpath.invariant
      (P := fun v => v.tail = s.tail ∧ v.seq = s.seq ∧ (v.pc t).waits s.tail) ?_
      ⟨rfl, rfl, hwaits⟩
    rintro u ⟨t', m⟩ v ⟨htail, hsame, hu⟩ ⟨rfl, hm⟩ hst
    exact waits_of_trans h hb hseq htail hsame hu (trans_of_step hst)
  rw [hstay.2.2.not_ready] at hv
  cases hv

/-! ### A consumer -/

/-- Thread `t` is back from `mpmc_dequeue` with a record, and `head` is `h`. -/
def HandedOver (t : Tid) (h : ℕ) (s : Queue Tid ι α) : Prop :=
  (∃ buf, s.pc t = .dequeued true buf) ∧ s.head = h

theorem step_casHead (hpc : s.pc t = .deqCas buf pos) (hne : s.head ≠ pos) :
    (machine Q).step s (t, .go) = some (s.goto t (.deqLoadSeq buf s.head)) := by
  simp only [machine, step, hpc]
  exact if_neg hne

/-- A look at a sequence number leads on, out, or back. -/
theorem exists_step_deqLoadSeq (hpc : s.pc t = .deqLoadSeq buf pos) :
    ∃ p, (machine Q).step s (t, .go) = some (s.goto t p) ∧
      (p = .deqCas buf pos ∨ p = .dequeued false buf ∨ p = .deqLoadHead buf) := by
  simp only [machine, step, hpc]
  split
  · exact ⟨_, rfl, .inl rfl⟩
  split
  · exact ⟨_, rfl, .inr (.inl rfl)⟩
  · exact ⟨_, rfl, .inr (.inr rfl)⟩

/-- A consumer that holds a ticket copies the payload and releases the cell. -/
theorem within_release (hpc : s.pc t = .deqCopy buf pos done) :
    (machine Q).Within (alone t) (Fintype.card ι + 1) (HandedOver t s.head) s := by
  have hfill : (machine Q).Within (alone t) (Fintype.card ι)
      (fun v => (∃ buf, v.pc t = .deqCopy buf pos Finset.univ) ∧ v.head = s.head) s := by
    refine Within.fill
      (I := fun done v => (∃ buf, v.pc t = .deqCopy buf pos done) ∧ v.head = s.head)
      ?_ _ done s ⟨⟨buf, hpc⟩, rfl⟩ (Finset.card_le_univ _)
    rintro done i v ⟨⟨buf, hv⟩, hhead⟩
    exact ⟨(t, .copy i), _, ⟨rfl, rfl⟩, step_read hv, ⟨_, Function.update_self ..⟩, hhead⟩
  refine hfill.trans fun v hv => ?_
  obtain ⟨⟨buf, hbuf⟩, hhead⟩ := hv
  exact .cons ⟨rfl, rfl⟩ (step_release hbuf) (.now ⟨⟨_, Function.update_self ..⟩, hhead⟩)

/-- **A consumer is handed the front record alone**, if it is published. -/
theorem within_handedOver (hb : s.head < 2 ^ 63) (hseq : s.seq (Q.slot s.head) = s.head + 1)
    (hpc : s.pc t = .deqLoadHead buf) :
    (machine Q).Within (alone t) (Fintype.card ι + 4) (HandedOver t (s.head + 1)) s := by
  have hword := succWord_eq hb
  refine .cons ⟨rfl, rfl⟩ (step_loadHead hpc) ?_
  refine .cons ⟨rfl, rfl⟩ (step_deqSeqEq (Function.update_self ..) (hseq.trans hword.symm)) ?_
  refine .cons ⟨rfl, rfl⟩ (step_claimDequeue (Function.update_self ..) rfl) ?_
  refine (within_release (Function.update_self ..)).imp fun v hv => ?_
  exact ⟨hv.1, hv.2.trans hword⟩

/-- A call of `mpmc_dequeue` does not end at `idle`. -/
theorem ne_idle_of_consumer {s' : Queue Tid ι α} (h : Trans Q s t s')
    (hcons : (s.pc t).consuming = true) (hready : (s.pc t).ready = false) : s'.pc t ≠ .idle := by
  cases h with
  | move hloc =>
    rw [Queue.goto_pc, Function.update_self]
    generalize s.pc t = p at hloc hcons
    cases hloc with
    | loadTail | yield | enqSeqEq | enqSeqLt | enqSeqGt | enqCasFail => cases hcons
    | callDequeue | loadHead | deqSeqEq | deqSeqLt | deqSeqGt | deqCasFail | read => simp
  | callEnqueue d hr =>
    rw [hready] at hr
    cases hr
  | claimEnqueue d pos hpc | write d pos done i hpc | publish d pos hpc =>
    rw [hpc] at hcons
    cases hcons
  | claimDequeue | release => simp

/-- Thread `t` is back from `mpmc_dequeue`. -/
def Returned (t : Tid) (s : Queue Tid ι α) : Prop := ∃ ret buf, s.pc t = .dequeued ret buf

omit [DecidableEq Tid] [Fintype ι] [DecidableEq ι] in
theorem HandedOver.returned {h : ℕ} (hover : HandedOver t h s) : Returned t s :=
  ⟨true, hover.1⟩

omit [DecidableEq Tid] [Fintype ι] [DecidableEq ι] in
/-- The cell of `head` is never ahead of what a consumer looks for. -/
theorem Inv.dif_head_le (h : Inv Q s) (hb : s.tail < 2 ^ 63) :
    dif (s.seq (Q.slot s.head)) (succWord s.head) ≤ 0 := by
  have hhead := h.head_le
  have hsize := Q.two_le
  have hsize' := Q.size_le
  rw [succWord_eq (by omega)]
  have hseq : s.seq (Q.slot s.head) = s.head + 1 ∨
      s.seq (Q.slot s.head) < s.head + 1 ∧ s.head + 1 ≤ s.seq (Q.slot s.head) + 2 ^ 63 := by
    rcases Nat.lt_or_ge s.head s.tail with hlt | hge
    · rcases h.busy s.head le_rfl hlt with h' | h' <;> omega
    · rcases h.free s.head hge (by omega) with h' | ⟨-, h'⟩ <;> omega
  rcases hseq with hseq | ⟨hlt, hle⟩
  · rw [hseq, dif_self]
  · exact (dif_neg_of_lt hlt hle).le

/-- A consumer that looks at the cell of `head` returns. -/
theorem within_deqLoadSeq (h : Inv Q s) (hb : s.tail < 2 ^ 63)
    (hpc : s.pc t = .deqLoadSeq buf s.head) :
    (machine Q).Within (alone t) (Fintype.card ι + 3) (Returned t) s := by
  rcases (h.dif_head_le hb).lt_or_eq with hlt | heq
  · exact .mono (.cons ⟨rfl, rfl⟩ (step_deqSeqLt hpc hlt) (.now ⟨_, _, Function.update_self ..⟩))
      (show 0 + 1 ≤ _ by omega)
  · have hhead := h.head_le
    have hseq := (dif_eq_zero_iff (h.seq_lt hb s.head) (Nat.mod_lt _ (by decide))).mp heq
    refine .cons ⟨rfl, rfl⟩ (step_deqSeqEq hpc hseq) ?_
    refine .cons ⟨rfl, rfl⟩ (step_claimDequeue (Function.update_self ..) rfl) ?_
    exact (within_release (Function.update_self ..)).imp fun v hv => hv.returned

theorem within_deqCas (h : Inv Q s) (hb : s.tail < 2 ^ 63) (hpc : s.pc t = .deqCas buf pos) :
    (machine Q).Within (alone t) (Fintype.card ι + 4) (Returned t) s := by
  by_cases hhead : s.head = pos
  · refine .mono (.cons ⟨rfl, rfl⟩ (step_claimDequeue hpc hhead) ?_)
      (show Fintype.card ι + 1 + 1 ≤ _ by omega)
    exact (within_release (Function.update_self ..)).imp fun v hv => hv.returned
  · have hmoved : Inv Q (s.goto t (.deqLoadSeq buf s.head)) :=
      inv_move h hb (hpc ▸ .deqCasFail buf pos)
    refine .cons ⟨rfl, rfl⟩ (step_casHead hpc hhead) ?_
    exact within_deqLoadSeq hmoved hb (Function.update_self ..)

theorem within_loadHead (h : Inv Q s) (hb : s.tail < 2 ^ 63) (hpc : s.pc t = .deqLoadHead buf) :
    (machine Q).Within (alone t) (Fintype.card ι + 4) (Returned t) s := by
  have hmoved : Inv Q (s.goto t (.deqLoadSeq buf s.head)) := inv_move h hb (hpc ▸ .loadHead buf)
  refine .cons ⟨rfl, rfl⟩ (step_loadHead hpc) ?_
  exact within_deqLoadSeq hmoved hb (Function.update_self ..)

/-- **A consumer returns alone.** -/
theorem within_dequeued (h : Inv Q s) (hb : s.tail < 2 ^ 63) (hcons : (s.pc t).consuming = true)
    (hready : (s.pc t).ready = false) :
    (machine Q).Within (alone t) (Fintype.card ι + 5) (Returned t) s := by
  cases hpc : s.pc t with
  | idle | dequeued =>
    rw [hpc] at hready
    cases hready
  | enqLoadTail | enqYield | enqLoadSeq | enqCas | enqCopy =>
    rw [hpc] at hcons
    cases hcons
  | deqLoadHead buf => exact (within_loadHead h hb hpc).mono (by omega)
  | deqCas buf pos => exact (within_deqCas h hb hpc).mono (by omega)
  | deqCopy buf pos done =>
    exact ((within_release hpc).imp fun v hv => hv.returned).mono (by omega)
  | deqLoadSeq buf pos =>
    obtain ⟨p, hst, hp⟩ := exists_step_deqLoadSeq hpc
    have hat : (s.goto t p).pc t = p := Function.update_self ..
    have hgo : step Q s (t, .go) = some (s.goto t p) := hst
    have hmoved := inv_trans h hb (trans_of_step hgo)
    refine .cons ⟨rfl, rfl⟩ hst ?_
    rcases hp with rfl | rfl | rfl
    · exact within_deqCas hmoved hb hat
    · exact .now ⟨_, _, hat⟩
    · exact within_loadHead hmoved hb hat

/-! ### Both -/

omit [Fintype ι] [DecidableEq ι] in
/-- The cell of `tail` is free exactly if the ring is not full. -/
theorem free_iff_not_fullAt (h : Inv Q s) (hist : History Q s) (hrel : Released Q s) :
    s.seq (Q.slot s.tail) = s.tail ↔ ¬FullAt Q s s.tail := by
  have hsize := Q.two_le
  constructor
  · rintro hseq ⟨-, hlap, hmem⟩
    have hroom := h.room hseq
    obtain ⟨q, hq⟩ := Nat.exists_eq_add_of_le' hlap
    rw [hq, Nat.add_sub_cancel] at hmem
    -- the ticket one lap before is taken, so its consumer is still reading the cell
    have hlt : q ∈ s.deqs.map (·.1) := by
      rw [h.deqs_tickets, List.mem_range]
      omega
    obtain ⟨⟨q', u⟩, hdeq, rfl⟩ := List.mem_map.mp hlt
    rcases hist.taken u q' hdeq with hread | ⟨d, hret⟩
    · obtain ⟨-, -, hown⟩ := h.of_reading hread
      rw [hq, Q.slot_add_size] at hseq
      dsimp only at hseq
      omega
    · exact hmem (List.mem_map.mpr ⟨_, hret, rfl⟩)
  · intro hnot
    by_contra hseq
    have htail := h.tail_le
    rcases Nat.lt_or_ge s.tail Q.size with hfirst | hlap
    · rcases h.free s.tail le_rfl (by omega) with hfree | ⟨hle, -⟩
      · exact hseq hfree
      · omega
    · refine hnot ⟨rfl, hlap, fun hmem => hseq ?_⟩
      have hle := hrel _ hmem
      rw [Nat.sub_add_cancel hlap, ← Q.slot_add_size, Nat.sub_add_cancel hlap] at hle
      have hhead := (Inv.seq_le h s.tail)
      rcases Nat.lt_or_ge s.tail (s.head + Q.size) with hroom | hfull
      · rcases h.free s.tail le_rfl hroom with hfree | ⟨-, hbehind⟩ <;> omega
      · omega

/-- **A call on its own**: in every reachable state with fewer than `2 ^ 63` enqueues, a call of
`mpmc_dequeue` can return while all other threads stand still, and so can one of `mpmc_enqueue` that
holds its ticket or finds the ring not full: in so many of its own steps, without a
`compare_exchange` that fails for no reason and without a word that is copied twice.  One that finds
the ring full does not return in any number of them. -/
theorem alone_returns (hr : (machine Q).Reachable s) (hb : s.enqs.length < 2 ^ 63) (t : Tid)
    (hready : (s.pc t).ready = false) :
    ((s.pc t).consuming = true →
      (machine Q).Within (alone t) (Fintype.card ι + 5) (fun v => (v.pc t).ready = true) s) ∧
    ((s.pc t).producing = true → ((s.pc t).writing ≠ none ∨ ¬FullAt Q s s.tail) →
      (machine Q).Within (alone t) (Fintype.card ι + 6) (fun v => (v.pc t).ready = true) s) ∧
    ((s.pc t).producing = true → (s.pc t).writing = none → FullAt Q s s.tail →
      ¬(machine Q).Can (alone t) (fun v => (v.pc t).ready = true) s) := by
  have h := inv_of_reachable hr hb
  have hist := history_of_reachable hr hb
  have hrel := released_of_reachable hr hb
  have htail : s.tail < 2 ^ 63 := by
    rw [h.tail_eq]
    exact hb
  have hfree := free_iff_not_fullAt h hist hrel
  refine ⟨fun hcons => ?_, fun hprod hopen => ?_, fun hprod hnone hfull => ?_⟩
  · refine (within_dequeued h htail hcons hready).imp ?_
    rintro v ⟨ret, buf, hpc⟩
    rw [hpc]
    rfl
  · refine (within_enqueued hprod hready (hopen.imp_right hfree.mpr)).imp ?_
    rintro v ⟨hpc, -⟩
    rw [hpc]
    rfl
  · exact not_can_of_full h htail hprod hready hnone fun hseq => hfree.mp hseq hfull

/-- Two slots: thread 0 fills them, thread 1 calls `mpmc_enqueue` and thread 2 `mpmc_dequeue`. -/
def fullSchedule : List (ℕ × Move Unit ℕ) :=
  [(0, .callEnqueue fun _ => 7), (0, .go), (0, .go), (0, .go), (0, .copy ()), (0, .go),
   (0, .callEnqueue fun _ => 8), (0, .go), (0, .go), (0, .go), (0, .copy ()), (0, .go),
   (1, .callEnqueue fun _ => 9), (1, .go), (2, .callDequeue fun _ => 0), (2, .go)]

theorem alone_returns_two_slots : ∃ s : Queue ℕ Unit ℕ, (machine twoSlots).Reachable s ∧
    s.pc 1 = .enqLoadSeq (fun _ => 9) 2 ∧ s.pc 2 = .deqLoadSeq (fun _ => 0) 0 ∧
      ¬(machine twoSlots).Can (alone 1) (fun v => (v.pc 1).ready = true) s ∧
      (machine twoSlots).Within (alone 2) 6 (fun v => (v.pc 2).ready = true) s := by
  have heval : ((machine twoSlots).exec (fun _ _ => true)
      (initMasterQueue fun _ _ => 0) fullSchedule).map
        (fun s : Queue ℕ Unit ℕ => (s.pc 1, s.pc 2, s.tail, s.rets.map (·.1), s.enqs.length)) =
      some (.enqLoadSeq (fun _ => 9) 2, .deqLoadSeq (fun _ => 0) 0, 2, [], 2) := rfl
  obtain ⟨s, hpath, hq⟩ := Machine.exists_path_of_exec heval
  simp only [Prod.mk.injEq] at hq
  obtain ⟨hpc, hpc', htail, hrets, hlen⟩ := hq
  have hr := hpath.reachable (.init ⟨_, rfl⟩)
  have hlen' : s.enqs.length < 2 ^ 63 := by omega
  refine ⟨s, hr, hpc, hpc', ?_, ?_⟩
  · have hfull : FullAt twoSlots s s.tail := by
      refine ⟨rfl, ?_, ?_⟩
      · rw [htail]
        exact le_rfl
      · rw [hrets]
        exact List.not_mem_nil
    refine (alone_returns hr hlen' 1 ?_).2.2 ?_ ?_ hfull <;> rw [hpc] <;> rfl
  · refine (alone_returns hr hlen' 2 ?_).1 ?_ <;> rw [hpc'] <;> rfl

end Alone

/-! ### A crew -/

/-- A consumer never holds a cell to write in. -/
theorem Pc.writing_of_consuming {p : Pc ι α} (h : p.consuming = true) : p.writing = none := by
  cases p <;> first | rfl | cases h

namespace Crew

variable {P : ℕ} {round : Fin P → ℕ → Payload ι α} {issued : Fin P → ℕ}
  {q : Queue (Option (Fin P)) ι α}

/-- When every producer is outside, all rounds begun are claimed. -/
theorem tail_eq (h : Crew Q round issued q) (hready : ∀ w, (q.pc (some w)).ready = true) :
    q.tail = ∑ w, issued w := by
  rw [h.ring.tail_eq, h.length_enqs]
  refine Finset.sum_congr rfl fun w _ => ?_
  have hclaims := congrArg List.length (h.claims_eq (hready w))
  simpa [claimsOf, share] using hclaims

/-- The front record is published, unless its producer has stopped in its copy. -/
theorem front_published (h : Crew Q round issued q)
    (hnone : ∀ w, (q.pc (some w)).writing = none) (hlt : q.head < q.tail) :
    q.seq (Q.slot q.head) = q.head + 1 := by
  refine (h.ring.busy q.head le_rfl hlt).resolve_left fun hseq => ?_
  obtain ⟨t, ht⟩ := exists_writer h.ring h.history le_rfl hlt hseq
  cases t with
  | some w =>
    rw [hnone w] at ht
    cases ht
  | none =>
    rw [Pc.writing_of_consuming h.logger_pc] at ht
    cases ht

/-- Behind an empty ring the cell of `tail` is free, once the logger has released its own. -/
theorem free_of_empty (h : Crew Q round issued q) (hrel : Released Q q)
    (hout : (q.pc none).reading = none) (hempty : q.head = q.tail) :
    q.seq (Q.slot q.tail) = q.tail := by
  have hsize := Q.two_le
  refine (h.ring.free q.tail le_rfl (by omega)).resolve_right ?_
  rintro ⟨hlap, hbehind⟩
  have htaken := h.taken
  rw [hout, Option.toList_none, List.append_nil, h.ring.deqs_tickets] at htaken
  have hmem : q.tail - Q.size ∈ q.rets.map (·.1) := by
    rw [htaken, List.mem_range]
    omega
  have hle := hrel _ hmem
  rw [Nat.sub_add_cancel hlap, ← Q.slot_add_size, Nat.sub_add_cancel hlap] at hle
  omega

end Crew

end Mpmc
end SovereignSeed
