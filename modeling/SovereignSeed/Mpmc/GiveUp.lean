import SovereignSeed.Mpmc.Delivery

/-!
# Giving up

`mpmc_dequeue` returns 0 and `mpmc_enqueue` yields where the sequence number of
the cell, read as a signed word, lies before the local position.  The position
may be stale: it was loaded from `head` or `tail` any number of steps ago, and
the cell has been recycled since.

What excludes a wrong verdict is that nothing goes back.  A position is at most
the counter it was loaded from, a cell only ever shows larger numbers, and the
cell of a ticket that has been passed shows at least the ticket after it.  So a
negative difference means that the position is current.

The signed reading is exact up to a distance of `2 ^ 63`.  A consumer cannot
fall behind that far while fewer than `2 ^ 63` tickets have been claimed.  A
producer can: it reads a cell that has been released for the next lap, and the
number there may be `2 ^ 63` ahead of its position although `tail` is not.

## Main definitions

* `Queue.Published` — the enqueue of a ticket has stored its sequence number.
* `EmptyAt`, `FullAt` — what the two verdicts mean.

## Main results

* `seq_le_of_trans` — no step takes a sequence number back.
* `released_of_reachable` — a ticket handed over has released its cell.
* `give_up_exact` — **a dequeue gives up on an empty ring only, and an enqueue on
  a full one unless its position is `2 ^ 63` behind.**
* `exists_stale_yield`, `stale_position_yields` — **the exception occurs**, before
  an empty ring.
-/

namespace SovereignSeed
namespace Mpmc

variable {Tid ι α : Type*} {Q : QueueSize}

/-! ### The verdicts -/

/-- The enqueue that claimed ticket `pos` is past its store of the sequence number. -/
def Queue.Published (s : Queue Tid ι α) (pos : ℕ) : Prop :=
  ∃ t d, (pos, t, d) ∈ s.enqs ∧ (s.pc t).writing ≠ some pos

/-- `head` is at ticket `pos`, and no enqueue has published it. -/
def EmptyAt (s : Queue Tid ι α) (pos : ℕ) : Prop :=
  s.head = pos ∧ ¬ s.Published pos

/-- `tail` is at ticket `pos`, and the ticket one lap before has not been handed over. -/
def FullAt (Q : QueueSize) (s : Queue Tid ι α) (pos : ℕ) : Prop :=
  s.tail = pos ∧ Q.size ≤ pos ∧ pos - Q.size ∉ s.rets.map (·.1)

/-! ### The signed difference -/

/-- The balanced difference of balanced readings is that of the numbers. -/
theorem bmod_sub_eq_bmod (n : ℕ) (x y : ℤ) :
    Int.bmod (Int.bmod x n - Int.bmod y n) n = Int.bmod (x - y) n := by
  rw [Int.bmod_sub_bmod, Int.sub_bmod_bmod]

/-- A number at most `2 ^ 63 - 1` ahead of the position is read as ahead of it. -/
theorem dif_eq_sub {seq pos : ℕ} (hle : pos ≤ seq) (hlt : seq < pos + 2 ^ 63) :
    dif seq pos = (seq : ℤ) - pos := by
  have hdif : dif seq pos = Int.bmod ((seq : ℤ) - pos) (2 ^ 64) := bmod_sub_eq_bmod _ _ _
  rw [hdif]
  exact Int.bmod_eq_of_le_mul_two (by push_cast; omega) (by push_cast; omega)

/-- A negative difference: the number is behind, or half the words ahead. -/
theorem lt_or_le_of_dif_neg {seq pos : ℕ} (h : dif seq pos < 0) :
    seq < pos ∨ pos + 2 ^ 63 ≤ seq := by
  by_contra hcon
  rw [not_or, not_lt, not_le] at hcon
  rw [dif_eq_sub hcon.1 hcon.2] at h
  have hle := hcon.1
  omega

/-! ### The cell of a position that may be stale -/

/-- The cell of a ticket that has been taken shows at least the next one. -/
theorem Inv.succ_le_seq {s : Queue Tid ι α} (h : Inv Q s) {pos : ℕ} (hpos : pos < s.head) :
    pos + 1 ≤ s.seq (Q.slot pos) := by
  obtain ⟨p, hle, hlt, hslot⟩ := exists_ticket Q s.head pos
  -- the ticket that now owns the cell is at least one lap ahead
  have hlap : pos + Q.size ≤ p := by
    by_contra hnear
    have heq := Q.eq_of_slot_eq hslot.symm (by omega) (by omega)
    omega
  rw [← hslot]
  rcases Nat.lt_or_ge p s.tail with hp | hp
  · rcases h.busy p hle hp with h' | h' <;> omega
  · rcases h.free p hp hlt with h' | ⟨-, h'⟩ <;> omega

/-- The cell of a claimed ticket shows at least the ticket. -/
theorem Inv.le_seq {s : Queue Tid ι α} (h : Inv Q s) {pos : ℕ} (hpos : pos < s.tail) :
    pos ≤ s.seq (Q.slot pos) := by
  rcases Nat.lt_or_ge pos s.head with hlt | hge
  · exact Nat.le_of_succ_le (h.succ_le_seq hlt)
  · rcases h.busy pos hge hpos with h' | h' <;> omega

/-- `2 ^ 63` tickets on, the slot is the same. -/
theorem QueueSize.slot_add_half (Q : QueueSize) (pos : ℕ) : Q.slot (pos + 2 ^ 63) = Q.slot pos := by
  have hlog := Q.lt_word
  have hdvd : Q.size ∣ 2 ^ 63 := pow_dvd_pow 2 (by omega)
  rw [Q.slot_eq, Q.slot_eq, Nat.add_mod, Nat.mod_eq_zero_of_dvd hdvd, Nat.add_zero, Nat.mod_mod]

/-- No cell is more than `2 ^ 63` ahead of a position that was once current, and
one that is exactly so has been released for a ticket not yet claimed. -/
theorem Inv.seq_le_half {s : Queue Tid ι α} (h : Inv Q s) (hb : s.tail < 2 ^ 63) (pos : ℕ) :
    s.seq (Q.slot pos) < pos + 2 ^ 63 ∨
      s.seq (Q.slot pos) = pos + 2 ^ 63 ∧ pos + 2 ^ 63 < s.tail + Q.size := by
  have hhead := h.head_le
  obtain ⟨p, hle, hlt, hslot⟩ := exists_ticket Q s.head pos
  rw [← hslot]
  rcases Nat.lt_or_ge p s.tail with hp | hp
  · rcases h.busy p hle hp with h' | h' <;> omega
  · rcases h.free p hp hlt with h' | ⟨-, h'⟩
    · rcases Nat.lt_or_ge p (pos + 2 ^ 63) with hnear | hfar
      · omega
      · rw [← Q.slot_add_half pos] at hslot
        have heq := Q.eq_of_slot_eq hslot.symm hfar (by omega)
        omega
    · omega

/-! ### Nothing goes back -/

section Steps

variable [DecidableEq Tid] [Fintype ι] [DecidableEq ι]

/-- **No step takes a sequence number back.** -/
theorem seq_le_of_trans {s s' : Queue Tid ι α} {t : Tid} (h : Inv Q s) (hb : s.tail < 2 ^ 63)
    (hstep : Trans Q s t s') (i : ℕ) : s.seq i ≤ s'.seq i := by
  have hhead := h.head_le
  cases hstep with
  | move => exact le_rfl
  | callEnqueue => exact le_rfl
  | claimEnqueue => exact le_rfl
  | write => exact le_rfl
  | claimDequeue => exact le_rfl
  | publish d pos hpc =>
    obtain ⟨-, hlt, hseq, -⟩ : ThreadInv Q s t (.enqCopy d pos Finset.univ) := hpc ▸ h.thread t
    show s.seq i ≤ Function.update s.seq (Q.slot pos) (succWord pos) i
    by_cases hi : i = Q.slot pos
    · rw [hi, Function.update_self, hseq, succWord_eq (by omega)]
      exact Nat.le_succ pos
    · rw [Function.update_of_ne hi]
  | release buf pos hpc =>
    obtain ⟨hlt, -, hseq, -⟩ : ThreadInv Q s t (.deqCopy buf pos Finset.univ) := hpc ▸ h.thread t
    have hsize := Q.two_le
    have hsize' := Q.size_le
    show s.seq i ≤ Function.update s.seq (Q.slot pos) ((pos + Q.size) % 2 ^ 64) i
    by_cases hi : i = Q.slot pos
    · rw [hi, Function.update_self, hseq, Nat.mod_eq_of_lt (by omega)]
      omega
    · rw [Function.update_of_ne hi]

/-- A ticket that has been handed over has released its cell for the next lap. -/
def Released (Q : QueueSize) (s : Queue Tid ι α) : Prop :=
  ∀ pos ∈ s.rets.map (·.1), pos + Q.size ≤ s.seq (Q.slot pos)

theorem released_trans {s s' : Queue Tid ι α} {t : Tid} (h : Inv Q s) (hb : s.tail < 2 ^ 63)
    (hstep : Trans Q s t s') (hrel : Released Q s) : Released Q s' := by
  have hmono := seq_le_of_trans h hb hstep
  have hold : ∀ pos ∈ s.rets.map (·.1), pos + Q.size ≤ s'.seq (Q.slot pos) :=
    fun pos hpos => le_trans (hrel pos hpos) (hmono _)
  cases hstep with
  | move => exact hold
  | callEnqueue => exact hold
  | claimEnqueue => exact hold
  | write => exact hold
  | claimDequeue => exact hold
  | publish => exact hold
  | release buf pos hpc =>
    intro p hp
    have hp : p ∈ (s.rets ++ [(pos, t, buf)]).map (·.1) := hp
    rw [List.map_append, List.mem_append] at hp
    rcases hp with hp | hp
    · exact hold p hp
    · obtain rfl : p = pos := by simpa using hp
      obtain ⟨hlt, -⟩ : ThreadInv Q s t (.deqCopy buf p Finset.univ) := hpc ▸ h.thread t
      have hhead := h.head_le
      have hsize := Q.size_le
      show p + Q.size ≤ Function.update s.seq (Q.slot p) ((p + Q.size) % 2 ^ 64) (Q.slot p)
      rw [Function.update_self, Nat.mod_eq_of_lt (by omega)]

/-- **A handed-over ticket has released its cell, in every reachable state.** -/
theorem released_of_reachable {s : Queue Tid ι α} (hr : (machine Q).Reachable s)
    (hb : s.enqs.length < 2 ^ 63) : Released Q s := by
  induction hr with
  | init hs =>
    obtain ⟨mem, rfl⟩ := hs
    intro pos hpos
    simp [initMasterQueue] at hpos
  | @step u v a hu hst ih =>
    have htrans : Trans Q u a.1 v := trans_of_step hst
    have hle := enqs_length_le_of_trans htrans
    have hi : Inv Q u := inv_of_reachable hu (by omega)
    exact released_trans hi (by rw [hi.tail_eq]; omega) htrans (ih (by omega))

/-! ### The verdicts are exact -/

omit [Fintype ι] [DecidableEq ι] in
/-- **A number behind a consumer's position** means an empty ring. -/
theorem empty_of_dif_neg {s : Queue Tid ι α} (hi : Inv Q s) (h : History Q s)
    (hb : s.tail < 2 ^ 63) {pos : ℕ} (hpos : pos ≤ s.head)
    (hdif : dif (s.seq (Q.slot pos)) (succWord pos) < 0) : EmptyAt s pos := by
  have hhead := hi.head_le
  have hhalf := hi.seq_le_half hb pos
  rw [succWord_eq (by omega)] at hdif
  have hlt : s.seq (Q.slot pos) < pos + 1 := by
    rcases lt_or_le_of_dif_neg hdif with hlt | hfar <;> omega
  have hcur : s.head = pos := by
    by_contra hne
    have hle := hi.succ_le_seq (show pos < s.head by omega)
    omega
  refine ⟨hcur, ?_⟩
  rintro ⟨u, d, hmem, hw⟩
  rcases h.stored pos u d hmem (by omega) with ⟨done, hu⟩ | ⟨hseq, -⟩
  · rw [hu] at hw
    exact hw rfl
  · omega

omit [DecidableEq Tid] [Fintype ι] [DecidableEq ι] in
/-- **A number behind a producer's position** means a full ring, unless it is
half the words ahead. -/
theorem full_of_dif_neg {s : Queue Tid ι α} (hi : Inv Q s) (hrel : Released Q s)
    (hb : s.tail < 2 ^ 63) {pos : ℕ} (hpos : pos ≤ s.tail)
    (hdif : dif (s.seq (Q.slot pos)) pos < 0) :
    FullAt Q s pos ∨ s.seq (Q.slot pos) = pos + 2 ^ 63 ∧ pos + 2 ^ 63 < s.tail + Q.size := by
  rcases hi.seq_le_half hb pos with hnear | hfar
  · left
    have hlt : s.seq (Q.slot pos) < pos := by
      rcases lt_or_le_of_dif_neg hdif with hlt | hge <;> omega
    have hcur : s.tail = pos := by
      by_contra hne
      have hle := hi.le_seq (show pos < s.tail by omega)
      omega
    have htail := hi.tail_le
    have hlap : Q.size ≤ pos := by
      rcases Nat.lt_or_ge pos (s.head + Q.size) with hroom | hfull
      · rcases hi.free pos (by omega) hroom with h' | ⟨h', -⟩ <;> omega
      · omega
    refine ⟨hcur, hlap, fun hmem => ?_⟩
    have hle := hrel _ hmem
    rw [Nat.sub_add_cancel hlap, ← Q.slot_add_size, Nat.sub_add_cancel hlap] at hle
    omega
  · exact Or.inr hfar

/-- **Giving up is exact**: in every interleaving with fewer than `2 ^ 63`
enqueues, `mpmc_dequeue` returns 0 only where the ring is empty at that step,
and `mpmc_enqueue` yields only where it is full at that step, or where the
number it has read is `2 ^ 63` ahead of its position. -/
theorem give_up_exact {s s' : Queue Tid ι α} {t : Tid} {m : Move ι α}
    (hr : (machine Q).Reachable s) (hb : s.enqs.length < 2 ^ 63)
    (h : step Q s (t, m) = some s') :
    (∀ buf, s'.pc t = .dequeued false buf → ∃ pos, s.pc t = .deqLoadSeq buf pos ∧ EmptyAt s pos) ∧
      ∀ d, s'.pc t = .enqYield d → ∃ pos, s.pc t = .enqLoadSeq d pos ∧
        (FullAt Q s pos ∨
          s.seq (Q.slot pos) = pos + 2 ^ 63 ∧ pos + 2 ^ 63 < s.tail + Q.size) := by
  have hi := inv_of_reachable hr hb
  have htail : s.tail < 2 ^ 63 := by rw [hi.tail_eq]; exact hb
  have hthread := hi.thread t
  constructor
  · intro buf hpc
    cases trans_of_step h with
    | move hloc =>
      rw [Queue.goto_pc, Function.update_self] at hpc
      subst hpc
      generalize hp : s.pc t = p at hloc hthread
      cases hloc with
      | deqSeqLt _ pos hdif =>
        exact ⟨pos, rfl, empty_of_dif_neg hi (history_of_reachable hr hb) htail hthread hdif⟩
    | callEnqueue => simp at hpc
    | claimEnqueue => simp at hpc
    | write => simp at hpc
    | publish => simp at hpc
    | claimDequeue => simp at hpc
    | release => simp at hpc
  · intro d hpc
    cases trans_of_step h with
    | move hloc =>
      rw [Queue.goto_pc, Function.update_self] at hpc
      subst hpc
      generalize hp : s.pc t = p at hloc hthread
      cases hloc with
      | enqSeqLt _ pos hdif =>
        exact ⟨pos, rfl, full_of_dif_neg hi (released_of_reachable hr hb) htail hthread hdif⟩
    | callEnqueue => simp at hpc
    | claimEnqueue => simp at hpc
    | write => simp at hpc
    | publish => simp at hpc
    | claimDequeue => simp at hpc
    | release => simp at hpc

end Steps

/-! ### Whole calls

Runs in which thread 0 completes a call alone, over payloads of one word. -/

theorem dif_self (x : ℕ) : dif x x = 0 := by
  rw [dif, sub_self]
  exact Int.zero_bmod

section Enabled

variable [DecidableEq Tid] [Fintype ι] [DecidableEq ι] {s : Queue Tid ι α} {t : Tid}
  {d : Payload ι α} {pos : ℕ} {done : Finset ι} {i : ι}

theorem step_callEnqueue (hready : (s.pc t).ready = true) :
    (machine Q).step s (t, .callEnqueue d) =
      some { s.goto t (.enqLoadTail d) with calls := s.calls ++ [(t, d)] } := by
  simp only [machine, step]
  exact if_pos hready

theorem step_loadTail (hpc : s.pc t = .enqLoadTail d) :
    (machine Q).step s (t, .go) = some (s.goto t (.enqLoadSeq d s.tail)) := by
  simp only [machine, step, hpc]

theorem step_enqSeqEq (hpc : s.pc t = .enqLoadSeq d pos) (hseq : s.seq (Q.slot pos) = pos) :
    (machine Q).step s (t, .go) = some (s.goto t (.enqCas d pos)) := by
  simp only [machine, step, hpc]
  exact if_pos (by rw [hseq, dif_self])

theorem step_enqSeqLt (hpc : s.pc t = .enqLoadSeq d pos) (hdif : dif (s.seq (Q.slot pos)) pos < 0) :
    (machine Q).step s (t, .go) = some (s.goto t (.enqYield d)) := by
  simp only [machine, step, hpc]
  rw [if_neg hdif.ne]
  exact if_pos hdif

theorem step_claimEnqueue (hpc : s.pc t = .enqCas d pos) (htail : s.tail = pos) :
    (machine Q).step s (t, .go) = some { s.goto t (.enqCopy d pos ∅) with
      tail := succWord pos, enqs := s.enqs ++ [(pos, t, d)] } := by
  simp only [machine, step, hpc]
  exact if_pos htail

theorem step_write (hpc : s.pc t = .enqCopy d pos done) :
    (machine Q).step s (t, .copy i) = some { s.goto t (.enqCopy d pos (insert i done)) with
      data := Function.update s.data (Q.slot pos)
        (Function.update (s.data (Q.slot pos)) i (d i)) } := by
  simp only [machine, step, hpc]

theorem step_publish (hpc : s.pc t = .enqCopy d pos Finset.univ) :
    (machine Q).step s (t, .go) = some { s.goto t .idle with
      seq := Function.update s.seq (Q.slot pos) (succWord pos) } := by
  simp only [machine, step, hpc]
  exact if_pos trivial

theorem step_callDequeue (hready : (s.pc t).ready = true) :
    (machine Q).step s (t, .callDequeue d) = some (s.goto t (.deqLoadHead d)) := by
  simp only [machine, step]
  exact if_pos hready

theorem step_loadHead (hpc : s.pc t = .deqLoadHead d) :
    (machine Q).step s (t, .go) = some (s.goto t (.deqLoadSeq d s.head)) := by
  simp only [machine, step, hpc]

theorem step_deqSeqEq (hpc : s.pc t = .deqLoadSeq d pos)
    (hseq : s.seq (Q.slot pos) = succWord pos) :
    (machine Q).step s (t, .go) = some (s.goto t (.deqCas d pos)) := by
  simp only [machine, step, hpc]
  exact if_pos (by rw [hseq, dif_self])

theorem step_deqSeqLt (hpc : s.pc t = .deqLoadSeq d pos)
    (hdif : dif (s.seq (Q.slot pos)) (succWord pos) < 0) :
    (machine Q).step s (t, .go) = some (s.goto t (.dequeued false d)) := by
  simp only [machine, step, hpc]
  rw [if_neg hdif.ne]
  exact if_pos hdif

theorem step_claimDequeue (hpc : s.pc t = .deqCas d pos) (hhead : s.head = pos) :
    (machine Q).step s (t, .go) = some { s.goto t (.deqCopy d pos ∅) with
      head := succWord pos, deqs := s.deqs ++ [(pos, t)] } := by
  simp only [machine, step, hpc]
  exact if_pos hhead

theorem step_read (hpc : s.pc t = .deqCopy d pos done) :
    (machine Q).step s (t, .copy i) =
      some (s.goto t (.deqCopy (Function.update d i (s.data (Q.slot pos) i)) pos
        (insert i done))) := by
  simp only [machine, step, hpc]

theorem step_release (hpc : s.pc t = .deqCopy d pos Finset.univ) :
    (machine Q).step s (t, .go) = some { s.goto t (.dequeued true d) with
      seq := Function.update s.seq (Q.slot pos) ((pos + Q.size) % 2 ^ 64)
      rets := s.rets ++ [(pos, t, d)] } := by
  simp only [machine, step, hpc]
  exact if_pos trivial

end Enabled

section Alone

variable {s : Queue ℕ Unit ℕ}

/-- Thread 0 enqueues into a cell that is free for `tail`. -/
theorem exists_enqueued (hr : (machine Q).Reachable s) (hready : (s.pc 0).ready = true)
    (hfree : s.seq (Q.slot s.tail) = s.tail) :
    ∃ s', (machine Q).Reachable s' ∧ (s'.pc 0).ready = true ∧ (∀ u, u ≠ 0 → s'.pc u = s.pc u) ∧
      s'.head = s.head ∧ s'.tail = succWord s.tail ∧ s'.enqs.length = s.enqs.length + 1 ∧
        s'.seq = Function.update s.seq (Q.slot s.tail) (succWord s.tail) := by
  have h1 := hr.step (step_callEnqueue (d := fun _ => 0) hready)
  have h2 := h1.step (step_loadTail (Function.update_self ..))
  have h3 := h2.step (step_enqSeqEq (Function.update_self ..) hfree)
  have h4 := h3.step (step_claimEnqueue (Function.update_self ..) rfl)
  have h5 := h4.step (step_write (i := ()) (Function.update_self ..))
  have h6 := h5.step (step_publish (Function.update_self ..))
  refine ⟨_, h6, by simp [Pc.ready], ?_, rfl, rfl, by simp, rfl⟩
  intro u hu
  simp [hu]

/-- Thread 0 dequeues from a cell that is published for `head`. -/
theorem exists_dequeued (hr : (machine Q).Reachable s) (hready : (s.pc 0).ready = true)
    (hpublished : s.seq (Q.slot s.head) = succWord s.head) :
    ∃ s', (machine Q).Reachable s' ∧ (s'.pc 0).ready = true ∧ (∀ u, u ≠ 0 → s'.pc u = s.pc u) ∧
      s'.head = succWord s.head ∧ s'.tail = s.tail ∧ s'.enqs = s.enqs ∧
        s'.seq = Function.update s.seq (Q.slot s.head) ((s.head + Q.size) % 2 ^ 64) := by
  have h1 := hr.step (step_callDequeue (d := fun _ => 0) hready)
  have h2 := h1.step (step_loadHead (Function.update_self ..))
  have h3 := h2.step (step_deqSeqEq (Function.update_self ..) hpublished)
  have h4 := h3.step (step_claimDequeue (Function.update_self ..) rfl)
  have h5 := h4.step (step_read (i := ()) (Function.update_self ..))
  have h6 := h5.step (step_release (Function.update_self ..))
  refine ⟨_, h6, by simp [Pc.ready], ?_, rfl, rfl, rfl, rfl⟩
  intro u hu
  simp [hu]

/-- The ring is empty at ticket `n`, every cell is released, and thread 0 is outside. -/
structure Drained (Q : QueueSize) (s : Queue ℕ Unit ℕ) (n : ℕ) : Prop where
  ready : (s.pc 0).ready = true
  head : s.head = n
  tail : s.tail = n
  claimed : s.enqs.length = n
  cells : ∀ p, n ≤ p → p < n + Q.size → s.seq (Q.slot p) = p

/-- Thread 0 takes one event through the ring. -/
theorem Drained.next {n : ℕ} (h : Drained Q s n) (hr : (machine Q).Reachable s) (hn : n < 2 ^ 63) :
    ∃ s', (machine Q).Reachable s' ∧ Drained Q s' (n + 1) ∧ ∀ u, u ≠ 0 → s'.pc u = s.pc u := by
  have hsize := Q.two_le
  have hsize' := Q.size_le
  obtain ⟨hready, hhead, rfl, hlen, hcells⟩ := h
  obtain ⟨v, hv, hready, hpc, hvhead, hvtail, hvlen, hvseq⟩ :=
    exists_enqueued hr hready (hcells s.tail le_rfl (by omega))
  have hvhead : v.head = s.tail := hvhead.trans hhead
  have hpublished : v.seq (Q.slot v.head) = succWord v.head := by
    rw [hvseq, hvhead, Function.update_self]
  obtain ⟨w, hw, hready, hpc', hwhead, hwtail, hwenqs, hwseq⟩ :=
    exists_dequeued hv hready hpublished
  refine ⟨w, hw, ⟨hready, ?_, ?_, ?_, ?_⟩, fun u hu => (hpc' u hu).trans (hpc u hu)⟩
  · rw [hwhead, hvhead, succWord_eq hn]
  · rw [hwtail, hvtail, succWord_eq hn]
  · rw [hwenqs, hvlen, hlen]
  · intro p hp hp'
    rw [hwseq, hvseq, hvhead, Function.update_idem, Nat.mod_eq_of_lt (by omega)]
    rcases Nat.lt_or_ge p (s.tail + Q.size) with hold | hlap
    · have hne : Q.slot p ≠ Q.slot s.tail := by
        intro heq
        have hsame := Q.eq_of_slot_eq heq.symm (by omega) hold
        omega
      rw [Function.update_of_ne hne]
      exact hcells p (by omega) hold
    · obtain rfl : p = s.tail + Q.size := by omega
      rw [Q.slot_add_size, Function.update_self]

/-- Thread 0 takes any number of events through the ring, one after the other. -/
theorem Drained.run (h : Drained Q s 0) (hr : (machine Q).Reachable s) {n : ℕ} (hn : n ≤ 2 ^ 63) :
    ∃ s', (machine Q).Reachable s' ∧ Drained Q s' n ∧ ∀ u, u ≠ 0 → s'.pc u = s.pc u := by
  induction n with
  | zero => exact ⟨s, hr, h, fun _ _ => rfl⟩
  | succ n ih =>
    obtain ⟨v, hv, hdrained, hpc⟩ := ih (by omega)
    obtain ⟨w, hw, hnext, hpc'⟩ := hdrained.next hv (by omega)
    exact ⟨w, hw, hnext, fun u hu => (hpc' u hu).trans (hpc u hu)⟩

/-- **The exception occurs**, for every size: thread 1 loads `tail` as 0, and when it
reads the cell, `2 ^ 63 - QUEUE_SIZE + 1` events have gone through the ring. -/
theorem exists_stale_yield (Q : QueueSize) : ∃ s s' : Queue ℕ Unit ℕ,
    (machine Q).Reachable s ∧ s.enqs.length = 2 ^ 63 - Q.size + 1 ∧
      step Q s (1, .go) = some s' ∧ s.pc 1 = .enqLoadSeq (fun _ => 0) 0 ∧
      s'.pc 1 = .enqYield (fun _ => 0) ∧ s.head = s.tail ∧ s.tail = 2 ^ 63 - Q.size + 1 := by
  have hsize := Q.two_le
  have hsize' := Q.size_le
  have h0 : (machine Q).Reachable (initMasterQueue fun _ _ => 0 : Queue ℕ Unit ℕ) :=
    .init ⟨_, rfl⟩
  have h1 := h0.step (step_callEnqueue (t := 1) (d := fun _ => 0) rfl)
  have h2 := h1.step (step_loadTail (Function.update_self ..))
  have hcells : ∀ p, 0 ≤ p → p < 0 + Q.size → Q.slot p = p := by
    intro p _ hp
    rw [Q.slot_eq, Nat.mod_eq_of_lt (by omega)]
  obtain ⟨s, hr, hdrained, hpc⟩ := Drained.run ⟨rfl, rfl, rfl, rfl, hcells⟩ h2
    (show 2 ^ 63 - Q.size + 1 ≤ 2 ^ 63 by omega)
  have hpc : s.pc 1 = .enqLoadSeq (fun _ => 0) 0 := hpc 1 (by decide)
  have hseq : s.seq (Q.slot 0) = 2 ^ 63 := by
    rw [← Q.slot_add_half, Nat.zero_add]
    exact hdrained.cells _ (by omega) (by omega)
  have hdif : dif (s.seq (Q.slot 0)) 0 < 0 := by
    rw [hseq]
    decide
  exact ⟨s, _, hr, hdrained.claimed, step_enqSeqLt hpc hdif, hpc, by simp,
    hdrained.head.trans hdrained.tail.symm, hdrained.tail⟩

/-- The smallest ring. -/
def twoSlots : QueueSize where
  log := 1
  one_le := le_rfl
  lt_word := by decide

/-- The exception over two slots, after `2 ^ 63 - 1` enqueues. -/
theorem stale_position_yields : ∃ s s' : Queue ℕ Unit ℕ,
    (machine twoSlots).Reachable s ∧ s.enqs.length < 2 ^ 63 ∧
      step twoSlots s (1, .go) = some s' ∧
      s.pc 1 = .enqLoadSeq (fun _ => 0) 0 ∧ s'.pc 1 = .enqYield (fun _ => 0) ∧
      s.head = s.tail ∧ s.tail ≠ 0 := by
  obtain ⟨s, s', hr, hlen, hstep, hpc, hyield, hempty, htail⟩ := exists_stale_yield twoSlots
  refine ⟨s, s', hr, ?_, hstep, hpc, hyield, hempty, ?_⟩
  · rw [hlen]
    decide
  · rw [htail]
    decide

/-- Two slots: a dequeue before anything is enqueued, and a third enqueue before
anything is dequeued. -/
theorem give_up_exact_two_slots :
    (∃ s s' : Queue ℕ Unit ℕ, (machine twoSlots).Reachable s ∧
      step twoSlots s (0, .go) = some s' ∧ s'.pc 0 = .dequeued false (fun _ => 0) ∧ EmptyAt s 0) ∧
    ∃ s s' : Queue ℕ Unit ℕ, (machine twoSlots).Reachable s ∧
      step twoSlots s (0, .go) = some s' ∧ s'.pc 0 = .enqYield (fun _ => 0) ∧
        FullAt twoSlots s 2 := by
  have h0 : (machine twoSlots).Reachable (initMasterQueue fun _ _ => 0 : Queue ℕ Unit ℕ) :=
    .init ⟨_, rfl⟩
  constructor
  · have h1 := h0.step (step_callDequeue (t := 0) (d := fun _ => 0) rfl)
    obtain ⟨s, hr, hpc, hseq, hlen⟩ : ∃ s : Queue ℕ Unit ℕ, (machine twoSlots).Reachable s ∧
        s.pc 0 = .deqLoadSeq (fun _ => 0) 0 ∧ s.seq = (fun i => i) ∧ s.enqs.length = 0 :=
      ⟨_, h1.step (step_loadHead (Function.update_self ..)), by simp [initMasterQueue], rfl, rfl⟩
    have hdif : dif (s.seq (twoSlots.slot 0)) (succWord 0) < 0 := by
      rw [hseq]
      decide
    have hstep : step twoSlots s (0, .go) = some (s.goto 0 (.dequeued false fun _ => 0)) :=
      step_deqSeqLt hpc hdif
    obtain ⟨pos, hpos, hempty⟩ :=
      (give_up_exact hr (by rw [hlen]; decide) hstep).1 (fun _ => 0) (by simp)
    obtain rfl : 0 = pos := by simpa [hpc] using hpos
    exact ⟨s, _, hr, hstep, by simp, hempty⟩
  · obtain ⟨v, hv, hready, -, -, hvtail, hvlen, hvseq⟩ := exists_enqueued h0 rfl rfl
    have hvtail : v.tail = 1 := hvtail
    have hfree : v.seq (twoSlots.slot v.tail) = v.tail := by
      rw [hvseq, hvtail]
      decide
    obtain ⟨w, hw, hready, -, -, hwtail, hwlen, hwseq⟩ := exists_enqueued hv hready hfree
    have hwtail : w.tail = 2 := by
      rw [hwtail, hvtail]
      decide
    have h1 := hw.step (step_callEnqueue (d := fun _ => 0) hready)
    obtain ⟨s, hr, hpc, htail, hseq, hlen⟩ : ∃ s : Queue ℕ Unit ℕ,
        (machine twoSlots).Reachable s ∧ s.pc 0 = .enqLoadSeq (fun _ => 0) w.tail ∧
          s.tail = w.tail ∧ s.seq = w.seq ∧ s.enqs = w.enqs :=
      ⟨_, h1.step (step_loadTail (Function.update_self ..)), by simp, rfl, rfl, rfl⟩
    have hdif : dif (s.seq (twoSlots.slot w.tail)) w.tail < 0 := by
      rw [hseq, hwseq, hvseq, hvtail, hwtail]
      decide
    have hstep : step twoSlots s (0, .go) = some (s.goto 0 (.enqYield fun _ => 0)) := by
      rw [hwtail] at hpc hdif
      exact step_enqSeqLt hpc hdif
    have hlen : s.enqs.length < 2 ^ 63 := by
      rw [hlen, hwlen, hvlen]
      decide
    obtain ⟨pos, hpos, hfull⟩ := (give_up_exact hr hlen hstep).2 (fun _ => 0) (by simp)
    obtain rfl : 2 = pos := by simpa [hpc, hwtail] using hpos
    refine ⟨s, _, hr, hstep, by simp, hfull.resolve_right ?_⟩
    rintro ⟨-, hfar⟩
    rw [htail, hwtail] at hfar
    have hsize : twoSlots.size = 2 := rfl
    omega

end Alone

end Mpmc
end SovereignSeed
