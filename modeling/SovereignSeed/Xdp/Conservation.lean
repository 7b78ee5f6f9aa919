import SovereignSeed.Xdp.Ingress
import Mathlib.Data.List.Perm.Basic

/-!
# Conservation of frames

The thread reads the addresses of a batch a second time after it has released
the RX entries of the batch, when the kernel may already post into their slots.
What protects them is a count: the frames that are not in the fill ring, not
with the kernel and not yet given back are the RX entries from the oldest
pending one on, and there are at most as many frames as slots; so while the
kernel holds a frame to post, the next RX slot is not one of theirs.

`Rep` says so for counters that do not wrap.  The RX entries from `oldest` on,
whether peeked at or not, are one window of the ring.

## Main definitions

* `Counters`, `Rep` — the counters without wrapping, and the invariant.

## Main results

* `rep_of_reachable` — **the invariant holds in every reachable state.**
* `frame_conservation` — **every frame is in one place, and is given back as received.**
-/

namespace SovereignSeed
namespace Xdp

/-- The counters of the two rings, counted from the start without wrapping. -/
structure Counters where
  /-- The first entry of the current batch. -/
  base : ℕ
  /-- The first RX entry that has not been given back through the fill ring. -/
  oldest : ℕ
  rxCons : ℕ
  rxPeek : ℕ
  rxProd : ℕ
  fillCons : ℕ
  fillProd : ℕ
  fillRes : ℕ

variable {S : Setup} {s : Xsk} {c : Counters}

/-- The current batch: `n` of its `rcvd` addresses have been read, and `filled`
of them given back. -/
structure Batch (S : Setup) (s : Xsk) (c : Counters) (idxRx rcvd filled n : ℕ) : Prop where
  idx_eq : idxRx = c.base % 2 ^ 32
  base_add : c.base + rcvd = c.rxPeek
  oldest_eq : c.oldest = c.base + filled
  filled_le : filled ≤ rcvd
  n_le : n ≤ rcvd
  length_received : s.received.length = n
  /-- What was read of the entries not given back is still in their slots. -/
  received : ∀ k, filled ≤ k → k < n →
    s.received[k]? = some (s.rx.ring ((c.base + k) % S.size)).addr

/-- The batch while `ret` of its addresses are being given back, `i` of them
already written to the fill ring. -/
structure Filling (S : Setup) (s : Xsk) (c : Counters) (idxRx rcvd filled ret idxFill i : ℕ) :
    Prop where
  batch : Batch S s c idxRx rcvd filled rcvd
  ret_pos : 0 < ret
  ret_le : filled + ret ≤ rcvd
  rxCons_eq : c.rxCons = c.rxPeek
  fillRes_eq : c.fillRes = c.fillProd + ret
  idx_eq : idxFill = c.fillProd % 2 ^ 32
  written : ∀ k < i, s.received[filled + k]? = some (s.fill.ring ((c.fillProd + k) % S.size))

/-- What the thread knows at each point of its loop. -/
def PcInv (S : Setup) (s : Xsk) (c : Counters) : Pc → Prop
  | .peek => c.oldest = c.rxPeek ∧ c.rxCons = c.rxPeek ∧ c.fillRes = c.fillProd
  | .desc idxRx rcvd i =>
    Batch S s c idxRx rcvd 0 i ∧ i < rcvd ∧ c.rxCons = c.base ∧ c.fillRes = c.fillProd
  | .release idxRx rcvd =>
    Batch S s c idxRx rcvd 0 rcvd ∧ 0 < rcvd ∧ c.rxCons = c.base ∧ c.fillRes = c.fillProd
  | .reserve idxRx rcvd filled =>
    Batch S s c idxRx rcvd filled rcvd ∧ filled < rcvd ∧ c.rxCons = c.rxPeek ∧
      c.fillRes = c.fillProd
  | .reread idxRx rcvd filled ret idxFill i =>
    Filling S s c idxRx rcvd filled ret idxFill i ∧ i < ret
  | .refill idxRx rcvd filled ret idxFill i addr =>
    Filling S s c idxRx rcvd filled ret idxFill i ∧ i < ret ∧
      s.received[filled + i]? = some addr
  | .submit idxRx rcvd filled ret => ∃ idxFill, Filling S s c idxRx rcvd filled ret idxFill ret

/-- The addresses of the RX entries from `oldest` on. -/
def rxWindow (S : Setup) (s : Xsk) (c : Counters) : List Addr :=
  (window S.size s.rx.ring c.oldest c.rxProd).map XdpDesc.addr

/-- The state `s` at the counters `c`. -/
structure Rep (S : Setup) (s : Xsk) (c : Counters) : Prop where
  rxProd_eq : s.rx.producer = c.rxProd % 2 ^ 32
  rxCons_eq : s.rx.consumer = c.rxCons % 2 ^ 32
  rxPeek_eq : s.cachedCons = c.rxPeek % 2 ^ 32
  fillProd_eq : s.fill.producer = c.fillProd % 2 ^ 32
  fillCons_eq : s.fill.consumer = c.fillCons % 2 ^ 32
  fillRes_eq : s.cachedProd = c.fillRes % 2 ^ 32
  rxCons_le : c.rxCons ≤ c.rxPeek
  rxPeek_le : c.rxPeek ≤ c.rxProd
  rxProd_le : c.rxProd ≤ c.rxCons + S.size
  oldest_le : c.oldest ≤ c.rxPeek
  fillCons_le : c.fillCons ≤ c.fillProd
  fillProd_le : c.fillProd ≤ c.fillRes
  fillRes_le : c.fillRes ≤ c.fillCons + S.size
  /-- The frames are in the fill ring, with the kernel, or in the RX ring. -/
  perm : (window S.size s.fill.ring c.fillCons c.fillProd ++ s.kernel ++ rxWindow S s c).Perm
    S.frames
  pc : PcInv S s c s.pc

/-! ### Words and slots -/

theorem Setup.size_lt (S : Setup) : S.size < 2 ^ 32 :=
  Nat.pow_lt_pow_right (by decide) S.log_lt

theorem Setup.slot_mod (S : Setup) (p : ℕ) : S.slot (p % 2 ^ 32) = p % S.size :=
  maskWord_mod S.log_lt.le p

theorem Setup.slot_add (S : Setup) (p i : ℕ) :
    S.slot (addWord 32 (p % 2 ^ 32) i) = (p + i) % S.size := by
  rw [addWord_mod, S.slot_mod]

/-- The entries of a ring from a counter on are a window of it. -/
theorem entries_eq_window {δ : Type*} (S : Setup) (ring : ℕ → δ) (p n : ℕ) :
    entries S ring (p % 2 ^ 32) n = window S.size ring p (p + n) := by
  rw [entries, window, Nat.add_sub_cancel_left, List.range'_eq_map_range, List.map_map]
  apply List.map_congr_left
  intro i _
  rw [S.slot_add, Function.comp_apply]

namespace Rep

/-- **The count**: the frames in their places, one by one. -/
theorem length_eq (h : Rep S s c) :
    c.fillProd - c.fillCons + s.kernel.length + (c.rxProd - c.oldest) = S.frames.length := by
  have hlen := h.perm.length_eq
  simpa [rxWindow, Nat.add_assoc] using hlen

/-- While the kernel holds a frame, there is one fewer. -/
theorem rxProd_lt_oldest (h : Rep S s c) (hk : 0 < s.kernel.length) :
    c.rxProd < c.oldest + S.size := by
  have hlen := h.length_eq
  -- at most as many frames as slots, and one of them is with the kernel
  have hle : S.frames.length ≤ S.size := S.length_le
  omega

end Rep

/-! ### What the kernel does to the thread -/

/-- The batch does not change in a step that leaves alone what has been read and
the RX slots of the batch. -/
theorem Batch.congr {s' : Xsk} {c' : Counters} {idxRx rcvd filled n : ℕ}
    (h : Batch S s c idxRx rcvd filled n) (hrec : s'.received = s.received)
    (hrx : ∀ p, c.oldest ≤ p → p < c.rxPeek → s'.rx.ring (p % S.size) = s.rx.ring (p % S.size))
    (hbase : c'.base = c.base) (hold : c'.oldest = c.oldest) (hpeek : c'.rxPeek = c.rxPeek) :
    Batch S s' c' idxRx rcvd filled n where
  idx_eq := by rw [hbase]; exact h.idx_eq
  base_add := by rw [hbase, hpeek]; exact h.base_add
  oldest_eq := by rw [hbase, hold]; exact h.oldest_eq
  filled_le := h.filled_le
  n_le := h.n_le
  length_received := by rw [hrec]; exact h.length_received
  received := by
    intro k hfilled hk
    have hold := h.oldest_eq
    have hbase_add := h.base_add
    have hn := h.n_le
    rw [hrec, hbase, hrx (c.base + k) (by omega) (by omega)]
    exact h.received k hfilled hk

/-- A step of the kernel does not change what the thread knows. -/
theorem PcInv.kernel {s' : Xsk} {c' : Counters} {p : Pc} (h : PcInv S s c p)
    (hrec : s'.received = s.received)
    (hrx : ∀ p, c.oldest ≤ p → p < c.rxPeek → s'.rx.ring (p % S.size) = s.rx.ring (p % S.size))
    (hfill : s'.fill.ring = s.fill.ring)
    (hc : c' = { c with rxProd := c'.rxProd, fillCons := c'.fillCons }) : PcInv S s' c' p := by
  have hbase : c'.base = c.base := by rw [hc]
  have hold : c'.oldest = c.oldest := by rw [hc]
  have hpeek : c'.rxPeek = c.rxPeek := by rw [hc]
  have hcons : c'.rxCons = c.rxCons := by rw [hc]
  have hprod : c'.fillProd = c.fillProd := by rw [hc]
  have hres : c'.fillRes = c.fillRes := by rw [hc]
  have hbatch : ∀ {idxRx rcvd filled n : ℕ}, Batch S s c idxRx rcvd filled n →
      Batch S s' c' idxRx rcvd filled n := fun hb => hb.congr hrec hrx hbase hold hpeek
  have hfilling : ∀ {idxRx rcvd filled ret idxFill i : ℕ},
      Filling S s c idxRx rcvd filled ret idxFill i →
        Filling S s' c' idxRx rcvd filled ret idxFill i := fun hf =>
    { batch := hbatch hf.batch
      ret_pos := hf.ret_pos
      ret_le := hf.ret_le
      rxCons_eq := by rw [hcons, hpeek]; exact hf.rxCons_eq
      fillRes_eq := by rw [hres, hprod]; exact hf.fillRes_eq
      idx_eq := by rw [hprod]; exact hf.idx_eq
      written := by rw [hrec, hfill, hprod]; exact hf.written }
  cases p with
  | peek => rw [PcInv, hold, hpeek, hcons, hres, hprod]; exact h
  | desc idxRx rcvd i => rw [PcInv, hcons, hbase, hres, hprod]; exact ⟨hbatch h.1, h.2⟩
  | release idxRx rcvd => rw [PcInv, hcons, hbase, hres, hprod]; exact ⟨hbatch h.1, h.2⟩
  | reserve idxRx rcvd filled =>
    rw [PcInv, hcons, hpeek, hres, hprod]
    exact ⟨hbatch h.1, h.2⟩
  | reread idxRx rcvd filled ret idxFill i => exact ⟨hfilling h.1, h.2⟩
  | refill idxRx rcvd filled ret idxFill i addr =>
    rw [PcInv, hrec]
    exact ⟨hfilling h.1, h.2⟩
  | submit idxRx rcvd filled ret =>
    obtain ⟨idxFill, hf⟩ := h
    exact ⟨idxFill, hfilling hf⟩

/-! ### The steps of the kernel -/

theorem rep_take (h : Rep S s c) {s' : Xsk} (hst : step S s .take = some s') :
    ∃ c', Rep S s' c' := by
  simp only [step] at hst
  split at hst
  · cases hst
  · next hne =>
    cases hst
    have hlt : c.fillCons < c.fillProd := by
      refine lt_of_le_of_ne h.fillCons_le fun heq => hne ?_
      rw [h.fillProd_eq, h.fillCons_eq, heq]
    have hslot : S.slot s.fill.consumer = c.fillCons % S.size := by
      rw [h.fillCons_eq, S.slot_mod]
    have hres := h.fillProd_le
    have hlap := h.fillRes_le
    have hperm := h.perm
    -- the first address of the fill ring moves to the kernel, the rest stay
    rw [window_cons S.size _ hlt] at hperm
    refine ⟨{ c with fillCons := c.fillCons + 1 }, ?_⟩
    exact
      { rxProd_eq := h.rxProd_eq
        rxCons_eq := h.rxCons_eq
        rxPeek_eq := h.rxPeek_eq
        fillProd_eq := h.fillProd_eq
        fillCons_eq := by
          show addWord 32 s.fill.consumer 1 = _
          rw [h.fillCons_eq, addWord_mod]
        fillRes_eq := h.fillRes_eq
        rxCons_le := h.rxCons_le
        rxPeek_le := h.rxPeek_le
        rxProd_le := h.rxProd_le
        oldest_le := h.oldest_le
        fillCons_le := hlt
        fillProd_le := h.fillProd_le
        fillRes_le := hlap.trans (by show _ ≤ c.fillCons + 1 + S.size; omega)
        perm := by
          refine List.Perm.trans ?_ hperm
          show List.Perm (_ ++ (s.kernel ++ [s.fill.ring (S.slot s.fill.consumer)]) ++
            rxWindow S s c) _
          rw [hslot, ← List.append_assoc, List.cons_append, List.cons_append]
          exact List.Perm.append_right _ (List.perm_append_singleton _ _)
        pc := PcInv.kernel h.pc rfl (fun _ _ _ => rfl) rfl rfl }

theorem rep_post (h : Rep S s c) {addr : Addr} {len : UInt32} {s' : Xsk}
    (hst : step S s (.post addr len) = some s') : ∃ c', Rep S s' c' := by
  simp only [step] at hst
  split at hst
  · next hguard =>
    cases hst
    obtain ⟨hmem, hroom⟩ := hguard
    have hsize := S.size_lt
    have hcons := h.rxCons_le
    have hpeek := h.rxPeek_le
    have hold := h.oldest_le
    have hlap := h.rxProd_le
    -- the kernel holds a frame, so the slot it writes is behind `oldest`
    have hlt : c.rxProd < c.oldest + S.size := h.rxProd_lt_oldest (List.length_pos_of_mem hmem)
    rw [h.rxProd_eq, h.rxCons_eq, subWord_mod (by omega) (by omega)] at hroom
    have hslot : S.slot s.rx.producer = c.rxProd % S.size := by rw [h.rxProd_eq, S.slot_mod]
    refine ⟨{ c with rxProd := c.rxProd + 1 }, ?_⟩
    exact
      { rxProd_eq := by
          show addWord 32 s.rx.producer 1 = _
          rw [h.rxProd_eq, addWord_mod]
        rxCons_eq := h.rxCons_eq
        rxPeek_eq := h.rxPeek_eq
        fillProd_eq := h.fillProd_eq
        fillCons_eq := h.fillCons_eq
        fillRes_eq := h.fillRes_eq
        rxCons_le := hcons
        rxPeek_le := by show c.rxPeek ≤ c.rxProd + 1; omega
        rxProd_le := by show c.rxProd + 1 ≤ c.rxCons + S.size; omega
        oldest_le := hold
        fillCons_le := h.fillCons_le
        fillProd_le := h.fillProd_le
        fillRes_le := h.fillRes_le
        perm := by
          refine List.Perm.trans ?_ h.perm
          show List.Perm (_ ++ s.kernel.erase addr ++ (window S.size (Function.update s.rx.ring
            (S.slot s.rx.producer) ⟨addr, len⟩) c.oldest (c.rxProd + 1)).map XdpDesc.addr) _
          rw [hslot, window_snoc _ (by omega) hlt, List.map_append, List.append_assoc,
            List.append_assoc]
          refine List.Perm.append_left _ ?_
          rw [← List.append_assoc]
          refine (List.perm_append_singleton _ _).trans ?_
          rw [← List.cons_append]
          exact List.Perm.append_right _ (List.perm_cons_erase hmem).symm
        pc := by
          refine PcInv.kernel h.pc rfl (fun p hlo hhi => ?_) rfl rfl
          -- the batch has been released, but the slot written is still none of its own
          show Function.update s.rx.ring (S.slot s.rx.producer) _ (p % S.size) = _
          rw [hslot, Function.update_of_ne]
          intro heq
          have := eq_of_mod_eq heq (by omega) (by omega)
          omega }
  · cases hst

/-! ### The steps of the thread -/

theorem rep_peek (h : Rep S s c) {n : ℕ} {s' : Xsk} (hst : step S s (.peek n) = some s') :
    ∃ c', Rep S s' c' := by
  simp only [step] at hst
  split at hst
  · next hpc =>
    have hinv : PcInv S s c .peek := hpc ▸ h.pc
    obtain ⟨hold, hcons, hres⟩ := hinv
    split at hst
    · next hn =>
      split at hst
      · cases hst
        exact ⟨c, h⟩
      · next hpos =>
        cases hst
        have hsize := S.size_lt
        have hpeek := h.rxPeek_le
        have hlap := h.rxProd_le
        -- in words the difference is taken mod 2 ^ 32; between counters it is less
        have havail : n ≤ c.rxProd - c.rxPeek := by
          have := hn.2
          rwa [h.rxProd_eq, h.rxPeek_eq, subWord_mod (by omega) (by omega)] at this
        refine ⟨{ c with base := c.rxPeek, rxPeek := c.rxPeek + n }, ?_⟩
        exact
          { rxProd_eq := h.rxProd_eq
            rxCons_eq := h.rxCons_eq
            rxPeek_eq := by
              show addWord 32 s.cachedCons n = _
              rw [h.rxPeek_eq, addWord_mod]
            fillProd_eq := h.fillProd_eq
            fillCons_eq := h.fillCons_eq
            fillRes_eq := h.fillRes_eq
            rxCons_le := by show c.rxCons ≤ c.rxPeek + n; omega
            rxPeek_le := by show c.rxPeek + n ≤ c.rxProd; omega
            rxProd_le := hlap
            oldest_le := by show c.oldest ≤ c.rxPeek + n; omega
            fillCons_le := h.fillCons_le
            fillProd_le := h.fillProd_le
            fillRes_le := h.fillRes_le
            perm := h.perm
            pc := by
              refine ⟨?_, by omega, hcons, hres⟩
              exact
                { idx_eq := h.rxPeek_eq
                  base_add := rfl
                  oldest_eq := hold
                  filled_le := Nat.zero_le n
                  n_le := Nat.zero_le n
                  length_received := rfl
                  received := fun k _ hk => absurd hk (Nat.not_lt_zero k) } }
    · cases hst
  · cases hst

/-- Reading the next descriptor of the batch. -/
theorem Batch.read {idxRx rcvd i : ℕ} (h : Batch S s c idxRx rcvd 0 i) (hi : i < rcvd) :
    Batch S (readDesc S s idxRx rcvd i) c idxRx rcvd 0 (i + 1) where
  idx_eq := h.idx_eq
  base_add := h.base_add
  oldest_eq := h.oldest_eq
  filled_le := h.filled_le
  n_le := hi
  length_received := by
    show (s.received ++ [_]).length = i + 1
    rw [List.length_append, h.length_received, List.length_singleton]
  received := by
    intro k _ hk
    show (s.received ++ [(s.rx.ring (S.slot (addWord 32 idxRx i))).addr])[k]? = _
    rcases Nat.lt_or_ge k i with hlt | hge
    · rw [List.getElem?_append_left (by rw [h.length_received]; exact hlt)]
      exact h.received k (Nat.zero_le k) hlt
    · obtain rfl : k = i := by omega
      rw [List.getElem?_append_right (by rw [h.length_received]), h.length_received, Nat.sub_self,
        h.idx_eq, S.slot_add]
      rfl

theorem rep_desc (h : Rep S s c) {idxRx rcvd i : ℕ} (hpc : s.pc = .desc idxRx rcvd i) :
    Rep S (readDesc S s idxRx rcvd i) c := by
  have hinv : PcInv S s c (.desc idxRx rcvd i) := hpc ▸ h.pc
  obtain ⟨hbatch, hi, hcons, hres⟩ := hinv
  have hread := hbatch.read hi
  exact
    { h with
      pc := by
        -- the last descriptor ends the loop, with the whole batch read
        show PcInv S _ c (if i + 1 < rcvd then _ else _)
        split
        · next hlt => exact ⟨hread, hlt, hcons, hres⟩
        · next hge =>
          obtain rfl : i + 1 = rcvd := by omega
          exact ⟨hread, Nat.succ_pos i, hcons, hres⟩ }

theorem rep_release (h : Rep S s c) {idxRx rcvd : ℕ} (hpc : s.pc = .release idxRx rcvd) :
    Rep S { s with
      rx := { s.rx with consumer := addWord 32 s.rx.consumer rcvd }
      pc := .reserve idxRx rcvd 0 } { c with rxCons := c.rxCons + rcvd } := by
  have hinv : PcInv S s c (.release idxRx rcvd) := hpc ▸ h.pc
  obtain ⟨hbatch, hpos, hcons, hres⟩ := hinv
  have hpeek := hbatch.base_add
  have hlap := h.rxProd_le
  exact
    { rxProd_eq := h.rxProd_eq
      rxCons_eq := by
        show addWord 32 s.rx.consumer rcvd = _
        rw [h.rxCons_eq, addWord_mod]
      rxPeek_eq := h.rxPeek_eq
      fillProd_eq := h.fillProd_eq
      fillCons_eq := h.fillCons_eq
      fillRes_eq := h.fillRes_eq
      rxCons_le := by show c.rxCons + rcvd ≤ c.rxPeek; omega
      rxPeek_le := h.rxPeek_le
      -- from here on the kernel may post into slots that are read once more
      rxProd_le := by show c.rxProd ≤ c.rxCons + rcvd + S.size; omega
      oldest_le := h.oldest_le
      fillCons_le := h.fillCons_le
      fillProd_le := h.fillProd_le
      fillRes_le := h.fillRes_le
      perm := h.perm
      pc := by
        refine ⟨hbatch.congr rfl (fun _ _ _ => rfl) rfl rfl rfl, hpos, ?_, hres⟩
        show c.rxCons + rcvd = c.rxPeek
        omega }

theorem rep_reserve (h : Rep S s c) {ret : ℕ} {s' : Xsk}
    (hst : step S s (.reserve ret) = some s') : ∃ c', Rep S s' c' := by
  simp only [step] at hst
  split at hst
  · next idxRx rcvd filled hpc =>
    have hinv : PcInv S s c (.reserve idxRx rcvd filled) := hpc ▸ h.pc
    obtain ⟨hbatch, hlt, hcons, hres⟩ := hinv
    split at hst
    · next hret =>
      split at hst
      · cases hst
        exact ⟨c, h⟩
      · next hpos =>
        cases hst
        obtain ⟨hle, hroom⟩ := hret
        have hsize := S.size_lt
        have hfill := h.fillCons_le
        have hprod := h.fillProd_le
        have hlap := h.fillRes_le
        rw [h.fillRes_eq, h.fillCons_eq, subWord_mod (by omega) (by omega)] at hroom
        refine ⟨{ c with fillRes := c.fillRes + ret }, ?_⟩
        exact
          { rxProd_eq := h.rxProd_eq
            rxCons_eq := h.rxCons_eq
            rxPeek_eq := h.rxPeek_eq
            fillProd_eq := h.fillProd_eq
            fillCons_eq := h.fillCons_eq
            fillRes_eq := by
              show addWord 32 s.cachedProd ret = _
              rw [h.fillRes_eq, addWord_mod]
            rxCons_le := h.rxCons_le
            rxPeek_le := h.rxPeek_le
            rxProd_le := h.rxProd_le
            oldest_le := h.oldest_le
            fillCons_le := hfill
            fillProd_le := by show c.fillProd ≤ c.fillRes + ret; omega
            fillRes_le := by show c.fillRes + ret ≤ c.fillCons + S.size; omega
            perm := h.perm
            pc := by
              refine ⟨?_, Nat.pos_of_ne_zero hpos⟩
              exact
                { batch := hbatch.congr rfl (fun _ _ _ => rfl) rfl rfl rfl
                  ret_pos := Nat.pos_of_ne_zero hpos
                  ret_le := by omega
                  rxCons_eq := hcons
                  fillRes_eq := by show c.fillRes + ret = c.fillProd + ret; rw [hres]
                  idx_eq := by rw [h.fillRes_eq, hres]
                  written := fun k hk => absurd hk (Nat.not_lt_zero k) } }
    · cases hst
  · cases hst

/-- The second read of an RX slot finds what the first one found. -/
theorem Filling.reread {idxRx rcvd filled ret idxFill i : ℕ}
    (h : Filling S s c idxRx rcvd filled ret idxFill i) (hi : i < ret) :
    s.received[filled + i]? = some (s.rx.ring (S.slot (addWord 32 idxRx (filled + i)))).addr := by
  have hret := h.ret_le
  -- the entry has not been given back, so its slot is unchanged
  rw [h.batch.idx_eq, S.slot_add]
  exact h.batch.received (filled + i) (Nat.le_add_right filled i) (by omega)

theorem rep_reread (h : Rep S s c) {idxRx rcvd filled ret idxFill i : ℕ}
    (hpc : s.pc = .reread idxRx rcvd filled ret idxFill i) :
    Rep S { s with
      pc := .refill idxRx rcvd filled ret idxFill i
        (s.rx.ring (S.slot (addWord 32 idxRx (filled + i)))).addr } c := by
  have hinv : PcInv S s c (.reread idxRx rcvd filled ret idxFill i) := hpc ▸ h.pc
  obtain ⟨hfilling, hi⟩ := hinv
  have hbatch : Batch S { s with
      pc := .refill idxRx rcvd filled ret idxFill i
        (s.rx.ring (S.slot (addWord 32 idxRx (filled + i)))).addr } c idxRx rcvd filled rcvd :=
    hfilling.batch.congr rfl (fun _ _ _ => rfl) rfl rfl rfl
  exact
    { h with
      pc := ⟨{ hfilling with batch := hbatch }, hi, hfilling.reread hi⟩ }

/-- Writing an address into the next reserved fill slot. -/
theorem Filling.refill {idxRx rcvd filled ret idxFill i : ℕ} {addr : Addr} {p : Pc}
    (h : Filling S s c idxRx rcvd filled ret idxFill i) (hi : i < ret) (hret : ret ≤ S.size)
    (hrec : s.received[filled + i]? = some addr) :
    Filling S { s with
      fill := { s.fill with
        ring := Function.update s.fill.ring (S.slot (addWord 32 idxFill i)) addr }
      pc := p } c idxRx rcvd filled ret idxFill (i + 1) where
  batch := h.batch.congr rfl (fun _ _ _ => rfl) rfl rfl rfl
  ret_pos := h.ret_pos
  ret_le := h.ret_le
  rxCons_eq := h.rxCons_eq
  fillRes_eq := h.fillRes_eq
  idx_eq := h.idx_eq
  written := by
    intro k hk
    show s.received[filled + k]? = some (Function.update s.fill.ring _ addr _)
    rw [h.idx_eq, S.slot_add]
    rcases Nat.lt_or_ge k i with hlt | hge
    · rw [Function.update_of_ne]
      · exact h.written k hlt
      · intro heq
        have := eq_of_mod_eq heq (by omega) (by omega)
        omega
    · obtain rfl : k = i := by omega
      rw [Function.update_self]
      exact hrec

theorem rep_refill (h : Rep S s c) {idxRx rcvd filled ret idxFill i : ℕ} {addr : Addr}
    (hpc : s.pc = .refill idxRx rcvd filled ret idxFill i addr) :
    Rep S { s with
      fill := { s.fill with
        ring := Function.update s.fill.ring (S.slot (addWord 32 idxFill i)) addr }
      pc := if i + 1 < ret then .reread idxRx rcvd filled ret idxFill (i + 1)
        else .submit idxRx rcvd filled ret } c := by
  have hinv : PcInv S s c (.refill idxRx rcvd filled ret idxFill i addr) := hpc ▸ h.pc
  obtain ⟨hfilling, hi, hrec⟩ := hinv
  have hres := hfilling.fillRes_eq
  have hfill := h.fillCons_le
  have hlap := h.fillRes_le
  have hsize : ret ≤ S.size := by omega
  exact
    { h with
      perm := by
        refine List.Perm.trans (List.Perm.of_eq ?_) h.perm
        show window S.size (Function.update s.fill.ring (S.slot (addWord 32 idxFill i)) addr)
          c.fillCons c.fillProd ++ s.kernel ++ rxWindow S s c = _
        -- the slot is reserved but not submitted, so no entry of the fill ring changes
        rw [hfilling.idx_eq, S.slot_add, window_write addr (by omega) (by omega)]
      pc := by
        show PcInv S _ c (if i + 1 < ret then _ else _)
        split
        · next hlt => exact ⟨hfilling.refill hi hsize hrec, hlt⟩
        · next hge =>
          obtain rfl : i + 1 = ret := by omega
          exact ⟨idxFill, hfilling.refill hi hsize hrec⟩ }

/-- The reserved fill slots hold the addresses of the oldest RX entries. -/
theorem Filling.window_eq {idxRx rcvd filled ret idxFill : ℕ}
    (h : Filling S s c idxRx rcvd filled ret idxFill ret) :
    window S.size s.fill.ring c.fillProd (c.fillProd + ret) =
      (window S.size s.rx.ring c.oldest (c.oldest + ret)).map XdpDesc.addr := by
  have hret := h.ret_le
  have hold := h.batch.oldest_eq
  rw [map_window]
  apply List.ext_getElem?
  intro k
  rcases Nat.lt_or_ge k ret with hlt | hge
  · rw [getElem?_window _ _ (by omega), getElem?_window _ _ (by omega), ← h.written k hlt,
      h.batch.received (filled + k) (by omega) (by omega), hold, Nat.add_assoc]
  · rw [List.getElem?_eq_none (by simpa using hge), List.getElem?_eq_none (by simpa using hge)]

theorem rep_submit (h : Rep S s c) {idxRx rcvd filled ret : ℕ}
    (hpc : s.pc = .submit idxRx rcvd filled ret) :
    Rep S { s with
      fill := { s.fill with producer := addWord 32 s.fill.producer ret }
      pc := if filled + ret < rcvd then .reserve idxRx rcvd (filled + ret) else .peek }
      { c with fillProd := c.fillProd + ret, oldest := c.oldest + ret } := by
  have hinv : PcInv S s c (.submit idxRx rcvd filled ret) := hpc ▸ h.pc
  obtain ⟨idxFill, hfilling⟩ := hinv
  have hres := hfilling.fillRes_eq
  have hret := hfilling.ret_le
  have hold := hfilling.batch.oldest_eq
  have hbase := hfilling.batch.base_add
  have hfill := h.fillCons_le
  have hpeek := h.rxPeek_le
  exact
    { rxProd_eq := h.rxProd_eq
      rxCons_eq := h.rxCons_eq
      rxPeek_eq := h.rxPeek_eq
      fillProd_eq := by
        show addWord 32 s.fill.producer ret = _
        rw [h.fillProd_eq, addWord_mod]
      fillCons_eq := h.fillCons_eq
      fillRes_eq := h.fillRes_eq
      rxCons_le := h.rxCons_le
      rxPeek_le := hpeek
      rxProd_le := h.rxProd_le
      oldest_le := by show c.oldest + ret ≤ c.rxPeek; omega
      fillCons_le := by show c.fillCons ≤ c.fillProd + ret; omega
      fillProd_le := by show c.fillProd + ret ≤ c.fillRes; omega
      fillRes_le := h.fillRes_le
      perm := by
        refine List.Perm.trans ?_ h.perm
        show List.Perm (window S.size s.fill.ring c.fillCons (c.fillProd + ret) ++ s.kernel ++
          (window S.size s.rx.ring (c.oldest + ret) c.rxProd).map XdpDesc.addr) _
        -- the addresses that leave the RX window are those that enter the fill window
        have hrx := window_append S.size s.rx.ring (Nat.le_add_right c.oldest ret)
          (show c.oldest + ret ≤ c.rxProd by omega)
        rw [← window_append S.size s.fill.ring hfill (Nat.le_add_right c.fillProd ret),
          hfilling.window_eq, rxWindow, ← hrx, List.map_append, List.append_assoc,
          List.append_assoc, List.append_assoc]
        refine List.Perm.append_left _ ?_
        rw [← List.append_assoc, ← List.append_assoc]
        exact List.Perm.append_right _ List.perm_append_comm
      pc := by
        show PcInv S _ _ (if filled + ret < rcvd then _ else _)
        split
        · next hlt =>
          refine ⟨?_, hlt, hfilling.rxCons_eq, hres⟩
          exact
            { idx_eq := hfilling.batch.idx_eq
              base_add := hbase
              oldest_eq := by show c.oldest + ret = c.base + (filled + ret); omega
              filled_le := hret
              n_le := le_rfl
              length_received := hfilling.batch.length_received
              received := fun k hk hk' => hfilling.batch.received k (by omega) hk' }
        · next hge =>
          refine ⟨?_, hfilling.rxCons_eq, hres⟩
          show c.oldest + ret = c.rxPeek
          omega }

/-! ### Whole runs -/

/-- **Every step preserves the invariant.** -/
theorem rep_step (h : Rep S s c) {a : Act} {s' : Xsk} (hst : step S s a = some s') :
    ∃ c', Rep S s' c' := by
  cases a with
  | take => exact rep_take h hst
  | post addr len => exact rep_post h hst
  | peek n => exact rep_peek h hst
  | reserve ret => exact rep_reserve h hst
  | go =>
    simp only [step] at hst
    split at hst
    · cases hst
    · next idxRx rcvd i hpc => cases hst; exact ⟨c, rep_desc h hpc⟩
    · next idxRx rcvd hpc => cases hst; exact ⟨_, rep_release h hpc⟩
    · cases hst
    · next idxRx rcvd filled ret idxFill i hpc => cases hst; exact ⟨c, rep_reread h hpc⟩
    · next idxRx rcvd filled ret idxFill i addr hpc => cases hst; exact ⟨c, rep_refill h hpc⟩
    · next idxRx rcvd filled ret hpc => cases hst; exact ⟨_, rep_submit h hpc⟩

theorem rep_init (S : Setup) (rxMem : ℕ → XdpDesc) (fillMem : ℕ → Addr) :
    Rep S (createRing S rxMem fillMem) ⟨0, 0, 0, 0, 0, 0, S.frames.length, S.frames.length⟩ where
  rxProd_eq := rfl
  rxCons_eq := rfl
  rxPeek_eq := rfl
  fillProd_eq := by show addWord 32 0 _ = _; rw [addWord, Nat.zero_add]
  fillCons_eq := rfl
  fillRes_eq := by show addWord 32 0 _ = _; rw [addWord, Nat.zero_add]
  rxCons_le := le_rfl
  rxPeek_le := le_rfl
  rxProd_le := Nat.zero_le _
  oldest_le := le_rfl
  fillCons_le := Nat.zero_le _
  fillProd_le := le_rfl
  fillRes_le := by show S.frames.length ≤ 0 + S.size; rw [Nat.zero_add]; exact S.length_le
  perm := by
    -- the main function puts every frame into the fill ring
    have hframes : window S.size (createRing S rxMem fillMem).fill.ring 0 S.frames.length =
        S.frames := by
      apply List.ext_getElem?
      intro k
      rcases Nat.lt_or_ge k S.frames.length with hlt | hge
      · have hmod : (0 + k) % S.size = k := by
          rw [Nat.zero_add]
          exact Nat.mod_eq_of_lt (hlt.trans_le S.length_le)
        rw [getElem?_window _ _ (by omega), hmod]
        show some ((S.frames[k]?).getD (fillMem k)) = _
        rw [List.getElem?_eq_getElem hlt, Option.getD_some]
      · rw [List.getElem?_eq_none (by simpa using hge), List.getElem?_eq_none hge]
    show List.Perm (window S.size _ 0 S.frames.length ++ [] ++ rxWindow S _ _) _
    rw [hframes, rxWindow, window_self, List.map_nil, List.append_nil, List.append_nil]
  pc := ⟨rfl, rfl, rfl⟩

/-- **The invariant holds in every reachable state.** -/
theorem rep_of_reachable (h : (machine S).Reachable s) : ∃ c, Rep S s c := by
  refine h.invariant (P := fun s => ∃ c, Rep S s c) ?_ ?_
  · rintro s ⟨rxMem, fillMem, rfl⟩
    exact ⟨_, rep_init S rxMem fillMem⟩
  · rintro s a s' ⟨c, hc⟩ hst
    exact rep_step hc hst

/-! ### The places in words -/

namespace Rep

theorem fillEntries_eq (h : Rep S s c) :
    s.fillEntries S = window S.size s.fill.ring c.fillCons c.fillProd := by
  have hsize := S.size_lt
  have hfill := h.fillCons_le
  have hprod := h.fillProd_le
  have hlap := h.fillRes_le
  rw [Xsk.fillEntries, h.fillProd_eq, h.fillCons_eq, subWord_mod hfill (by omega),
    entries_eq_window, Nat.add_sub_cancel' hfill]

theorem unconsumed_eq (h : Rep S s c) :
    s.unconsumed S = (window S.size s.rx.ring c.rxPeek c.rxProd).map XdpDesc.addr := by
  have hsize := S.size_lt
  have hpeek := h.rxPeek_le
  have hcons := h.rxCons_le
  have hlap := h.rxProd_le
  rw [Xsk.unconsumed, h.rxProd_eq, h.rxPeek_eq, subWord_mod hpeek (by omega), entries_eq_window,
    Nat.add_sub_cancel' hpeek]

/-- The part of a batch that has not been given back. -/
theorem batch_entries {idxRx rcvd filled n : ℕ} (h : Batch S s c idxRx rcvd filled n) :
    entries S s.rx.ring (addWord 32 idxRx filled) (rcvd - filled) =
      window S.size s.rx.ring c.oldest c.rxPeek := by
  have hbase := h.base_add
  have hle := h.filled_le
  have hend : c.base + filled + (rcvd - filled) = c.rxPeek := by omega
  rw [h.idx_eq, addWord_mod, entries_eq_window, hend, h.oldest_eq]

theorem pending_eq (h : Rep S s c) :
    s.pending S = (window S.size s.rx.ring c.oldest c.rxPeek).map XdpDesc.addr := by
  have hinv : PcInv S s c s.pc := h.pc
  rw [Xsk.pending]
  generalize s.pc = p at hinv
  cases p with
  | peek =>
    rw [hinv.1, window_self]
    rfl
  | desc idxRx rcvd i =>
    rw [← batch_entries hinv.1, Pc.batch, Nat.sub_zero, hinv.1.idx_eq, addWord_mod, Nat.add_zero]
  | release idxRx rcvd =>
    rw [← batch_entries hinv.1, Pc.batch, Nat.sub_zero, hinv.1.idx_eq, addWord_mod, Nat.add_zero]
  | reserve idxRx rcvd filled => rw [← batch_entries hinv.1, Pc.batch]
  | reread idxRx rcvd filled ret idxFill i => rw [← batch_entries hinv.1.batch, Pc.batch]
  | refill idxRx rcvd filled ret idxFill i addr => rw [← batch_entries hinv.1.batch, Pc.batch]
  | submit idxRx rcvd filled ret =>
    obtain ⟨idxFill, hfilling⟩ := hinv
    rw [← batch_entries hfilling.batch, Pc.batch]

theorem places_perm (h : Rep S s c) : (s.places S).Perm S.frames := by
  refine List.Perm.trans ?_ h.perm
  have hrx := window_append S.size s.rx.ring h.oldest_le h.rxPeek_le
  rw [Xsk.places, h.fillEntries_eq, h.unconsumed_eq, h.pending_eq, rxWindow, ← hrx,
    List.map_append, List.append_assoc _ _ (List.map _ _)]
  exact List.Perm.append_left _ List.perm_append_comm

end Rep

/-- **Frames are conserved.** In every reachable state each of the frames is in
exactly one place — the fill ring, the kernel, an RX entry the thread has not
peeked at, or the current batch — and an address about to be written back to the
fill ring is the one received at that position of the batch. -/
theorem frame_conservation (S : Setup) {s : Xsk} (h : (machine S).Reachable s) :
    (s.places S).Perm S.frames ∧ (s.places S).Nodup ∧
      ∀ idxRx rcvd filled ret idxFill i addr,
        s.pc = .refill idxRx rcvd filled ret idxFill i addr →
          s.received.length = rcvd ∧ s.received[filled + i]? = some addr := by
  obtain ⟨c, hc⟩ := rep_of_reachable h
  refine ⟨hc.places_perm, hc.places_perm.nodup_iff.mpr S.nodup, ?_⟩
  intro idxRx rcvd filled ret idxFill i addr hpc
  have hinv : PcInv S s c (.refill idxRx rcvd filled ret idxFill i addr) := hpc ▸ hc.pc
  obtain ⟨hfilling, _, hrec⟩ := hinv
  exact ⟨hfilling.batch.length_received, hrec⟩

/-! ### The setup of the source -/

/-- The addresses of frames side by side are distinct, as long as the 32-bit
product does not wrap. -/
theorem nodup_fillAddrs {numDescs frameSize : ℕ} (hpos : 0 < frameSize)
    (hle : numDescs * frameSize ≤ 2 ^ 32) : (fillAddrs numDescs frameSize).Nodup := by
  refine List.Nodup.map_on ?_ List.nodup_range
  intro i hi j hj heq
  have hlt : ∀ k < numDescs, k * frameSize < 2 ^ 32 := fun k hk =>
    (Nat.mul_lt_mul_of_pos_right hk hpos).trans_le hle
  rw [List.mem_range] at hi hj
  rw [Nat.mod_eq_of_lt (hlt i hi), Nat.mod_eq_of_lt (hlt j hj)] at heq
  have hnat := congrArg UInt64.toNat heq
  have hword : ∀ k < numDescs, k * frameSize < 2 ^ 64 := fun k hk =>
    (hlt k hk).trans (by decide)
  rw [UInt64.toNat_ofNat', UInt64.toNat_ofNat', Nat.mod_eq_of_lt (hword i hi),
    Nat.mod_eq_of_lt (hword j hj)] at hnat
  exact Nat.eq_of_mul_eq_mul_right hpos hnat

/-- `XSK_RING_PROD__DEFAULT_NUM_DESCS` frames of `UMEM_FRAME_SIZE` bytes, in rings
of as many slots. -/
def defaultSetup : Setup where
  log := 11
  frames := fillAddrs 2048 4096
  log_lt := by decide
  nodup := nodup_fillAddrs (by decide) (by decide)
  length_le := by rw [fillAddrs, List.length_map, List.length_range]; decide

/-- Two packets arrive and are read and released; the first address is written
back while the kernel posts a third packet. -/
def batchSchedule : List Act :=
  [.take, .take, .post 4096 64, .post 0 60, .peek 2, .go, .go, .go, .take, .reserve 2, .go,
    .post 8192 1500, .go, .go]

theorem frame_conservation_default :
    ∃ s : Xsk, (machine defaultSetup).Reachable s ∧ s.received = [4096, 0] ∧
      ((s.places defaultSetup).Perm defaultSetup.frames ∧ (s.places defaultSetup).Nodup ∧
        ∀ idxRx rcvd filled ret idxFill i addr,
          s.pc = .refill idxRx rcvd filled ret idxFill i addr →
            s.received.length = rcvd ∧ s.received[filled + i]? = some addr) := by
  have hexec : ((machine defaultSetup).exec (fun _ _ => true)
      (createRing defaultSetup (fun _ => ⟨0, 0⟩) fun _ => 0) batchSchedule).map
        Xsk.received = some [4096, 0] := by
    decide +kernel
  obtain ⟨s, hs, hrec⟩ := Machine.exists_path_of_exec hexec
  have hreach : (machine defaultSetup).Reachable s := hs.reachable (.init ⟨_, _, rfl⟩)
  exact ⟨s, hreach, hrec, frame_conservation defaultSetup hreach⟩

end Xdp
end SovereignSeed
