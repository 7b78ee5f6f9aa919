import SovereignSeed.Foundation.Machine
import SovereignSeed.Foundation.Window
import Mathlib.Data.List.Nodup

/-!
# The AF_XDP ingress thread

`sip_xsk_poll_ingress` of `xdp_ingress.c` beside the kernel, over the two rings
they share: the kernel posts received frames in the RX ring, and the thread
gives their addresses back through the fill ring.  The thread hands the RX
entries of a batch back before it reads their addresses a second time to fill
the fill ring with them.

The ring primitives of `libxdp` are not part of the repository.  They enter by
what they document: `xsk_ring_cons__peek` answers with any number of available
entries up to the number asked for, and `xsk_ring_prod__reserve` with any number
up to the number asked for that fits the ring; the answer is part of the action.
Counters are 32-bit words that wrap, and an entry lies at `idx & mask`.

`received` is history: the addresses read so far in the current batch.

## Main definitions

* `Setup` — the size of the rings, and the frames put into the fill ring.
* `Pc` — where the thread is in its loop.
* `Xsk`, `createRing`, `step`, `machine` — the shared state and its steps.
* `Xsk.fillEntries`, `Xsk.unconsumed`, `Xsk.pending` — where a frame can be.
-/

namespace SovereignSeed
namespace Xdp

/-- An address of a frame in the UMEM area. -/
abbrev Addr := UInt64

/-- What `sip_xsk_create_ring` sets up: two rings of `2 ^ log` slots, a power of
two that a 32-bit word holds, and the frames submitted to the fill ring. -/
structure Setup where
  /-- The binary logarithm of the ring size. -/
  log : ℕ
  frames : List Addr
  log_lt : log < 32
  nodup : frames.Nodup
  length_le : frames.length ≤ 2 ^ log

/-- The number of slots of either ring. -/
def Setup.size (S : Setup) : ℕ := 2 ^ S.log

/-- `idx & mask`. -/
def Setup.slot (S : Setup) (idx : ℕ) : ℕ := maskWord S.size idx

/-- The addresses the setup loop writes: `(uint64_t)(i * UMEM_FRAME_SIZE)`, with
a 32-bit product. -/
def fillAddrs (numDescs frameSize : ℕ) : List Addr :=
  (List.range numDescs).map fun i => UInt64.ofNat (i * frameSize % 2 ^ 32)

/-- `struct xdp_desc`, as far as the thread reads it. -/
structure XdpDesc where
  addr : Addr
  len : UInt32

/-- A ring in shared memory. -/
structure XskRing (δ : Type*) where
  producer : ℕ
  consumer : ℕ
  ring : ℕ → δ

/-- Where the thread is in its loop, with the locals that are live. -/
inductive Pc
  /-- About to call `xsk_ring_cons__peek`. -/
  | peek
  /-- About to read descriptor `i` of the batch. -/
  | desc (idxRx rcvd i : ℕ)
  /-- About to call `xsk_ring_cons__release`. -/
  | release (idxRx rcvd : ℕ)
  /-- About to call `xsk_ring_prod__reserve`. -/
  | reserve (idxRx rcvd filled : ℕ)
  /-- About to read the RX slot of entry `i` of the reservation again. -/
  | reread (idxRx rcvd filled ret idxFill i : ℕ)
  /-- About to write `addr` into the fill slot of entry `i`. -/
  | refill (idxRx rcvd filled ret idxFill i : ℕ) (addr : Addr)
  /-- About to call `xsk_ring_prod__submit`. -/
  | submit (idxRx rcvd filled ret : ℕ)

/-- The rings, the frames the kernel holds, and the thread. -/
structure Xsk where
  rx : XskRing XdpDesc
  /-- The RX entries from here on have not been peeked at. -/
  cachedCons : ℕ
  fill : XskRing Addr
  /-- The fill slots from here on have not been reserved. -/
  cachedProd : ℕ
  kernel : List Addr
  pc : Pc
  totalPacketsProcessed : ℕ
  totalBytesIngested : ℕ
  /-- The addresses read so far in the current batch. -/
  received : List Addr

/-- `sip_xsk_create_ring`, over whatever the ring memory holds. -/
def createRing (S : Setup) (rxMem : ℕ → XdpDesc) (fillMem : ℕ → Addr) : Xsk where
  rx := ⟨0, 0, rxMem⟩
  cachedCons := 0
  fill := ⟨addWord 32 0 S.frames.length, 0, fun i => (S.frames[i]?).getD (fillMem i)⟩
  cachedProd := addWord 32 0 S.frames.length
  kernel := []
  pc := .peek
  totalPacketsProcessed := 0
  totalBytesIngested := 0
  received := []

/-- What happens next. -/
inductive Act
  /-- The kernel takes an address from the fill ring. -/
  | take
  /-- The kernel posts a packet of `len` bytes in a frame it holds. -/
  | post (addr : Addr) (len : UInt32)
  /-- `xsk_ring_cons__peek` answers with `n` entries. -/
  | peek (n : ℕ)
  /-- `xsk_ring_prod__reserve` answers with `ret` slots. -/
  | reserve (ret : ℕ)
  /-- The thread takes its next step. -/
  | go

/-- `sizeof(struct ether_header)`. -/
def etherHeaderSize : ℕ := 14

/-- Reading descriptor `i` of the batch, with the telemetry of the loop body. -/
def readDesc (S : Setup) (s : Xsk) (idxRx rcvd i : ℕ) : Xsk :=
  let d := s.rx.ring (S.slot (addWord 32 idxRx i))
  { s with
    received := s.received ++ [d.addr]
    totalPacketsProcessed :=
      if etherHeaderSize ≤ d.len.toNat then addWord 64 s.totalPacketsProcessed 1
      else s.totalPacketsProcessed
    totalBytesIngested :=
      if etherHeaderSize ≤ d.len.toNat then addWord 64 s.totalBytesIngested d.len.toNat
      else s.totalBytesIngested
    pc := if i + 1 < rcvd then .desc idxRx rcvd (i + 1) else .release idxRx rcvd }

/-- One step of the kernel or of the thread. -/
def step (S : Setup) (s : Xsk) : Act → Option Xsk
  | .take =>
    if s.fill.consumer = s.fill.producer then none
    else
      some { s with
        fill := { s.fill with consumer := addWord 32 s.fill.consumer 1 }
        kernel := s.kernel ++ [s.fill.ring (S.slot s.fill.consumer)] }
  | .post addr len =>
    if addr ∈ s.kernel ∧ subWord 32 s.rx.producer s.rx.consumer < S.size then
      some { s with
        rx := { s.rx with
          producer := addWord 32 s.rx.producer 1
          ring := Function.update s.rx.ring (S.slot s.rx.producer) ⟨addr, len⟩ }
        kernel := s.kernel.erase addr }
    else none
  | .peek n =>
    match s.pc with
    | .peek =>
      if n ≤ 64 ∧ n ≤ subWord 32 s.rx.producer s.cachedCons then
        -- an empty ring: sleep and poll again
        if n = 0 then some s
        else
          some { s with
            cachedCons := addWord 32 s.cachedCons n
            pc := .desc s.cachedCons n 0
            received := [] }
      else none
    | _ => none
  | .reserve ret =>
    match s.pc with
    | .reserve idxRx rcvd filled =>
      if ret ≤ rcvd - filled ∧ subWord 32 s.cachedProd s.fill.consumer + ret ≤ S.size then
        if ret = 0 then some s
        else
          some { s with
            cachedProd := addWord 32 s.cachedProd ret
            pc := .reread idxRx rcvd filled ret s.cachedProd 0 }
      else none
    | _ => none
  | .go =>
    match s.pc with
    | .peek => none
    | .desc idxRx rcvd i => some (readDesc S s idxRx rcvd i)
    | .release idxRx rcvd =>
      some { s with
        rx := { s.rx with consumer := addWord 32 s.rx.consumer rcvd }
        pc := .reserve idxRx rcvd 0 }
    | .reserve _ _ _ => none
    | .reread idxRx rcvd filled ret idxFill i =>
      some { s with
        pc := .refill idxRx rcvd filled ret idxFill i
          (s.rx.ring (S.slot (addWord 32 idxRx (filled + i)))).addr }
    | .refill idxRx rcvd filled ret idxFill i addr =>
      some { s with
        fill := { s.fill with
          ring := Function.update s.fill.ring (S.slot (addWord 32 idxFill i)) addr }
        pc := if i + 1 < ret then .reread idxRx rcvd filled ret idxFill (i + 1)
          else .submit idxRx rcvd filled ret }
    | .submit idxRx rcvd filled ret =>
      some { s with
        fill := { s.fill with producer := addWord 32 s.fill.producer ret }
        pc := if filled + ret < rcvd then .reserve idxRx rcvd (filled + ret) else .peek }

/-- The thread and the kernel under every interleaving. -/
def machine (S : Setup) : Machine Xsk Act where
  init s := ∃ rxMem fillMem, s = createRing S rxMem fillMem
  step := step S

/-! ### Where a frame can be -/

/-- The `n` entries of a ring from counter `idx` on. -/
def entries {δ : Type*} (S : Setup) (ring : ℕ → δ) (idx n : ℕ) : List δ :=
  (List.range n).map fun i => ring (S.slot (addWord 32 idx i))

/-- The addresses submitted to the fill ring that the kernel has not taken. -/
def Xsk.fillEntries (S : Setup) (s : Xsk) : List Addr :=
  entries S s.fill.ring s.fill.consumer (subWord 32 s.fill.producer s.fill.consumer)

/-- The addresses posted in the RX ring that the thread has not peeked at. -/
def Xsk.unconsumed (S : Setup) (s : Xsk) : List Addr :=
  (entries S s.rx.ring s.cachedCons (subWord 32 s.rx.producer s.cachedCons)).map XdpDesc.addr

/-- The part of the current batch that has not been submitted: its first counter
and its length. -/
def Pc.batch : Pc → ℕ × ℕ
  | .peek => (0, 0)
  | .desc idxRx rcvd _ => (idxRx, rcvd)
  | .release idxRx rcvd => (idxRx, rcvd)
  | .reserve idxRx rcvd filled => (addWord 32 idxRx filled, rcvd - filled)
  | .reread idxRx rcvd filled _ _ _ => (addWord 32 idxRx filled, rcvd - filled)
  | .refill idxRx rcvd filled _ _ _ _ => (addWord 32 idxRx filled, rcvd - filled)
  | .submit idxRx rcvd filled _ => (addWord 32 idxRx filled, rcvd - filled)

/-- The addresses pending in the current batch. -/
def Xsk.pending (S : Setup) (s : Xsk) : List Addr :=
  (entries S s.rx.ring s.pc.batch.1 s.pc.batch.2).map XdpDesc.addr

/-- Every place a frame can be in. -/
def Xsk.places (S : Setup) (s : Xsk) : List Addr :=
  s.fillEntries S ++ s.kernel ++ s.unconsumed S ++ s.pending S

end Xdp
end SovereignSeed
