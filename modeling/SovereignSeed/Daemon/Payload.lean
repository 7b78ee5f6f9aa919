import SovereignSeed.Daemon.Bridge
import Mathlib.Data.UInt

/-!
# The payload another process wrote

The ring is shared memory, and `payload_len` is whatever the other process has
left there.  The daemon hands it to `sqlite3_bind_text` as it is, with no look at
`PAYLOAD_MAX_LEN`: as a C `int` it is the number of bytes to take, and if it has
become negative the text goes on to the first NUL byte.

Up to `PAYLOAD_MAX_LEN` the stored text is what the event says.  Beyond it the
text runs on into the padding of the slot and the slots behind it, unless the
length is one SQLite refuses, or is negative and a NUL byte comes in time.

## Main definitions

* `Slot` — `sip_event_t` as it may lie in the ring, with what is mapped behind it.
* `BindText` — the documented behaviour of `sqlite3_bind_text`.
* `FromEvent` — the stored text comes from the event's own data.

## Main results

* `stored_event` — what the daemon of the ring model binds and reads is what is stored.
* `from_event_iff` — **the lengths for which the text comes from the event.**
-/

namespace SovereignSeed
namespace Daemon

/-- `sip_event_t` as another process may have left it.  The structure is 1536
bytes long, so there are 16 bytes of padding behind `data`, and then the slots
that follow. -/
structure Slot where
  traceId : UInt64
  timestampNs : UInt64
  payloadLen : UInt32
  data : Fin payloadMaxLen → UInt8
  /-- What is mapped behind `data`. -/
  behind : List UInt8
  padded : 16 ≤ behind.length

/-- The mapped bytes from `ev->data` on. -/
def Slot.memory (ev : Slot) : List UInt8 := List.ofFn ev.data ++ ev.behind

/-- What a bound parameter holds when the statement runs. -/
inductive Taken
  | text (bytes : List UInt8)
  | null
  /-- Everything mapped has been read, and the next byte kills the daemon. -/
  | fault
  deriving DecidableEq

/-- At most `k` bytes are taken. -/
def Taken.Within (k : ℕ) : Taken → Prop
  | .text bytes => bytes.length ≤ k
  | .null => True
  | .fault => False

/-- `sqlite3_bind_text` with `SQLITE_STATIC`, up to the run of the statement: what
is made of the memory behind the pointer and of the length argument. -/
structure BindText where
  /-- `SQLITE_LIMIT_LENGTH`, by default 1000000000. -/
  limit : ℕ
  limit_ge : payloadMaxLen ≤ limit
  run : List UInt8 → ℤ → Taken
  /-- A length that is not negative is the number of bytes. -/
  counted : ∀ (mem : List UInt8) (n : ℕ), n ≤ limit →
    run mem n = if n ≤ mem.length then .text (mem.take n) else .fault
  /-- `SQLITE_TOOBIG`: the parameter stays NULL. -/
  refused : ∀ (mem : List UInt8) (n : ℕ), limit < n → run mem n = .null
  /-- With a negative length the text ends before the first NUL byte. -/
  terminated : ∀ (s t : List UInt8) (n : ℤ), 0 ∉ s → n < 0 →
    run (s ++ 0 :: t) n = if s.length ≤ limit then .text s else .null
  /-- Without a NUL byte there is no end to it. -/
  unterminated : ∀ (mem : List UInt8) (n : ℤ), 0 ∉ mem → n < 0 → run mem n = .fault

/-- `sqlite3_bind_text(stmt, 3, (char *)ev->data, ev->payload_len, SQLITE_STATIC)`:
the length is converted to an `int`. -/
def BindText.stored (B : BindText) (ev : Slot) : Taken :=
  B.run ev.memory ev.payloadLen.toInt32.toInt

/-- The stored text is the first `payload_len` bytes of `data` if there are so
many, and for larger lengths no more than `PAYLOAD_MAX_LEN` bytes are taken. -/
def FromEvent (B : BindText) (ev : Slot) : Prop :=
  (ev.payloadLen.toNat ≤ payloadMaxLen →
    B.stored ev = .text ((List.ofFn ev.data).take ev.payloadLen.toNat)) ∧
  (payloadMaxLen < ev.payloadLen.toNat → (B.stored ev).Within payloadMaxLen)

/-! ### What is stored -/

section Stored

variable {B : BindText} {ev : Slot}

theorem Slot.length_memory (ev : Slot) : ev.memory.length = payloadMaxLen + ev.behind.length := by
  simp [Slot.memory]

/-- Up to `PAYLOAD_MAX_LEN` the text is the event's. -/
theorem stored_of_le (h : ev.payloadLen.toNat ≤ payloadMaxLen) :
    B.stored ev = .text ((List.ofFn ev.data).take ev.payloadLen.toNat) := by
  have hlimit := B.limit_ge
  have hlen := ev.length_memory
  have hmax : payloadMaxLen < 2 ^ 31 := by decide
  rw [BindText.stored, toInt_of_lt (by omega), B.counted _ _ (by omega), if_pos (by omega),
    Slot.memory, List.take_append_of_le_length (by simpa using h)]

/-- A larger length that SQLite accepts takes as many bytes, or all that is mapped. -/
theorem stored_of_gt (h : payloadMaxLen < ev.payloadLen.toNat) (hle : ev.payloadLen.toNat ≤ B.limit)
    (hint : ev.payloadLen.toNat < 2 ^ 31) : ¬ (B.stored ev).Within payloadMaxLen := by
  rw [BindText.stored, toInt_of_lt hint, B.counted _ _ hle]
  split
  · next hmem =>
    intro hwithin
    have hwithin : (ev.memory.take ev.payloadLen.toNat).length ≤ payloadMaxLen := hwithin
    rw [List.length_take] at hwithin
    omega
  · exact id

/-- A negative length takes the bytes before the first NUL. -/
theorem stored_of_neg (hneg : 2 ^ 31 ≤ ev.payloadLen.toNat) :
    (B.stored ev).Within payloadMaxLen ↔
      ∃ s t, ev.memory = s ++ 0 :: t ∧ 0 ∉ s ∧ (s.length ≤ payloadMaxLen ∨ B.limit < s.length) := by
  have hlt := toInt_neg_of_le hneg
  have hlimit := B.limit_ge
  rw [BindText.stored]
  constructor
  · intro hwithin
    by_cases hmem : 0 ∈ ev.memory
    · obtain ⟨s, t, heq, hs⟩ := List.eq_append_cons_of_mem hmem
      refine ⟨s, t, heq, hs, ?_⟩
      rw [heq, B.terminated s t _ hs hlt] at hwithin
      split at hwithin
      · exact Or.inl hwithin
      · next hgt => exact Or.inr (by omega)
    · rw [B.unterminated _ _ hmem hlt] at hwithin
      exact hwithin.elim
  · rintro ⟨s, t, heq, hs, hlen⟩
    rw [heq, B.terminated s t _ hs hlt]
    split
    · next hle =>
      show s.length ≤ payloadMaxLen
      omega
    · trivial

/-- **The lengths for which the text comes from the event**: those up to
`PAYLOAD_MAX_LEN`; those SQLite refuses; and those negative as an `int`, if the
first NUL byte from `data` on comes in time, or beyond what SQLite accepts. -/
theorem from_event_iff (B : BindText) (ev : Slot) :
    FromEvent B ev ↔
      ev.payloadLen.toNat ≤ payloadMaxLen ∨
      (B.limit < ev.payloadLen.toNat ∧ ev.payloadLen.toNat < 2 ^ 31) ∨
      (2 ^ 31 ≤ ev.payloadLen.toNat ∧ ∃ s t, ev.memory = s ++ 0 :: t ∧ 0 ∉ s ∧
        (s.length ≤ payloadMaxLen ∨ B.limit < s.length)) := by
  have hmax : payloadMaxLen < 2 ^ 31 := by decide
  rcases Nat.lt_or_ge payloadMaxLen ev.payloadLen.toNat with hgt | hle
  · have hlarge : FromEvent B ev ↔ (B.stored ev).Within payloadMaxLen :=
      ⟨fun h => h.2 hgt, fun h => ⟨fun hle => by omega, fun _ => h⟩⟩
    rw [hlarge]
    rcases Nat.lt_or_ge ev.payloadLen.toNat (2 ^ 31) with hint | hneg
    · rcases Nat.lt_or_ge B.limit ev.payloadLen.toNat with hrefused | haccepted
      · have hnull : B.stored ev = .null := by
          rw [BindText.stored, toInt_of_lt hint, B.refused _ _ hrefused]
        rw [hnull]
        exact iff_of_true trivial (Or.inr (Or.inl ⟨hrefused, hint⟩))
      · refine iff_of_false (stored_of_gt hgt haccepted hint) ?_
        rintro (hle | ⟨hrefused, -⟩ | ⟨hneg, -⟩) <;> omega
    · rw [stored_of_neg hneg]
      constructor
      · exact fun h => Or.inr (Or.inr ⟨hneg, h⟩)
      · rintro (hle | ⟨-, hint⟩ | ⟨-, h⟩)
        · omega
        · omega
        · exact h
  · exact iff_of_true ⟨fun _ => stored_of_le hle, fun hgt => by omega⟩ (Or.inl hle)

end Stored

/-! ### The daemon of the ring model -/

/-- The text before the first NUL byte. -/
theorem takeWhile_ne_zero {s t : List UInt8} (hs : 0 ∉ s) :
    (s ++ 0 :: t).takeWhile (· ≠ 0) = s := by
  rw [List.takeWhile_append_of_pos]
  · simp
  · intro b hb
    simpa using fun h : b = 0 => hs (h ▸ hb)

/-- What `sqlite3_bind_text` does, under a limit. -/
def sqlite3BindText (limit : ℕ) (mem : List UInt8) (n : ℤ) : Taken :=
  if 0 ≤ n then
    if limit < n.toNat then .null
    else if n.toNat ≤ mem.length then .text (mem.take n.toNat) else .fault
  else if 0 ∈ mem then
    if (mem.takeWhile (· ≠ 0)).length ≤ limit then .text (mem.takeWhile (· ≠ 0)) else .null
  else .fault

/-- SQLite with its default limit. -/
def defaultSqlite : BindText where
  limit := 1000000000
  limit_ge := by decide
  run := sqlite3BindText 1000000000
  counted := by
    intro mem n hn
    simp only [sqlite3BindText, Int.natCast_nonneg, if_true, Int.toNat_natCast]
    rw [if_neg (by omega)]
  refused := by
    intro mem n hn
    simp only [sqlite3BindText, Int.natCast_nonneg, if_true, Int.toNat_natCast]
    rw [if_pos hn]
  terminated := by
    intro s t n hs hn
    simp only [sqlite3BindText]
    rw [if_neg (by omega), if_pos (by simp), takeWhile_ne_zero hs]
  unterminated := by
    intro mem n hmem hn
    simp only [sqlite3BindText]
    rw [if_neg (by omega), if_neg hmem]

/-- **The documented behaviour leaves nothing open.** -/
theorem BindText.run_eq (B : BindText) (mem : List UInt8) (n : ℤ) :
    B.run mem n = sqlite3BindText B.limit mem n := by
  rcases le_or_gt 0 n with hn | hn
  · obtain ⟨k, rfl⟩ := Int.eq_ofNat_of_zero_le hn
    rw [sqlite3BindText, if_pos hn, Int.toNat_natCast]
    rcases le_or_gt k B.limit with hle | hgt
    · rw [if_neg (by omega)]
      exact B.counted mem k hle
    · rw [if_pos hgt]
      exact B.refused mem k hgt
  · rw [sqlite3BindText, if_neg (by omega)]
    by_cases hmem : 0 ∈ mem
    · obtain ⟨s, t, rfl, hs⟩ := List.eq_append_cons_of_mem hmem
      rw [if_pos hmem, takeWhile_ne_zero hs]
      exact B.terminated s t n hs hn
    · rw [if_neg hmem]
      exact B.unterminated mem n hmem hn

/-- What has been read, as what a parameter holds. -/
def Taken.ofRead : Option (Option (List UInt8)) → Taken
  | some (some bytes) => .text bytes
  | some none => .null
  | none => .fault

/-- Binding and reading one after the other, with the memory unchanged between. -/
theorem ofRead_bindText (limit : ℕ) (mem : List UInt8) (n : ℤ) :
    .ofRead ((bindText limit mem n).bind (readText mem)) = sqlite3BindText limit mem n := by
  have hprefix : mem.takeWhile (· ≠ 0) <+: mem := List.takeWhile_prefix _
  unfold bindText sqlite3BindText
  split
  · rw [Option.bind_some]
    split
    · next hle =>
      rw [if_neg (by omega), readText]
      split <;> rfl
    · next hgt =>
      rw [if_pos (by omega)]
      rfl
  · split
    · dsimp only
      rw [Option.bind_some]
      split
      · rw [readText, if_pos hprefix.length_le, ← List.prefix_iff_eq_take.mp hprefix]
        rfl
      · rfl
    · rfl

/-- An event in its slot. -/
def SipEvent.slot (ev : SipEvent) (behind : List UInt8) (padded : 16 ≤ behind.length) : Slot :=
  ⟨ev.traceId, ev.timestampNs, ev.payloadLen, ev.data, behind, padded⟩

/-- The limit a library has. -/
def BindText.toLimit (B : BindText) : Limit := ⟨B.limit, B.limit_ge⟩

/-- **What the daemon of the ring model binds and reads is what is stored.** -/
theorem stored_event (B : BindText) (ev : SipEvent) {behind : List UInt8}
    (padded : 16 ≤ behind.length) :
    B.stored (ev.slot behind padded) = .ofRead ((ev.bind B.toLimit behind).bind fun b =>
      readText (ev.memory behind) b.bytes) := by
  have hmemory : (ev.slot behind padded).memory = ev.memory behind := rfl
  rw [BindText.stored, B.run_eq, hmemory, ← ofRead_bindText, SipEvent.bind, Option.bind_map]
  rfl

/-! ### An overlong length -/

/-- A slot whose length is one byte more than its data. -/
def overlongSlot : Slot where
  traceId := 1
  timestampNs := 1
  payloadLen := 1501
  data := fun _ => 65
  behind := List.replicate 16 0
  padded := by decide

theorem overlong_payload_stored : ¬ FromEvent defaultSqlite overlongSlot := by
  rw [from_event_iff]
  rintro (hle | ⟨hrefused, -⟩ | ⟨hneg, -⟩)
  · revert hle
    decide
  · revert hrefused
    decide
  · revert hneg
    decide

end Daemon
end SovereignSeed
