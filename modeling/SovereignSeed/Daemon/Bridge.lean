import SovereignSeed.Foundation.Machine
import SovereignSeed.Foundation.Store
import SovereignSeed.Foundation.Window

/-!
# The bridge daemon

`sip_bridge_daemon.c`: the daemon copies events from a ring in shared memory
into the table `commons_events`, one transaction an event, and publishes in
`tail` how far it has come.  It looks at none of the results of `BEGIN`,
`sqlite3_step` and `COMMIT`, so their outcomes are part of the actions: a
failed `BEGIN` leaves the insert to commit itself, and a failed statement may
roll the transaction back or leave it open for the next event.

The producer fills the slot at `head`, in as many writes as it likes, and then
publishes it; it is never more than `RING_BUFFER_SIZE` events ahead of `tail`.
Its `payload_len` may be anything: `sqlite3_bind_text` takes it as a C `int`, so
a step that binds or reads the text carries what is mapped behind `data` then.
The daemon may be killed between any two steps and started again.  `published`
is history.

## Main definitions

* `SipEvent`, `Row` — an event in the ring, and in the table.
* `bindText`, `readText` — the text of a statement, when it is bound and when it is read.
* `Pc`, `State`, `step`, `machine` — the daemon and its steps.
* `Rep` — the ring with counters that do not wrap.

## Main results

* `moves_of_step` — what a step can do, one case per step of the source.
* `readText_eq_iff` — **when the text that is read is the payload of the event.**
* `rep_moves` — **every step keeps the ring in order.**
-/

namespace SovereignSeed
namespace Daemon

/-- `RING_BUFFER_SIZE`. -/
def ringBufferSize : ℕ := 65536

/-- `PAYLOAD_MAX_LEN`. -/
def payloadMaxLen : ℕ := 1500

/-- `idx & RING_MASK`. -/
def slot (idx : ℕ) : ℕ := maskWord ringBufferSize idx

/-- `sip_event_t`; the payload is the first `payload_len` bytes of `data`. -/
structure SipEvent where
  traceId : UInt64
  timestampNs : UInt64
  payloadLen : UInt32
  data : Fin payloadMaxLen → UInt8

/-- The payload of an event. -/
def SipEvent.payload (ev : SipEvent) : List UInt8 := (List.ofFn ev.data).take ev.payloadLen.toNat

/-- The bytes from `ev->data` on, where `behind` is mapped behind `data`. -/
def SipEvent.memory (ev : SipEvent) (behind : List UInt8) : List UInt8 :=
  List.ofFn ev.data ++ behind

/-- A row of `commons_events`; a payload may be NULL. -/
structure Row where
  traceId : Int64
  timestamp : Int64
  payload : Option (List UInt8)
deriving DecidableEq

/-- The row of an event: the two 64-bit words are stored as signed integers. -/
def SipEvent.row (ev : SipEvent) : Row where
  traceId := ev.traceId.toInt64
  timestamp := ev.timestampNs.toInt64
  payload := some ev.payload

/-- `SQLITE_LIMIT_LENGTH`, by default 1000000000. -/
structure Limit where
  bytes : ℕ
  max_le : payloadMaxLen ≤ bytes

@[inherit_doc Limit]
def defaultLimit : Limit := ⟨1000000000, Nat.le_of_ble_eq_true rfl⟩

/-- How many bytes `sqlite3_bind_text` binds of `mem` for the length `n`, where `none`
is NULL: a negative `n` stands for the bytes before the first NUL.  The outer `none`
is a search for a NUL that runs out of what is mapped. -/
def bindText (limit : ℕ) (mem : List UInt8) (n : ℤ) : Option (Option ℕ) :=
  if 0 ≤ n then some (if n.toNat ≤ limit then some n.toNat else none)
  else if 0 ∈ mem then
    let len := (mem.takeWhile (· ≠ 0)).length
    some (if len ≤ limit then some len else none)
  else none

/-- The text a statement reads, or `none` where it runs out of what is mapped. -/
def readText (mem : List UInt8) : Option ℕ → Option (Option (List UInt8))
  | none => some none
  | some n => if n ≤ mem.length then some (some (mem.take n)) else none

/-- What is bound to the statement.  The text is bound as `SQLITE_STATIC`, so it
is read from the slot when the statement runs. -/
structure Bound where
  traceId : Int64
  timestamp : Int64
  bytes : Option ℕ

/-- The bindings made from a slot: the length is converted to an `int`. -/
def SipEvent.bind (L : Limit) (ev : SipEvent) (behind : List UInt8) : Option Bound :=
  (bindText L.bytes (ev.memory behind) ev.payloadLen.toInt32.toInt).map fun bytes =>
    ⟨ev.traceId.toInt64, ev.timestampNs.toInt64, bytes⟩

/-- Where the daemon is, with its `local_tail`. -/
inductive Pc
  /-- Not running. -/
  | down
  /-- The database is open; about to load `tail`. -/
  | attach
  /-- About to load `head`. -/
  | poll (localTail : ℕ)
  /-- About to bind the event. -/
  | bind (localTail : ℕ)
  /-- About to execute `BEGIN`. -/
  | begin (localTail : ℕ) (b : Bound)
  /-- About to execute the insert. -/
  | insert (localTail : ℕ) (b : Bound)
  /-- About to execute `COMMIT`. -/
  | commit (localTail : ℕ) (b : Bound)
  /-- About to store the incremented `local_tail`. -/
  | store (localTail : ℕ)

/-- The outcome of `sqlite3_step`. -/
inductive StepResult
  /-- The row is inserted. -/
  | done
  /-- The primary key is taken. -/
  | constraint
  /-- Any other error; some of them roll the transaction back. -/
  | error (rollback : Bool)
  /-- The text runs out of what is mapped, which kills the daemon. -/
  | fault
deriving DecidableEq

/-- The outcome of `COMMIT`. -/
inductive CommitResult
  | ok
  | error (rollback : Bool)
deriving DecidableEq

/-- Shared memory, the daemon, its database, and the events published so far. -/
structure State where
  head : ℕ
  tail : ℕ
  events : ℕ → SipEvent
  pc : Pc
  db : Store (List Row)
  published : List SipEvent

/-- Fresh shared memory, and a table of `rows`. -/
def boot (mem : ℕ → SipEvent) (rows : List Row) : State where
  head := 0
  tail := 0
  events := mem
  pc := .down
  db := ⟨rows, none, 0⟩
  published := []

/-- What happens next. -/
inductive Act
  /-- The producer writes to the slot at `head`. -/
  | write (ev : SipEvent)
  /-- The producer publishes the slot at `head`. -/
  | publish
  /-- The daemon is killed, or leaves its loop on a signal. -/
  | kill
  /-- The daemon is started. -/
  | start
  /-- The daemon takes its next step. -/
  | go
  /-- The daemon binds the event. -/
  | bind (behind : List UInt8)
  /-- `BEGIN` succeeds or fails. -/
  | begin (ok : Bool)
  /-- The insert ends with this outcome. -/
  | insert (behind : List UInt8) (out : StepResult)
  /-- `COMMIT` ends with this outcome. -/
  | commit (out : CommitResult)

/-- Is the key taken? -/
def taken (db : Store (List Row)) (key : Int64) : Prop := key ∈ db.view.map Row.traceId

instance (db : Store (List Row)) (key : Int64) : Decidable (taken db key) :=
  inferInstanceAs (Decidable (_ ∈ _))

/-- `INSERT INTO commons_events` of a row of this key, where the outcome is possible;
`r` is `none` if the text cannot be read. -/
def insertRow (db : Store (List Row)) (key : Int64) (r : Option Row) :
    StepResult → Option (Store (List Row))
  -- outside a transaction the write commits itself
  | .done => if taken db key then none else r.map fun r => db.write (· ++ [r])
  | .constraint => if taken db key then some db else none
  | .error rollback => some (if rollback then db.rollback else db)
  -- a process that dies closes its connection
  | .fault => if r = none then some db.close else none

/-- Where the daemon is after its insert. -/
def StepResult.next (l : ℕ) (b : Bound) : StepResult → Pc
  | .fault => .down
  | _ => .commit l b

/-- `COMMIT`, where the outcome is possible: without a transaction it fails. -/
def commitTx (db : Store (List Row)) : CommitResult → Option (Store (List Row))
  | .ok => if db.inTx then some db.commit else none
  | .error rollback => some (if rollback then db.rollback else db)

/-- The row the statement would insert now, if it can be read. -/
def State.boundRow (s : State) (localTail : ℕ) (behind : List UInt8) (b : Bound) : Option Row :=
  (readText ((s.events (slot localTail)).memory behind) b.bytes).map fun payload =>
    ⟨b.traceId, b.timestamp, payload⟩

/-- One step of the producer or of the daemon. -/
def step (L : Limit) (s : State) : Act → Option State
  | .write ev =>
    if subWord 64 s.head s.tail < ringBufferSize then
      some { s with events := Function.update s.events (slot s.head) ev }
    else none
  | .publish =>
    if subWord 64 s.head s.tail < ringBufferSize then
      some { s with
        head := addWord 64 s.head 1
        published := s.published ++ [s.events (slot s.head)] }
    else none
  | .kill => some { s with pc := .down, db := s.db.close }
  | .start =>
    match s.pc with
    | .down => some { s with pc := .attach, db := s.db.openSession }
    | _ => none
  | .go =>
    match s.pc with
    | .attach => some { s with pc := .poll s.tail }
    -- `_mm_pause`, and another look at `head`
    | .poll l => if l = s.head then some s else some { s with pc := .bind l }
    -- whatever the database said
    | .store l => some { s with tail := l, pc := .poll l }
    | _ => none
  | .bind behind =>
    match s.pc with
    | .bind l =>
      -- the key, the time and the length are copied; the text is bound in place
      match (s.events (slot l)).bind L behind with
      | some b => some { s with pc := .begin l b }
      | none => some { s with pc := .down, db := s.db.close }
    | _ => none
  | .begin ok =>
    match s.pc with
    | .begin l b =>
      if ok then
        -- there is no `BEGIN` within a transaction
        if s.db.inTx then none else some { s with db := s.db.beginTx, pc := .insert l b }
      else some { s with pc := .insert l b }
    | _ => none
  | .insert behind out =>
    match s.pc with
    | .insert l b =>
      (insertRow s.db b.traceId (s.boundRow l behind b) out).map fun db =>
        { s with db := db, pc := out.next l b }
    | _ => none
  | .commit out =>
    match s.pc with
    | .commit l _ =>
      (commitTx s.db out).map fun db => { s with db := db, pc := .store (addWord 64 l 1) }
    | _ => none

/-- The daemon and a producer, over a table of any rows. -/
def machine (L : Limit) : Machine State Act where
  init s := ∃ mem rows, s = boot mem rows
  step := step L

variable {L : Limit}

/-! ### What a step can do -/

/-- What a step can do, and by how much it moves `tail`. -/
inductive Moves (L : Limit) (s : State) : Act → State → ℕ → Prop
  | write (ev : SipEvent) : subWord 64 s.head s.tail < ringBufferSize →
      Moves L s (.write ev) { s with events := Function.update s.events (slot s.head) ev } 0
  | publish : subWord 64 s.head s.tail < ringBufferSize →
      Moves L s .publish
        { s with
          head := addWord 64 s.head 1
          published := s.published ++ [s.events (slot s.head)] } 0
  | kill : Moves L s .kill { s with pc := .down, db := s.db.close } 0
  | start : s.pc = .down → Moves L s .start { s with pc := .attach, db := s.db.openSession } 0
  | attach : s.pc = .attach → Moves L s .go { s with pc := .poll s.tail } 0
  | pause (l : ℕ) : s.pc = .poll l → Moves L s .go s 0
  | seen (l : ℕ) : s.pc = .poll l → l ≠ s.head → Moves L s .go { s with pc := .bind l } 0
  | bind (l : ℕ) (behind : List UInt8) (b : Bound) : s.pc = .bind l →
      (s.events (slot l)).bind L behind = some b →
        Moves L s (.bind behind) { s with pc := .begin l b } 0
  | bindFaults (l : ℕ) (behind : List UInt8) : s.pc = .bind l →
      Moves L s (.bind behind) { s with pc := .down, db := s.db.close } 0
  | begin (l : ℕ) (b : Bound) : s.pc = .begin l b →
      Moves L s (.begin true) { s with db := s.db.beginTx, pc := .insert l b } 0
  | beginFails (l : ℕ) (b : Bound) : s.pc = .begin l b →
      Moves L s (.begin false) { s with pc := .insert l b } 0
  | insert (l : ℕ) (b : Bound) (behind : List UInt8) (out : StepResult) (db : Store (List Row)) :
      s.pc = .insert l b → insertRow s.db b.traceId (s.boundRow l behind b) out = some db →
        Moves L s (.insert behind out) { s with db := db, pc := out.next l b } 0
  | commit (l : ℕ) (b : Bound) (out : CommitResult) (db : Store (List Row)) :
      s.pc = .commit l b → commitTx s.db out = some db →
        Moves L s (.commit out) { s with db := db, pc := .store (addWord 64 l 1) } 0
  | store (l : ℕ) : s.pc = .store l → Moves L s .go { s with tail := l, pc := .poll l } 1

/-- **What a step can do.** -/
theorem moves_of_step {s s' : State} {a : Act} (h : step L s a = some s') :
    ∃ k, Moves L s a s' k := by
  cases a with
  | write ev =>
    simp only [step] at h
    split at h
    · next hroom => cases h; exact ⟨0, .write ev hroom⟩
    · cases h
  | publish =>
    simp only [step] at h
    split at h
    · next hroom => cases h; exact ⟨0, .publish hroom⟩
    · cases h
  | kill => cases h; exact ⟨0, .kill⟩
  | start =>
    simp only [step] at h
    split at h
    · next hpc => cases h; exact ⟨0, .start hpc⟩
    · cases h
  | go =>
    simp only [step] at h
    split at h
    · next hpc => cases h; exact ⟨0, .attach hpc⟩
    · next l hpc =>
      split at h
      · cases h; exact ⟨0, .pause l hpc⟩
      · next hne => cases h; exact ⟨0, .seen l hpc hne⟩
    · next l hpc => cases h; exact ⟨1, .store l hpc⟩
    · cases h
  | bind behind =>
    simp only [step] at h
    split at h
    · next l hpc =>
      split at h
      · next b hb => cases h; exact ⟨0, .bind l behind b hpc hb⟩
      · cases h; exact ⟨0, .bindFaults l behind hpc⟩
    · cases h
  | begin ok =>
    simp only [step] at h
    split at h
    · next l b hpc =>
      cases ok with
      | true =>
        simp only [if_true] at h
        split at h
        · cases h
        · cases h; exact ⟨0, .begin l b hpc⟩
      | false => cases h; exact ⟨0, .beginFails l b hpc⟩
    · cases h
  | insert behind out =>
    simp only [step] at h
    split at h
    · next l b hpc =>
      obtain ⟨db, hdb, rfl⟩ := Option.map_eq_some_iff.mp h
      exact ⟨0, .insert l b behind out db hpc hdb⟩
    · cases h
  | commit out =>
    simp only [step] at h
    split at h
    · next l b hpc =>
      obtain ⟨db, hdb, rfl⟩ := Option.map_eq_some_iff.mp h
      exact ⟨0, .commit l b out db hpc hdb⟩
    · cases h

/-! ### The database -/

section Database

variable {db db' : Store (List Row)} {key : Int64} {r : Option Row}

/-- An insert leaves the connection as it is, or the daemon is dead. -/
theorem epoch_insertRow {out : StepResult} (h : insertRow db key r out = some db') :
    out = .fault ∨ db'.epoch = db.epoch := by
  cases out with
  | done =>
    simp only [insertRow] at h
    split at h
    · cases h
    · obtain ⟨row, -, rfl⟩ := Option.map_eq_some_iff.mp h
      exact .inr (Store.epoch_write db _)
  | constraint =>
    simp only [insertRow] at h
    split at h
    · cases h; exact .inr rfl
    · cases h
  | error rollback =>
    cases rollback with
    | true => cases h; exact .inr (Store.epoch_rollback db)
    | false => cases h; exact .inr rfl
  | fault => exact .inl rfl

theorem epoch_commitTx {out : CommitResult} (h : commitTx db out = some db') :
    db'.epoch = db.epoch := by
  cases out with
  | ok =>
    simp only [commitTx] at h
    split at h
    · cases h; exact Store.epoch_commit db
    · cases h
  | error rollback =>
    cases rollback with
    | true => cases h; exact Store.epoch_rollback db
    | false => cases h; rfl

/-- An insert keeps the table sound, and what is committed. -/
theorem sound_insertRow (hs : db.Sound) {out : StepResult}
    (h : insertRow db key r out = some db') : db'.Sound ∧ db.file <+: db'.file := by
  cases out with
  | done =>
    simp only [insertRow] at h
    split at h
    · cases h
    · obtain ⟨row, -, rfl⟩ := Option.map_eq_some_iff.mp h
      exact ⟨hs.append row, hs.append_durable row⟩
  | constraint =>
    simp only [insertRow] at h
    split at h
    · cases h; exact ⟨hs, List.prefix_rfl⟩
    · cases h
  | error rollback =>
    cases rollback with
    | true => cases h; exact ⟨hs.rollback, List.prefix_rfl⟩
    | false => cases h; exact ⟨hs, List.prefix_rfl⟩
  | fault =>
    simp only [insertRow] at h
    split at h
    · cases h; exact ⟨hs.close, List.prefix_rfl⟩
    · cases h

/-- `COMMIT` keeps the table sound, and what is committed. -/
theorem sound_commitTx (hs : db.Sound) {out : CommitResult} (h : commitTx db out = some db') :
    db'.Sound ∧ db.file <+: db'.file := by
  cases out with
  | ok =>
    simp only [commitTx] at h
    split at h
    · cases h; exact ⟨hs.commit, hs.commit_durable⟩
    · cases h
  | error rollback =>
    cases rollback with
    | true => cases h; exact ⟨hs.rollback, List.prefix_rfl⟩
    | false => cases h; exact ⟨hs, List.prefix_rfl⟩

end Database

/-! ### The text -/

theorem toInt_of_lt {n : UInt32} (h : n.toNat < 2 ^ 31) : n.toInt32.toInt = n.toNat := by
  have hint : n.toInt32.toInt = n.toBitVec.toInt := rfl
  rw [hint, BitVec.toInt_eq_toNat_cond, if_pos]
  · rfl
  · show 2 * n.toNat < 2 ^ 32
    omega

theorem toInt_neg_of_le {n : UInt32} (h : 2 ^ 31 ≤ n.toNat) : n.toInt32.toInt < 0 := by
  have hint : n.toInt32.toInt = n.toBitVec.toInt := rfl
  have hlt := n.toNat_lt
  rw [hint, BitVec.toInt_eq_toNat_cond, if_neg]
  · show (n.toNat : ℤ) - (2 ^ 32 : ℕ) < 0
    omega
  · show ¬ 2 * n.toNat < 2 ^ 32
    omega

/-- Whatever is mapped behind `data`, these are bindings of the event. -/
def SipEvent.Binds (L : Limit) (ev : SipEvent) (b : Bound) : Prop :=
  ∃ behind, ev.bind L behind = some b

/-- The length is in bounds, or the text was found to end where `data` does. -/
def Sized (ev : SipEvent) (b : Bound) : Prop :=
  ev.payloadLen.toNat ≤ payloadMaxLen ∨ b.bytes = some payloadMaxLen

instance (ev : SipEvent) (b : Bound) : Decidable (Sized ev b) := inferInstanceAs (Decidable (_ ∨ _))

namespace SipEvent.Binds

variable {ev : SipEvent} {b : Bound}

theorem words (h : ev.Binds L b) :
    b.traceId = ev.traceId.toInt64 ∧ b.timestamp = ev.timestampNs.toInt64 := by
  obtain ⟨behind, hb⟩ := h
  obtain ⟨bytes, -, rfl⟩ := Option.map_eq_some_iff.mp hb
  exact ⟨rfl, rfl⟩

/-- A length in bounds is the number of bytes that are bound. -/
theorem bytes_of_le (h : ev.Binds L b) (hle : ev.payloadLen.toNat ≤ payloadMaxLen) :
    b.bytes = some ev.payloadLen.toNat := by
  obtain ⟨behind, hb⟩ := h
  obtain ⟨bytes, hbytes, rfl⟩ := Option.map_eq_some_iff.mp hb
  have hint : payloadMaxLen < 2 ^ 31 := by decide
  have hmax := L.max_le
  rw [toInt_of_lt (by omega), bindText, if_pos (by omega), Int.toNat_natCast,
    if_pos (by omega)] at hbytes
  exact (Option.some.inj hbytes).symm

/-- **When the text that is read is the payload of the event.** -/
theorem readText_eq_iff (h : ev.Binds L b) (behind : List UInt8) :
    readText (ev.memory behind) b.bytes = some (some ev.payload) ↔ Sized ev b := by
  have hlen : (List.ofFn ev.data).length = payloadMaxLen := List.length_ofFn
  have hmemory : (ev.memory behind).length = payloadMaxLen + behind.length := by
    rw [memory, List.length_append, hlen]
  rcases le_or_gt ev.payloadLen.toNat payloadMaxLen with hle | hgt
  · refine iff_of_true ?_ (.inl hle)
    rw [h.bytes_of_le hle, readText, if_pos (by omega), memory,
      List.take_append_of_le_length (by omega), payload]
  · -- the payload of such an event is all of `data`
    have hpayload : ev.payload = List.ofFn ev.data := List.take_of_length_le (by omega)
    have hsized : Sized ev b ↔ b.bytes = some payloadMaxLen := or_iff_right (by omega)
    rw [hpayload, hsized]
    constructor
    · intro hread
      cases hbytes : b.bytes with
      | none => simp [hbytes, readText] at hread
      | some n =>
        rw [hbytes, readText] at hread
        split at hread
        · next hn =>
          have htake := congrArg List.length (Option.some.inj (Option.some.inj hread))
          rw [List.length_take, hlen] at htake
          exact congrArg some (by omega)
        · cases hread
    · intro hbytes
      rw [hbytes, readText, if_pos (by omega), memory, List.take_append_of_le_length (by omega),
        List.take_of_length_le (by omega)]

end SipEvent.Binds

/-! ### The ring -/

theorem slot_mod (p : ℕ) : slot (p % 2 ^ 64) = p % ringBufferSize :=
  maskWord_mod (show 16 ≤ 64 by decide) p

/-- What `local_tail` and the bindings are at each point of the loop, when `T`
events have been passed. -/
def PcRep (L : Limit) (s : State) (T : ℕ) : Pc → Prop
  | .poll l => l = T % 2 ^ 64
  | .bind l => l = T % 2 ^ 64 ∧ T < s.published.length
  | .begin l b | .insert l b | .commit l b =>
    l = T % 2 ^ 64 ∧ T < s.published.length ∧ (s.events (T % ringBufferSize)).Binds L b
  | .store l => l = (T + 1) % 2 ^ 64 ∧ T < s.published.length
  | _ => True

/-- The ring holds the events from number `T` on, and `T` have been passed. -/
structure Rep (L : Limit) (s : State) (T : ℕ) : Prop where
  head_eq : s.head = s.published.length % 2 ^ 64
  tail_eq : s.tail = T % 2 ^ 64
  le_length : T ≤ s.published.length
  length_le : s.published.length ≤ T + ringBufferSize
  events_eq : window ringBufferSize s.events T s.published.length = s.published.drop T
  pc : PcRep L s T s.pc
  /-- A running daemon has its database open. -/
  running : s.pc ≠ .down → ∃ e, s.db.epoch = some e

namespace Rep

variable {s : State} {T : ℕ}

/-- How far the producer is ahead. -/
theorem subWord_eq (h : Rep L s T) : subWord 64 s.head s.tail = s.published.length - T := by
  have hlap : s.published.length - T < 2 ^ 64 := by
    have := h.length_le
    simp only [ringBufferSize] at this
    omega
  rw [h.head_eq, h.tail_eq, subWord_mod h.le_length hlap]

/-- The next event is in its slot. -/
theorem getElem?_eq (h : Rep L s T) (hlt : T < s.published.length) :
    s.published[T]? = some (s.events (T % ringBufferSize)) := by
  have hevents := h.events_eq
  rw [window_cons _ _ hlt, List.drop_eq_getElem_cons hlt] at hevents
  rw [List.getElem?_eq_getElem hlt, (List.cons.inj hevents).1]

/-- What the daemon has of the current event when it looks at it. -/
theorem binds (h : Rep L s T) {l : ℕ} {b : Bound} (hp : s.pc = .insert l b ∨ s.pc = .commit l b)
    {ev : SipEvent} (hev : s.published[T]? = some ev) :
    s.events (slot l) = ev ∧ ev.Binds L b := by
  have hpc : PcRep L s T s.pc := h.pc
  have hrep : l = T % 2 ^ 64 ∧ T < s.published.length ∧
      (s.events (T % ringBufferSize)).Binds L b := by
    -- the bindings are the same in both places
    rcases hp with hp | hp <;> rw [hp] at hpc <;> exact hpc
  rw [h.getElem?_eq hrep.2.1] at hev
  obtain rfl := Option.some.inj hev
  exact ⟨by rw [hrep.1, slot_mod], hrep.2.2⟩

/-- **The row of an event whose length is in bounds is its own.** -/
theorem boundRow_eq_row (h : Rep L s T) {l : ℕ} {b : Bound} (hp : s.pc = .insert l b)
    {ev : SipEvent} (hev : s.published[T]? = some ev) (hsized : Sized ev b)
    (behind : List UInt8) : s.boundRow l behind b = some ev.row := by
  obtain ⟨hslot, hbinds⟩ := h.binds (.inl hp) hev
  rw [State.boundRow, hslot, (hbinds.readText_eq_iff behind).mpr hsized, Option.map_some,
    hbinds.words.1, hbinds.words.2]
  rfl

end Rep

/-- A change of the database and of the control point keeps the ring. -/
theorem Rep.goto {s : State} {T : ℕ} (h : Rep L s T) {p : Pc} {db : Store (List Row)}
    (hp : PcRep L s T p) (hdb : p ≠ .down → ∃ e, db.epoch = some e) :
    Rep L { s with pc := p, db := db } T where
  head_eq := h.head_eq
  tail_eq := h.tail_eq
  le_length := h.le_length
  length_le := h.length_le
  events_eq := h.events_eq
  pc := by
    show PcRep L _ T p
    cases p <;> exact hp
  running := hdb

/-- The free slot is not one the daemon looks at. -/
theorem PcRep.write {s : State} {T : ℕ} {p : Pc} (h : PcRep L s T p)
    (hroom : s.published.length < T + ringBufferSize) (ev : SipEvent) :
    PcRep L { s with
      events := Function.update s.events (s.published.length % ringBufferSize) ev } T p := by
  have hslot : ∀ {b : Bound}, T < s.published.length →
      (s.events (T % ringBufferSize)).Binds L b →
      (Function.update s.events (s.published.length % ringBufferSize) ev
        (T % ringBufferSize)).Binds L b := by
    intro b hlt hb
    rwa [Function.update_of_ne]
    intro heq
    -- the free slot is less than a lap ahead of `T`
    have := eq_of_mod_eq heq (by omega) hroom
    omega
  cases p with
  | begin l b => exact ⟨h.1, h.2.1, hslot h.2.1 h.2.2⟩
  | insert l b => exact ⟨h.1, h.2.1, hslot h.2.1 h.2.2⟩
  | commit l b => exact ⟨h.1, h.2.1, hslot h.2.1 h.2.2⟩
  | _ => exact h

/-- A new event does not change what the daemon knows. -/
theorem PcRep.publish {s : State} {T : ℕ} {p : Pc} (h : PcRep L s T p) (head : ℕ) (ev : SipEvent) :
    PcRep L { s with head := head, published := s.published ++ [ev] } T p := by
  have hlen : s.published.length < (s.published ++ [ev]).length := by simp
  cases p with
  | bind l => exact ⟨h.1, h.2.trans hlen⟩
  | begin l b => exact ⟨h.1, h.2.1.trans hlen, h.2.2⟩
  | insert l b => exact ⟨h.1, h.2.1.trans hlen, h.2.2⟩
  | commit l b => exact ⟨h.1, h.2.1.trans hlen, h.2.2⟩
  | store l => exact ⟨h.1, h.2.trans hlen⟩
  | _ => exact h

theorem Rep.write {s : State} {T : ℕ} (h : Rep L s T) (ev : SipEvent)
    (hroom : subWord 64 s.head s.tail < ringBufferSize) :
    Rep L { s with events := Function.update s.events (slot s.head) ev } T := by
  have hle := h.le_length
  rw [h.subWord_eq] at hroom
  have hlap : s.published.length < T + ringBufferSize := by omega
  have hslot : slot s.head = s.published.length % ringBufferSize := by rw [h.head_eq, slot_mod]
  rw [hslot]
  exact
    { head_eq := h.head_eq
      tail_eq := h.tail_eq
      le_length := hle
      length_le := h.length_le
      events_eq := by
        show window ringBufferSize (Function.update s.events _ ev) T s.published.length = _
        rw [window_write ev le_rfl hlap]
        exact h.events_eq
      pc := h.pc.write hlap ev
      running := h.running }

theorem Rep.publish {s : State} {T : ℕ} (h : Rep L s T)
    (hroom : subWord 64 s.head s.tail < ringBufferSize) :
    Rep L { s with
      head := addWord 64 s.head 1
      published := s.published ++ [s.events (slot s.head)] } T := by
  have hle := h.le_length
  rw [h.subWord_eq] at hroom
  have hlen : (s.published ++ [s.events (slot s.head)]).length = s.published.length + 1 := by simp
  exact
    { head_eq := by
        show addWord 64 s.head 1 = (s.published ++ _).length % 2 ^ 64
        rw [hlen, h.head_eq, addWord_mod]
      tail_eq := h.tail_eq
      le_length := by show T ≤ (s.published ++ _).length; omega
      length_le := by show (s.published ++ _).length ≤ _; omega
      events_eq := by
        show window ringBufferSize s.events T (s.published ++ _).length =
          (s.published ++ [s.events (slot s.head)]).drop T
        -- the slot was free until now; from here on it is event number `length`
        rw [hlen, window_succ _ _ hle, h.events_eq, List.drop_append_of_le_length hle, h.head_eq,
          slot_mod]
      pc := h.pc.publish _ _
      running := h.running }

/-- **Every step keeps the ring in order.** -/
theorem rep_moves {s s' : State} {T k : ℕ} {a : Act} (h : Rep L s T) (hm : Moves L s a s' k) :
    Rep L s' (T + k) := by
  have hpc : PcRep L s T s.pc := h.pc
  have hopen : ∀ {p : Pc}, s.pc = p → p ≠ .down → ∃ e, s.db.epoch = some e :=
    fun hp hne => h.running (hp ▸ hne)
  cases hm with
  | write ev hroom => exact h.write ev hroom
  | publish hroom => exact h.publish hroom
  | kill => exact h.goto trivial fun hne => absurd rfl hne
  | start _ => exact h.goto trivial fun _ => ⟨_, rfl⟩
  | attach hl => exact h.goto h.tail_eq fun _ => hopen hl (by simp)
  | pause l _ => exact h
  | seen l hl hne =>
    rw [hl] at hpc
    -- the words differ, so the counters do: there is an event
    refine h.goto ⟨hpc, lt_of_le_of_ne h.le_length ?_⟩ fun _ => hopen hl (by simp)
    rintro rfl
    exact hne (by rw [hpc, h.head_eq])
  | bind l behind b hl hb =>
    rw [hl] at hpc
    refine h.goto ⟨hpc.1, hpc.2, behind, ?_⟩ fun _ => hopen hl (by simp)
    rwa [hpc.1, slot_mod] at hb
  | bindFaults l behind hl => exact h.goto trivial fun hne => absurd rfl hne
  | begin l b hl =>
    rw [hl] at hpc
    refine h.goto hpc fun _ => ?_
    rw [Store.epoch_beginTx]
    exact hopen hl (by simp)
  | beginFails l b hl =>
    rw [hl] at hpc
    exact h.goto hpc fun _ => hopen hl (by simp)
  | insert l b behind out db hl hdb =>
    rw [hl] at hpc
    refine h.goto ?_ fun hne => ?_
    · cases out <;> first | exact hpc | exact trivial
    · rcases epoch_insertRow hdb with rfl | hepoch
      · exact absurd rfl hne
      · rw [hepoch]
        exact hopen hl (by simp)
  | commit l b out db hl hdb =>
    rw [hl] at hpc
    refine h.goto ⟨?_, hpc.2.1⟩ fun _ => ?_
    · rw [hpc.1, addWord_mod]
    · rw [epoch_commitTx hdb]
      exact hopen hl (by simp)
  | store l hl =>
    rw [hl] at hpc
    have hle := h.length_le
    exact
      { head_eq := h.head_eq
        tail_eq := hpc.1
        le_length := hpc.2
        length_le := by show s.published.length ≤ T + 1 + ringBufferSize; omega
        events_eq := by
          have hevents := h.events_eq
          -- the event passed leaves the window
          rw [window_cons _ _ hpc.2, List.drop_eq_getElem_cons hpc.2] at hevents
          exact (List.cons.inj hevents).2
        pc := hpc.1
        running := fun _ => hopen hl (by simp) }

theorem rep_boot (mem : ℕ → SipEvent) (rows : List Row) : Rep L (boot mem rows) 0 where
  head_eq := rfl
  tail_eq := rfl
  le_length := le_rfl
  length_le := Nat.zero_le _
  events_eq := window_self _ _ _
  pc := trivial
  running := fun hne => absurd rfl hne

end Daemon
end SovereignSeed
