import SovereignSeed.Foundation.Machine
import SovereignSeed.Foundation.Store
import SovereignSeed.Tollbridge.Security
import Mathlib.Logic.Function.Basic

/-!
# The ingress metering engine

`tollbridge/ingress_metering.py` as a machine.  A submission is a coroutine that
hands its vault record to a thread and puts its payload on the queue when it
resumes; the writer loop collects payloads and hands each batch to a thread.
Code without an `await` in it is one step of the event loop.  The statements of
a thread are steps of their own, since other threads use the same connection
between them; calls that overlap on the shared connection are taken one after
another, as `sqlite3` promises threads that share one (`threadsafety` 3).

A step that can raise carries the fault in its action.  A failed statement
leaves the transaction as it was.  Rows carry the call they come from, and
`accepted` lists the payloads put so far; no step reads either.

## Main definitions

* `VaultRow`, `TelemetryRow`, `Tables` — the two tables.
* `Request`, `validateSubmission` — the arguments of a submission, and the checks on them.
* `CallPc`, `WriterPc`, `Engine` — the control points, and the whole engine.
* `Act`, `Engine.step`, `engineMachine` — the steps.
-/

namespace SovereignSeed
namespace Tollbridge

open Python

/-! ### The tables -/

/-- `s` has a UTF-8 form, without which `sqlite3` cannot bind it. -/
def encodable (s : PyStr) : Bool := (encode s).isSome

/-- A row of `idempotency_vault`, with the engine and the call it comes from. -/
structure VaultRow where
  clientPubkey : PyStr
  nonce : PyStr
  timestampSec : PyFloat
  signatureHex : PyStr
  caller : Option (ℕ × ℕ)
  deriving DecidableEq

/-- `PRIMARY KEY (client_pubkey, nonce)`. -/
def VaultRow.key (row : VaultRow) : PyStr × PyStr := (row.clientPubkey, row.nonce)

/-- The columns of a vault row that are text can be bound. -/
def VaultRow.bindable (row : VaultRow) : Bool :=
  encodable row.clientPubkey && encodable row.nonce && encodable row.signatureHex

/-- A row of `ingress_telemetry`, which is also an item of the queue. -/
structure TelemetryRow where
  clientPubkey : PyStr
  assetType : PyStr
  subscriptionTopic : PyStr
  envelopeHash : PyStr
  contentType : PyStr
  payloadBlob : Bytes
  ingestedAtSec : ClockReading
  caller : Option (ℕ × ℕ)
  deriving DecidableEq

/-- The columns of a telemetry row that are text can be bound. -/
def TelemetryRow.bindable (row : TelemetryRow) : Bool :=
  encodable row.clientPubkey && encodable row.assetType && encodable row.subscriptionTopic &&
    encodable row.envelopeHash && encodable row.contentType

/-- The database. -/
structure Tables where
  vault : List VaultRow
  telemetry : List TelemetryRow

/-! ### Submissions -/

/-- The arguments of the constructor that the steps read; a depth of 0 is no bound. -/
structure Config where
  maxQueueDepth : ℕ
  batchSize : ℕ

/-- The arguments of `submit_envelope_payload`. -/
structure Request extends Header where
  rawPayload : Bytes
  deriving DecidableEq

/-- The bytes the signature of a request is verified over. -/
def Request.signedBytes (C : Crypto) (r : Request) : Bytes := r.toHeader.canonicalBytes C r.rawPayload

/-- `submit_envelope_payload` up to its `await`: the reason of a rejection, if any. -/
def validateSubmission (C : Crypto) (now : ClockReading) (r : Request) : Except String Unit :=
  if verifyTimestampFreshness now r.timestampSec = false then .error "TIMESTAMP_STALE"
  else
    match verifyEd25519Envelope C r.clientPubkey (r.signedBytes C) r.signatureHex with
    | (false, verifyReason) => .error verifyReason
    | (true, _) => .ok ()

/-- What `_insert_idempotency_record_sync` raises: an `IntegrityError`, or any other. -/
inductive DbError
  | integrity
  | other
  deriving DecidableEq

/-- What a submission returns. -/
inductive Response
  | accepted
  | rejected (reason : String)
  deriving DecidableEq

/-- The control point of a submission. -/
inductive CallPc
  /-- Its thread has not begun. -/
  | scheduled
  /-- Its thread has a cursor of connection `epoch`. -/
  | cursor (epoch : ℕ)
  /-- A transaction is open for its `INSERT`. -/
  | begun (epoch : ℕ)
  /-- Its `INSERT` is done, its `commit` is not. -/
  | inserted (epoch : ℕ)
  /-- Its thread has ended; the coroutine has not resumed. -/
  | finished (result : Except DbError Unit)
  | returned (response : Response)
  deriving DecidableEq

/-- A submission: its arguments, the time of its freshness check, its control point. -/
structure Call where
  request : Request
  submittedAt : ClockReading
  pc : CallPc
  deriving DecidableEq

/-- The vault record of call `i` of engine `eid`. -/
def Call.vaultRow (eid i : ℕ) (call : Call) : VaultRow where
  clientPubkey := call.request.clientPubkey
  nonce := call.request.nonce
  timestampSec := call.request.timestampSec
  signatureHex := call.request.signatureHex
  caller := some (eid, i)

/-- The queue item of call `i` of engine `eid`, built at the clock reading `now`. -/
def Call.item (C : Crypto) (eid i : ℕ) (now : ClockReading) (call : Call) : TelemetryRow where
  clientPubkey := call.request.clientPubkey
  assetType := call.request.assetType
  subscriptionTopic := call.request.subscriptionTopic
  envelopeHash := C.hexdigest call.request.rawPayload
  contentType := call.request.contentType
  payloadBlob := call.request.rawPayload
  ingestedAtSec := now
  caller := some (eid, i)

/-! ### The engine -/

/-- The control point of the writer loop.  `final` marks the drain after the loop. -/
inductive WriterPc
  /-- The task is created and has not run. -/
  | created
  /-- Waiting for an item. -/
  | getting
  /-- The thread of a flush has not begun. -/
  | starting (final : Bool)
  /-- The thread has a transaction open and `k` rows of the batch written. -/
  | writing (final : Bool) (k : ℕ)
  /-- The thread has ended after `k` rows; the loop has not resumed. -/
  | flushed (final : Bool) (k : ℕ)
  /-- There is no task, or it has ended. -/
  | done
  deriving DecidableEq

/-- How many rows of the batch the flush has written. -/
def WriterPc.written : WriterPc → ℕ
  | .writing _ k => k
  | .flushed _ k => k
  | _ => 0

/-- `IngressMeteringEngine`.  `stopping` says that a `stop()` has not returned. -/
structure Engine where
  store : Store Tables
  stopEvent : Bool
  stopping : Bool
  queue : List TelemetryRow
  batch : List TelemetryRow
  writer : WriterPc
  calls : ℕ → Option Call
  submitted : ℕ
  accepted : List TelemetryRow

namespace Engine

/-- The vault, in the file and as the connection sees it. -/
def vault (s : Engine) : Store (List VaultRow) := s.store.map Tables.vault

/-- The telemetry, in the file and as the connection sees it. -/
def telemetry (s : Engine) : Store (List TelemetryRow) := s.store.map Tables.telemetry

/-- Call `i` moves to a control point. -/
def setPc (s : Engine) (i : ℕ) (call : Call) (pc : CallPc) : Engine :=
  { s with calls := Function.update s.calls i (some { call with pc := pc }) }

/-- `put_nowait` raises `QueueFull`. -/
def queueFull (s : Engine) (cfg : Config) : Bool :=
  0 < cfg.maxQueueDepth && cfg.maxQueueDepth ≤ s.queue.length

/-- The statements of `_insert_idempotency_record_sync` on an old connection fail. -/
def onConnection (s : Engine) (epoch : ℕ) : Bool := s.store.epoch == some epoch

/-- The outcome of the `INSERT` of `row`; NaN is stored as `NULL`. -/
def insertResult (s : Engine) (epoch : ℕ) (row : VaultRow) (fault : Bool) : Except DbError Unit :=
  if !s.onConnection epoch || !row.bindable || fault then .error .other
  else if row.timestampSec = .nan ∨ row.key ∈ s.vault.view.map VaultRow.key then .error .integrity
  else .ok ()

/-- `INSERT INTO idempotency_vault`. -/
def insertVault (s : Engine) (row : VaultRow) : Engine :=
  { s with store := s.store.write fun t => { t with vault := t.vault ++ [row] } }

/-- One row of `INSERT INTO ingress_telemetry`. -/
def insertTelemetry (s : Engine) (row : TelemetryRow) : Engine :=
  { s with store := s.store.write fun t => { t with telemetry := t.telemetry ++ [row] } }

/-- `submit_envelope_payload` up to its `await`. -/
def submit (C : Crypto) (now : ClockReading) (r : Request) (s : Engine) : Engine :=
  let pc := match validateSubmission C now r with
    | .ok () => CallPc.scheduled
    | .error reason => .returned (.rejected reason)
  { s with
    calls := Function.update s.calls s.submitted (some ⟨r, now, pc⟩)
    submitted := s.submitted + 1 }

/-- `submit_envelope_payload` from its `await` on, after a good record. -/
def put (C : Crypto) (cfg : Config) (eid i : ℕ) (call : Call) (now : ClockReading)
    (s : Engine) : Engine :=
  if s.queueFull cfg then
    s.setPc i call (.returned (.rejected "BACKPRESSURE_REJECTION_QUEUE_FULL"))
  else
    { s.setPc i call (.returned .accepted) with
      queue := s.queue ++ [call.item C eid i now]
      accepted := s.accepted ++ [call.item C eid i now] }

/-- Where the drain after the loop leads. -/
def finalDrain (s : Engine) : WriterPc := if s.batch = [] then .done else .starting true

/-- Where the condition of the loop leads. -/
def loopTest (s : Engine) : WriterPc :=
  if s.stopEvent = false ∨ s.queue ≠ [] then .getting else s.finalDrain

/-- Where the loop leads after its `try`; a flush of an empty batch returns at once. -/
def afterGet (cfg : Config) (s : Engine) : WriterPc :=
  if cfg.batchSize ≤ s.batch.length ∨ (s.batch ≠ [] ∧ s.stopEvent = true) then
    if s.batch = [] then s.loopTest else .starting false
  else s.loopTest

/-- `start()`. -/
def start (s : Engine) : Engine :=
  { s with store := s.store.openSession, stopEvent := false, writer := .created }

end Engine

/-- What can happen next. -/
inductive Act
  /-- `start()` of an engine that is not running. -/
  | start
  /-- A call of `stop()` of a running engine, up to its `await`. -/
  | stopCall
  /-- `stop()` after the writer task has ended. -/
  | stopReturn
  | submit (now : ClockReading) (r : Request)
  /-- `self._db_conn.cursor()` in the thread of call `i`. -/
  | openCursor (i : ℕ)
  | beginInsert (i : ℕ) (fault : Bool)
  | insert (i : ℕ) (fault : Bool)
  /-- `self._db_conn.commit()` in the thread of call `i`. -/
  | commitInsert (i : ℕ) (fault : Bool)
  | resume (i : ℕ) (now : ClockReading)
  | writerStart
  | get
  | timeout
  /-- The writer task is cancelled while it waits for an item. -/
  | cancel
  | flushBegin (fault : Bool)
  | flushRow (fault : Bool)
  | flushCommit (fault : Bool)
  | flushReturn
  deriving DecidableEq

namespace Engine

/-- What call `i` does with its record when it resumes. -/
def respond (C : Crypto) (cfg : Config) (eid i : ℕ) (call : Call) (now : ClockReading)
    (s : Engine) : Except DbError Unit → Engine
  | .error .integrity => s.setPc i call (.returned (.rejected "NONCE_REPLAY_DETECTED"))
  | .error .other => s.setPc i call (.returned (.rejected "INTERNAL_DATABASE_FAULT"))
  | .ok () => s.put C cfg eid i call now

/-- A step of call `i`, which is at the control point of `call`. -/
def stepCall (C : Crypto) (cfg : Config) (eid : ℕ) (s : Engine) (i : ℕ) (call : Call) :
    Act → Option Engine
  | .openCursor _ =>
    if call.pc = .scheduled then
      match s.store.epoch with
      | none => some (s.setPc i call (.finished (.error .other)))
      | some epoch => some (s.setPc i call (.cursor epoch))
    else none
  | .beginInsert _ fault =>
    match call.pc with
    | .cursor epoch =>
      if !s.onConnection epoch || fault then some (s.setPc i call (.finished (.error .other)))
      else some ({ s with store := s.store.beginTx }.setPc i call (.begun epoch))
    | _ => none
  | .insert _ fault =>
    match call.pc with
    | .begun epoch =>
      match s.insertResult epoch (call.vaultRow eid i) fault with
      | .error e => some (s.setPc i call (.finished (.error e)))
      | .ok () => some ((s.insertVault (call.vaultRow eid i)).setPc i call (.inserted epoch))
    | _ => none
  | .commitInsert _ fault =>
    match call.pc with
    | .inserted _ =>
      -- the connection of now, which need not be the one of the `INSERT`
      if s.store.epoch = none ∨ (fault = true ∧ s.store.inTx = true) then
        some (s.setPc i call (.finished (.error .other)))
      else some ({ s with store := s.store.commit }.setPc i call (.finished (.ok ())))
    | _ => none
  | .resume _ now =>
    match call.pc with
    | .finished result => some (s.respond C cfg eid i call now result)
    | _ => none
  | _ => none

/-- A step of the writer task. -/
def stepWriter (cfg : Config) (s : Engine) : Act → Option Engine
  | .writerStart => if s.writer = .created then some { s with writer := s.loopTest } else none
  | .get =>
    if s.writer = .getting then
      match s.queue with
      | [] => none
      | item :: rest =>
        let t := { s with queue := rest, batch := s.batch ++ [item] }
        some { t with writer := t.afterGet cfg }
    else none
  | .timeout => if s.writer = .getting then some { s with writer := s.afterGet cfg } else none
  | .cancel => if s.writer = .getting then some { s with writer := s.finalDrain } else none
  | .flushBegin fault =>
    match s.writer with
    | .starting final =>
      if s.store.epoch = none ∨ fault = true then some { s with writer := .flushed final 0 }
      else some { s with store := s.store.beginTx, writer := .writing final 0 }
    | _ => none
  | .flushRow fault =>
    match s.writer with
    | .writing final k =>
      (s.batch[k]?).bind fun item =>
        if !item.bindable || fault then some { s with writer := .flushed final k }
        else some { s.insertTelemetry item with writer := .writing final (k + 1) }
    | _ => none
  | .flushCommit fault =>
    match s.writer with
    | .writing final k =>
      if k = s.batch.length then
        if fault = true ∧ s.store.inTx = true then some { s with writer := .flushed final k }
        else some { s with store := s.store.commit, writer := .flushed final k }
      else none
    | _ => none
  | .flushReturn =>
    match s.writer with
    | .flushed final _ =>
      let t := { s with batch := [] }
      some { t with writer := if final then .done else t.loopTest }
    | _ => none
  | _ => none

/-- The next state. -/
def step (C : Crypto) (cfg : Config) (eid : ℕ) (s : Engine) (a : Act) : Option Engine :=
  match a with
  | .start =>
    if s.store.epoch = none ∧ s.writer = .done ∧ s.stopping = false then some s.start else none
  | .stopCall =>
    if s.store.epoch ≠ none ∧ s.stopping = false then
      some { s with stopEvent := true, stopping := true }
    else none
  | .stopReturn =>
    if s.stopping = true ∧ s.writer = .done then
      some { s with store := s.store.close, stopping := false }
    else none
  | .submit now r => some (s.submit C now r)
  | .openCursor i => (s.calls i).bind fun call => s.stepCall C cfg eid i call a
  | .beginInsert i _ => (s.calls i).bind fun call => s.stepCall C cfg eid i call a
  | .insert i _ => (s.calls i).bind fun call => s.stepCall C cfg eid i call a
  | .commitInsert i _ => (s.calls i).bind fun call => s.stepCall C cfg eid i call a
  | .resume i _ => (s.calls i).bind fun call => s.stepCall C cfg eid i call a
  | _ => s.stepWriter cfg a

/-- A new engine object on a database file no connection is open on. -/
def fresh (file : Tables) : Engine where
  store := ⟨file, none, 0⟩
  stopEvent := false
  stopping := false
  queue := []
  batch := []
  writer := .done
  calls := fun _ => none
  submitted := 0
  accepted := []

end Engine

/-- Rows of earlier engines: the keys of the vault are unique. -/
structure Tables.Initial (file : Tables) : Prop where
  keys : (file.vault.map VaultRow.key).Nodup
  vault : ∀ row ∈ file.vault, row.caller = none
  telemetry : ∀ row ∈ file.telemetry, row.caller = none

/-- Engine `eid` on its database file. -/
def engineMachine (C : Crypto) (cfg : Config) (eid : ℕ) : Machine Engine Act where
  init := fun s => ∃ file : Tables, file.Initial ∧ s = .fresh file
  step := Engine.step C cfg eid

/-- The files of a first start. -/
theorem Tables.initial_nil : Tables.Initial ⟨[], []⟩ := ⟨List.nodup_nil, nofun, nofun⟩

/-! ### Two clients -/

/-- A clock reading: 1700000000 seconds. -/
def clock : ClockReading :=
  ⟨.finite false ⟨1700000000 * 2 ^ 22, 1052, by decide, .inl (by decide), by decide +kernel⟩, rfl⟩

/-- A second public key. -/
def bobKey : Bytes :=
  bytesOf 32 0x3d4017c3e843895a92b70aa74d1b7ebc9c982ccf2ec4968cc0cd55f12af4660c

@[inherit_doc bobKey]
def bobAddress : PyStr := text "586Z7H2vpX9qNhN2T4e9Utugie3ogjbxzGaMtM3E6HR5"

/-- A payload: an empty JSON object. -/
def emptyObject : Bytes := [0x7b, 0x7d]

/-- The SHA-256 digest of `emptyObject`. -/
def emptyObjectDigest : Bytes :=
  bytesOf 32 0x44136fa355b3678a1146ad16f7e8649e94fb4fc21fe77e8310c060f61caaff8a

/-- A request for `emptyObject`, made at the time of `clock`, with the two halves
of its signature. -/
def requestOf (address nonce assetType : PyStr) (half half' : ℕ) : Request where
  protocolVersion := text "sip-v1.0"
  clientPubkey := address
  nonce := nonce
  timestampSec := clock.val
  assetType := assetType
  subscriptionTopic := text "telemetry.v1"
  contentType := text "application/json"
  signatureHex := hexOf (bytesOf 32 half ++ bytesOf 32 half')
  rawPayload := emptyObject

/-- A request of the holder of `aliceKey`. -/
def aliceFirst : Request :=
  requestOf aliceAddress (text "n1") (text "SOL")
    0x06c29a7f1eb8d397e2abb158ba9b1030511d68ad9bb551b62666ef74a7348c96
    0x760f408a6d3b6ea69a68a1fba76e4125bed06bd498bf79723c9298963f4dcc0e

/-- The first request with a space after the nonce, which the signature allows. -/
def aliceSpelling : Request := { aliceFirst with nonce := text "n1 " }

/-- A second request, under another nonce. -/
def aliceSecond : Request :=
  requestOf aliceAddress (text "n2") (text "SOL")
    0x0bce06f9b01fedb8e30f332585dd5671e2b6fdd1d813a02746a0d2b6706c0329
    0x1414d070f9a3a6dd47fe26ea597365ba33a5220c1acf1f3edfc4d0434c78cf04

/-- A request whose asset type is a lone surrogate. -/
def aliceSurrogate : Request :=
  requestOf aliceAddress (text "n3") [0xd800]
    0x371b55a1c5009433a8828fbefce2ca03b0cdb9c7763d062a03fed0a44306a75e
    0x6fe6f66f2110b0b268c341b5034a8dcdb08d37f3c3b88bd24968e172bca47407

/-- A request of the holder of `bobKey`. -/
def bobFirst : Request :=
  requestOf bobAddress (text "n1") (text "SOL")
    0x35139d734e2149b8c4e094b1f81aeae602c44aae8d6309ad87162bf79777edd4
    0x192faf0465058297115ee21b97be4b867294647da1ae7cd1c293ca382041150c

/-- The functions of other packages on these requests: the digest of the payload,
the two keys, and the signatures, which verify. -/
def clientCrypto : Crypto :=
  .ofTable [(emptyObject, emptyObjectDigest)] [(aliceAddress, aliceKey), (bobAddress, bobKey)]
    ([(aliceKey, aliceFirst), (aliceKey, aliceSecond), (aliceKey, aliceSurrogate),
      (bobKey, bobFirst)].map fun (key, r) =>
        (key, buildCanonicalEnvelopeBytes (r.toHeader.envelope (hexOf emptyObjectDigest)),
          (fromHex r.signatureHex).getD []))

/-- All steps of the submission of `r` as call `i`, with no fault. -/
def submission (i : ℕ) (r : Request) : List Act :=
  [.submit clock r, .openCursor i, .beginInsert i false, .insert i false, .commitInsert i false,
    .resume i clock]

end Tollbridge
end SovereignSeed
