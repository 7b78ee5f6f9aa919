import SovereignSeed.Python.JsonBytes
import SovereignSeed.Python.JsonLoaded

/-!
# The participants' request handlers

`SafeParticipantHandler` of `safe_participant_handler.py`, and the handler of the same name of
`commons_bridge/bridge.py`, from the headers of a POST request to what the client is sent.

Both read as many octets as `Content-Length` says, load them as JSON and look at the operation.  In
the first all of this is in one `try`, and an exception is an answer as well.  The second catches
what happens while the body is loaded; any other exception leaves the handler, and the server closes
the connection.

## Main definitions

* `intOfText` — `int(s)`.
* `Request`, `receive` — a request, and what `self.rfile.read` makes of it.
* `Response`, `doPost` — the handler of `safe_participant_handler.py`.
* `Reply`, `bridgePost` — the handler of `bridge.py`.

## Main results

* `loadBytes_sendJson` — what is sent is JSON.
* `participant_answers` — **the first handler answers whatever it is sent, the second some of it,
  and no operation is allowed by both.**
* `operation_round_trip` — **what becomes of the object a client posts.**
-/

namespace SovereignSeed
namespace Participant

open Python Json

/-! ### The request -/

/-- `int(s)`, or `none` where it raises `ValueError`. -/
def intOfText (s : PyStr) : Option ℤ :=
  (dropUnderscores false ((stripNumeral s).map asciiDigit)).bind fun t =>
    if maxStrDigits < (t.filter isDigit).length then none else readExponent t

/-- The rest of a request behind its headers, and the header that matters. -/
structure Request where
  /-- `self.headers.get('Content-Length')`. -/
  contentLength : Option PyStr
  /-- What the client has sent. -/
  sent : Bytes
  /-- The client has closed its side. -/
  ended : Bool

/-- Why a request is not carried out. -/
inductive Failure
  /-- `ValueError` of `int`. -/
  | badLength
  /-- `ValueError`, `OverflowError` or `MemoryError` of `read`. -/
  | badRead
  /-- `UnicodeDecodeError` or `JSONDecodeError`. -/
  | notJson
  /-- `AttributeError`: the payload is no `dict`. -/
  | noGet
  /-- `TypeError`: the operation is a `list` or a `dict`. -/
  | unhashable
  deriving DecidableEq

/-- The interpreter: how much can be read at once, and `str(e)`. -/
structure Interpreter where
  maxRead : ℕ
  /-- A length that can be read can be written down. -/
  maxRead_lt : maxRead < 10 ^ maxStrDigits
  message : Failure → Request → PyStr

/-- `self.rfile.read(n)`, or `none` where it waits for the client. -/
def Request.read (H : Interpreter) (r : Request) (n : ℤ) : Option (Except Failure Bytes) :=
  if n < -1 ∨ (H.maxRead : ℤ) < n then some (.error .badRead)
  else if n = -1 then if r.ended then some (.ok r.sent) else none
  else if n ≤ r.sent.length ∨ r.ended = true then some (.ok (r.sent.take n.toNat)) else none

/-- `self.rfile.read(int(self.headers.get('Content-Length', 0)))`. -/
def receive (H : Interpreter) (r : Request) : Option (Except Failure Bytes) :=
  match r.contentLength with
  | none => r.read H 0
  | some s =>
    match intOfText s with
    | none => some (.error .badLength)
    | some n => r.read H n

/-! ### The safe handler -/

/-- `ALLOWED_OPERATIONS`. -/
def allowedOperations : List PyStr :=
  [text "ping", text "validate_state", text "echo_evidence", text "get_status"]

/-- A response with its headers. -/
structure Response where
  status : ℕ
  contentType : PyStr
  contentLength : ℕ
  body : Bytes

/-- `_send_json`. -/
def sendJson (data : Value) (status : ℕ) : Response where
  status := status
  contentType := text "application/json"
  contentLength := (utf8 (data.render .spaced 0)).length
  body := utf8 (data.render .spaced 0)

/-- `f"{operation}"`, for what can be a member of a `set`. -/
def formatted : Value → Option PyStr
  | .null => some (text "None")
  | .bool b => some (if b then text "True" else text "False")
  | .int n => some (decimalInt n)
  | .float x => some x.repr
  | .str s => some s
  | _ => none

/-- `{"error": message}`. -/
def errorData (message : PyStr) : Value := .obj [(text "error", .str message)]

/-- The response to an allowed operation. -/
def successData (operation : PyStr) : Value :=
  .obj [(text "status", .str (text "success")), (text "operation", .str operation),
    (text "result", .str (text "processed_offline_cell"))]

/-- `json.loads(body.decode('utf-8')) if body else {}`. -/
def loadPayload (body : Bytes) : Except Failure Value :=
  if body = [] then .ok (.obj [])
  else
    match loadBytes body with
    | none => .error .notJson
    | some payload => .ok payload

/-- The operation is one of those that are allowed. -/
def isAllowed : Value → Bool
  | .str operation => allowedOperations.contains operation
  | _ => false

/-- What `do_POST` does with a body. -/
def processBody (body : Bytes) : Except Failure Response := do
  match ← loadPayload body with
  | .obj payload =>
    match formatted (field payload "operation") with
    | none => .error .unhashable
    | some operation =>
      if isAllowed (field payload "operation") then .ok (sendJson (successData operation) 200)
      else .ok (sendJson (errorData (text "Disallowed or unknown operation: " ++ operation)) 400)
  | _ => .error .noGet

/-- `do_POST`, or `none` where it waits for the client. -/
def doPost (H : Interpreter) (r : Request) : Option Response :=
  (receive H r).map fun body =>
    match body >>= processBody with
    | .ok response => response
    | .error e => sendJson (errorData (H.message e r)) 500

/-! ### The handler of the bridge -/

/-- What the client is sent. -/
inductive Reply
  /-- A body without a `Content-Length`. -/
  | success (body : Bytes)
  /-- `send_error`. -/
  | errorPage (status : ℕ) (message : PyStr)
  /-- Nothing: an exception has left the handler. -/
  | dropped

/-- The response to `validate_cell`. -/
def boundData : Value :=
  .obj [(text "status", .str (text "success")), (text "bound_address", .str (text "127.0.0.1"))]

/-- What `do_POST` does with a body. -/
def processMessage (body : Bytes) : Reply :=
  match loadBytes body with
  | none => .errorPage 400 (text "Invalid JSON")
  | some (.obj payload) =>
    if isStr (field payload "operation") (text "validate_cell") then
      .success (utf8 (boundData.render .spaced 0))
    else .errorPage 403 (text "Disallowed operation")
  | some _ => .dropped

/-- `do_POST` of the bridge, or `none` where it waits for the client. -/
def bridgePost (H : Interpreter) (r : Request) : Option Reply :=
  (receive H r).map fun
    | .ok body => processMessage body
    | .error _ => .dropped

/-! ### A length -/

theorem length_decimal {n k : ℕ} (h : n < 10 ^ k) (hk : 0 < k) : (decimal n).length ≤ k := by
  unfold decimal
  split
  · exact hk
  · rw [List.length_map, List.length_reverse, Nat.digits_length_le_iff (by decide)]
    exact h

/-- `int(str(n))` is `n`. -/
theorem intOfText_decimal {n : ℕ} (h : n < 10 ^ maxStrDigits) :
    intOfText (decimal n) = some (n : ℤ) := by
  have hdigits : ∀ c ∈ decimal n, isDigit c = true := fun c => isDigit_of_mem_decimal
  have hspec := fun c hc => floatChars_spec c (mem_floatChars_of_isDigit (hdigits c hc))
  have hascii : (decimal n).map asciiDigit = decimal n :=
    (List.map_congr_left fun c hc => (hspec c hc).2.1).trans (List.map_id _)
  have hfilter : (decimal n).filter isDigit = decimal n := List.filter_eq_self.mpr hdigits
  have hlen := length_decimal h (Nat.pos_of_ne_zero (by unfold maxStrDigits; decide))
  rw [intOfText, stripNumeral_eq_self fun c hc => (hspec c hc).1, hascii,
    dropUnderscores_eq_self (fun c hc => (hspec c hc).2.2), Option.bind_some, hfilter,
    if_neg (by omega)]
  have hread : readDigits (decimal n) = some n := by
    rw [readDigits, if_pos ⟨decimal_ne_nil n, List.all_eq_true.mpr hdigits⟩, ofDigits_decimal]
  cases hn : decimal n with
  | nil => exact absurd hn (decimal_ne_nil n)
  | cons c s =>
    -- a digit is no sign
    have hc : isDigit c = true := hdigits c (hn ▸ .head _)
    have hminus : c ≠ 0x2d := by
      rintro rfl
      exact absurd hc (by decide)
    have hplus : c ≠ 0x2b := by
      rintro rfl
      exact absurd hc (by decide)
    rw [readExponent, if_neg hminus, if_neg hplus, ← hn, hread]
    rfl

/-! ### What is sent is JSON -/

theorem loadBytes_sendJson {data : Value} (h : data.Loaded) (status : ℕ) :
    loadBytes (sendJson data status).body = some data :=
  h.loadBytes_render .spaced

/-- An error arrives, with the halves of its surrogate pairs joined. -/
theorem loadBytes_errorData (message : PyStr) (status : ℕ) :
    loadBytes (sendJson (errorData message) status).body =
      some (errorData (joinPairs message)) := by
  have hprint : (errorData message).printable = true :=
    printable_obj.mpr fun m hm => by
      rw [List.mem_singleton.mp hm]
      rfl
  have hkey : joinPairs (text "error") = text "error" := (joinPairs_eq_self_iff _).mpr rfl
  change loadBytes (utf8 ((errorData message).render .spaced 0)) = _
  rw [loadBytes_render hprint]
  simp [errorData, Value.joined, Value.dict, Value.rebuild, hkey, dictOf, setItem]

/-! ### What a body asks for -/

/-- The body is an object, and `op` is what `get` finds for its operation. -/
def Asks (body : Bytes) (op : Value) : Prop :=
  ∃ payload, loadBytes body = some (.obj payload) ∧ field payload "operation" = op

theorem Asks.unique {body : Bytes} {op op' : Value} (h : Asks body op) (h' : Asks body op') :
    op = op' := by
  obtain ⟨payload, hload, rfl⟩ := h
  obtain ⟨payload', hload', rfl⟩ := h'
  rw [hload] at hload'
  cases hload'
  rfl

theorem loadBytes_nil : loadBytes [] = none := by
  rfl

theorem Asks.ne_nil {body : Bytes} {op : Value} (h : Asks body op) : body ≠ [] := by
  rintro rfl
  obtain ⟨payload, hload, -⟩ := h
  rw [loadBytes_nil] at hload
  cases hload

theorem isAllowed_iff {op : Value} :
    isAllowed op = true ↔ ∃ operation ∈ allowedOperations, op = .str operation := by
  cases op <;> simp [isAllowed]

/-- An operation that cannot be looked up. -/
theorem processBody_unhashable {body : Bytes} {op : Value} (h : Asks body op)
    (hshown : formatted op = none) : processBody body = .error .unhashable := by
  have hne := h.ne_nil
  obtain ⟨payload, hload, rfl⟩ := h
  rw [processBody, loadPayload, if_neg hne, hload]
  simp only [bind, Except.bind, hshown]

/-- An operation that is looked up. -/
theorem processBody_shown {body : Bytes} {operation : PyStr} {op : Value} (h : Asks body op)
    (hshown : formatted op = some operation) : processBody body =
      if isAllowed op then .ok (sendJson (successData operation) 200)
      else .ok (sendJson (errorData
        (text "Disallowed or unknown operation: " ++ operation)) 400) := by
  have hne := h.ne_nil
  obtain ⟨payload, hload, rfl⟩ := h
  rw [processBody, loadPayload, if_neg hne, hload]
  simp only [bind, Except.bind, hshown]

/-! ### What a request is answered -/

section Answers

variable {H : Interpreter} {r : Request} {result : Except Failure Bytes}

theorem doPost_of_error {e : Failure} (h : receive H r = some result)
    (he : (result >>= processBody) = .error e) :
    doPost H r = some (sendJson (errorData (H.message e r)) 500) := by
  rw [doPost, h, Option.map_some, he]

theorem doPost_of_ok {response : Response} (h : receive H r = some result)
    (hok : (result >>= processBody) = .ok response) : doPost H r = some response := by
  rw [doPost, h, Option.map_some, hok]

/-- What the first handler answers, in four cases. -/
theorem doPost_cases (h : receive H r = some result) :
    -- an operation that is allowed
    (∃ body operation, result = .ok body ∧ operation ∈ allowedOperations ∧
      Asks body (.str operation) ∧ doPost H r = some (sendJson (successData operation) 200)) ∨
    -- no body
    (result = .ok [] ∧ doPost H r =
      some (sendJson (errorData (text "Disallowed or unknown operation: None")) 400)) ∨
    -- another operation
    (∃ body op operation, result = .ok body ∧ Asks body op ∧ isAllowed op = false ∧
      formatted op = some operation ∧ doPost H r =
        some (sendJson (errorData (text "Disallowed or unknown operation: " ++ operation)) 400)) ∨
    -- an exception
    ((∀ body, result = .ok body → body ≠ [] ∧ ∀ op, Asks body op → formatted op = none) ∧
      ∃ e, doPost H r = some (sendJson (errorData (H.message e r)) 500)) := by
  cases result with
  | error e => exact .inr (.inr (.inr ⟨nofun, e, doPost_of_error h rfl⟩))
  | ok body =>
    by_cases hnil : body = []
    · subst hnil
      exact .inr (.inl ⟨rfl, doPost_of_ok h rfl⟩)
    cases hload : loadBytes body with
    | none =>
      have hasks : ∀ op, Asks body op → formatted op = none := by
        rintro op ⟨payload, hsome, -⟩
        rw [hload] at hsome
        cases hsome
      refine .inr (.inr (.inr ⟨fun b hb => Except.ok.inj hb ▸ ⟨hnil, hasks⟩, .notJson, ?_⟩))
      refine doPost_of_error h ?_
      change processBody body = _
      rw [processBody, loadPayload, if_neg hnil, hload]
      rfl
    | some v =>
      by_cases hobj : ∃ payload, v = .obj payload
      · obtain ⟨payload, rfl⟩ := hobj
        have hasks : Asks body (field payload "operation") := ⟨payload, hload, rfl⟩
        cases hshown : formatted (field payload "operation") with
        | none =>
          have hnone : ∀ op, Asks body op → formatted op = none :=
            fun op hop => hop.unique hasks ▸ hshown
          exact .inr (.inr (.inr ⟨fun b hb => Except.ok.inj hb ▸ ⟨hnil, hnone⟩, .unhashable,
            doPost_of_error h (processBody_unhashable hasks hshown)⟩))
        | some operation =>
          have hprocess := processBody_shown hasks hshown
          cases hallowed : isAllowed (field payload "operation") with
          | true =>
            obtain ⟨name, hname, hop⟩ := isAllowed_iff.mp hallowed
            rw [hop] at hshown hallowed hasks hprocess
            obtain rfl : name = operation := Option.some.inj hshown
            rw [if_pos hallowed] at hprocess
            exact .inl ⟨body, name, rfl, hname, hasks, doPost_of_ok h hprocess⟩
          | false =>
            rw [hallowed, if_neg Bool.false_ne_true] at hprocess
            exact .inr (.inr (.inl ⟨body, _, operation, rfl, hasks, hallowed, hshown,
              doPost_of_ok h hprocess⟩))
      · have hasks : ∀ op, Asks body op → formatted op = none := by
          rintro op ⟨payload, hsome, -⟩
          rw [hload] at hsome
          exact absurd ⟨payload, Option.some.inj hsome⟩ hobj
        refine .inr (.inr (.inr ⟨fun b hb => Except.ok.inj hb ▸ ⟨hnil, hasks⟩, .noGet, ?_⟩))
        refine doPost_of_error h ?_
        change processBody body = _
        rw [processBody, loadPayload, if_neg hnil, hload]
        cases v with
        | obj payload => exact absurd ⟨payload, rfl⟩ hobj
        | _ => rfl

/-- What the handler of the bridge answers, in four cases. -/
theorem bridgePost_cases (h : receive H r = some result) :
    -- the operation that is allowed
    (∃ body, result = .ok body ∧ Asks body (.str (text "validate_cell")) ∧
      bridgePost H r = some (.success (utf8 (boundData.render .spaced 0)))) ∨
    -- another operation
    (∃ body op, result = .ok body ∧ Asks body op ∧ op ≠ .str (text "validate_cell") ∧
      bridgePost H r = some (.errorPage 403 (text "Disallowed operation"))) ∨
    -- no JSON
    (∃ body, result = .ok body ∧ loadBytes body = none ∧
      bridgePost H r = some (.errorPage 400 (text "Invalid JSON"))) ∨
    -- an exception
    ((∀ body, result = .ok body → loadBytes body ≠ none ∧ ∀ op, ¬ Asks body op) ∧
      bridgePost H r = some .dropped) := by
  cases result with
  | error e =>
    refine .inr (.inr (.inr ⟨nofun, ?_⟩))
    rw [bridgePost, h]
    rfl
  | ok body =>
    have hpost : bridgePost H r = some (processMessage body) := by
      rw [bridgePost, h]
      rfl
    rw [hpost, processMessage]
    cases hload : loadBytes body with
    | none => exact .inr (.inr (.inl ⟨body, rfl, hload, rfl⟩))
    | some v =>
      by_cases hobj : ∃ payload, v = .obj payload
      · obtain ⟨payload, rfl⟩ := hobj
        have hasks : Asks body (field payload "operation") := ⟨payload, hload, rfl⟩
        by_cases hop : isStr (field payload "operation") (text "validate_cell") = true
        · rw [isStr_eq_true_iff.mp hop] at hasks
          exact .inl ⟨body, rfl, hasks, congrArg some (if_pos hop)⟩
        · exact .inr (.inl ⟨body, _, rfl, hasks, fun heq => hop (isStr_eq_true_iff.mpr heq),
            congrArg some (if_neg hop)⟩)
      · have hasks : ∀ op, ¬ Asks body op := by
          rintro op ⟨payload, hsome, -⟩
          rw [hload] at hsome
          exact hobj ⟨payload, Option.some.inj hsome⟩
        refine .inr (.inr (.inr ⟨fun b hb => Except.ok.inj hb ▸ ⟨hload ▸ nofun, hasks⟩, ?_⟩))
        cases v with
        | obj payload => exact absurd ⟨payload, rfl⟩ hobj
        | _ => rfl

theorem loaded_successData {operation : PyStr} (h : operation ∈ allowedOperations) :
    (successData operation).Loaded := by
  have hpair : ∀ operation ∈ allowedOperations, hasPair operation = false := by decide
  have hkeys : ([text "status", text "operation", text "result"] : List PyStr).Nodup := by decide
  have hkey : ∀ key ∈ [text "status", text "operation", text "result"], hasPair key = false := by
    decide
  refine .obj hkeys (fun m hm => hkey m.1 (List.mem_map_of_mem hm)) fun m hm => ?_
  simp only [List.mem_cons, List.not_mem_nil, or_false] at hm
  rcases hm with rfl | rfl | rfl
  · exact .str rfl
  · exact .str (hpair operation h)
  · exact .str rfl

/-- No operation is allowed by both handlers. -/
theorem validate_cell_notMem : text "validate_cell" ∉ allowedOperations := by decide

/-- A response and the JSON in it. -/
def Response.Says (response : Response) (status : ℕ) (data : Value) : Prop :=
  response.status = status ∧ response.contentLength = response.body.length ∧
    loadBytes response.body = some data

theorem says_errorData (message : PyStr) (status : ℕ) :
    (sendJson (errorData message) status).Says status (errorData (joinPairs message)) :=
  ⟨rfl, rfl, loadBytes_errorData message status⟩

/-- The first handler answers whatever has been read. -/
theorem doPost_spec (h : receive H r = some result) :
    ∃ response, doPost H r = some response ∧
      ((∃ operation, response.Says 200 (successData operation)) ∨
        ∃ message, response.Says 400 (errorData message) ∨ response.Says 500 (errorData message)) ∧
      (response.status = 200 ↔
        ∃ body, result = .ok body ∧ ∃ operation ∈ allowedOperations, Asks body (.str operation)) ∧
      (response.status = 500 ↔ ∀ body, result = .ok body →
        body ≠ [] ∧ ∀ op, Asks body op → formatted op = none) := by
  have hformatted : ∀ operation, formatted (.str operation) ≠ none := nofun
  rcases doPost_cases h with ⟨body, operation, rfl, hmem, hasks, hpost⟩ | ⟨rfl, hpost⟩ |
    ⟨body, op, operation, rfl, hasks, hallowed, hshown, hpost⟩ | ⟨hexception, e, hpost⟩
  · refine ⟨_, hpost, .inl ⟨operation, rfl, rfl, ?_⟩, ?_, ?_⟩
    · exact loadBytes_sendJson (loaded_successData hmem) 200
    · exact iff_of_true rfl ⟨body, rfl, operation, hmem, hasks⟩
    · refine iff_of_false (by simp [sendJson]) fun hall => ?_
      exact hformatted _ ((hall body rfl).2 _ hasks)
  · refine ⟨_, hpost, .inr ⟨_, .inl (says_errorData _ 400)⟩, ?_, ?_⟩
    · refine iff_of_false (by simp [sendJson]) ?_
      rintro ⟨body, hbody, operation, -, hasks⟩
      exact hasks.ne_nil (Except.ok.inj hbody).symm
    · exact iff_of_false (by simp [sendJson]) fun hall => (hall [] rfl).1 rfl
  · refine ⟨_, hpost, .inr ⟨_, .inl (says_errorData _ 400)⟩, ?_, ?_⟩
    · refine iff_of_false (by simp [sendJson]) ?_
      rintro ⟨body', hbody, name, hname, hasks'⟩
      obtain rfl := Except.ok.inj hbody
      rw [hasks.unique hasks', isAllowed_iff.mpr ⟨name, hname, rfl⟩] at hallowed
      cases hallowed
    · refine iff_of_false (by simp [sendJson]) fun hall => ?_
      rw [(hall body rfl).2 op hasks] at hshown
      cases hshown
  · refine ⟨_, hpost, .inr ⟨_, .inr (says_errorData _ 500)⟩, ?_, iff_of_true rfl hexception⟩
    refine iff_of_false (by simp [sendJson]) ?_
    rintro ⟨body, hbody, operation, -, hasks⟩
    exact hformatted _ ((hexception body hbody).2 _ hasks)

/-- The handler of the bridge drops what cannot be read, and what is JSON but no object. -/
theorem bridgePost_spec (h : receive H r = some result) :
    ∃ reply, bridgePost H r = some reply ∧
      ((∃ sent, reply = .success sent) ↔
        ∃ body, result = .ok body ∧ Asks body (.str (text "validate_cell"))) ∧
      (reply = .dropped ↔ ∀ body, result = .ok body →
        loadBytes body ≠ none ∧ ∀ op, ¬ Asks body op) := by
  rcases bridgePost_cases h with ⟨body, rfl, hasks, hpost⟩ | ⟨body, op, rfl, hasks, hop, hpost⟩ |
    ⟨body, rfl, hload, hpost⟩ | ⟨hexception, hpost⟩
  · refine ⟨_, hpost, iff_of_true ⟨_, rfl⟩ ⟨body, rfl, hasks⟩, ?_⟩
    exact iff_of_false nofun fun hall => (hall body rfl).2 _ hasks
  · refine ⟨_, hpost, iff_of_false nofun ?_, ?_⟩
    · rintro ⟨body', hbody, hasks'⟩
      obtain rfl := Except.ok.inj hbody
      exact hop (hasks.unique hasks')
    · exact iff_of_false nofun fun hall => (hall body rfl).2 _ hasks
  · refine ⟨_, hpost, iff_of_false nofun ?_, ?_⟩
    · rintro ⟨body', hbody, payload, hload', -⟩
      obtain rfl := Except.ok.inj hbody
      rw [hload] at hload'
      cases hload'
    · exact iff_of_false nofun fun hall => (hall body rfl).1 hload
  · refine ⟨_, hpost, iff_of_false nofun ?_, iff_of_true rfl hexception⟩
    rintro ⟨body, hbody, hasks⟩
    exact (hexception body hbody).2 _ hasks

end Answers

/-! ### What a client posts -/

/-- The request of a client that posts a value, with whatever follows it on the connection. -/
def posted (L : Style) (v : Value) (behind : Bytes) (ended : Bool) : Request where
  contentLength := some (decimal (utf8 (v.render L 0)).length)
  sent := utf8 (v.render L 0) ++ behind
  ended := ended

/-- An interpreter on a machine of 64 bits, for requests that raise nothing. -/
def interpreter64 : Interpreter where
  maxRead := 9223372036854775807
  maxRead_lt := (Nat.lt_of_lt_of_le (by norm_num) pow_twenty_le)
  message := fun _ _ => []

/-- `{"operation": "ping"}`. -/
def ping : Members := [(text "operation", .str (text "ping"))]

theorem loaded_ping : (Value.obj ping).Loaded := by
  refine .obj (by decide) (by decide) fun m hm => ?_
  rw [List.mem_singleton.mp hm]
  exact .str rfl

theorem length_ping : (utf8 ((Value.obj ping).render .spaced 0)).length = 21 := by
  decide +kernel

section Posted

variable {H : Interpreter} {L : Style} {payload : Members}

/-- What is read is the value, and nothing of what follows it. -/
theorem receive_posted {v : Value} (h : (utf8 (v.render L 0)).length ≤ H.maxRead)
    (behind : Bytes) (ended : Bool) :
    receive H (posted L v behind ended) = some (.ok (utf8 (v.render L 0))) := by
  have hlt := h.trans_lt H.maxRead_lt
  rw [receive]
  simp only [posted, intOfText_decimal hlt]
  rw [Request.read, if_neg (by omega), if_neg (by omega), if_pos (by simp)]
  simp

theorem asks_posted (hloaded : (Value.obj payload).Loaded) (L : Style) :
    Asks (utf8 ((Value.obj payload).render L 0)) (field payload "operation") :=
  ⟨payload, hloaded.loadBytes_render L, rfl⟩

/-- What is found in a loaded object is a loaded value. -/
theorem loaded_field (hloaded : (Value.obj payload).Loaded) (k : String) :
    (field payload k).Loaded := by
  cases hloaded with
  | obj hkeys _ hvalues =>
    rw [field]
    cases hl : payload.lookup (text k) with
    | none => exact .null
    | some v => exact hvalues _ ((lookup_eq_some_iff hkeys).mp hl)

theorem hasPair_append {s : PyStr} (h : ∀ c ∈ s, isHigh c = false) (t : PyStr) :
    hasPair (s ++ t) = hasPair t := by
  induction s with
  | nil => rfl
  | cons c s ih =>
    rw [List.cons_append, hasPair_cons (h c (.head _)), ih fun d hd => h d (.tail _ hd)]

/-- An operation is shown without surrogate pairs. -/
theorem hasPair_formatted {op : Value} {shown : PyStr} (h : op.Loaded)
    (hshown : formatted op = some shown) : hasPair shown = false := by
  cases h with
  | null =>
    cases hshown
    rfl
  | bool b =>
    cases hshown
    cases b <;> rfl
  | int _ =>
    cases hshown
    exact hasPair_of_isScalar (IsAscii.isScalar fun c hc =>
      ascii_of_isPrint (isPrint_of_mem_decimalInt _ c hc))
  | float x =>
    cases hshown
    have hall : floatChars.all (fun c => c.val < 0x80) = true := by decide
    exact hasPair_of_isScalar (IsAscii.isScalar fun c hc =>
      of_decide_eq_true (List.all_eq_true.mp hall c (mem_floatChars_of_mem_repr c hc)))
  | str hs =>
    cases hshown
    exact hs
  | arr _ => cases hshown
  | obj _ _ _ => cases hshown

/-- The texts of a disallowed operation arrive as they are. -/
theorem says_disallowed {op : Value} {shown : PyStr} (h : op.Loaded)
    (hshown : formatted op = some shown) :
    (sendJson (errorData (text "Disallowed or unknown operation: " ++ shown)) 400).Says 400
      (errorData (text "Disallowed or unknown operation: " ++ shown)) := by
  have hall : (text "Disallowed or unknown operation: ").all (!isHigh ·) = true := by decide +kernel
  have hlow : ∀ c ∈ text "Disallowed or unknown operation: ", isHigh c = false :=
    fun c hc => by simpa using List.all_eq_true.mp hall c hc
  have hpair : hasPair (text "Disallowed or unknown operation: " ++ shown) = false :=
    (hasPair_append hlow shown).trans (hasPair_formatted h hshown)
  have hsays := says_errorData (text "Disallowed or unknown operation: " ++ shown) 400
  rwa [(joinPairs_eq_self_iff _).mpr hpair] at hsays

/-- What the first handler answers to an object, by its operation. -/
theorem doPost_asks {r : Request} {body : Bytes} {op : Value} (h : receive H r = some (.ok body))
    (hasks : Asks body op) (hop : op.Loaded) : ∃ response, doPost H r = some response ∧
      (∀ operation ∈ allowedOperations, op = .str operation →
        response.Says 200 (successData operation)) ∧
      (∀ shown, isAllowed op = false → formatted op = some shown → response.Says 400
        (errorData (text "Disallowed or unknown operation: " ++ shown))) ∧
      (formatted op = none → response.status = 500) := by
  rcases doPost_cases h with ⟨_, name, hbody, hname, hasks', hpost⟩ | ⟨hbody, -⟩ |
    ⟨_, _, shown, hbody, hasks', hrefused, hshown, hpost⟩ | ⟨hexception, e, hpost⟩
  · cases hbody
    cases hasks.unique hasks'
    have hallowed : isAllowed (.str name) = true := isAllowed_iff.mpr ⟨name, hname, rfl⟩
    refine ⟨_, hpost, ?_, fun shown hrefused => ?_, nofun⟩
    · rintro operation - heq
      cases heq
      exact ⟨rfl, rfl, loadBytes_sendJson (loaded_successData hname) 200⟩
    · rw [hallowed] at hrefused
      cases hrefused
  · exact absurd (Except.ok.inj hbody) hasks.ne_nil
  · cases hbody
    cases hasks.unique hasks'
    refine ⟨_, hpost, ?_, ?_, fun hnone => ?_⟩
    · rintro operation hname rfl
      rw [isAllowed_iff.mpr ⟨operation, hname, rfl⟩] at hrefused
      cases hrefused
    · intro shown' _ hshown'
      rw [hshown] at hshown'
      cases hshown'
      exact says_disallowed hop hshown
    · rw [hshown] at hnone
      cases hnone
  · have hnone : formatted op = none := (hexception body rfl).2 op hasks
    refine ⟨_, hpost, ?_, fun shown _ hshown => ?_, fun _ => rfl⟩
    · rintro operation - rfl
      cases hnone
    · rw [hnone] at hshown
      cases hshown

/-- What the handler of the bridge answers to an object, by its operation. -/
theorem bridgePost_asks {r : Request} {body : Bytes} {op : Value}
    (h : receive H r = some (.ok body)) (hasks : Asks body op) :
    bridgePost H r = some (if isStr op (text "validate_cell") then
      .success (utf8 (boundData.render .spaced 0))
    else .errorPage 403 (text "Disallowed operation")) := by
  obtain ⟨payload, hload, rfl⟩ := hasks
  have hpost : bridgePost H r = some (processMessage body) := by
    rw [bridgePost, h]
    rfl
  rw [hpost, processMessage, hload]

theorem loaded_boundData : boundData.Loaded := by
  refine .obj (by decide) (by decide) fun m hm => ?_
  simp only [List.mem_cons, List.not_mem_nil, or_false] at hm
  rcases hm with rfl | rfl <;> exact .str rfl

/-- **What becomes of the object that a client posts**: both handlers read the object as it was
posted, and the client reads what it has asked for in the answer. -/
theorem operation_round_trip (hloaded : (Value.obj payload).Loaded)
    (hread : (utf8 ((Value.obj payload).render L 0)).length ≤ H.maxRead)
    (behind : Bytes) (ended : Bool) : ∃ response reply,
      doPost H (posted L (.obj payload) behind ended) = some response ∧
      bridgePost H (posted L (.obj payload) behind ended) = some reply ∧
      (∀ operation ∈ allowedOperations, field payload "operation" = .str operation →
        response.Says 200 (successData operation)) ∧
      (∀ operation, isAllowed (field payload "operation") = false →
        formatted (field payload "operation") = some operation → response.Says 400
          (errorData (text "Disallowed or unknown operation: " ++ operation))) ∧
      (formatted (field payload "operation") = none → response.status = 500) ∧
      (field payload "operation" = .str (text "validate_cell") →
        ∃ sent, reply = .success sent ∧ loadBytes sent = some boundData) ∧
      (field payload "operation" ≠ .str (text "validate_cell") →
        reply = .errorPage 403 (text "Disallowed operation")) := by
  have hreceive : receive H (posted L (.obj payload) behind ended) = some (.ok _) :=
    receive_posted hread behind ended
  have hasks := asks_posted hloaded L
  obtain ⟨response, hpost, hallowed, hdisallowed, hunhashable⟩ :=
    doPost_asks hreceive hasks (loaded_field hloaded "operation")
  refine ⟨response, _, hpost, bridgePost_asks hreceive hasks, hallowed, hdisallowed, hunhashable,
    fun hop => ⟨_, if_pos (isStr_eq_true_iff.mpr hop), loaded_boundData.loadBytes_render .spaced⟩,
    fun hop => if_neg fun heq => hop (isStr_eq_true_iff.mp heq)⟩

end Posted

/-- A ping with the next request behind it. -/
theorem operation_round_trip_ping : ∃ response reply,
    doPost interpreter64 (posted .spaced (.obj ping) (utf8 (text "GET")) false) = some response ∧
      bridgePost interpreter64 (posted .spaced (.obj ping) (utf8 (text "GET")) false) =
        some reply ∧
      response.Says 200 (successData (text "ping")) ∧
      reply = .errorPage 403 (text "Disallowed operation") := by
  have hread : (utf8 ((Value.obj ping).render .spaced 0)).length ≤ interpreter64.maxRead := by
    rw [length_ping]
    decide
  obtain ⟨response, reply, hpost, hbridge, hallowed, -, -, -, hrefused⟩ :=
    operation_round_trip (L := .spaced) loaded_ping hread (utf8 (text "GET")) false
  have hop : field ping "operation" ≠ .str (text "validate_cell") :=
    fun heq => absurd (isStr_eq_true_iff.mpr heq) (by decide)
  exact ⟨response, reply, hpost, hbridge, hallowed _ (by decide) rfl, hrefused hop⟩

/-! ### Whatever is sent -/

section Whatever

variable {H : Interpreter} {r : Request} {result : Except Failure Bytes}

/-- **The first handler answers whatever it is sent, and what it sends is JSON of the length that it
announces.  The second leaves without an answer what cannot be read and what is JSON but no object;
and what it carries out the first one refuses.** -/
theorem participant_answers (h : receive H r = some result) :
    ∃ response reply, doPost H r = some response ∧ bridgePost H r = some reply ∧
      ((∃ operation, response.Says 200 (successData operation)) ∨
        ∃ message, response.Says 400 (errorData message) ∨ response.Says 500 (errorData message)) ∧
      (response.status = 200 ↔
        ∃ body, result = .ok body ∧ ∃ operation ∈ allowedOperations, Asks body (.str operation)) ∧
      (response.status = 500 ↔ ∀ body, result = .ok body →
        body ≠ [] ∧ ∀ op, Asks body op → formatted op = none) ∧
      ((∃ sent, reply = .success sent) ↔
        ∃ body, result = .ok body ∧ Asks body (.str (text "validate_cell"))) ∧
      (reply = .dropped ↔ ∀ body, result = .ok body →
        loadBytes body ≠ none ∧ ∀ op, ¬ Asks body op) ∧
      (reply = .dropped → response.status = 500) ∧
      ((∃ sent, reply = .success sent) → response.status = 400) := by
  obtain ⟨response, hpost, hsays, hdone, hexception⟩ := doPost_spec h
  obtain ⟨reply, hbridge, hsuccess, hdropped⟩ := bridgePost_spec h
  refine ⟨response, reply, hpost, hbridge, hsays, hdone, hexception, hsuccess, hdropped, ?_, ?_⟩
  · intro hreply
    refine hexception.mpr fun body hbody => ?_
    obtain ⟨hload, hasks⟩ := hdropped.mp hreply body hbody
    refine ⟨?_, fun op hop => absurd hop (hasks op)⟩
    rintro rfl
    exact hload loadBytes_nil
  · intro hreply
    obtain ⟨body, hbody, hasks⟩ := hsuccess.mp hreply
    rcases hsays with ⟨operation, hok⟩ | ⟨message, hbad | hfailed⟩
    · -- the operation would be allowed by both
      obtain ⟨body', hbody', name, hname, hasks'⟩ := hdone.mp hok.1
      obtain rfl := Except.ok.inj (hbody.symm.trans hbody')
      have hop := hasks.unique hasks'
      cases hop
      exact absurd hname validate_cell_notMem
    · exact hbad.1
    · have hnone := (hexception.mp hfailed.1 body hbody).2 _ hasks
      cases hnone

end Whatever

/-- A ping is carried out by the first handler alone. -/
theorem participant_answers_ping : ∃ response reply,
    doPost interpreter64 (posted .spaced (.obj ping) [] true) = some response ∧
      bridgePost interpreter64 (posted .spaced (.obj ping) [] true) = some reply ∧
      response.status = 200 ∧ (¬ ∃ sent, reply = .success sent) ∧ reply ≠ .dropped := by
  have hread : (utf8 ((Value.obj ping).render .spaced 0)).length ≤ interpreter64.maxRead := by
    rw [length_ping]
    decide
  obtain ⟨response, reply, hpost, hbridge, -, hdone, -, -, -, hdropped, hsuccess⟩ :=
    participant_answers (receive_posted (L := .spaced) hread [] true)
  have hstatus : response.status = 200 :=
    hdone.mpr ⟨_, rfl, text "ping", by decide, asks_posted loaded_ping .spaced⟩
  refine ⟨response, reply, hpost, hbridge, hstatus, fun hsent => ?_, fun hdrop => ?_⟩
  · exact absurd (hstatus.symm.trans (hsuccess hsent)) (by decide)
  · exact absurd (hstatus.symm.trans (hdropped hdrop)) (by decide)

end Participant
end SovereignSeed
