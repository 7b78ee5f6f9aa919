import SovereignSeed.Foundation.Machine
import SovereignSeed.Python.JsonTree
import SovereignSeed.Python.Value
import Mathlib.Logic.Function.Basic

/-!
# The loopback adapter

`LocalLoopbackJsonRpcAdapter` of `commons_bridge/adapters/json_rpc_adapter.py`, and the
loader of `commons_bridge/loader.py`.  The check of the host is in `initialize`, the flag
`_running` is set by the body of `stream_data` and cleared by `stop`.  Nothing says in
which order they are called.

`stream_data` is an asynchronous generator: a call only creates it, and its body begins
when it is advanced for the first time.  Advanced again it sleeps before it looks at the
flag, and other calls go on meanwhile.

`events` is history, the newest first.

## Main definitions

* `Adapter`, `Adapter.initializeAdapter`, `packet` — the adapter, its check and its packets.
* `loadAdaptersFromConfig`, `Made` — the loader, and where adapters come from.
* `Stream`, `Session`, `step`, `machine` — an adapter under every sequence of calls.
-/

namespace SovereignSeed
namespace CommonsBridge

open Python Json

/-! ### The adapter -/

/-- A `LocalLoopbackJsonRpcAdapter`. -/
structure Adapter where
  config : Dict
  running : Bool

/-- `LocalLoopbackJsonRpcAdapter(config)`. -/
def Adapter.new (config : Dict) : Adapter := ⟨config, false⟩

/-- `self.config.get("host", "127.0.0.1")`. -/
def targetHost (config : Dict) : PyValue :=
  (config.lookup (text "host")).getD (.str (text "127.0.0.1"))

/-- The text of the `ValueError`. -/
def safetyViolation : String :=
  "Safety violation: Commons adapters must bind strictly to 127.0.0.1."

/-- `initialize`: what it returns, or the text of the error it raises. -/
def Adapter.initializeAdapter (a : Adapter) : Except String Bool :=
  if targetHost a.config ≠ .str (text "127.0.0.1") then .error safetyViolation else .ok true

/-- `100.0 + counter`, which is exact for the counters there are. -/
def signal (counter : ℕ) : PyFloat := (PyFloat.ofInt (100 + counter)).getD .nan

/-- `payload`. -/
def packet (counter : ℕ) : Value :=
  .obj [(text "adapter", .str (text "json_rpc_loopback")), (text "sequence", .int counter),
    (text "status", .str (text "active_stream")),
    (text "payload", .obj [(text "metric", .str (text "simulated_rpc_signal")),
      (text "value", .float (signal counter))])]

/-! ### The loader -/

/-- What `importlib.import_module` and `getattr` find: the class of `Adapter`, or another
one, which may raise where it is called. -/
inductive AdapterClass (B : Type*)
  | localLoopbackJsonRpc
  | other (build : Dict → Option B)

variable {B : Type*}

/-- `adapter_class(adapter_config)`, or `none` where it raises. -/
def AdapterClass.build : AdapterClass B → Dict → Option (Adapter ⊕ B)
  | .localLoopbackJsonRpc, entry => some (.inl (.new entry))
  | .other build, entry => (build entry).map .inr

/-- `load_adapters_from_config`, with what the file has for `adapters`, or `none` where it
raises. -/
def loadAdaptersFromConfig (importClass : PyValue → PyValue → Option (AdapterClass B))
    (adapters : Option (List Dict)) : Option (List (Adapter ⊕ B)) :=
  (adapters.getD []).mapM fun entry => do
    let adapterClass ← importClass (entry.get "module") (entry.get "class")
    adapterClass.build entry

/-- An adapter as its user gets it. -/
inductive Made (importClass : PyValue → PyValue → Option (AdapterClass B)) : Adapter → Prop
  | direct (config : Dict) : Made importClass (.new config)
  | loaded {adapters : Option (List Dict)} {as : List (Adapter ⊕ B)} {a : Adapter} :
      loadAdaptersFromConfig importClass adapters = some as → .inl a ∈ as → Made importClass a

/-! ### Sequences of calls -/

/-- A generator of `stream_data`. -/
inductive Stream
  /-- Not created yet. -/
  | absent
  /-- Created, with the body not begun. -/
  | created
  /-- Behind its `yield`. -/
  | yielded (counter : ℕ)
  /-- In `asyncio.sleep`. -/
  | sleeping (counter : ℕ)
  | finished

/-- What a call has done. -/
inductive Event
  /-- `initialize` has returned. -/
  | initialized (result : Bool)
  /-- `initialize` has raised a `ValueError`. -/
  | refused (message : String)
  /-- `stream_data` has created a generator. -/
  | created (i : ℕ)
  /-- A generator has yielded a packet. -/
  | packet (i : ℕ) (payload : Value)
  /-- `stop` has been called. -/
  | stopped

/-- An adapter and its generators. -/
structure Session where
  adapter : Adapter
  streams : ℕ → Stream
  /-- The number of generators created. -/
  next : ℕ
  /-- The calls so far, the newest first. -/
  events : List Event

/-- Before the first call. -/
def Session.start (a : Adapter) : Session := ⟨a, fun _ => .absent, 0, []⟩

/-- What is called next. -/
inductive Act
  /-- `initialize`. -/
  | initializeAdapter
  | streamData
  /-- `__anext__` of a generator, up to where it answers or sleeps. -/
  | advance (i : ℕ)
  /-- The sleep of a generator is over. -/
  | wake (i : ℕ)
  | stop
  deriving DecidableEq

/-- `while self._running and counter < 5`, up to the next `yield`. -/
def Session.loop (s : Session) (i counter : ℕ) : Session :=
  if s.adapter.running = true ∧ counter < 5 then
    { s with
      streams := Function.update s.streams i (.yielded counter)
      events := .packet i (packet counter) :: s.events }
  else { s with streams := Function.update s.streams i .finished }

/-- A call, or a step of a generator. -/
def step (s : Session) : Act → Option Session
  | .initializeAdapter =>
    match s.adapter.initializeAdapter with
    | .ok result => some { s with events := .initialized result :: s.events }
    | .error message => some { s with events := .refused message :: s.events }
  | .streamData =>
    some { s with
      streams := Function.update s.streams s.next .created
      next := s.next + 1
      events := .created s.next :: s.events }
  | .advance i =>
    match s.streams i with
    | .absent => none
    | .created => some (Session.loop { s with adapter := { s.adapter with running := true } } i 0)
    | .yielded counter =>
      some { s with streams := Function.update s.streams i (.sleeping (counter + 1)) }
    -- a generator that is running raises `RuntimeError`
    | .sleeping _ => some s
    -- and one that has ended `StopAsyncIteration`
    | .finished => some s
  | .wake i =>
    match s.streams i with
    | .sleeping counter => some (s.loop i counter)
    | _ => none
  | .stop =>
    some { s with adapter := { s.adapter with running := false }, events := .stopped :: s.events }

/-- An adapter under every sequence of calls. -/
def machine (importClass : PyValue → PyValue → Option (AdapterClass B)) : Machine Session Act where
  init s := ∃ a, Made importClass a ∧ s = .start a
  step := step

/-! ### What a call can do -/

/-- What a call can do. -/
inductive Trans (s : Session) : Act → Session → Prop
  | initialized (result : Bool) :
      s.adapter.initializeAdapter = .ok result →
        Trans s .initializeAdapter { s with events := .initialized result :: s.events }
  | refuse (message : String) :
      s.adapter.initializeAdapter = .error message →
        Trans s .initializeAdapter { s with events := .refused message :: s.events }
  | streamData :
      Trans s .streamData { s with
        streams := Function.update s.streams s.next .created
        next := s.next + 1
        events := .created s.next :: s.events }
  | start (i : ℕ) :
      s.streams i = .created →
        Trans s (.advance i) { s with
          adapter := { s.adapter with running := true }
          streams := Function.update s.streams i (.yielded 0)
          events := .packet i (packet 0) :: s.events }
  | sleep (i counter : ℕ) :
      s.streams i = .yielded counter →
        Trans s (.advance i) { s with
          streams := Function.update s.streams i (.sleeping (counter + 1)) }
  | refused (i : ℕ) :
      (∃ counter, s.streams i = .sleeping counter) ∨ s.streams i = .finished →
        Trans s (.advance i) s
  | emit (i counter : ℕ) :
      s.streams i = .sleeping counter → s.adapter.running = true → counter < 5 →
        Trans s (.wake i) { s with
          streams := Function.update s.streams i (.yielded counter)
          events := .packet i (packet counter) :: s.events }
  | finish (i counter : ℕ) :
      s.streams i = .sleeping counter → ¬(s.adapter.running = true ∧ counter < 5) →
        Trans s (.wake i) { s with streams := Function.update s.streams i .finished }
  | stop :
      Trans s .stop { s with
        adapter := { s.adapter with running := false }, events := .stopped :: s.events }

/-- **What a call can do.** -/
theorem trans_of_step {s s' : Session} {a : Act} (h : step s a = some s') : Trans s a s' := by
  cases a with
  | initializeAdapter =>
    simp only [step] at h
    split at h
    · next result hres => cases h; exact .initialized result hres
    · next message hres => cases h; exact .refuse message hres
  | streamData => cases h; exact .streamData
  | advance i =>
    simp only [step] at h
    split at h
    · cases h
    · next hi =>
      rw [Session.loop, if_pos ⟨rfl, by decide⟩] at h
      cases h
      exact .start i hi
    · next counter hi => cases h; exact .sleep i counter hi
    · next counter hi => cases h; exact .refused i (.inl ⟨counter, hi⟩)
    · next hi => cases h; exact .refused i (.inr hi)
  | wake i =>
    simp only [step] at h
    split at h
    · next counter hi =>
      unfold Session.loop at h
      split at h
      · next hrun => cases h; exact .emit i counter hi hrun.1 hrun.2
      · next hrun => cases h; exact .finish i counter hi hrun
    · cases h
  | stop => cases h; exact .stop

/-! ### Loaded adapters -/

theorem exists_of_mem_mapM {α β : Type*} {f : α → Option β} {l : List α} {r : List β}
    (h : l.mapM f = some r) {b : β} (hb : b ∈ r) : ∃ a ∈ l, f a = some b := by
  induction l generalizing r with
  | nil =>
    rw [List.mapM_nil] at h
    cases h
    cases hb
  | cons a l ih =>
    rw [List.mapM_cons] at h
    obtain ⟨c, hc, h⟩ := Option.bind_eq_some_iff.mp h
    obtain ⟨r', hr', h⟩ := Option.bind_eq_some_iff.mp h
    cases h
    rcases List.mem_cons.mp hb with rfl | hb
    · exact ⟨a, .head _, hc⟩
    · obtain ⟨a', ha', hf⟩ := ih hr' hb
      exact ⟨a', .tail _ ha', hf⟩

/-- **An adapter that is loaded is as new**: the loader only builds it. -/
theorem Made.exists_config {importClass : PyValue → PyValue → Option (AdapterClass B)}
    {a : Adapter} (h : Made importClass a) : ∃ config, a = .new config := by
  cases h with
  | direct config => exact ⟨config, rfl⟩
  | @loaded adapters as a hload hmem =>
    obtain ⟨entry, -, hentry⟩ := exists_of_mem_mapM hload hmem
    obtain ⟨adapterClass, -, hbuild⟩ := Option.bind_eq_some_iff.mp hentry
    cases adapterClass with
    | localLoopbackJsonRpc =>
      cases hbuild
      exact ⟨entry, rfl⟩
    | other build =>
      obtain ⟨b, -, hb⟩ := Option.map_eq_some_iff.mp hbuild
      cases hb

end CommonsBridge
end SovereignSeed
