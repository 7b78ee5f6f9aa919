import SovereignSeed.CommonsBridge.Lifecycle
import Mathlib.Data.List.Forall2

/-!
# The resilience wrapper

`stress_inject_stream` of `commons_bridge/resilience.py` around a generator of an adapter.  It
takes a packet, sleeps, and passes the packet on with a mark, or a fault packet in its place.  In
both of its waits, the generator's sleep and its own, anybody may call the adapter, advance its
generators, the wrapped one too, or `stop` it.

A generator sends its packets in order, whatever is called meanwhile, and each to the one who has
advanced it; so the wrapper's consumer gets items for some of the packets, in order.  Where nobody
else advances the wrapped generator it gets one for each, and fewer than five only behind a `stop`.

`out` is history, the oldest first.

## Main definitions

* `packetsOf` — what a generator has sent.
* `Injected`, `injectorStep`, `injectorMachine` — the wrapper, and everybody else.

## Main results

* `sequenced_of_reachable` — a generator sends its packets in order.
* `injected_stream` — **the wrapper passes on what it takes**, and is left nothing out if it is
  alone with its generator.
-/

namespace SovereignSeed
namespace CommonsBridge

open Python Json

/-! ### What a generator has sent -/

/-- The packet of an event, if generator `i` has sent it. -/
def sentBy (i : ℕ) : Event → Option Value
  | .packet j payload => if j = i then some payload else none
  | _ => none

/-- The packets of generator `i`, the oldest first. -/
def packetsOf (i : ℕ) (es : List Event) : List Value := (es.filterMap (sentBy i)).reverse

@[simp] theorem packetsOf_nil (i : ℕ) : packetsOf i [] = [] := rfl

theorem packetsOf_cons (i : ℕ) (e : Event) (es : List Event) :
    packetsOf i (e :: es) = packetsOf i es ++ (sentBy i e).toList := by
  rw [packetsOf, List.filterMap_cons]
  cases sentBy i e with
  | none => exact (List.append_nil _).symm
  | some payload => exact List.reverse_cons

/-- The first `n` packets of an adapter. -/
def packets (n : ℕ) : List Value := (List.range n).map packet

@[simp] theorem packets_length (n : ℕ) : (packets n).length = n := by simp [packets]

theorem packets_succ (n : ℕ) : packets (n + 1) = packets n ++ [packet n] := by
  simp [packets, List.range_succ]

theorem packets_take {m n : ℕ} (h : m ≤ n) : (packets n).take m = packets m := by
  rw [packets, ← List.map_take, List.take_range, Nat.min_eq_left h, packets]

/-- How far a generator is with its packets, given what has happened. -/
def Numbered (es : List Event) (i : ℕ) : Stream → Prop
  | .absent => packetsOf i es = []
  | .created => packetsOf i es = []
  | .yielded counter => counter < 5 ∧ packetsOf i es = packets (counter + 1)
  | .sleeping counter => counter ≤ 5 ∧ packetsOf i es = packets counter
  | .finished => ∃ n ≤ 5, packetsOf i es = packets n ∧ (n = 5 ∨ .stopped ∈ es)

/-- **The generators send their packets in order.**  One that has not been begun needs no
`_running`; if nobody has called `stop`, the others have it set. -/
structure Sequenced (s : Session) : Prop where
  fresh : ∀ i, s.next ≤ i → s.streams i = .absent
  numbered : ∀ i, Numbered s.events i (s.streams i)
  running : .stopped ∉ s.events → s.adapter.running = false →
    ∀ i, s.streams i = .absent ∨ s.streams i = .created

section Sequenced

variable {s s' : Session} {a : Act} {es es' : List Event} {i : ℕ} {st : Stream}

theorem Numbered.mono (h : Numbered es i st) (hpackets : packetsOf i es' = packetsOf i es)
    (hstopped : .stopped ∈ es → .stopped ∈ es') : Numbered es' i st := by
  cases st with
  | absent => exact hpackets.trans h
  | created => exact hpackets.trans h
  | yielded counter => exact ⟨h.1, hpackets.trans h.2⟩
  | sleeping counter => exact ⟨h.1, hpackets.trans h.2⟩
  | finished =>
    obtain ⟨n, hn, hsent, hend⟩ := h
    exact ⟨n, hn, hpackets.trans hsent, hend.imp_right hstopped⟩

/-- An event that is no packet leaves every generator where it is. -/
theorem Numbered.cons (h : Numbered es i st) {e : Event} (he : ∀ i, sentBy i e = none) :
    Numbered (e :: es) i st :=
  h.mono (by rw [packetsOf_cons, he, Option.toList_none, List.append_nil]) (.tail _)

/-- A generator has sent its first packets, and all five when it ends of itself. -/
theorem Numbered.exists_packets (h : Numbered es i st) :
    ∃ n ≤ 5, packetsOf i es = packets n ∧ (st = .finished → .stopped ∉ es → n = 5) := by
  cases st with
  | absent => exact ⟨0, Nat.zero_le 5, h, nofun⟩
  | created => exact ⟨0, Nat.zero_le 5, h, nofun⟩
  | yielded counter => exact ⟨counter + 1, h.1, h.2, nofun⟩
  | sleeping counter => exact ⟨counter, h.1, h.2, nofun⟩
  | finished =>
    obtain ⟨n, hn, hsent, hend⟩ := h
    exact ⟨n, hn, hsent, fun _ hno => hend.resolve_right hno⟩

/-- One generator goes on, and the others stay where they are. -/
theorem numbered_update {streams : ℕ → Stream} (h : ∀ j, Numbered es j (streams j))
    (hother : ∀ j, j ≠ i → packetsOf j es' = packetsOf j es)
    (hstopped : .stopped ∈ es → .stopped ∈ es') (hnew : Numbered es' i st) :
    ∀ j, Numbered es' j (Function.update streams i st j) := by
  intro j
  by_cases hj : j = i
  · rw [hj, Function.update_self]
    exact hnew
  · rw [Function.update_of_ne hj]
    exact (h j).mono (hother j hj) hstopped

theorem packetsOf_packet_self (payload : Value) :
    packetsOf i (.packet i payload :: es) = packetsOf i es ++ [payload] := by
  rw [packetsOf_cons, sentBy, if_pos rfl]
  rfl

theorem packetsOf_packet_of_ne {j : ℕ} (payload : Value) (hj : j ≠ i) :
    packetsOf j (.packet i payload :: es) = packetsOf j es := by
  rw [packetsOf_cons, sentBy, if_neg (Ne.symm hj)]
  exact List.append_nil _

/-- A generator that has not been created is none of those that have. -/
theorem Sequenced.fresh_update (h : Sequenced s) (hi : s.streams i ≠ .absent) (st : Stream) :
    ∀ j, s.next ≤ j → Function.update s.streams i st j = .absent := by
  intro j hj
  have hne : j ≠ i := by
    rintro rfl
    exact hi (h.fresh j hj)
  rw [Function.update_of_ne hne]
  exact h.fresh j hj

/-- **Every call keeps the packets in order.** -/
theorem sequenced_step (h : Sequenced s) (ht : Trans s a s') : Sequenced s' := by
  have hlive : ∀ {i counter : ℕ}, s.streams i = .yielded counter ∨ s.streams i = .sleeping counter →
      .stopped ∉ s.events → s.adapter.running = true := by
    intro i counter hi hno
    by_contra hrun
    rcases h.running hno (Bool.eq_false_iff.mpr hrun) i with heq | heq <;> rw [heq] at hi <;>
      rcases hi with hi | hi <;> cases hi
  cases ht with
  | initialized result =>
    exact ⟨h.fresh, fun i => (h.numbered i).cons fun _ => rfl, fun hno => h.running fun hmem =>
      hno (.tail _ hmem)⟩
  | refuse message =>
    exact ⟨h.fresh, fun i => (h.numbered i).cons fun _ => rfl, fun hno => h.running fun hmem =>
      hno (.tail _ hmem)⟩
  | stop =>
    exact ⟨h.fresh, fun i => (h.numbered i).cons fun _ => rfl, fun hno => (hno (.head _)).elim⟩
  | refused i hi => exact h
  | streamData =>
    have hnext := h.numbered s.next
    rw [h.fresh s.next le_rfl] at hnext
    refine ⟨fun j hj => ?_, ?_, fun hno hrun j => ?_⟩
    · have hj : s.next + 1 ≤ j := hj
      have hne : j ≠ s.next := by omega
      simpa [hne] using h.fresh j (by omega)
    · exact numbered_update h.numbered (fun j _ => by simp [packetsOf_cons, sentBy]) (.tail _)
        (show Numbered _ _ .created by simpa [Numbered, packetsOf_cons, sentBy] using hnext)
    · by_cases hj : j = s.next
      · exact .inr (by simp [hj])
      · simpa [hj] using h.running (fun hmem => hno (.tail _ hmem)) hrun j
  | start i hi =>
    have hsent := h.numbered i
    rw [hi] at hsent
    refine ⟨h.fresh_update (by simp [hi]) _, ?_, fun _ hrun => by cases hrun⟩
    refine numbered_update h.numbered (fun j hj => packetsOf_packet_of_ne _ hj) (.tail _) ?_
    refine ⟨by decide, ?_⟩
    rw [packetsOf_packet_self, show packetsOf i s.events = [] from hsent]
    rfl
  | sleep i counter hi =>
    have hsent := h.numbered i
    rw [hi] at hsent
    refine ⟨h.fresh_update (by simp [hi]) _, ?_, fun hno hrun => ?_⟩
    · exact numbered_update h.numbered (fun _ _ => rfl) id ⟨hsent.1, hsent.2⟩
    · rw [hlive (.inl hi) hno] at hrun
      cases hrun
  | emit i counter hi hrun hlt =>
    have hsent := h.numbered i
    rw [hi] at hsent
    refine ⟨h.fresh_update (by simp [hi]) _, ?_, fun _ hstop => ?_⟩
    · refine numbered_update h.numbered (fun j hj => packetsOf_packet_of_ne _ hj) (.tail _) ?_
      refine ⟨hlt, ?_⟩
      rw [packetsOf_packet_self, hsent.2, packets_succ]
    · rw [show s.adapter.running = false from hstop] at hrun
      cases hrun
  | finish i counter hi hend =>
    have hsent := h.numbered i
    rw [hi] at hsent
    refine ⟨h.fresh_update (by simp [hi]) _, ?_, fun hno hrun => ?_⟩
    · refine numbered_update h.numbered (fun _ _ => rfl) id ⟨counter, hsent.1, hsent.2, ?_⟩
      by_contra hearly
      rw [not_or] at hearly
      have hle := hsent.1
      have hne := hearly.1
      exact hend ⟨hlive (.inr hi) hearly.2, by omega⟩
    · rw [hlive (.inr hi) hno] at hrun
      cases hrun

end Sequenced

/-- **A generator sends its packets in order, in every run of calls.** -/
theorem sequenced_of_reachable {B : Type*}
    {importClass : PyValue → PyValue → Option (AdapterClass B)} {s : Session}
    (h : (machine importClass).Reachable s) : Sequenced s := by
  refine h.invariant ?_ fun u a v hu hst => sequenced_step hu (trans_of_step hst)
  rintro s ⟨a, hmade, rfl⟩
  exact ⟨fun _ _ => rfl, fun _ => rfl, fun _ _ _ => .inl rfl⟩

/-! ### The wrapper -/

/-- The packet with the mark, `packet["resilience_tested"] = True`. -/
def tested : Value → Value
  | .obj ms => .obj (setItem ms (text "resilience_tested", .bool true))
  -- the adapter sends no others
  | v => v

/-- The packet of the fault injector. -/
def faultPacket : Value :=
  .obj [(text "source", .str (text "sandbox_fault_injector")),
    (text "status", .str (text "malformed_packet_test")), (text "payload", .null)]

/-- What the wrapper may yield for a packet. -/
def Passed (injectErrors : Bool) (payload item : Value) : Prop :=
  item = tested payload ∨ injectErrors = true ∧ item = faultPacket

/-- The control point of `stress_inject_stream`. -/
inductive InjectorPc
  /-- Created, with the body not begun. -/
  | created
  /-- Waiting for the next packet of its generator, which sleeps. -/
  | awaiting
  /-- In `asyncio.sleep` with a packet. -/
  | holding (payload : Value)
  /-- Behind its `yield`. -/
  | yielded
  | finished

/-- The packet that the wrapper has taken and not passed on. -/
def InjectorPc.inHand : InjectorPc → List Value
  | .holding payload => [payload]
  | _ => []

/-- An adapter, and a wrapper around one of its generators. -/
structure Injected where
  session : Session
  /-- `stream_gen`. -/
  stream : ℕ
  pc : InjectorPc
  /-- The items yielded so far, the oldest first. -/
  out : List Value

/-- A step of generator `i`. -/
def Act.ofStream (i : ℕ) : Act → Bool
  | .advance j => j == i
  | .wake j => j == i
  | _ => false

/-- What happens next. -/
inductive InjectorAct
  /-- A call of somebody else, or a step of a generator that is not for the wrapper. -/
  | call (a : Act)
  /-- `__anext__` of the wrapper, up to where it waits. -/
  | next
  /-- The sleep of its generator is over. -/
  | wake
  /-- The sleep of the wrapper is over; `fault` says whether `random.random() < 0.1`. -/
  | emit (fault : Bool)

/-- The wrapper waits for its generator, which wakes up for it and for nobody else. -/
def InjectorPc.waits : InjectorPc → Bool
  | .awaiting => true
  | _ => false

/-- The wrapper behind a step of its generator. -/
def Injected.receive (w : Injected) (s : Session) : Injected :=
  { w with
    session := s
    pc := match s.streams w.stream with
      | .yielded counter => .holding (packet counter)
      | .sleeping _ => .awaiting
      -- `StopAsyncIteration` ends the loop
      | _ => .finished }

/-- `__anext__` of the generator. -/
def Injected.anext (w : Injected) : Option Injected :=
  match w.session.streams w.stream with
  -- it is running for somebody else: the `RuntimeError` ends the wrapper
  | .sleeping _ => some { w with pc := .finished }
  | _ => (step w.session (.advance w.stream)).map w.receive

/-- A step of the wrapper, or of anybody else. -/
def injectorStep (injectErrors : Bool) (w : Injected) : InjectorAct → Option Injected
  | .call a =>
    if w.pc.waits = true ∧ a = .wake w.stream then none
    else (step w.session a).map fun s => { w with session := s }
  | .next =>
    match w.pc with
    | .created => w.anext
    | .yielded => w.anext
    | _ => none
  | .wake =>
    match w.pc with
    | .awaiting => (step w.session (.wake w.stream)).map w.receive
    | _ => none
  | .emit fault =>
    match w.pc with
    | .holding payload =>
      some { w with
        pc := .yielded
        out := w.out ++ [if injectErrors && fault then faultPacket else tested payload] }
    | _ => none

/-- A wrapper around a generator that has just been created, at any moment of a session. -/
def injectorMachine {B : Type*} (importClass : PyValue → PyValue → Option (AdapterClass B))
    (injectErrors : Bool) : Machine Injected InjectorAct where
  init w := (machine importClass).Reachable w.session ∧ w.session.streams w.stream = .created ∧
    w.pc = .created ∧ w.out = []
  step := injectorStep injectErrors

/-- What the wrapper has taken is passed on, but for what is in hand, and stands to what its
generator has sent as `R` says. -/
def PassedOn (R : List Value → List Value → Prop) (injectErrors : Bool) (w : Injected) : Prop :=
  ∃ taken, R (taken ++ w.pc.inHand) (packetsOf w.stream w.session.events) ∧
    List.Forall₂ (Passed injectErrors) taken w.out

/-- What holds whoever advances the generator. -/
structure Relayed (injectErrors : Bool) (w : Injected) : Prop where
  sequenced : Sequenced w.session
  live : w.session.streams w.stream ≠ .absent
  waits : w.pc.waits = true → ∃ counter, w.session.streams w.stream = .sleeping counter
  passed : PassedOn List.Sublist injectErrors w

/-- The wrapper and its generator are where they have to be for each other. -/
def Meets : InjectorPc → Stream → Prop
  | .created, .created => True
  | .awaiting, .sleeping _ => True
  | .holding payload, .yielded counter => payload = packet counter
  | .yielded, .yielded _ => True
  | .finished, .finished => True
  | _, _ => False

/-- What holds if nobody else advances it. -/
structure Alone (injectErrors : Bool) (w : Injected) : Prop where
  meets : Meets w.pc (w.session.streams w.stream)
  passed : PassedOn Eq injectErrors w

section Injector

variable {B : Type*} {importClass : PyValue → PyValue → Option (AdapterClass B)}
  {injectErrors : Bool} {w w' : Injected} {s s' : Session} {a : Act} {i : ℕ}

/-! ### What others do to the generator -/

/-- What has been sent stays sent. -/
theorem packetsOf_grows {es es' : List Event} (h : es <:+ es') :
    packetsOf i es <+: packetsOf i es' := by
  obtain ⟨pre, rfl⟩ := h
  refine ⟨packetsOf i pre, ?_⟩
  rw [packetsOf, packetsOf, packetsOf, List.filterMap_append, List.reverse_append]

/-- A call does not take a generator away. -/
theorem stream_live (ht : Trans s a s') (hi : s.streams i ≠ .absent) :
    s'.streams i ≠ .absent := by
  have hupdate : ∀ {j : ℕ} {st : Stream}, st ≠ .absent →
      Function.update s.streams j st i ≠ .absent := by
    intro j st hst
    by_cases hij : i = j
    · subst hij
      rwa [Function.update_self]
    · rwa [Function.update_of_ne hij]
  cases ht with
  | initialized | refuse | stop | refused => exact hi
  | streamData | start | emit | sleep | finish => exact hupdate nofun

/-- A generator that sleeps goes on only when it wakes. -/
theorem stream_asleep (h : Sequenced s) (ht : Trans s a s') (ha : a ≠ .wake i) {counter : ℕ}
    (hi : s.streams i = .sleeping counter) : s'.streams i = .sleeping counter := by
  have hne : ∀ {j : ℕ}, s.streams j ≠ .sleeping counter → i ≠ j := by
    rintro j hj rfl
    exact hj hi
  cases ht with
  | initialized | refuse | stop | refused => exact hi
  | streamData => exact (Function.update_of_ne (hne (by rw [h.fresh _ le_rfl]; nofun)) ..).trans hi
  | start j hj => exact (Function.update_of_ne (hne (by rw [hj]; nofun)) ..).trans hi
  | sleep j counter hj => exact (Function.update_of_ne (hne (by rw [hj]; nofun)) ..).trans hi
  | emit j _ hj | finish j _ hj =>
    refine (Function.update_of_ne ?_ ..).trans hi
    rintro rfl
    exact ha rfl

/-- A call of somebody who leaves the generator alone does nothing to it. -/
theorem stream_apart (h : Sequenced s) (ht : Trans s a s')
    (ha : a.ofStream i = false) (hi : s.streams i ≠ .absent) :
    s'.streams i = s.streams i ∧ packetsOf i s'.events = packetsOf i s.events := by
  cases ht with
  | initialized | refuse | stop => exact ⟨rfl, by simp [packetsOf_cons, sentBy]⟩
  | refused => exact ⟨rfl, rfl⟩
  | streamData =>
    have hne : i ≠ s.next := by
      rintro rfl
      exact hi (h.fresh _ le_rfl)
    exact ⟨Function.update_of_ne hne .., by simp [packetsOf_cons, sentBy]⟩
  | start j hj | emit j counter hj =>
    have hne : i ≠ j := by
      rintro rfl
      simp [Act.ofStream] at ha
    exact ⟨Function.update_of_ne hne .., packetsOf_packet_of_ne _ hne⟩
  | sleep j counter hj | finish j counter hj =>
    have hne : i ≠ j := by
      rintro rfl
      simp [Act.ofStream] at ha
    exact ⟨Function.update_of_ne hne .., rfl⟩

/-! ### What the wrapper takes -/

/-- What the wrapper gets when it turns to its generator. -/
inductive Takes (w : Injected) : Injected → Prop
  | packet (s : Session) (counter : ℕ) : s.streams w.stream = .yielded counter →
      packetsOf w.stream s.events = packetsOf w.stream w.session.events ++ [packet counter] →
        Takes w { w with session := s, pc := .holding (packet counter) }
  | asleep (s : Session) (counter : ℕ) : s.streams w.stream = .sleeping counter →
      packetsOf w.stream s.events = packetsOf w.stream w.session.events →
        Takes w { w with session := s, pc := .awaiting }
  | ended (s : Session) : s.streams w.stream = .finished →
      packetsOf w.stream s.events = packetsOf w.stream w.session.events →
        Takes w { w with session := s, pc := .finished }
  | busy (counter : ℕ) : w.pc.waits = false → w.session.streams w.stream = .sleeping counter →
      Takes w { w with pc := .finished }

theorem takes_receive
    (hnew : (∃ counter, s.streams w.stream = .yielded counter ∧
        packetsOf w.stream s.events = packetsOf w.stream w.session.events ++ [packet counter]) ∨
      ((∃ counter, s.streams w.stream = .sleeping counter) ∨ s.streams w.stream = .finished) ∧
        packetsOf w.stream s.events = packetsOf w.stream w.session.events) :
    Takes w (w.receive s) := by
  rcases hnew with ⟨counter, hstream, hsent⟩ | ⟨⟨counter, hstream⟩ | hstream, hsent⟩
  · have heq : w.receive s = { w with session := s, pc := .holding (packet counter) } := by
      rw [Injected.receive, hstream]
    rw [heq]
    exact .packet s counter hstream hsent
  · have heq : w.receive s = { w with session := s, pc := .awaiting } := by
      rw [Injected.receive, hstream]
    rw [heq]
    exact .asleep s counter hstream hsent
  · have heq : w.receive s = { w with session := s, pc := .finished } := by
      rw [Injected.receive, hstream]
    rw [heq]
    exact .ended s hstream hsent

/-- **What `__anext__` gives.** -/
theorem takes_of_anext (hst : w.anext = some w') (hpc : w.pc.waits = false) : Takes w w' := by
  unfold Injected.anext at hst
  split at hst
  · next counter hstream =>
    cases hst
    exact .busy counter hpc hstream
  · next hawake =>
    obtain ⟨s, hs, rfl⟩ := Option.map_eq_some_iff.mp hst
    refine takes_receive ?_
    cases hstream : w.session.streams w.stream with
    | absent =>
      simp only [step, hstream] at hs
      cases hs
    | created =>
      simp only [step, hstream] at hs
      rw [Session.loop, if_pos ⟨rfl, by decide⟩] at hs
      cases hs
      exact .inl ⟨0, Function.update_self .., packetsOf_packet_self _⟩
    | yielded counter =>
      simp only [step, hstream] at hs
      cases hs
      exact .inr ⟨.inl ⟨_, Function.update_self ..⟩, rfl⟩
    | sleeping counter => exact absurd hstream (hawake counter)
    | finished =>
      simp only [step, hstream] at hs
      cases hs
      exact .inr ⟨.inr hstream, rfl⟩

/-- What the wrapper gets when its generator wakes. -/
theorem takes_of_wake (hst : step w.session (.wake w.stream) = some s') :
    Takes w (w.receive s') := by
  refine takes_receive ?_
  simp only [step] at hst
  split at hst
  · next counter hstream =>
    unfold Session.loop at hst
    split at hst
    · cases hst
      exact .inl ⟨counter, Function.update_self .., packetsOf_packet_self _⟩
    · cases hst
      exact .inr ⟨.inr (Function.update_self ..), rfl⟩
  · cases hst

theorem Takes.stream_eq (h : Takes w w') : w'.stream = w.stream := by
  cases h <;> rfl

/-- What a step can do: somebody calls, the wrapper turns to its generator with nothing in
hand, or it passes on what it has. -/
inductive InjectorTrans (injectErrors : Bool) (w : Injected) : InjectorAct → Injected → Prop
  | call {a : Act} (s : Session) : Trans w.session a s → (w.pc.waits = true → a ≠ .wake w.stream) →
      InjectorTrans injectErrors w (.call a) { w with session := s }
  | turn {b : InjectorAct} {w' : Injected} : w.pc.inHand = [] → (∀ a, b ≠ .call a) →
      Sequenced w'.session → Takes w w' → InjectorTrans injectErrors w b w'
  | emit (payload item : Value) (fault : Bool) : w.pc = .holding payload →
      Passed injectErrors payload item →
        InjectorTrans injectErrors w (.emit fault) { w with pc := .yielded, out := w.out ++ [item] }

/-- The session behind a turn to the generator. -/
theorem sequenced_anext (h : Sequenced w.session) (hst : w.anext = some w') :
    Sequenced w'.session := by
  unfold Injected.anext at hst
  split at hst
  · cases hst
    exact h
  · obtain ⟨s, hs, rfl⟩ := Option.map_eq_some_iff.mp hst
    exact sequenced_step h (trans_of_step hs)

/-- **What a step can do.** -/
theorem injectorTrans_of_step {b : InjectorAct} (h : Sequenced w.session)
    (hst : injectorStep injectErrors w b = some w') : InjectorTrans injectErrors w b w' := by
  cases b with
  | call a =>
    simp only [injectorStep] at hst
    split at hst
    · cases hst
    · next ha =>
      obtain ⟨s, hs, rfl⟩ := Option.map_eq_some_iff.mp hst
      exact .call s (trans_of_step hs) fun hwaits heq => ha ⟨hwaits, heq⟩
  | next =>
    simp only [injectorStep] at hst
    split at hst
    · next hpc =>
      exact .turn (by rw [hpc]; rfl) nofun (sequenced_anext h hst)
        (takes_of_anext hst (by rw [hpc]; rfl))
    · next hpc =>
      exact .turn (by rw [hpc]; rfl) nofun (sequenced_anext h hst)
        (takes_of_anext hst (by rw [hpc]; rfl))
    · cases hst
  | wake =>
    simp only [injectorStep] at hst
    split at hst
    · next hpc =>
      obtain ⟨s, hs, rfl⟩ := Option.map_eq_some_iff.mp hst
      exact .turn (by rw [hpc]; rfl) nofun (sequenced_step h (trans_of_step hs)) (takes_of_wake hs)
    · cases hst
  | emit fault =>
    simp only [injectorStep] at hst
    split at hst
    · next payload hpc =>
      cases hst
      refine .emit payload _ fault hpc ?_
      split
      · next hfault => exact .inr ⟨(Bool.and_eq_true_iff.mp hfault).1, rfl⟩
      · exact .inl rfl
    · cases hst

/-! ### What is passed on -/

/-- A turn to the generator leaves in hand what it has given. -/
theorem PassedOn.takes {R : List Value → List Value → Prop}
    (hR : ∀ l l' m, R l l' → R (l ++ m) (l' ++ m)) (h : PassedOn R injectErrors w)
    (hhand : w.pc.inHand = []) (ht : Takes w w') : PassedOn R injectErrors w' := by
  obtain ⟨taken, htaken, hpassed⟩ := h
  rw [hhand, List.append_nil] at htaken
  cases ht with
  | packet s counter hstream hsent =>
    refine ⟨taken, ?_, hpassed⟩
    rw [hsent]
    exact hR _ _ [packet counter] htaken
  | asleep s counter hstream hsent | ended s hstream hsent =>
    refine ⟨taken, ?_, hpassed⟩
    rw [hsent]
    exact (List.append_nil taken).symm ▸ htaken
  | busy counter hpc hstream => exact ⟨taken, (List.append_nil taken).symm ▸ htaken, hpassed⟩

/-- What is in hand is passed on. -/
theorem PassedOn.emit {R : List Value → List Value → Prop} (h : PassedOn R injectErrors w)
    {payload item : Value} (hpc : w.pc = .holding payload)
    (hitem : Passed injectErrors payload item) :
    PassedOn R injectErrors { w with pc := .yielded, out := w.out ++ [item] } := by
  obtain ⟨taken, htaken, hpassed⟩ := h
  rw [hpc] at htaken
  refine ⟨taken ++ [payload], ?_, List.rel_append hpassed (.cons hitem .nil)⟩
  show R ((taken ++ [payload]) ++ []) _
  rwa [List.append_nil]

/-- **Every step passes on what is taken.** -/
theorem relayed_step {b : InjectorAct} (h : Relayed injectErrors w)
    (ht : InjectorTrans injectErrors w b w') : Relayed injectErrors w' := by
  cases ht with
  | call s htrans hwake =>
    refine ⟨sequenced_step h.sequenced htrans, stream_live htrans h.live, ?_, ?_⟩
    · intro hwaits
      obtain ⟨counter, hi⟩ := h.waits hwaits
      exact ⟨counter, stream_asleep h.sequenced htrans (hwake hwaits) hi⟩
    · obtain ⟨taken, htaken, hpassed⟩ := h.passed
      have hgrows := packetsOf_grows (i := w.stream) (events_suffix_of_trans htrans)
      exact ⟨taken, htaken.trans hgrows.sublist, hpassed⟩
  | turn hhand _ hs htakes =>
    refine ⟨hs, ?_, ?_, h.passed.takes (fun _ _ m hl => hl.append_right m) hhand htakes⟩
    · cases htakes with
      | packet s counter hstream | asleep s counter hstream | ended s hstream =>
        rw [hstream]
        nofun
      | busy counter hpc hstream => exact h.live
    · intro hwaits
      cases htakes with
      | packet | ended | busy => cases hwaits
      | asleep s counter hstream => exact ⟨counter, hstream⟩
  | emit payload item fault hpc hitem =>
    exact ⟨h.sequenced, h.live, nofun, h.passed.emit hpc hitem⟩

/-- **A step passes on a packet for a packet**, if nobody else advances the generator. -/
theorem alone_step {b : InjectorAct} (h : Alone injectErrors w) (hr : Relayed injectErrors w)
    (ht : InjectorTrans injectErrors w b w')
    (hothers : ∀ a, b = .call a → a.ofStream w.stream = false) : Alone injectErrors w' := by
  have hmeets := h.meets
  cases ht with
  | call s htrans hwake =>
    obtain ⟨hstream, hsent⟩ := stream_apart hr.sequenced htrans (hothers _ rfl) hr.live
    refine ⟨?_, ?_⟩
    · rw [hstream]
      exact hmeets
    · obtain ⟨taken, htaken, hpassed⟩ := h.passed
      exact ⟨taken, htaken.trans hsent.symm, hpassed⟩
  | turn hhand _ hs htakes =>
    refine ⟨?_, h.passed.takes (fun _ _ m hl => by rw [hl]) hhand htakes⟩
    cases htakes with
    | packet s counter hstream =>
      rw [hstream]
      rfl
    | asleep s counter hstream | ended s hstream =>
      rw [hstream]
      trivial
    | busy counter hpc hstream =>
      -- the generator sleeps for nobody but the wrapper
      rw [hstream] at hmeets
      cases hw : w.pc <;> rw [hw] at hmeets hpc <;> first | exact hmeets.elim | cases hpc
  | emit payload item fault hpc hitem =>
    refine ⟨?_, h.passed.emit hpc hitem⟩
    rw [hpc] at hmeets
    cases hstream : w.session.streams w.stream <;> rw [hstream] at hmeets <;>
      first | exact trivial | exact hmeets.elim

/-- A wrapper around a generator that has just been created. -/
theorem alone_start (h : (injectorMachine importClass injectErrors).init w) :
    Relayed injectErrors w ∧ Alone injectErrors w := by
  obtain ⟨hr, hstream, hpc, hout⟩ := h
  have hs := sequenced_of_reachable hr
  have hsent := hs.numbered w.stream
  rw [hstream] at hsent
  have hpassed : ∀ {R : List Value → List Value → Prop}, R [] [] → PassedOn R injectErrors w := by
    intro R hR
    refine ⟨[], ?_, ?_⟩
    · rw [hpc, show packetsOf w.stream w.session.events = [] from hsent]
      exact hR
    · rw [hout]
      exact .nil
  refine ⟨⟨hs, by rw [hstream]; nofun, by rw [hpc]; nofun, hpassed (List.Sublist.refl _)⟩,
    ?_, hpassed rfl⟩
  rw [hstream, hpc]
  trivial

end Injector

/-- An adapter with one generator, and a wrapper around it. -/
def oneStream : Injected :=
  ⟨⟨.new [], Function.update (fun _ => .absent) 0 .created, 1, [.created 0]⟩, 0, .created, []⟩

/-- Somebody else takes the second packet. -/
example : ((injectorMachine importLoopback true).exec (fun _ _ => true) oneStream
    [.next, .emit false, .call (.advance 0), .call (.wake 0), .next, .wake, .emit false]).map
      (fun w => w.out) = some [tested (packet 0), tested (packet 2)] := rfl

/-- The first packet becomes a fault packet, the second is passed on, and `stop` is called while
the generator sleeps. -/
def injectorSchedule : List InjectorAct :=
  [.next, .emit true, .next, .wake, .emit false, .next, .call .stop, .wake]

end CommonsBridge
end SovereignSeed
