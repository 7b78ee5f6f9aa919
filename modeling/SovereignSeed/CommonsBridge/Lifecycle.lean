import SovereignSeed.CommonsBridge.Adapter

/-!
# The lifecycle of an adapter

A packet is to come after an `initialize` that returned `True`, and none from a generator
that was there when `stop` was called.  The adapter does not see to it.  `stream_data`
asks for no `initialize`, and the loader calls none; and its body sets `_running` when it
begins, so that a generator that is advanced for the first time after `stop` runs, and
takes along the older ones.

A call does harm in two ways only: it begins a body too early or too late, or it wakes a
generator of before a `stop` that has packets left, when a body has begun since.  Which
calls these are can be told from the order of the calls alone.

## Main definitions

* `Stopped`, `Orderly` — a generator that a `stop` was for, and packets that are in order.
* `Timely` — a call that does no harm, by the state before it.
* `begunSinceStop`, `stoppedSince`, `Harmless`, `InOrder` — the same by the calls before it.

## Main results

* `inv_step` — what a timely call preserves.
* `timely_of_orderly` — a call that is not timely yields a packet out of order.
* `traced_step` — **what the calls so far say of the state.**
* `lifecycle_iff` — **the packets are in order exactly if the calls are.**
-/

namespace SovereignSeed
namespace CommonsBridge

open Python Json

variable {B : Type*} {importClass : PyValue → PyValue → Option (AdapterClass B)}
  {s s' t : Session} {a : Act} {i : ℕ} {es es' : List Event}

/-! ### What is in order -/

/-- `stop` has been called since the generator was created. -/
def Stopped (i : ℕ) (es : List Event) : Prop :=
  ∃ pre, .stopped :: pre <:+ es ∧ .created i ∈ pre

/-- Each packet comes after an `initialize` that returned `True`, and from a generator that
no `stop` was for. -/
def Orderly (es : List Event) : Prop :=
  ∀ i payload pre, .packet i payload :: pre <:+ es → .initialized true ∈ pre ∧ ¬Stopped i pre

/-- A body begins after an `initialize` that returned `True`, and before a `stop`; a
generator is woken before a `stop` too, or with no packet to yield. -/
def Timely (s : Session) : Act → Prop
  | .advance i => s.streams i = .created → .initialized true ∈ s.events ∧ ¬Stopped i s.events
  | .wake i => ∀ counter, s.streams i = .sleeping counter → s.adapter.running = true →
      counter < 5 → ¬Stopped i s.events
  | _ => True

theorem orderly_nil : Orderly [] := fun i payload pre h => by
  rw [List.suffix_nil] at h
  cases h

theorem Orderly.of_suffix (h : Orderly es) (hsuffix : es' <:+ es) : Orderly es' :=
  fun i payload pre hpre => h i payload pre (hpre.trans hsuffix)

theorem orderly_packet_iff {payload : Value} : Orderly (.packet i payload :: es) ↔
    (.initialized true ∈ es ∧ ¬Stopped i es) ∧ Orderly es := by
  constructor
  · intro h
    exact ⟨h i payload es List.suffix_rfl, h.of_suffix (List.suffix_cons _ _)⟩
  · rintro ⟨hnew, hold⟩ j payload' pre hpre
    rcases List.suffix_cons_iff.mp hpre with heq | hpre
    · cases heq
      exact hnew
    · exact hold j payload' pre hpre

/-- An event that is no packet. -/
theorem Orderly.cons (h : Orderly es) {e : Event} (he : ∀ i payload, e ≠ .packet i payload) :
    Orderly (e :: es) := by
  intro j payload pre hpre
  rcases List.suffix_cons_iff.mp hpre with heq | hpre
  · exact absurd (List.cons.inj heq).1.symm (he j payload)
  · exact h j payload pre hpre

/-! ### Calls -/

/-- History only grows. -/
theorem events_suffix_of_trans (h : Trans s a s') : s.events <:+ s'.events := by
  cases h with
  | sleep => exact List.suffix_rfl
  | refused => exact List.suffix_rfl
  | finish => exact List.suffix_rfl
  | _ => exact List.suffix_cons _ _

theorem events_suffix_of_path {ok : Session → Act → Prop} {as : List Act}
    (h : (machine importClass).Path ok s as t) : s.events <:+ t.events := by
  induction h with
  | nil s => exact List.suffix_rfl
  | cons _ hst _ ih => exact (events_suffix_of_trans (trans_of_step hst)).trans ih

/-- The invariant of timely calls. -/
structure Inv (s : Session) : Prop where
  orderly : Orderly s.events
  begun : ∀ i counter, s.streams i = .yielded counter ∨ s.streams i = .sleeping counter →
    .initialized true ∈ s.events

/-- A stream that is not begun or begun already, in place of another. -/
theorem Inv.begun_update (h : Inv s) {st : Stream} (hes : s.events <:+ es)
    (hst : ∀ counter, st = .yielded counter ∨ st = .sleeping counter → .initialized true ∈ es) :
    ∀ j counter, Function.update s.streams i st j = .yielded counter ∨
      Function.update s.streams i st j = .sleeping counter → .initialized true ∈ es := by
  intro j counter hj
  by_cases hji : j = i
  · subst hji
    rw [Function.update_self] at hj
    exact hst counter hj
  · rw [Function.update_of_ne hji] at hj
    exact hes.mem (h.begun j counter hj)

/-- **A timely call yields no packet out of order.** -/
theorem inv_step (h : Inv s) (hok : Timely s a) (ht : Trans s a s') : Inv s' := by
  cases ht with
  | initialized result =>
    exact ⟨h.orderly.cons nofun, fun j counter hj => .tail _ (h.begun j counter hj)⟩
  | refuse message =>
    exact ⟨h.orderly.cons nofun, fun j counter hj => .tail _ (h.begun j counter hj)⟩
  | streamData =>
    refine ⟨h.orderly.cons nofun, h.begun_update (List.suffix_cons _ _) ?_⟩
    rintro counter (hst | hst) <;> cases hst
  | start i hi =>
    obtain ⟨hinit, hfresh⟩ := hok hi
    exact ⟨orderly_packet_iff.mpr ⟨⟨hinit, hfresh⟩, h.orderly⟩,
      h.begun_update (List.suffix_cons _ _) fun _ _ => .tail _ hinit⟩
  | sleep i counter hi =>
    have hinit := h.begun i counter (.inl hi)
    exact ⟨h.orderly, h.begun_update List.suffix_rfl fun _ _ => hinit⟩
  | refused i hi => exact h
  | emit i counter hi hrun hlt =>
    have hinit := h.begun i counter (.inr hi)
    have hfresh := hok counter hi hrun hlt
    exact ⟨orderly_packet_iff.mpr ⟨⟨hinit, hfresh⟩, h.orderly⟩,
      h.begun_update (List.suffix_cons _ _) fun _ _ => .tail _ hinit⟩
  | finish i counter hi hrun =>
    refine ⟨h.orderly, h.begun_update List.suffix_rfl ?_⟩
    rintro counter' (hst | hst) <;> cases hst
  | stop => exact ⟨h.orderly.cons nofun, fun j counter hj => .tail _ (h.begun j counter hj)⟩

/-- **A call that is not timely yields a packet out of order.** -/
theorem timely_of_orderly (ht : Trans s a s') (h : Orderly s'.events) : Timely s a := by
  cases ht with
  | start i hi => exact fun _ => (orderly_packet_iff.mp h).1
  | emit i counter hi hrun hlt => exact fun _ _ _ _ => (orderly_packet_iff.mp h).1.2
  | sleep i counter hi =>
    intro hcreated
    rw [hi] at hcreated
    cases hcreated
  | refused i hi =>
    intro hcreated
    rw [hcreated] at hi
    rcases hi with ⟨counter, hi⟩ | hi <;> cases hi
  | finish i counter hi hrun =>
    intro counter' hi' hrun' hlt
    rw [hi] at hi'
    cases hi'
    exact absurd ⟨hrun', hlt⟩ hrun
  | _ => exact trivial

/-! ### The order of the calls -/

/-- A body has begun, and `stop` has not been called since. -/
def begunSinceStop : List Act → Bool
  | [] => false
  | .stop :: _ => false
  | .advance i :: past => .advance i ∉ past || begunSinceStop past
  | _ :: past => begunSinceStop past

/-- `stop` has been called since the `i`-th call of `stream_data`. -/
def stoppedSince (i : ℕ) : List Act → Bool
  | [] => false
  | .stop :: past => i < past.count .streamData || stoppedSince i past
  | _ :: past => stoppedSince i past

/-- After the calls of `past`, the newest first, the call does no harm. -/
def Harmless (config : Dict) (past : List Act) : Act → Prop
  | .advance i => .advance i ∉ past → (targetHost config = .str (text "127.0.0.1") ∧
      .initializeAdapter ∈ past) ∧ stoppedSince i past = false
  | .wake i => begunSinceStop past = true → past.count (.wake i) < 4 →
      stoppedSince i past = false
  | _ => True

instance (config : Dict) (past : List Act) : DecidablePred (Harmless config past)
  | .initializeAdapter => inferInstanceAs (Decidable True)
  | .streamData => inferInstanceAs (Decidable True)
  | .advance _ => inferInstanceAs (Decidable (_ → _))
  | .wake _ => inferInstanceAs (Decidable (_ → _))
  | .stop => inferInstanceAs (Decidable True)

/-- After the calls of `past` these do no harm, one after the other. -/
def InOrder (config : Dict) : List Act → List Act → Prop
  | _, [] => True
  | past, a :: as => Harmless config past a ∧ InOrder config (a :: past) as

instance decidableInOrder (config : Dict) : ∀ past as, Decidable (InOrder config past as)
  | _, [] => inferInstanceAs (Decidable True)
  | past, a :: as =>
    have := decidableInOrder config (a :: past) as
    inferInstanceAs (Decidable (_ ∧ _))

/-- What the calls so far say of a generator. -/
def StreamTraced (past : List Act) (i : ℕ) : Stream → Prop
  | .absent => past.count .streamData ≤ i ∧ .advance i ∉ past ∧ past.count (.wake i) = 0
  | .created => i < past.count .streamData ∧ .advance i ∉ past ∧ past.count (.wake i) = 0
  | .yielded counter => i < past.count .streamData ∧ .advance i ∈ past ∧
      counter = past.count (.wake i)
  | .sleeping counter => i < past.count .streamData ∧ .advance i ∈ past ∧
      counter = past.count (.wake i) + 1
  | .finished => i < past.count .streamData ∧ .advance i ∈ past

/-- What the calls so far say of the state. -/
structure Traced (config : Dict) (past : List Act) (s : Session) : Prop where
  config_eq : s.adapter.config = config
  running : s.adapter.running = begunSinceStop past
  next : s.next = past.count .streamData
  streams : ∀ i, StreamTraced past i (s.streams i)
  created : ∀ i, .created i ∈ s.events ↔ i < s.next
  stopped : ∀ i, Stopped i s.events ↔ stoppedSince i past = true
  initialized : .initialized true ∈ s.events ↔
    targetHost config = .str (text "127.0.0.1") ∧ .initializeAdapter ∈ past

theorem stopped_cons_iff {e : Event} (he : e ≠ .stopped) :
    Stopped i (e :: es) ↔ Stopped i es := by
  constructor
  · rintro ⟨pre, hpre, hmem⟩
    rcases List.suffix_cons_iff.mp hpre with heq | hpre
    · exact absurd (List.cons.inj heq).1.symm he
    · exact ⟨pre, hpre, hmem⟩
  · rintro ⟨pre, hpre, hmem⟩
    exact ⟨pre, hpre.trans (List.suffix_cons _ _), hmem⟩

theorem stopped_stop_iff : Stopped i (.stopped :: es) ↔ .created i ∈ es ∨ Stopped i es := by
  constructor
  · rintro ⟨pre, hpre, hmem⟩
    rcases List.suffix_cons_iff.mp hpre with heq | hpre
    · cases heq
      exact .inl hmem
    · exact .inr ⟨pre, hpre, hmem⟩
  · rintro (hmem | ⟨pre, hpre, hmem⟩)
    · exact ⟨es, List.suffix_rfl, hmem⟩
    · exact ⟨pre, hpre.trans (List.suffix_cons _ _), hmem⟩

section Calls

variable {config : Dict} {past : List Act} {st : Stream}

/-- A call that is not about the generator. -/
theorem StreamTraced.cons (h : StreamTraced past i st) (hcall : a ≠ .streamData)
    (hadvance : a ≠ .advance i) (hwake : a ≠ .wake i) : StreamTraced (a :: past) i st := by
  have hcreated : (a :: past).count .streamData = past.count .streamData :=
    List.count_cons_of_ne hcall
  have hwoken : (a :: past).count (.wake i) = past.count (.wake i) := List.count_cons_of_ne hwake
  have hbegun : .advance i ∈ a :: past ↔ .advance i ∈ past :=
    ⟨fun h => (List.mem_cons.mp h).resolve_left hadvance.symm, .tail _⟩
  cases st <;> simpa only [StreamTraced, hcreated, hwoken, hbegun] using h

/-- A call about a generator moves this one only. -/
theorem Traced.streams_update (h : Traced config past s) (hcall : a ≠ .streamData)
    (hother : ∀ j, j ≠ i → a ≠ .advance j ∧ a ≠ .wake j) (hst : StreamTraced (a :: past) i st) :
    ∀ j, StreamTraced (a :: past) j (Function.update s.streams i st j) := by
  intro j
  by_cases hji : j = i
  · subst hji
    rw [Function.update_self]
    exact hst
  · rw [Function.update_of_ne hji]
    exact (h.streams j).cons hcall (hother j hji).1 (hother j hji).2

/-- Creating a generator. -/
theorem Traced.streams_create (h : Traced config past s) :
    ∀ j, StreamTraced (.streamData :: past) j (Function.update s.streams s.next .created j) := by
  intro j
  have hold := h.streams j
  have hcreated : (.streamData :: past).count .streamData = past.count .streamData + 1 :=
    List.count_cons_self
  have hwoken : (.streamData :: past).count (.wake j) = past.count (.wake j) :=
    List.count_cons_of_ne (by simp)
  have hbegun : .advance j ∈ .streamData :: past ↔ .advance j ∈ past := by simp
  by_cases hj : j = s.next
  · subst hj
    have hlt := h.next
    rw [Function.update_self]
    cases hs : s.streams s.next <;> rw [hs] at hold <;>
      simp only [StreamTraced, hcreated, hwoken, hbegun] at hold ⊢
    · exact ⟨by omega, hold.2⟩
    · omega
    · omega
    · omega
    · omega
  · rw [Function.update_of_ne hj]
    have hne := h.next
    cases hs : s.streams j <;> rw [hs] at hold <;>
      simp only [StreamTraced, hcreated, hwoken, hbegun] at hold ⊢
    · exact ⟨by omega, hold.2⟩
    · exact ⟨by omega, hold.2⟩
    · exact ⟨by omega, hold.2⟩
    · exact ⟨by omega, hold.2⟩
    · exact ⟨by omega, hold.2⟩

/-- An event of no other kind leaves what is known of generators and of `stop`. -/
theorem Traced.events_cons (h : Traced config past s) {e : Event} (hstop : e ≠ .stopped)
    (hcreate : ∀ j, e ≠ .created j) :
    (∀ j, .created j ∈ e :: s.events ↔ j < s.next) ∧
      ∀ j, Stopped j (e :: s.events) ↔ stoppedSince j past = true :=
  ⟨fun j => ⟨fun hmem => (h.created j).mp ((List.mem_cons.mp hmem).resolve_left (hcreate j).symm),
      fun hlt => .tail _ ((h.created j).mpr hlt)⟩,
    fun j => (stopped_cons_iff hstop).trans (h.stopped j)⟩

/-- What `initialize` says of the host. -/
theorem initializeAdapter_eq_ok_iff {a : Adapter} {result : Bool} :
    a.initializeAdapter = .ok result ↔
      targetHost a.config = .str (text "127.0.0.1") ∧ result = true := by
  unfold Adapter.initializeAdapter
  split
  · next hhost => simp [hhost]
  · next hhost => simp [not_not.mp hhost, eq_comm]

/-- **What the calls so far say of the state**, and a call more. -/
theorem traced_step (h : Traced config past s) (ht : Trans s a s') :
    Traced config (a :: past) s' := by
  have hinit : ∀ {e : Event} {a : Act}, e ≠ .initialized true → a ≠ .initializeAdapter →
      (.initialized true ∈ e :: s.events ↔
        targetHost config = .str (text "127.0.0.1") ∧ .initializeAdapter ∈ a :: past) := by
    intro e a he ha
    rw [List.mem_cons, List.mem_cons, or_iff_right he.symm, or_iff_right ha.symm, h.initialized]
  cases ht with
  | initialized result hres =>
    obtain ⟨hhost, rfl⟩ := initializeAdapter_eq_ok_iff.mp hres
    rw [h.config_eq] at hhost
    obtain ⟨hcreated, hstopped⟩ := h.events_cons (e := .initialized true) nofun nofun
    exact ⟨h.config_eq, h.running, h.next.trans (List.count_cons_of_ne (by simp)).symm,
      fun j => (h.streams j).cons (by simp) (by simp) (by simp), hcreated, hstopped,
      iff_of_true (.head _) ⟨hhost, .head _⟩⟩
  | refuse message hres =>
    obtain ⟨hcreated, hstopped⟩ := h.events_cons (e := .refused message) nofun nofun
    have hhost : targetHost config ≠ .str (text "127.0.0.1") := by
      intro hhost
      rw [← h.config_eq] at hhost
      rw [initializeAdapter_eq_ok_iff.mpr ⟨hhost, rfl⟩] at hres
      cases hres
    refine ⟨h.config_eq, h.running, h.next.trans (List.count_cons_of_ne (by simp)).symm,
      fun j => (h.streams j).cons (by simp) (by simp) (by simp), hcreated, hstopped,
      iff_of_false ?_ fun hok => hhost hok.1⟩
    intro hmem
    exact hhost (h.initialized.mp ((List.mem_cons.mp hmem).resolve_left nofun)).1
  | streamData =>
    refine ⟨h.config_eq, h.running, ?_, h.streams_create, ?_, ?_, hinit nofun nofun⟩
    · rw [List.count_cons_self, h.next]
    · intro j
      have hold := h.created j
      rw [List.mem_cons, hold, Event.created.injEq]
      show j = s.next ∨ j < s.next ↔ j < s.next + 1
      omega
    · exact fun j => (stopped_cons_iff (by simp)).trans (h.stopped j)
  | start i hi =>
    have hold : StreamTraced past i .created := hi ▸ h.streams i
    obtain ⟨hcreated, hstopped⟩ := h.events_cons (e := .packet i (packet 0)) nofun nofun
    refine ⟨h.config_eq, ?_, h.next.trans (List.count_cons_of_ne (by simp)).symm,
      h.streams_update (by simp) ?_ ?_, hcreated, hstopped, hinit nofun nofun⟩
    · rw [begunSinceStop, decide_eq_true hold.2.1, Bool.true_or]
    · exact fun j hj => ⟨by simpa using hj.symm, by simp⟩
    · refine ⟨?_, .head _, ?_⟩
      · rw [List.count_cons_of_ne (by simp)]
        exact hold.1
      · rw [List.count_cons_of_ne (by simp), hold.2.2]
  | sleep i counter hi =>
    have hold : StreamTraced past i (.yielded counter) := hi ▸ h.streams i
    refine ⟨h.config_eq, ?_, h.next.trans (List.count_cons_of_ne (by simp)).symm,
      h.streams_update (by simp) ?_ ?_, h.created, h.stopped, ?_⟩
    · rw [begunSinceStop, decide_eq_false (not_not.mpr hold.2.1), Bool.false_or]
      exact h.running
    · exact fun j hj => ⟨by simpa using hj.symm, by simp⟩
    · refine ⟨?_, .head _, ?_⟩
      · rw [List.count_cons_of_ne (by simp)]
        exact hold.1
      · rw [List.count_cons_of_ne (by simp), hold.2.2]
    · rw [h.initialized, List.mem_cons, or_iff_right (by simp)]
  | refused i hi =>
    have hbegun : .advance i ∈ past := by
      have hold := h.streams i
      rcases hi with ⟨counter, hi⟩ | hi
      · rw [hi] at hold
        exact hold.2.1
      · rw [hi] at hold
        exact hold.2
    have hmem : ∀ j, .advance j ∈ Act.advance i :: past ↔ .advance j ∈ past := by
      intro j
      rw [List.mem_cons, or_iff_right_of_imp]
      intro heq
      rwa [heq]
    have hcreated : (.advance i :: past).count .streamData = past.count .streamData :=
      List.count_cons_of_ne (by simp)
    refine ⟨h.config_eq, ?_, h.next.trans hcreated.symm, ?_, h.created, h.stopped, ?_⟩
    · rw [begunSinceStop, decide_eq_false (not_not.mpr hbegun), Bool.false_or]
      exact h.running
    · intro j
      have hold := h.streams j
      have hwoken : (.advance i :: past).count (.wake j) = past.count (.wake j) :=
        List.count_cons_of_ne (by simp)
      cases hs : s.streams j <;> rw [hs] at hold <;>
        simpa only [StreamTraced, hcreated, hwoken, hmem j] using hold
    · rw [h.initialized, List.mem_cons, or_iff_right (by simp)]
  | emit i counter hi hrun hlt =>
    have hold : StreamTraced past i (.sleeping counter) := hi ▸ h.streams i
    obtain ⟨hcreated, hstopped⟩ := h.events_cons (e := .packet i (packet counter)) nofun nofun
    refine ⟨h.config_eq, h.running, h.next.trans (List.count_cons_of_ne (by simp)).symm,
      h.streams_update (by simp) ?_ ?_, hcreated, hstopped, hinit nofun nofun⟩
    · exact fun j hj => ⟨by simp, by simpa using hj.symm⟩
    · refine ⟨?_, .tail _ hold.2.1, ?_⟩
      · rw [List.count_cons_of_ne (by simp)]
        exact hold.1
      · rw [List.count_cons_self, hold.2.2]
  | finish i counter hi hrun =>
    have hold : StreamTraced past i (.sleeping counter) := hi ▸ h.streams i
    refine ⟨h.config_eq, h.running, h.next.trans (List.count_cons_of_ne (by simp)).symm,
      h.streams_update (by simp) ?_ ?_, h.created, h.stopped, ?_⟩
    · exact fun j hj => ⟨by simp, by simpa using hj.symm⟩
    · refine ⟨?_, .tail _ hold.2.1⟩
      rw [List.count_cons_of_ne (by simp)]
      exact hold.1
    · rw [h.initialized, List.mem_cons, or_iff_right (by simp)]
  | stop =>
    refine ⟨h.config_eq, rfl, h.next.trans (List.count_cons_of_ne (by simp)).symm,
      fun j => (h.streams j).cons (by simp) (by simp) (by simp), ?_, ?_, hinit nofun nofun⟩
    · intro j
      exact ⟨fun hmem => (h.created j).mp ((List.mem_cons.mp hmem).resolve_left nofun),
        fun hlt => .tail _ ((h.created j).mpr hlt)⟩
    · intro j
      rw [stopped_stop_iff, h.created, h.stopped, stoppedSince, Bool.or_eq_true, decide_eq_true_eq,
        h.next]

/-- **A call is timely exactly if it does no harm after the calls before it.** -/
theorem timely_iff_harmless (h : Traced config past s) (ht : Trans s a s') :
    Timely s a ↔ Harmless config past a := by
  have hfresh : ∀ i, ¬Stopped i s.events ↔ stoppedSince i past = false := by
    intro i
    rw [h.stopped i, Bool.not_eq_true]
  have hadvance : ∀ {i}, (s.streams i = .created ↔ .advance i ∉ past) →
      (Timely s (.advance i) ↔ Harmless config past (.advance i)) := by
    intro i hi
    rw [Timely, Harmless, hi, h.initialized, hfresh]
  have hwake : ∀ {i counter}, s.streams i = .sleeping counter →
      (Timely s (.wake i) ↔ Harmless config past (.wake i)) := by
    intro i counter hi
    have hold : StreamTraced past i (.sleeping counter) := hi ▸ h.streams i
    rw [Timely, Harmless, hfresh, h.running]
    constructor
    · exact fun hok hrun hlt => hok counter hi hrun (by have := hold.2.2; omega)
    · intro hok counter' hi' hrun hlt
      rw [hi] at hi'
      cases hi'
      exact hok hrun (by have := hold.2.2; omega)
  cases ht with
  | start i hi =>
    have hold : StreamTraced past i .created := hi ▸ h.streams i
    exact hadvance (iff_of_true hi hold.2.1)
  | sleep i counter hi =>
    have hold : StreamTraced past i (.yielded counter) := hi ▸ h.streams i
    exact hadvance (iff_of_false (by rw [hi]; nofun) (not_not.mpr hold.2.1))
  | refused i hi =>
    have hold := h.streams i
    rcases hi with ⟨counter, hi⟩ | hi
    · rw [hi] at hold
      exact hadvance (iff_of_false (by rw [hi]; nofun) (not_not.mpr hold.2.1))
    · rw [hi] at hold
      exact hadvance (iff_of_false (by rw [hi]; nofun) (not_not.mpr hold.2))
  | emit i counter hi => exact hwake hi
  | finish i counter hi => exact hwake hi
  | _ => exact Iff.rfl

end Calls

/-- The calls of a run are timely exactly if they are in order. -/
theorem timely_path_iff_inOrder {config : Dict} {past as : List Act}
    (h : (machine importClass).Path Machine.free s as t) (hs : Traced config past s) :
    (machine importClass).Path Timely s as t ↔ InOrder config past as := by
  induction h generalizing past with
  | nil s => exact iff_of_true (.nil s) trivial
  | @cons s u t a as _ hst _ ih =>
    have ht : Trans s a u := trans_of_step hst
    have hrest := ih (traced_step hs ht)
    constructor
    · intro htimely
      obtain ⟨v, hok, hst', hrest'⟩ := htimely.head
      obtain rfl : u = v := Option.some.inj (hst.symm.trans hst')
      exact ⟨(timely_iff_harmless hs ht).mp hok, hrest.mp hrest'⟩
    · rintro ⟨hok, horder⟩
      exact .cons ((timely_iff_harmless hs ht).mpr hok) hst (hrest.mpr horder)

/-! ### Runs -/

/-- A run that ends in order has timely calls only. -/
theorem timely_path_of_orderly {ok : Session → Act → Prop} {as : List Act}
    (h : (machine importClass).Path ok s as t) (horderly : Orderly t.events) :
    (machine importClass).Path Timely s as t := by
  induction h with
  | nil s => exact .nil s
  | cons _ hst hrest ih =>
    have hnext := horderly.of_suffix (events_suffix_of_path hrest)
    exact .cons (timely_of_orderly (trans_of_step hst) hnext) hst (ih horderly)

/-- Before the first call. -/
theorem traced_start (config : Dict) : Traced config [] (.start (.new config)) where
  config_eq := rfl
  running := rfl
  next := rfl
  streams := fun i => ⟨Nat.zero_le i, by simp, rfl⟩
  created := fun i => iff_of_false (by simp [Session.start]) (Nat.not_lt_zero i)
  stopped := fun i => by
    refine iff_of_false ?_ (by simp [stoppedSince])
    rintro ⟨pre, hpre, -⟩
    cases List.suffix_nil.mp hpre
  initialized := iff_of_false (by simp [Session.start]) (by simp)

/-- **The packets of a run are in order exactly if its calls are**, for an adapter that is
made with any configuration, or loaded.  Then one whose host is not the loopback address
yields none. -/
theorem lifecycle_iff {s₀ : Session} (h₀ : (machine importClass).init s₀) {as : List Act}
    (h : (machine importClass).Path Machine.free s₀ as s) :
    (Orderly s.events ↔ InOrder s₀.adapter.config [] as) ∧
      (Orderly s.events → targetHost s₀.adapter.config ≠ .str (text "127.0.0.1") →
        ∀ i payload, .packet i payload ∉ s.events) := by
  obtain ⟨adapter, hmade, rfl⟩ := h₀
  obtain ⟨config, rfl⟩ := hmade.exists_config
  have htimely : (machine importClass).Path Timely (.start (.new config)) as s ↔
      InOrder config [] as := timely_path_iff_inOrder h (traced_start config)
  refine ⟨⟨fun horderly => htimely.mp (timely_path_of_orderly h horderly), fun horder => ?_⟩, ?_⟩
  · have hstart : Inv (.start (.new config)) :=
      ⟨orderly_nil, by rintro i counter (hst | hst) <;> cases hst⟩
    exact ((htimely.mpr horder).invariant (P := Inv)
      (fun _ _ _ hu hok hst => inv_step hu hok (trans_of_step hst)) hstart).orderly
  · intro horderly hhost i payload hmem
    obtain ⟨past, htraced⟩ : ∃ past, Traced config past s :=
      h.invariant (P := fun u => ∃ past, Traced config past u)
        (fun _ _ _ ⟨_, hu⟩ _ hst => ⟨_, traced_step hu (trans_of_step hst)⟩)
        ⟨_, traced_start config⟩
    obtain ⟨post, pre, heq⟩ := List.append_of_mem hmem
    have hinit := (horderly i payload pre ⟨post, heq.symm⟩).1
    refine hhost (htraced.initialized.mp ?_).1
    rw [heq]
    exact List.mem_append_right _ (.tail _ hinit)

/-- An import that finds the class. -/
def importLoopback : PyValue → PyValue → Option (AdapterClass Empty) :=
  fun _ _ => some .localLoopbackJsonRpc

/-- An entry of the configuration with a host that is not the loopback address. -/
def remoteEntry : Dict :=
  [(text "module", .str (text "commons_bridge.adapters.json_rpc_adapter")),
    (text "class", .str (text "LocalLoopbackJsonRpcAdapter")),
    (text "host", .str (text "192.168.1.100"))]

theorem made_remoteEntry : Made importLoopback (.new remoteEntry) :=
  @Made.loaded _ _ (some [remoteEntry]) [.inl (.new remoteEntry)] _ rfl (.head _)

/-- A generator is created, advanced and woken, and `stop` is called in its sleep. -/
def stopSchedule : List Act :=
  [.initializeAdapter, .streamData, .advance 0, .advance 0, .wake 0, .advance 0, .stop, .wake 0]

/-- The calls are in order, and so are the five events. -/
theorem lifecycle_iff_loopback : ∃ s : Session,
    (machine importLoopback).Path Machine.free (.start (.new [])) stopSchedule s ∧
      s.events.length = 5 ∧ Orderly s.events := by
  have hexec : ((machine importLoopback).exec (fun _ _ => true) (.start (.new []))
      stopSchedule).map (fun s => s.events.length) = some 5 := by
    decide
  obtain ⟨s, hs, hlen⟩ := Machine.exists_path_of_exec hexec
  have hpath : (machine importLoopback).Path Machine.free (.start (.new [])) stopSchedule s :=
    hs.mono fun _ _ _ => trivial
  exact ⟨s, hpath, hlen, (lifecycle_iff ⟨_, .direct [], rfl⟩ hpath).1.mpr (by decide +kernel)⟩

/-- **An adapter as the loader returns it yields a packet with no `initialize`**, whatever
its host, **and a generator that is advanced for the first time after `stop` yields one.** -/
theorem lifecycle_violated :
    (¬∀ s₀ as s, (machine importLoopback).init s₀ →
      (machine importLoopback).Path Machine.free s₀ as s →
        ∀ i payload pre, .packet i payload :: pre <:+ s.events → .initialized true ∈ pre) ∧
      ¬∀ s₀ as s, (machine importLoopback).init s₀ →
        (machine importLoopback).Path Machine.free s₀ as s →
          ∀ i payload pre, .packet i payload :: pre <:+ s.events → ¬Stopped i pre := by
  constructor
  · intro h
    have hexec : ((machine importLoopback).exec (fun _ _ => true) (.start (.new remoteEntry))
        [.streamData, .advance 0]).map Session.events = some [.packet 0 (packet 0), .created 0] :=
      rfl
    obtain ⟨s, hs, hevents⟩ := Machine.exists_path_of_exec hexec
    have hinit := h _ _ s ⟨_, made_remoteEntry, rfl⟩ (hs.mono fun _ _ _ => trivial) 0 (packet 0)
      [.created 0] (by rw [hevents])
    simp at hinit
  · intro h
    have hexec : ((machine importLoopback).exec (fun _ _ => true) (.start (.new []))
        [.initializeAdapter, .streamData, .stop, .advance 0]).map Session.events =
          some [.packet 0 (packet 0), .stopped, .created 0, .initialized true] :=
      rfl
    obtain ⟨s, hs, hevents⟩ := Machine.exists_path_of_exec hexec
    refine h _ _ s ⟨_, .direct [], rfl⟩ (hs.mono fun _ _ _ => trivial) 0 (packet 0)
      [.stopped, .created 0, .initialized true] (by rw [hevents]) ?_
    exact ⟨[.created 0, .initialized true], List.suffix_rfl, .head _⟩

end CommonsBridge
end SovereignSeed
