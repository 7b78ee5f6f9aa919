import SovereignSeed.Daemon.NeverSkips
import Mathlib.Data.List.Nodup

/-!
# Exactly once across restarts

With distinct keys the primary key makes the insert of an event idempotent: a
daemon that was killed between the `COMMIT` of an event and the store of `tail`
inserts the event again, and the key sends it past.  `Smooth` is the setting:
published events have distinct keys, the insert of a new key succeeds, and so
does the `COMMIT` that makes it durable.  Every other outcome is free — a failed
`BEGIN`, an error in place of the constraint violation, a kill at any point.

What the setting does not promise is the text.  The daemon binds as many bytes as
`payload_len` says, and where that is more than `data` holds the insert succeeds with
another row than the event's.  `Whole` is the condition that this does not happen.

## Main definitions

* `Smooth` — the setting, step by step.
* `Whole` — what is inserted has its payload.
* `OnceInv` — the table is a prefix of the events, one longer than `tail` says at most.

## Main results

* `exactly_once` — **the table holds the first `k` events, each once.**
* `overlong_stored_as_null` — an event whose length SQLite refuses loses its payload.
-/

namespace SovereignSeed
namespace Daemon

/-- A published event has a new key; the insert of a new key succeeds unless its text
kills the daemon, and so does a `COMMIT` with something to commit. -/
def Smooth (s : State) : Act → Prop
  | .publish => ∀ ev ∈ s.published, ev.traceId ≠ (s.events (slot s.head)).traceId
  | .insert _ out => ∀ l b, s.pc = .insert l b → ¬ taken s.db b.traceId →
      out = .done ∨ out = .fault
  | .commit out => s.db.view ≠ s.db.file → out = .ok
  | _ => True

/-- An insert that succeeds has a length in bounds, or a text that was found to end
where `data` does. -/
def Whole (s : State) : Act → Prop
  | .insert _ out => ∀ l b, s.pc = .insert l b → out = .done → Sized (s.events (slot l)) b
  | _ => True

/-- The rows of the first `k` events. -/
def rowsUpTo (evs : List SipEvent) (k : ℕ) : List Row := (evs.take k).map SipEvent.row

/-- What the connection sees at each point of the loop, when `k` events are
committed and `T` are passed. -/
def Pending (s : State) (T k : ℕ) : Pc → Prop
  | .commit _ _ => s.db.view = rowsUpTo s.published (T + 1)
  | .store _ => s.db.view = s.db.file ∧ k = T + 1
  | _ => s.db.view = s.db.file

/-- The invariant: `k` events are committed, where `k` is `T` or `T + 1`. -/
structure OnceInv (L : Limit) (s : State) (T k : ℕ) : Prop where
  rep : Rep L s T
  keys : (s.published.map SipEvent.traceId).Nodup
  k_eq : k = T ∨ k = T + 1
  k_le : k ≤ s.published.length
  file_eq : s.db.file = rowsUpTo s.published k
  pending : Pending s T k s.pc

variable {L : Limit} {s s' : State} {T k : ℕ}

/-! ### Keys -/

/-- The key of event `i` is not among those of the events before it. -/
theorem not_taken_of_nodup (h : (s.published.map SipEvent.traceId).Nodup)
    {ev : SipEvent} (hev : s.published[T]? = some ev) {db : Store (List Row)}
    (hview : db.view = rowsUpTo s.published T) : ¬ taken db ev.row.traceId := by
  intro htaken
  rw [taken, hview, rowsUpTo, List.map_map] at htaken
  obtain ⟨old, hold, hkey⟩ := List.mem_map.mp htaken
  obtain ⟨j, hj, hget⟩ := List.mem_take_iff_getElem.mp hold
  -- the cast to `sqlite3_int64` loses nothing
  have hkey' : old.traceId = ev.traceId := congrArg Int64.toUInt64 hkey
  have hlt : j < T := by omega
  have hlen : T < s.published.length := (List.getElem?_eq_some_iff.mp hev).1
  have heq : (s.published.map SipEvent.traceId)[j]? = (s.published.map SipEvent.traceId)[T]? := by
    rw [List.getElem?_map, List.getElem?_map, hev, List.getElem?_eq_getElem (by omega), hget]
    exact congrArg some hkey'
  have hjT := (List.nodup_iff_getElem?_ne_getElem?.mp h) j T hlt (by simpa using hlen)
  exact hjT heq

/-- The key of event `i` is among those of the first `i + 1`. -/
theorem taken_of_rowsUpTo {ev : SipEvent} (hev : s.published[T]? = some ev)
    {db : Store (List Row)} (hview : db.view = rowsUpTo s.published (T + 1)) :
    taken db ev.row.traceId := by
  rw [taken, hview, rowsUpTo, List.map_map]
  have hmem : ev ∈ s.published.take (T + 1) := by
    rw [List.take_add_one, hev]
    exact List.mem_append_right _ (List.mem_singleton.mpr rfl)
  exact List.mem_map.mpr ⟨ev, hmem, rfl⟩

/-- One more event. -/
theorem rowsUpTo_succ {ev : SipEvent} (hev : s.published[T]? = some ev) :
    rowsUpTo s.published (T + 1) = rowsUpTo s.published T ++ [ev.row] := by
  rw [rowsUpTo, List.take_add_one, hev, List.map_append]
  rfl

namespace OnceInv

/-- A step that leaves the events and the committed rows alone. -/
theorem goto (h : OnceInv L s T k) {i : ℕ} {a : Act} {p : Pc} {db : Store (List Row)}
    (hm : Moves L s a { s with pc := p, db := db } i) (hi : i = 0) (hfile : db.file = s.db.file)
    (hp : Pending { s with pc := p, db := db } T k p) :
    OnceInv L { s with pc := p, db := db } T k where
  rep := by
    subst hi
    exact rep_moves h.rep hm
  keys := h.keys
  k_eq := h.k_eq
  k_le := h.k_le
  file_eq := hfile.trans h.file_eq
  pending := hp

/-- Publishing an event with a new key. -/
theorem publish (h : OnceInv L s T k) (hroom : subWord 64 s.head s.tail < ringBufferSize)
    (hnew : ∀ ev ∈ s.published, ev.traceId ≠ (s.events (slot s.head)).traceId) :
    OnceInv L { s with
      head := addWord 64 s.head 1
      published := s.published ++ [s.events (slot s.head)] } T k := by
  -- the events up to `j` are the same before and after
  have hrows : ∀ j ≤ s.published.length,
      rowsUpTo (s.published ++ [s.events (slot s.head)]) j = rowsUpTo s.published j := by
    intro j hj
    rw [rowsUpTo, List.take_append_of_le_length hj, rowsUpTo]
  have hpc : PcRep L s T s.pc := h.rep.pc
  exact
    { rep := rep_moves h.rep (.publish hroom)
      keys := by
        show ((s.published ++ [_]).map SipEvent.traceId).Nodup
        rw [List.map_append]
        refine List.Nodup.append h.keys (List.nodup_singleton _) ?_
        intro key hkey hlast
        obtain ⟨ev, hev, rfl⟩ := List.mem_map.mp hkey
        exact hnew ev hev (List.mem_singleton.mp hlast)
      k_eq := h.k_eq
      k_le := h.k_le.trans (by show _ ≤ (s.published ++ [_]).length; simp)
      file_eq := h.file_eq.trans (hrows k h.k_le).symm
      pending := by
        have hpending : Pending s T k s.pc := h.pending
        show Pending _ T k s.pc
        generalize s.pc = p at hpc hpending
        cases p with
        | commit l b => exact hpending.trans (hrows (T + 1) hpc.2.1).symm
        | _ => exact hpending }

/-- What the insert of the current event leads to. -/
theorem insert (h : OnceInv L s T k) {l : ℕ} {b : Bound} {behind : List UInt8} {out : StepResult}
    {db : Store (List Row)} (hl : s.pc = .insert l b)
    (hok : ¬ taken s.db b.traceId → out = .done ∨ out = .fault)
    (hsized : out = .done → Sized (s.events (slot l)) b)
    (hdb : insertRow s.db b.traceId (s.boundRow l behind b) out = some db) :
    ∃ k', OnceInv L { s with db := db, pc := out.next l b } T k' := by
  have hm : Moves L s (.insert behind out) { s with db := db, pc := out.next l b } 0 :=
    .insert l b behind out db hl hdb
  have hpc : PcRep L s T (.insert l b) := hl ▸ h.rep.pc
  have hlt : T < s.published.length := hpc.2.1
  have hev := h.rep.getElem?_eq hlt
  obtain ⟨hslot, hbinds⟩ := h.rep.binds (.inl hl) hev
  have hkey : b.traceId = (s.events (T % ringBufferSize)).row.traceId := hbinds.words.1
  have hview : s.db.view = s.db.file := by
    have hpending : Pending s T k (.insert l b) := hl ▸ h.pending
    exact hpending
  by_cases hfault : out = .fault
  · -- the daemon is dead, and nothing was written
    subst hfault
    simp only [insertRow] at hdb
    split at hdb
    · cases hdb
      exact ⟨k, h.goto hm rfl rfl rfl⟩
    · cases hdb
  have hnext : out.next l b = .commit l b := by
    cases out <;> first | rfl | exact absurd rfl hfault
  rw [hkey] at hok hdb
  rw [hnext] at hm ⊢
  rcases h.k_eq with hk | hk
  · -- the event is new: it is inserted, with its payload
    subst hk
    have hnew := not_taken_of_nodup h.keys hev (hview.trans h.file_eq)
    obtain rfl := (hok hnew).resolve_right hfault
    obtain ⟨e, he⟩ := h.rep.running (by rw [hl]; simp)
    have hsized := hsized rfl
    rw [hslot] at hsized
    rw [h.rep.boundRow_eq_row hl hev hsized] at hdb
    simp only [insertRow, if_neg hnew, Option.map_some, Option.some.injEq] at hdb
    subst hdb
    have hview' : (s.db.write (· ++ [(s.events (k % ringBufferSize)).row])).view =
        rowsUpTo s.published (k + 1) := by
      rw [Store.view_write _ _ he, hview, h.file_eq, rowsUpTo_succ hev]
    rcases Store.file_write s.db (· ++ [(s.events (k % ringBufferSize)).row]) with hfile | hfile
    · exact ⟨k, h.goto hm rfl hfile hview'⟩
    · -- outside a transaction the insert commits itself
      refine ⟨k + 1, ?_⟩
      exact
        { rep := rep_moves h.rep hm
          keys := h.keys
          k_eq := Or.inr rfl
          k_le := hlt
          file_eq := hfile.trans hview'
          pending := hview' }
  · -- the event was committed before a restart: nothing changes
    have hrows : s.db.view = rowsUpTo s.published (T + 1) := by rw [hview, h.file_eq, hk]
    have htaken := taken_of_rowsUpTo hev hrows
    have hsame : db.view = s.db.view ∧ db.file = s.db.file := by
      cases out with
      | done =>
        simp only [insertRow, if_pos htaken] at hdb
        cases hdb
      -- the key of the first insert is what stops the second
      | constraint =>
        simp only [insertRow, if_pos htaken, Option.some.injEq] at hdb
        subst hdb
        exact ⟨rfl, rfl⟩
      | error rollback =>
        cases rollback with
        -- nothing was written, so there is nothing to roll back
        | true =>
          simp only [insertRow, if_true, Option.some.injEq] at hdb
          subst hdb
          exact ⟨by rw [Store.view_rollback, hview], rfl⟩
        | false =>
          simp only [insertRow, Bool.false_eq_true, if_false, Option.some.injEq] at hdb
          subst hdb
          exact ⟨rfl, rfl⟩
      | fault => exact absurd rfl hfault
    exact ⟨k, h.goto hm rfl hsame.2 (hsame.1.trans hrows)⟩

/-- What the `COMMIT` of the current event leads to. -/
theorem commit (h : OnceInv L s T k) {l : ℕ} {b : Bound} {out : CommitResult}
    {db : Store (List Row)} (hl : s.pc = .commit l b)
    (hok : s.db.view ≠ s.db.file → out = .ok) (hdb : commitTx s.db out = some db) :
    OnceInv L { s with db := db, pc := .store (addWord 64 l 1) } T (T + 1) := by
  have hm : Moves L s (.commit out) { s with db := db, pc := .store (addWord 64 l 1) } 0 :=
    .commit l b out db hl hdb
  have hpc : PcRep L s T (.commit l b) := hl ▸ h.rep.pc
  have hview : s.db.view = rowsUpTo s.published (T + 1) := by
    have hpending : Pending s T k (.commit l b) := hl ▸ h.pending
    exact hpending
  have hdone : db.view = rowsUpTo s.published (T + 1) ∧ db.file = rowsUpTo s.published (T + 1) := by
    cases out with
    | ok =>
      simp only [commitTx] at hdb
      split at hdb
      · cases hdb
        rw [Store.view_commit, Store.file_commit]
        exact ⟨hview, hview⟩
      · cases hdb
    | error rollback =>
      -- an error here means that there was nothing to commit
      have hfile : s.db.view = s.db.file := by
        by_contra hne
        exact absurd (hok hne) (by simp)
      cases rollback with
      | true =>
        cases hdb
        rw [if_pos rfl, Store.view_rollback, Store.file_rollback, ← hfile]
        exact ⟨hview, hview⟩
      | false =>
        cases hdb
        exact ⟨hview, hfile ▸ hview⟩
  exact
    { rep := rep_moves h.rep hm
      keys := h.keys
      k_eq := Or.inr rfl
      k_le := hpc.2.1
      file_eq := hdone.2
      pending := ⟨hdone.1.trans hdone.2.symm, rfl⟩ }

end OnceInv

/-- **A step in the setting keeps the invariant.** -/
theorem onceInv_step (h : OnceInv L s T k) {a : Act} (hok : Smooth s a) (hwhole : Whole s a)
    (hst : step L s a = some s') : ∃ T' k', OnceInv L s' T' k' := by
  obtain ⟨i, hm⟩ := moves_of_step hst
  have hrep := rep_moves h.rep hm
  have hpending : Pending s T k s.pc := h.pending
  cases hm with
  | write ev hroom =>
    refine ⟨T, k, hrep, h.keys, h.k_eq, h.k_le, h.file_eq, ?_⟩
    show Pending _ T k s.pc
    generalize s.pc = p at hpending
    cases p <;> exact hpending
  | publish hroom => exact ⟨T, k, h.publish hroom hok⟩
  | kill => exact ⟨T, k, h.goto .kill rfl rfl rfl⟩
  | start hl => exact ⟨T, k, h.goto (.start hl) rfl rfl rfl⟩
  | attach hl =>
    rw [hl] at hpending
    exact ⟨T, k, h.goto (.attach hl) rfl rfl hpending⟩
  | pause l _ => exact ⟨T, k, h⟩
  | seen l hl hne =>
    rw [hl] at hpending
    exact ⟨T, k, h.goto (.seen l hl hne) rfl rfl hpending⟩
  | bind l behind b hl hb =>
    rw [hl] at hpending
    exact ⟨T, k, h.goto (.bind l behind b hl hb) rfl rfl hpending⟩
  | bindFaults l behind hl => exact ⟨T, k, h.goto (.bindFaults l behind hl) rfl rfl rfl⟩
  | begin l b hl =>
    rw [hl] at hpending
    exact ⟨T, k, h.goto (.begin l b hl) rfl rfl ((Store.view_beginTx s.db).trans hpending)⟩
  | beginFails l b hl =>
    rw [hl] at hpending
    exact ⟨T, k, h.goto (.beginFails l b hl) rfl rfl hpending⟩
  | insert l b behind out db hl hdb =>
    obtain ⟨k', hk'⟩ := h.insert hl (hok l b hl) (hwhole l b hl) hdb
    exact ⟨T, k', hk'⟩
  | commit l b out db hl hdb => exact ⟨T, T + 1, h.commit hl hok hdb⟩
  | store l hl =>
    rw [hl] at hpending
    obtain ⟨hview, rfl⟩ := hpending
    exact ⟨T + 1, T + 1, hrep, h.keys, Or.inl rfl, h.k_le, h.file_eq, hview⟩

theorem onceInv_boot (mem : ℕ → SipEvent) : OnceInv L (boot mem []) 0 0 where
  rep := rep_boot mem []
  keys := List.nodup_nil
  k_eq := Or.inl rfl
  k_le := le_rfl
  file_eq := rfl
  pending := rfl

/-- The first events have distinct rows. -/
theorem OnceInv.file_nodup (h : OnceInv L s T k) : (s.db.file.map Row.traceId).Nodup := by
  have hkeys : ((s.published.take k).map SipEvent.traceId).Nodup :=
    h.keys.sublist ((List.take_sublist k s.published).map SipEvent.traceId)
  have hsigned := hkeys.map (f := UInt64.toInt64) fun _ _ heq => congrArg Int64.toUInt64 heq
  rw [List.map_map] at hsigned
  rw [h.file_eq, rowsUpTo, List.map_map]
  exact hsigned

/-- **Exactly once.** In every run in which published events have distinct
trace ids, the inserts of new ones succeed, and what is inserted has its payload,
however often the daemon is killed and started again, `commons_events` holds at
every moment exactly the first `k` published events, each once, where `k` is
`tail` or `tail + 1`. -/
theorem exactly_once {mem : ℕ → SipEvent} {as : List Act} {s : State}
    (h : (machine L).Path (fun u a => Smooth u a ∧ Whole u a) (boot mem []) as s) :
    ∃ k ≤ s.published.length, s.db.file = (s.published.take k).map SipEvent.row ∧
      (s.db.file.map Row.traceId).Nodup ∧
        (k % 2 ^ 64 = s.tail ∨ k % 2 ^ 64 = addWord 64 s.tail 1) := by
  have hinv : ∃ T k, OnceInv L s T k :=
    h.invariant (P := fun s => ∃ T k, OnceInv L s T k)
      (fun _ _ _ ⟨_, _, hT⟩ hok hst => onceInv_step hT hok.1 hok.2 hst) ⟨0, 0, onceInv_boot mem⟩
  obtain ⟨T, k, hT⟩ := hinv
  refine ⟨k, hT.k_le, hT.file_eq, hT.file_nodup, ?_⟩
  rw [hT.rep.tail_eq, addWord_mod]
  rcases hT.k_eq with rfl | rfl
  · exact Or.inl rfl
  · exact Or.inr rfl

/-! ### Runs with kills -/

/-- The setting, evaluated. -/
def smoothBool (s : State) : Act → Bool
  | .publish => s.published.all fun ev => ev.traceId != (s.events (slot s.head)).traceId
  | .insert _ out =>
    match s.pc with
    | .insert _ b => taken s.db b.traceId ∨ out = .done ∨ out = .fault
    | _ => true
  | .commit out => s.db.view = s.db.file ∨ out = .ok
  | _ => true

/-- The condition, evaluated. -/
def wholeBool (s : State) : Act → Bool
  | .insert _ out =>
    match s.pc with
    | .insert l b => out = .done → Sized (s.events (slot l)) b
    | _ => true
  | _ => true

theorem smooth_of_smoothBool {a : Act} (h : smoothBool s a = true) : Smooth s a := by
  cases a with
  | publish =>
    intro ev hev
    have hne := List.all_eq_true.mp h ev hev
    simpa using hne
  | insert behind out =>
    intro l b hl hnew
    simp only [smoothBool, hl] at h
    exact (of_decide_eq_true h).resolve_left hnew
  | commit out => exact fun hne => (of_decide_eq_true h).resolve_left hne
  | _ => exact trivial

theorem whole_of_wholeBool {a : Act} (h : wholeBool s a = true) : Whole s a := by
  cases a with
  | insert behind out =>
    intro l b hl
    simp only [wholeBool, hl] at h
    exact of_decide_eq_true h
  | _ => exact trivial

/-- The daemon is killed inside the transaction of the first event, and again
between its `COMMIT` and the store of `tail`. -/
def killSchedule : List Act :=
  [.start, .go, .write (oneByte 7 1), .publish, .write (oneByte 9 2), .publish, .go, .bind [],
    .begin true, .insert [] .done, .kill, .start, .go, .go, .bind [], .begin true, .insert [] .done,
    .commit .ok, .kill, .start, .go, .go, .bind [], .begin true, .insert [] .constraint,
    .commit .ok, .go, .go, .bind [], .begin false, .insert [] .done]

/-- In the last state the second event is committed, and `tail` is one behind. -/
theorem exactly_once_killSchedule :
    ∃ s, (machine defaultLimit).Path (fun u a => Smooth u a ∧ Whole u a)
        (boot (fun _ => oneByte 0 0) []) killSchedule s ∧ s.tail = 1 ∧
      s.db.file.length = 2 ∧
      ∃ k ≤ s.published.length, s.db.file = (s.published.take k).map SipEvent.row ∧
        (s.db.file.map Row.traceId).Nodup ∧
          (k % 2 ^ 64 = s.tail ∨ k % 2 ^ 64 = addWord 64 s.tail 1) := by
  have hexec : ((machine defaultLimit).exec (fun u a => smoothBool u a && wholeBool u a)
      (boot (fun _ => oneByte 0 0) []) killSchedule).map
      (fun s => (s.tail, s.db.file.length)) = some (1, 2) := by
    decide +kernel
  obtain ⟨s, hs, hend⟩ := Machine.exists_path_of_exec hexec
  obtain ⟨htail, hlen⟩ := Prod.mk.inj hend
  have hpath := hs.mono fun _ _ hok =>
    have hok := Bool.and_eq_true_iff.mp hok
    And.intro (smooth_of_smoothBool hok.1) (whole_of_wholeBool hok.2)
  exact ⟨s, hpath, htail, hlen, exactly_once hpath⟩

/-- An event whose length is more than SQLite takes. -/
def refusedEvent : SipEvent where
  traceId := 7
  timestampNs := 5
  payloadLen := 2000000000
  data := fun _ => 1

/-- **An event whose length SQLite refuses loses its payload**: NULL is stored in its
place, and every statement succeeds. -/
theorem overlong_stored_as_null :
    ¬ ∀ as s, (machine defaultLimit).Path Smooth (boot (fun _ => oneByte 0 0) []) as s →
      ∃ k ≤ s.published.length, s.db.file = (s.published.take k).map SipEvent.row ∧
        (s.db.file.map Row.traceId).Nodup ∧
          (k % 2 ^ 64 = s.tail ∨ k % 2 ^ 64 = addWord 64 s.tail 1) := by
  intro honce
  have hexec : ((machine defaultLimit).exec smoothBool (boot (fun _ => oneByte 0 0) [])
      ([.start, .go] ++ pass refusedEvent true .done .ok)).map (fun s => s.db.file) =
      some [⟨7, 5, none⟩] := by
    decide +kernel
  obtain ⟨s, hs, hfile⟩ := Machine.exists_path_of_exec hexec
  obtain ⟨k, -, hrows, -⟩ := honce _ s (hs.mono fun _ _ => smooth_of_smoothBool)
  -- the row of an event has a payload
  have hmem : (⟨7, 5, none⟩ : Row) ∈ (s.published.take k).map SipEvent.row := by
    rw [← hrows, hfile]
    exact List.mem_singleton.mpr rfl
  obtain ⟨ev, -, hrow⟩ := List.mem_map.mp hmem
  cases congrArg Row.payload hrow

end Daemon
end SovereignSeed
