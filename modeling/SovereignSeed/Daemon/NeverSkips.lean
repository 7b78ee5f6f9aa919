import SovereignSeed.Daemon.Bridge

/-!
# When the daemon skips an event

The daemon moves on whatever the database says, so it skips an event whose
insert or whose `COMMIT` fails, and one whose insert succeeds with another text.
`Kept` is the condition that rules this out, step by step: an insert adds the row
of the event or leaves a table that has this very row already, and a `COMMIT`
succeeds or the row is committed before.  A failed `BEGIN` alone does no harm,
since the insert then commits itself; nor does a text that kills the daemon.

## Main definitions

* `NeverSkips` — what is passed is committed.
* `Kept` — the condition on the outcomes.

## Main results

* `neverSkips_of_kept` — **under the condition nothing is skipped.**
* `skips_same_traceId` — a second event with the same key is skipped.
-/

namespace SovereignSeed
namespace Daemon

/-- `tail > i` only if a row holding event `i` is committed. -/
def NeverSkips (s : State) : Prop :=
  ∀ i ev, i < s.tail → s.published[i]? = some ev → ev.row ∈ s.db.file

/-- The rows left by an insert that adds none. -/
def survivors (db : Store (List Row)) : StepResult → List Row
  | .error true => db.file
  | _ => db.view

/-- The insert adds the row of the event, or leaves this very row in the table, or kills
the daemon; the `COMMIT` succeeds, or the row is committed already. -/
def Kept (s : State) : Act → Prop
  | .insert _ out => ∀ l b, s.pc = .insert l b →
      (out = .done ∧ Sized (s.events (slot l)) b) ∨
        (s.events (slot l)).row ∈ survivors s.db out ∨ out = .fault
  | .commit out => ∀ l b, s.pc = .commit l b →
      out = .ok ∨ (s.events (slot l)).row ∈ s.db.file
  | _ => True

/-- What is known of the current event, number `T`, at each point of the loop. -/
def Carried (s : State) (T : ℕ) : Pc → Prop
  | .commit _ _ => ∀ ev, s.published[T]? = some ev → ev.row ∈ s.db.view
  | .store _ => ∀ ev, s.published[T]? = some ev → ev.row ∈ s.db.file
  | _ => True

/-- The invariant: what is passed is committed, and the current event is on its way. -/
structure KeptInv (L : Limit) (s : State) (T : ℕ) : Prop where
  rep : Rep L s T
  sound : s.db.Sound
  passed : ∀ i ev, i < T → s.published[i]? = some ev → ev.row ∈ s.db.file
  carried : Carried s T s.pc

variable {L : Limit} {s s' : State} {T : ℕ}

namespace KeptInv

/-- A step that leaves the events alone, and the committed rows in place. -/
theorem goto (h : KeptInv L s T) {k : ℕ} {a : Act} {p : Pc} {db : Store (List Row)}
    (hm : Moves L s a { s with pc := p, db := db } k) (hk : k = 0) (hdb : db.Sound)
    (hfile : s.db.file <+: db.file) (hp : Carried { s with pc := p, db := db } T p) :
    KeptInv L { s with pc := p, db := db } T where
  rep := by
    subst hk
    exact rep_moves h.rep hm
  sound := hdb
  passed := fun i ev hi hev => hfile.subset (h.passed i ev hi hev)
  carried := hp

/-- After an insert that meets the condition the row is visible. -/
theorem mem_view_insertRow {e : ℕ} {db db' : Store (List Row)} {key : Int64} {q : Option Row}
    {r : Row} {out : StepResult} (hopen : db.epoch = some e)
    (hok : (out = .done ∧ q = some r) ∨ r ∈ survivors db out)
    (hlive : out ≠ .fault) (h : insertRow db key q out = some db') : r ∈ db'.view := by
  cases out with
  | done =>
    simp only [insertRow] at h
    split at h
    · cases h
    · obtain ⟨row, rfl, rfl⟩ := Option.map_eq_some_iff.mp h
      rw [Store.view_write db _ hopen]
      rcases hok with ⟨-, hrow⟩ | hmem
      · exact List.mem_append_right _ (List.mem_singleton.mpr (Option.some.inj hrow).symm)
      · exact List.mem_append_left _ hmem
  | constraint =>
    -- some row has the key; the condition says it is this one
    have hmem : r ∈ db.view := hok.resolve_left (by simp)
    simp only [insertRow] at h
    split at h
    · cases h; exact hmem
    · cases h
  | error rollback =>
    cases rollback with
    | true =>
      cases h
      -- the transaction is gone, so the row has to be committed already
      rw [if_pos rfl, Store.view_rollback]
      exact hok.resolve_left (by simp)
    | false =>
      cases h
      exact hok.resolve_left (by simp)
  | fault => exact absurd rfl hlive

/-- After a `COMMIT` that meets the condition the row is committed. -/
theorem mem_file_commitTx {db db' : Store (List Row)} {r : Row} {out : CommitResult}
    (hmem : r ∈ db.view) (hok : out = .ok ∨ r ∈ db.file) (h : commitTx db out = some db') :
    r ∈ db'.file := by
  cases out with
  | ok =>
    simp only [commitTx] at h
    split at h
    · cases h
      rw [Store.file_commit]
      exact hmem
    · cases h
  | error rollback =>
    -- a failed `COMMIT` is no harm where the row was committed before
    have hfile : r ∈ db.file := hok.resolve_left (by simp)
    cases rollback with
    | true => cases h; exact hfile
    | false => cases h; exact hfile

/-- Publishing an event leaves those before it alone. -/
theorem publish (h : KeptInv L s T) (hroom : subWord 64 s.head s.tail < ringBufferSize) :
    KeptInv L { s with
      head := addWord 64 s.head 1
      published := s.published ++ [s.events (slot s.head)] } T := by
  have hold : ∀ i ev, i < s.published.length →
      (s.published ++ [s.events (slot s.head)])[i]? = some ev → s.published[i]? = some ev := by
    intro i ev hi hev
    rwa [List.getElem?_append_left hi] at hev
  have hle := h.rep.le_length
  have hpc : PcRep L s T s.pc := h.rep.pc
  exact
    { rep := rep_moves h.rep (.publish hroom)
      sound := h.sound
      passed := fun i ev hi hev => h.passed i ev hi (hold i ev (by omega) hev)
      carried := by
        have hcarried : Carried s T s.pc := h.carried
        show Carried _ T s.pc
        generalize s.pc = p at hpc hcarried
        cases p with
        -- the current event is an old one
        | commit l b => exact fun ev hev => hcarried ev (hold T ev hpc.2.1 hev)
        | store l => exact fun ev hev => hcarried ev (hold T ev hpc.2 hev)
        | _ => exact trivial }

end KeptInv

/-- **A step that meets the condition keeps the invariant.** -/
theorem keptInv_step (h : KeptInv L s T) {a : Act} (hok : Kept s a) (hst : step L s a = some s') :
    ∃ T', KeptInv L s' T' := by
  obtain ⟨k, hm⟩ := moves_of_step hst
  have hrep := rep_moves h.rep hm
  have hcarried : Carried s T s.pc := h.carried
  cases hm with
  | write ev hroom =>
    refine ⟨T, hrep, h.sound, h.passed, ?_⟩
    show Carried _ T s.pc
    generalize s.pc = p at hcarried
    cases p <;> exact hcarried
  | publish hroom => exact ⟨T, h.publish hroom⟩
  | kill => exact ⟨T, h.goto .kill rfl h.sound.close List.prefix_rfl trivial⟩
  | start hl => exact ⟨T, h.goto (.start hl) rfl h.sound.openSession List.prefix_rfl trivial⟩
  | attach hl => exact ⟨T, h.goto (.attach hl) rfl h.sound List.prefix_rfl trivial⟩
  | pause l _ => exact ⟨T, h⟩
  | seen l hl hne => exact ⟨T, h.goto (.seen l hl hne) rfl h.sound List.prefix_rfl trivial⟩
  | bind l behind b hl hb =>
    exact ⟨T, h.goto (.bind l behind b hl hb) rfl h.sound List.prefix_rfl trivial⟩
  | bindFaults l behind hl =>
    exact ⟨T, h.goto (.bindFaults l behind hl) rfl h.sound.close List.prefix_rfl trivial⟩
  | begin l b hl =>
    exact ⟨T, h.goto (.begin l b hl) rfl h.sound.beginTx List.prefix_rfl trivial⟩
  | beginFails l b hl =>
    exact ⟨T, h.goto (.beginFails l b hl) rfl h.sound List.prefix_rfl trivial⟩
  | insert l b behind out db hl hdb =>
    obtain ⟨hsound, hfile⟩ := sound_insertRow h.sound hdb
    obtain ⟨e, he⟩ := h.rep.running (by rw [hl]; simp)
    refine ⟨T, h.goto (.insert l b behind out db hl hdb) rfl hsound hfile ?_⟩
    by_cases hlive : out = .fault
    · subst hlive
      trivial
    · -- the slot still holds the event, so the row inserted is its row
      have hview : ∀ ev, s.published[T]? = some ev → ev.row ∈ db.view := by
        intro ev hev
        have hslot := (h.rep.binds (.inl hl) hev).1
        have hguard := hok l b hl
        rw [hslot] at hguard
        refine KeptInv.mem_view_insertRow he ?_ hlive hdb
        rcases hguard with ⟨hdone, hsized⟩ | hmem | hfault
        · exact .inl ⟨hdone, h.rep.boundRow_eq_row hl hev hsized behind⟩
        · exact .inr hmem
        · exact absurd hfault hlive
      cases out <;> first | exact hview | exact trivial
  | commit l b out db hl hdb =>
    obtain ⟨hsound, hfile⟩ := sound_commitTx h.sound hdb
    refine ⟨T, h.goto (.commit l b out db hl hdb) rfl hsound hfile ?_⟩
    intro ev hev
    rw [hl] at hcarried
    have hguard := hok l b hl
    rw [(h.rep.binds (.inr hl) hev).1] at hguard
    exact KeptInv.mem_file_commitTx (hcarried ev hev) hguard hdb
  | store l hl =>
    rw [hl] at hcarried
    refine ⟨T + 1, hrep, h.sound, ?_, trivial⟩
    intro i ev hi hev
    -- only the event passed just now is new to the claim about `tail`
    rcases Nat.lt_succ_iff_lt_or_eq.mp hi with hlt | rfl
    · exact h.passed i ev hlt hev
    · exact hcarried ev hev

theorem keptInv_boot (mem : ℕ → SipEvent) (rows : List Row) : KeptInv L (boot mem rows) 0 where
  rep := rep_boot mem rows
  sound := Store.sound_of_epoch_eq_none rfl
  passed := fun i _ hi => absurd hi (Nat.not_lt_zero i)
  carried := trivial

/-- **Under the condition nothing is skipped.** In every run in which each
insert adds the row of its event or leaves that very row in the table, unless it
kills the daemon, and each `COMMIT` succeeds or finds the row committed, a row
holding event `i` is committed before `tail` exceeds `i` — whatever the keys,
whenever the daemon is killed and started again. -/
theorem neverSkips_of_kept {s₀ s : State} {as : List Act} (h₀ : (machine L).init s₀)
    (h : (machine L).Path Kept s₀ as s) : NeverSkips s := by
  obtain ⟨mem, rows, rfl⟩ := h₀
  have hinv : ∃ T, KeptInv L s T :=
    h.invariant (P := fun s => ∃ T, KeptInv L s T)
      (fun _ _ _ ⟨_, hT⟩ hok hst => keptInv_step hT hok hst) ⟨0, keptInv_boot mem rows⟩
  obtain ⟨T, hT⟩ := hinv
  intro i ev hi hev
  -- `tail` is a word, at most the counter
  rw [hT.rep.tail_eq] at hi
  exact hT.passed i ev (hi.trans_le (Nat.mod_le T _)) hev

/-! ### Two events of one key -/

/-- An event with a payload of one byte. -/
def oneByte (traceId : UInt64) (b : UInt8) : SipEvent where
  traceId := traceId
  timestampNs := 5
  payloadLen := 1
  data := fun _ => b

/-- One event from publication to `tail`, with these outcomes. -/
def pass (ev : SipEvent) (begun : Bool) (out : StepResult) (end_ : CommitResult) : List Act :=
  [.write ev, .publish, .go, .bind [], .begin begun, .insert [] out, .commit end_, .go]

/-- `BEGIN` fails for the first event, and the daemon is killed and started
again before it stores `tail`; the row is there then. -/
def keptSchedule : List Act :=
  [.start, .go, .write (oneByte 7 1), .publish, .go, .bind [], .begin false, .insert [] .done,
    .commit (.error false), .kill, .start, .go, .go, .bind [], .begin true, .insert [] .constraint,
    .commit .ok, .go]

/-- The condition, evaluated. -/
def keptBool (s : State) : Act → Bool
  | .insert _ out =>
    match s.pc with
    | .insert l b => (out = .done ∧ Sized (s.events (slot l)) b) ∨
        (s.events (slot l)).row ∈ survivors s.db out ∨ out = .fault
    | _ => true
  | .commit out =>
    match s.pc with
    | .commit l _ => out = .ok ∨ (s.events (slot l)).row ∈ s.db.file
    | _ => true
  | _ => true

theorem kept_of_keptBool {a : Act} (h : keptBool s a = true) : Kept s a := by
  cases a with
  | insert behind out =>
    intro l b hl
    simp only [keptBool, hl] at h
    exact of_decide_eq_true h
  | commit out =>
    intro l b hl
    simp only [keptBool, hl] at h
    exact of_decide_eq_true h
  | _ => exact trivial

theorem neverSkips_keptSchedule :
    ∃ s, (machine defaultLimit).Path Kept (boot (fun _ => oneByte 0 0) []) keptSchedule s ∧
      s.tail = 1 ∧ NeverSkips s := by
  have hexec : ((machine defaultLimit).exec keptBool (boot (fun _ => oneByte 0 0) [])
      keptSchedule).map State.tail = some 1 := by
    decide +kernel
  obtain ⟨s, hs, htail⟩ := Machine.exists_path_of_exec hexec
  have hpath := hs.mono fun _ _ => kept_of_keptBool
  exact ⟨s, hpath, htail, neverSkips_of_kept ⟨_, _, rfl⟩ hpath⟩

/-- **A second event with the same key is skipped**: its insert violates the
primary key, and `tail` passes it all the same. -/
theorem skips_same_traceId : ¬ ∀ s, (machine defaultLimit).Reachable s → NeverSkips s := by
  intro hall
  have hexec : ((machine defaultLimit).exec (fun _ _ => true) (boot (fun _ => oneByte 0 0) [])
      ([.start, .go] ++ pass (oneByte 7 1) true .done .ok ++
        pass (oneByte 7 2) true .constraint .ok)).map
      (fun s => (s.tail, s.published.map SipEvent.row, s.db.file)) =
        some (2, [⟨7, 5, some [1]⟩, ⟨7, 5, some [2]⟩], [⟨7, 5, some [1]⟩]) := by
    decide +kernel
  obtain ⟨s, hs, hend⟩ := Machine.exists_path_of_exec hexec
  obtain ⟨htail, hrest⟩ := Prod.mk.inj hend
  obtain ⟨hpublished, hfile⟩ := Prod.mk.inj hrest
  have hskip := hall s (hs.reachable (.init ⟨_, _, rfl⟩))
  have hget : (s.published.map SipEvent.row)[1]? = some ⟨7, 5, some [2]⟩ := by rw [hpublished]; rfl
  rw [List.getElem?_map] at hget
  obtain ⟨ev, hev, hrow⟩ := Option.map_eq_some_iff.mp hget
  have hmem := hskip 1 ev (by rw [htail]; decide) hev
  rw [hrow, hfile] at hmem
  exact absurd hmem (by decide)

end Daemon
end SovereignSeed
