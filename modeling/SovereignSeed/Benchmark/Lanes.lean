import SovereignSeed.Foundation.Locked
import SovereignSeed.Foundation.Machine
import SovereignSeed.Foundation.Shares
import SovereignSeed.Python.Text
import Mathlib.Algebra.Order.BigOperators.Group.Finset
import Mathlib.Data.Fintype.BigOperators

/-!
# The lanes of the SQLite benchmark

`SIPHighThroughputBenchmark` of `sip_benchmarks/concurrency_bench.py`: a thread for each lane, and
each with a connection of its own to one database, into which it inserts its rows, one transaction
a row.  Any statement may fail: `BEGIN IMMEDIATE` gives up after five seconds of waiting for the
lock.  Then the lane's thread ends with the exception, which nobody catches, and `execute` goes on
to join the next one.

What `execute` reports as the total of operations is computed from the arguments, and what it takes
the mean over is what the lanes have measured that have come to their end.

## Main definitions

* `Row`, `insertRow` — the table and the `INSERT`.
* `Lanes`, `laneStep`, `executeStep`, `lanesMachine` — the threads and `execute`.
* `rowsOf` — the table after some operations.

## Main results

* `lanesInv_of_reachable` — the invariant of the lanes.
* `lanes_report` — **the total that is reported is the number of rows exactly if no lane has
  failed.**
-/

namespace SovereignSeed
namespace Benchmark

open Python

/-! ### The table -/

/-- A row of `high_throughput_events`, less the time, which nothing reads. -/
structure Row where
  id : ℕ
  laneId : ℕ
  payloadSignature : PyStr
  deriving DecidableEq

/-- `f"sig_lane_{lane_id}_op_{i}"`. -/
def payloadSignature (laneId i : ℕ) : PyStr :=
  text "sig_lane_" ++ decimal laneId ++ text "_op_" ++ decimal i

/-- `AUTOINCREMENT`: one more than the largest id so far. -/
def nextId (rows : List Row) : ℕ := (rows.map Row.id).foldl max 0 + 1

/-- `INSERT INTO high_throughput_events`. -/
def insertRow (laneId i : ℕ) (rows : List Row) : List Row :=
  rows ++ [⟨nextId rows, laneId, payloadSignature laneId i⟩]

/-! ### The threads -/

/-- The control point of a lane's thread, with the number of operations it has committed. -/
inductive LanePc
  /-- Not started. -/
  | waiting
  /-- In `sqlite3.connect`, or at its pragma. -/
  | connecting
  /-- At the head of the loop, and at `BEGIN IMMEDIATE` if there is an operation left. -/
  | beginning (i : ℕ)
  | inserting (i : ℕ)
  | committing (i : ℕ)
  /-- In the `finally`; `raised` says whether an exception is on its way. -/
  | closing (i : ℕ) (raised : Bool)
  /-- Back in `worker_wrapper`, about to extend `all_latencies`. -/
  | extending (i : ℕ)
  | returned (i : ℕ)
  /-- The thread has ended with an exception. -/
  | raised (i : ℕ)
  deriving DecidableEq

/-- The operations a lane has committed. -/
def LanePc.committed : LanePc → ℕ
  | .waiting => 0
  | .connecting => 0
  | .beginning i => i
  | .inserting i => i
  | .committing i => i
  | .closing i _ => i
  | .extending i => i
  | .returned i => i
  | .raised i => i

/-- The thread has ended. -/
def LanePc.over : LanePc → Bool
  | .returned _ => true
  | .raised _ => true
  | _ => false

/-- The thread has been started and has not ended. -/
def LanePc.active : LanePc → Bool
  | .waiting => false
  | p => !p.over

/-- The thread has come to the end of `worker_wrapper`. -/
def LanePc.succeeded : LanePc → Bool
  | .returned _ => true
  | _ => false

/-- The control point of `execute`. -/
inductive ExecutePc
  /-- About to start lane `k`. -/
  | starting (k : ℕ)
  /-- About to join lane `k`. -/
  | joining (k : ℕ)
  /-- About to print the results. -/
  | reporting
  /-- About to remove the database. -/
  | reported
  deriving DecidableEq

/-- The database, the threads of `n` lanes, and `execute`. -/
structure Lanes (n : ℕ) where
  db : Locked (Fin n) (List Row)
  pc : Fin n → LanePc
  /-- The operations whose latencies are in `all_latencies`. -/
  allLatencies : List (Fin n × ℕ)
  main : ExecutePc
  /-- `total_ops`, once it is printed. -/
  totalOps : Option ℕ

/-- Behind `_init_database`. -/
def Lanes.start (n : ℕ) : Lanes n where
  db := ⟨[], none⟩
  pc := fun _ => .waiting
  allLatencies := []
  main := .starting 0
  totalOps := none

variable {n m : ℕ}

/-- Lane `w` goes to `p`. -/
def Lanes.goto (s : Lanes n) (w : Fin n) (p : LanePc) : Lanes n :=
  { s with pc := Function.update s.pc w p }

/-- A step of a lane with `m` operations; `ok` says whether the statement is executed. -/
def laneStep (m : ℕ) (s : Lanes n) (w : Fin n) (ok : Bool) : Option (Lanes n) :=
  match s.pc w with
  | .waiting => none
  | .connecting => some (s.goto w (if ok then .beginning 0 else .raised 0))
  | .beginning i =>
    if i < m then
      if ok then
        (s.db.beginImmediate w).map fun db => { s.goto w (.inserting i) with db := db }
      else some (s.goto w (.closing i true))
    else some (s.goto w (.closing i false))
  | .inserting i =>
    if ok then
      some { s.goto w (.committing i) with db := s.db.write w (insertRow w i) }
    else some (s.goto w (.closing i true))
  | .committing i =>
    if ok then some { s.goto w (.beginning (i + 1)) with db := s.db.commit w }
    else some (s.goto w (.closing i true))
  | .closing i raised =>
    some { s.goto w (if raised then .raised i else .extending i) with db := s.db.close w }
  | .extending i =>
    some { s.goto w (.returned i) with
      allLatencies := s.allLatencies ++ (List.range i).map fun op => (w, op) }
  | .returned _ => none
  | .raised _ => none

/-- A step of `execute`. -/
def executeStep (m : ℕ) (s : Lanes n) : Option (Lanes n) :=
  match s.main with
  | .starting k =>
    if hk : k < n then some { s.goto ⟨k, hk⟩ .connecting with main := .starting (k + 1) }
    else some { s with main := .joining 0 }
  | .joining k =>
    if hk : k < n then
      if (s.pc ⟨k, hk⟩).over then some { s with main := .joining (k + 1) } else none
    else some { s with main := .reporting }
  | .reporting => some { s with main := .reported, totalOps := some (n * m) }
  | .reported => none

/-- What moves next. -/
inductive LaneAct (n : ℕ)
  | lane (w : Fin n) (ok : Bool)
  | main

/-- The benchmark with `n` lanes and `m` operations for each. -/
def lanesMachine (n m : ℕ) : Machine (Lanes n) (LaneAct n) where
  init s := s = .start n
  step s
    | .lane w ok => laneStep m s w ok
    | .main => executeStep m s

/-! ### The table after some operations -/

/-- The rows of some operations, in the order of their commits. -/
def rowsOf (L : List (Fin n × ℕ)) : List Row :=
  L.mapIdx fun k op => ⟨k + 1, op.1, payloadSignature op.1 op.2⟩

@[simp] theorem length_rowsOf (L : List (Fin n × ℕ)) : (rowsOf L).length = L.length :=
  List.length_mapIdx

theorem rowsOf_concat (L : List (Fin n × ℕ)) (w : Fin n) (i : ℕ) :
    rowsOf (L ++ [(w, i)]) = rowsOf L ++ [⟨L.length + 1, w, payloadSignature w i⟩] :=
  List.mapIdx_concat

/-- The ids count the rows. -/
theorem nextId_rowsOf (L : List (Fin n × ℕ)) : nextId (rowsOf L) = L.length + 1 := by
  induction L using List.reverseRecOn with
  | nil => rfl
  | append_singleton L op ih =>
    obtain ⟨w, i⟩ := op
    rw [nextId] at ih
    rw [nextId, rowsOf_concat, List.map_append, List.foldl_append, List.length_append]
    simp only [List.map_cons, List.map_nil, List.foldl_cons, List.foldl_nil, List.length_cons,
      List.length_nil]
    omega

theorem insertRow_rowsOf (L : List (Fin n × ℕ)) (w : Fin n) (i : ℕ) :
    insertRow w i (rowsOf L) = rowsOf (L ++ [(w, i)]) := by
  rw [insertRow, nextId_rowsOf, rowsOf_concat]

/-! ### The invariant -/

/-- The lock as a lane with control point `p` needs it. -/
def LockInv (db : Locked (Fin n) (List Row)) (w : Fin n) : LanePc → Prop
  | .inserting _ => db.Holds w db.file
  | .committing i => db.Holds w (insertRow w i db.file)
  -- the statement that has failed may have been `BEGIN` itself
  | .closing _ true => True
  | _ => ∀ d, ¬db.Holds w d

/-- The loop ends behind the last operation. -/
def Bounded (m : ℕ) : LanePc → Prop
  | .beginning i => i ≤ m
  | .inserting i => i < m
  | .committing i => i < m
  | .closing i true => i < m
  | .closing i false => i = m
  | .extending i => i = m
  | .returned i => i = m
  | .raised i => i < m ∨ i = 0
  | _ => True

/-- What `execute` knows at each of its control points. -/
def ExecuteInv (m : ℕ) (s : Lanes n) : ExecutePc → Prop
  | .starting k => ∀ w : Fin n, k ≤ w.1 → s.pc w = .waiting
  | .joining k => ∀ w : Fin n, w.1 < k → (s.pc w).over = true
  | .reporting => ∀ w, (s.pc w).over = true
  | .reported => (∀ w, (s.pc w).over = true) ∧ s.totalOps = some (n * m)

/-- The invariant of the benchmark. -/
structure LanesInv (m : ℕ) (s : Lanes n) : Prop where
  table : ∃ L, s.db.file = rowsOf L ∧
    ∀ w, (share Prod.fst L w).map Prod.snd = List.range (s.pc w).committed
  lock : ∀ w, LockInv s.db w (s.pc w)
  bounded : ∀ w, Bounded m (s.pc w)
  measured : ∀ w, (share Prod.fst s.allLatencies w).map Prod.snd =
    if (s.pc w).succeeded then List.range m else []
  main : ExecuteInv m s s.main

theorem lanesInv_start : LanesInv m (.start n) where
  table := ⟨[], rfl, fun _ => rfl⟩
  lock := fun _ _ => by simp [Lanes.start, Locked.Holds]
  bounded := fun _ => trivial
  measured := fun _ => rfl
  main := fun _ _ => rfl

section Steps

variable {s s' : Lanes n} {w : Fin n}

/-- One lane holds the lock. -/
theorem holds_unique {db : Locked (Fin n) (List Row)} {v : Fin n} {d d' : List Row}
    (h : db.Holds w d) (h' : db.Holds v d') : v = w := by
  rw [Locked.Holds, show db.writer = some (w, d) from h] at h'
  exact (congrArg Prod.fst (Option.some.inj h')).symm

/-- A step of one lane leaves the others their lock. -/
theorem LockInv.frame {db db' : Locked (Fin n) (List Row)} {v : Fin n} {p : LanePc}
    (h : LockInv db v p) (hholds : ∀ d, db'.Holds v d ↔ db.Holds v d)
    (hfile : db'.file = db.file ∨ ∀ d, ¬db.Holds v d) : LockInv db' v p := by
  have hsame : ∀ d, db.Holds v d → db'.file = db.file := fun d hd =>
    hfile.resolve_right fun hno => hno d hd
  cases p with
  | inserting i =>
    have hd : db.Holds v db.file := h
    rw [LockInv, hsame _ hd]
    exact (hholds _).mpr hd
  | committing i =>
    have hd : db.Holds v (insertRow v i db.file) := h
    rw [LockInv, hsame _ hd]
    exact (hholds _).mpr hd
  | closing i raised =>
    cases raised with
    | true => trivial
    | false => exact fun d hd => h d ((hholds d).mp hd)
  | _ => exact fun d hd => h d ((hholds d).mp hd)

/-- What `execute` knows survives the step of an active lane. -/
theorem ExecuteInv.frame (h : ExecuteInv m s s.main) (hmain : s'.main = s.main)
    (htotal : s'.totalOps = s.totalOps)
    (hstill : ∀ v, (s.pc v).active = false → s'.pc v = s.pc v) : ExecuteInv m s' s'.main := by
  have hover : ∀ v, (s.pc v).over = true → (s'.pc v).over = true := by
    intro v hv
    rw [hstill v ?_]
    · exact hv
    · cases hpc : s.pc v <;> rw [hpc] at hv <;> first | rfl | cases hv
  rw [hmain]
  cases hm : s.main with
  | starting k =>
    rw [hm] at h
    intro v hv
    rw [hstill v (by rw [h v hv]; rfl)]
    exact h v hv
  | joining k =>
    rw [hm] at h
    exact fun v hv => hover v (h v hv)
  | reporting =>
    rw [hm] at h
    exact fun v => hover v (h v)
  | reported =>
    rw [hm] at h
    exact ⟨fun v => hover v (h.1 v), htotal.trans h.2⟩

/-- **A step of one lane**: it may change the file only as the holder of the lock, and then by its
next operation. -/
theorem LanesInv.lane (h : LanesInv m s) {db : Locked (Fin n) (List Row)} {p : LanePc}
    {all : List (Fin n × ℕ)} (hactive : (s.pc w).active = true)
    (hother : ∀ v, v ≠ w → ∀ d, db.Holds v d ↔ s.db.Holds v d)
    (hfile : db.file = s.db.file ∧ p.committed = (s.pc w).committed ∨
      (∃ d, s.db.Holds w d) ∧ db.file = insertRow w (s.pc w).committed s.db.file ∧
        p.committed = (s.pc w).committed + 1)
    (hlock : LockInv db w p) (hbounded : Bounded m p)
    (hall : all = s.allLatencies ∧ p.succeeded = false ∨
      all = s.allLatencies ++ (List.range m).map (fun op => (w, op)) ∧ p.succeeded = true) :
    LanesInv m { s.goto w p with db := db, allLatencies := all } where
  table := by
    obtain ⟨L, hL, hcount⟩ := h.table
    rcases hfile with ⟨hsame, hp⟩ | ⟨-, hnew, hp⟩
    · refine ⟨L, hsame.trans hL, fun v => ?_⟩
      rw [hcount]
      by_cases hv : v = w
      · simp [Lanes.goto, hv, hp]
      · simp [Lanes.goto, hv]
    · refine ⟨L ++ [(w, (s.pc w).committed)], ?_, fun v => ?_⟩
      · rw [← insertRow_rowsOf, ← hL]
        exact hnew
      · rw [share_append, List.map_append, hcount]
        by_cases hv : v = w
        · simp [Lanes.goto, hv, hp, List.range_succ]
        · simp [Lanes.goto, hv, Ne.symm hv]
  lock := by
    intro v
    by_cases hv : v = w
    · simpa [Lanes.goto, hv] using hlock
    · simp only [Lanes.goto, Function.update_of_ne hv]
      refine (h.lock v).frame (hother v hv) ?_
      rcases hfile with ⟨hsame, -⟩ | ⟨⟨d, hd⟩, -⟩
      · exact .inl hsame
      · exact .inr fun d' hd' => hv (holds_unique hd hd')
  bounded := by
    intro v
    by_cases hv : v = w
    · simpa [Lanes.goto, hv] using hbounded
    · simpa [Lanes.goto, hv] using h.bounded v
  measured := by
    intro v
    have hold := h.measured v
    by_cases hv : v = w
    · have hfresh : (s.pc w).succeeded = false := by
        cases hpc : s.pc w <;> rw [hpc] at hactive <;> first | rfl | cases hactive
      subst hv
      rw [hfresh] at hold
      simp only [Lanes.goto, Function.update_self]
      rcases hall with ⟨rfl, hp⟩ | ⟨rfl, hp⟩
      · rw [hold, hp]
      · rw [share_append, List.map_append, hold, hp]
        simp [share, List.filter_map, Function.comp_def]
    · simp only [Lanes.goto, Function.update_of_ne hv]
      rw [← hold]
      rcases hall with ⟨rfl, -⟩ | ⟨rfl, -⟩
      · rfl
      · rw [share_append, List.map_append]
        simp [share, List.filter_map, Function.comp_def, Ne.symm hv]
  main := by
    refine h.main.frame rfl rfl fun v hv => Function.update_of_ne ?_ _ _
    rintro rfl
    rw [hactive] at hv
    cases hv

/-- A step that leaves the database alone. -/
theorem LanesInv.move (h : LanesInv m s) {p : LanePc} (hactive : (s.pc w).active = true)
    (hcommitted : p.committed = (s.pc w).committed) (hlock : LockInv s.db w p)
    (hbounded : Bounded m p) (hsucceeded : p.succeeded = false) : LanesInv m (s.goto w p) :=
  h.lane hactive (fun _ _ _ => Iff.rfl) (.inl ⟨rfl, hcommitted⟩) hlock hbounded
    (.inl ⟨rfl, hsucceeded⟩)

/-- A step of the holder of the lock leaves the others without it. -/
theorem holds_iff_of_holder {db db' : Locked (Fin n) (List Row)} {d : List Row}
    (hd : db.Holds w d) (hnew : ∀ v d, db'.Holds v d → v = w) :
    ∀ v, v ≠ w → ∀ d, db'.Holds v d ↔ db.Holds v d :=
  fun v hv _ => ⟨fun h => absurd (hnew v _ h) hv, fun h => absurd (holds_unique hd h) hv⟩

theorem lanesInv_laneStep (h : LanesInv m s) {ok : Bool} (hst : laneStep m s w ok = some s') :
    LanesInv m s' := by
  have hlock := h.lock w
  have hbounded := h.bounded w
  unfold laneStep at hst
  split at hst
  · cases hst
  · next hpc =>
    cases hst
    rw [hpc] at hlock
    cases ok with
    | true => exact h.move (by rw [hpc]; rfl) (by rw [hpc]; rfl) hlock (Nat.zero_le m) rfl
    | false => exact h.move (by rw [hpc]; rfl) (by rw [hpc]; rfl) hlock (.inr rfl) rfl
  · next i hpc =>
    rw [hpc] at hlock hbounded
    split at hst
    · next hlt =>
      split at hst
      · -- the lock is free
        obtain ⟨db, hdb, rfl⟩ := Option.map_eq_some_iff.mp hst
        obtain ⟨hfree, hfile, hholds⟩ := Locked.holds_of_beginImmediate hdb
        refine h.lane (by rw [hpc]; rfl) (fun v hv d => ⟨fun hd => ?_, fun hd => ?_⟩)
          (.inl ⟨hfile, by rw [hpc]; rfl⟩) ?_ hlt (.inl ⟨rfl, rfl⟩)
        · exact absurd (holds_unique hholds hd) hv
        · rw [Locked.Holds, hfree] at hd
          cases hd
        · rw [LockInv, hfile]
          exact hholds
      · cases hst
        exact h.move (by rw [hpc]; rfl) (by rw [hpc]; rfl) trivial hlt rfl
    · next hge =>
      cases hst
      have hle : i ≤ m := hbounded
      exact h.move (by rw [hpc]; rfl) (by rw [hpc]; rfl) hlock (show i = m by omega) rfl
  · next i hpc =>
    rw [hpc] at hlock hbounded
    split at hst
    · cases hst
      obtain ⟨hfile, hholds⟩ := Locked.write_of_holds hlock (insertRow w i)
      refine h.lane (by rw [hpc]; rfl)
        (holds_iff_of_holder hlock fun v d hd => holds_unique hholds hd)
        (.inl ⟨hfile, by rw [hpc]; rfl⟩) ?_ hbounded (.inl ⟨rfl, rfl⟩)
      rw [LockInv, hfile]
      exact hholds
    · cases hst
      exact h.move (by rw [hpc]; rfl) (by rw [hpc]; rfl) trivial hbounded rfl
  · next i hpc =>
    rw [hpc] at hlock hbounded
    split at hst
    · cases hst
      obtain ⟨hfile, hfree⟩ := Locked.commit_of_holds hlock
      have hnone : ∀ v d, ¬(s.db.commit w).Holds v d := by
        intro v d hd
        rw [Locked.Holds, hfree] at hd
        cases hd
      refine h.lane (by rw [hpc]; rfl)
        (holds_iff_of_holder hlock fun v d hd => absurd hd (hnone v d))
        (.inr ⟨⟨_, hlock⟩, ?_, ?_⟩) (hnone w) hbounded (.inl ⟨rfl, rfl⟩)
      · rw [hpc]
        exact hfile
      · rw [hpc]
        rfl
    · cases hst
      exact h.move (by rw [hpc]; rfl) (by rw [hpc]; rfl) trivial hbounded rfl
  · next i raised hpc =>
    cases hst
    rw [hpc] at hbounded
    refine h.lane (by rw [hpc]; rfl) (fun v hv => Locked.holds_close_of_ne s.db hv)
      (.inl ⟨Locked.file_close .., ?_⟩) ?_ ?_ (.inl ⟨rfl, ?_⟩)
    · rw [hpc]
      cases raised <;> rfl
    · cases raised <;> exact Locked.not_holds_close s.db w
    · cases raised with
      | true => exact .inl hbounded
      | false => exact hbounded
    · cases raised <;> rfl
  · next i hpc =>
    cases hst
    rw [hpc] at hlock hbounded
    obtain rfl : i = m := hbounded
    exact h.lane (by rw [hpc]; rfl) (fun _ _ _ => Iff.rfl) (.inl ⟨rfl, by rw [hpc]; rfl⟩) hlock rfl
      (.inr ⟨rfl, rfl⟩)
  · cases hst
  · cases hst

/-- `execute` starts a lane. -/
theorem LanesInv.started (h : LanesInv m s) (hwaiting : s.pc w = .waiting) {k : ℕ}
    (hrest : ∀ v : Fin n, k ≤ v.1 → s.pc v = .waiting ∧ v ≠ w) :
    LanesInv m { s.goto w .connecting with main := .starting k } where
  table := by
    obtain ⟨L, hL, hcount⟩ := h.table
    refine ⟨L, hL, fun v => ?_⟩
    rw [hcount]
    by_cases hv : v = w
    · simp [Lanes.goto, hv, hwaiting, LanePc.committed]
    · simp [Lanes.goto, hv]
  lock := by
    intro v
    have hold := h.lock v
    by_cases hv : v = w
    · rw [hv, hwaiting] at hold
      simp only [Lanes.goto, hv, Function.update_self]
      exact hold
    · simpa [Lanes.goto, hv] using hold
  bounded := by
    intro v
    by_cases hv : v = w
    · simp [Lanes.goto, hv, Bounded]
    · simpa [Lanes.goto, hv] using h.bounded v
  measured := by
    intro v
    have hold := h.measured v
    by_cases hv : v = w
    · rw [hv, hwaiting] at hold
      simpa [Lanes.goto, hv, LanePc.succeeded] using hold
    · simpa [Lanes.goto, hv] using hold
  main := by
    intro v hv
    obtain ⟨hwait, hne⟩ := hrest v hv
    simpa [Lanes.goto, hne] using hwait

theorem lanesInv_executeStep (h : LanesInv m s) (hst : executeStep m s = some s') :
    LanesInv m s' := by
  unfold executeStep at hst
  split at hst
  · split at hst
    · next k hm hk =>
      cases hst
      have hmain := h.main
      rw [hm] at hmain
      exact h.started (hmain ⟨k, hk⟩ le_rfl) fun w hw =>
        ⟨hmain w (Nat.le_of_succ_le hw), fun heq => by simp [heq] at hw⟩
    · cases hst
      exact ⟨h.table, h.lock, h.bounded, h.measured, fun w hw => absurd hw (Nat.not_lt_zero _)⟩
  · next k hm =>
    have hmain := h.main
    rw [hm] at hmain
    split at hst
    · next hk =>
      split at hst
      · next hover =>
        cases hst
        refine ⟨h.table, h.lock, h.bounded, h.measured, fun w hw => ?_⟩
        rcases Nat.lt_succ_iff_lt_or_eq.mp hw with hlt | heq
        · exact hmain w hlt
        · obtain rfl : w = ⟨k, hk⟩ := Fin.ext heq
          exact hover
      · cases hst
    · next hk =>
      cases hst
      exact ⟨h.table, h.lock, h.bounded, h.measured, fun w => hmain w (by omega)⟩
  · next hm =>
    cases hst
    have hmain := h.main
    rw [hm] at hmain
    exact ⟨h.table, h.lock, h.bounded, h.measured, hmain, rfl⟩
  · cases hst

end Steps

/-- **The invariant holds in every reachable state.** -/
theorem lanesInv_of_reachable {s : Lanes n} (h : (lanesMachine n m).Reachable s) :
    LanesInv m s := by
  refine h.invariant ?_ fun u a v hu hst => ?_
  · rintro s rfl
    exact lanesInv_start
  · cases a with
    | lane w ok => exact lanesInv_laneStep hu hst
    | main => exact lanesInv_executeStep hu hst

/-! ### The report -/

theorem LanesInv.length_file {s : Lanes n} (h : LanesInv m s) :
    s.db.file.length = ∑ w, (s.pc w).committed := by
  obtain ⟨L, hL, hcount⟩ := h.table
  rw [hL, length_rowsOf, length_share Prod.fst L]
  refine Finset.sum_congr rfl fun w _ => ?_
  have hlen := congrArg List.length (hcount w)
  rwa [List.length_map, List.length_range] at hlen

theorem LanesInv.length_allLatencies {s : Lanes n} (h : LanesInv m s) :
    s.allLatencies.length = (Finset.univ.filter fun w => (s.pc w).succeeded).card * m := by
  have hlen : ∀ w, (share Prod.fst s.allLatencies w).length =
      if (s.pc w).succeeded then m else 0 := by
    intro w
    have hcount := congrArg List.length (h.measured w)
    rw [List.length_map] at hcount
    rw [hcount]
    split <;> simp
  rw [length_share Prod.fst s.allLatencies, Finset.sum_congr rfl fun w _ => hlen w]
  simp [Finset.sum_ite]

/-- A lane succeeds with all its operations. -/
theorem Bounded.succeeded_iff {p : LanePc} (h : Bounded m p) :
    p.succeeded = true ↔ p = .returned m := by
  cases p with
  | returned i =>
    obtain rfl : i = m := h
    exact ⟨fun _ => rfl, fun _ => rfl⟩
  | _ => simp [LanePc.succeeded]

/-- A lane that has ended has committed all its operations exactly if it has returned, unless it
had none. -/
theorem committed_eq_iff {p : LanePc} (h : p.over = true ∧ Bounded m p) (hm : 0 < m) :
    p.committed = m ↔ p = .returned m := by
  obtain ⟨hover, hbounded⟩ := h
  cases p with
  | returned i =>
    obtain rfl : i = m := hbounded
    exact ⟨fun _ => rfl, fun _ => rfl⟩
  | raised i =>
    have hless : i < m ∨ i = 0 := hbounded
    simp only [LanePc.committed, reduceCtorEq, iff_false]
    omega
  | _ => cases hover

theorem committed_le {p : LanePc} (h : p.over = true ∧ Bounded m p) : p.committed ≤ m := by
  obtain ⟨hover, hbounded⟩ := h
  cases p with
  | returned i => exact le_of_eq hbounded
  | raised i =>
    have hless : i < m ∨ i = 0 := hbounded
    show i ≤ m
    omega
  | _ => cases hover

/-- The operations of lanes that have ended add up to all of them exactly if no lane has failed. -/
theorem sum_committed_iff {pc : Fin n → LanePc} (h : ∀ w, (pc w).over = true ∧ Bounded m (pc w)) :
    ∑ w, (pc w).committed = n * m ↔ m = 0 ∨ ∀ w, pc w = .returned m := by
  have hall : ∑ w, (pc w).committed = n * m ↔ ∀ w, (pc w).committed = m := by
    have hsum := Finset.sum_eq_sum_iff_of_le (s := Finset.univ) (f := fun w => (pc w).committed)
      (g := fun _ => m) fun w _ => committed_le (h w)
    simpa using hsum
  rw [hall]
  rcases Nat.eq_zero_or_pos m with rfl | hm
  · refine iff_of_true (fun w => Nat.le_zero.mp (committed_le (h w))) (.inl rfl)
  · refine ⟨fun hcommitted => .inr fun w => (committed_eq_iff (h w) hm).mp (hcommitted w), ?_⟩
    rintro (rfl | hreturned) w
    · cases hm
    · exact (committed_eq_iff (h w) hm).mpr (hreturned w)

/-- **What is reported and what is in the table.**  At any moment the rows are those of the first
operations of every lane, in order, and the ids count them.  Once `execute` has printed its total,
that is the number of rows exactly if no lane has failed, unless there was nothing to do; and the
latencies it has taken the mean over are those of the lanes that have returned, of each of them one
for every operation and in order, and none of the lanes that have failed. -/
theorem lanes_report {s : Lanes n} (h : (lanesMachine n m).Reachable s) :
    (∃ L, s.db.file = rowsOf L ∧
      ∀ w, (share Prod.fst L w).map Prod.snd = List.range (s.pc w).committed) ∧
    (s.main = .reported → s.totalOps = some (n * m) ∧
      (s.db.file.length = n * m ↔ m = 0 ∨ ∀ w, s.pc w = .returned m) ∧
      (∀ w, (share Prod.fst s.allLatencies w).map Prod.snd =
        if s.pc w = .returned m then List.range m else []) ∧
      s.allLatencies.length = (Finset.univ.filter fun w => s.pc w = .returned m).card * m) := by
  have hinv := lanesInv_of_reachable h
  refine ⟨hinv.table, fun hdone => ?_⟩
  have hmain := hinv.main
  rw [hdone] at hmain
  obtain ⟨hover, htotal⟩ := hmain
  refine ⟨htotal, ?_, fun w => ?_, ?_⟩
  · rw [hinv.length_file]
    exact sum_committed_iff fun w => ⟨hover w, hinv.bounded w⟩
  · rw [hinv.measured, if_congr (hinv.bounded w).succeeded_iff rfl rfl]
  · rw [hinv.length_allLatencies, Finset.filter_congr fun w _ => (hinv.bounded w).succeeded_iff]

/-- Two lanes with one operation each: lane 1 waits for the lock in vain. -/
def lockedSchedule : List (LaneAct 2) :=
  [.main, .main, .main, .lane 0 true, .lane 1 true, .lane 0 true, .lane 1 false, .lane 0 true,
    .lane 0 true, .lane 0 true, .lane 0 true, .lane 0 true, .lane 1 true, .main, .main, .main,
    .main]

theorem lanes_report_locked : ∃ s : Lanes 2, (lanesMachine 2 1).Reachable s ∧
    s.main = .reported ∧ s.pc 1 = .raised 0 ∧ s.totalOps = some 2 ∧ s.db.file.length ≠ 2 ∧
      share Prod.fst s.allLatencies 1 = [] := by
  have heval : ((lanesMachine 2 1).exec (fun _ _ => true) (.start 2) lockedSchedule).map
      (fun s => (s.main, s.pc 1)) = some (.reported, .raised 0) := rfl
  obtain ⟨s, hpath, hq⟩ := Machine.exists_path_of_exec heval
  obtain ⟨hmain, hpc⟩ := Prod.mk.inj hq
  have hr := hpath.reachable (.init rfl)
  obtain ⟨htotal, hrows, hlatencies, -⟩ := (lanes_report hr).2 hmain
  refine ⟨s, hr, hmain, hpc, htotal, fun hlen => ?_, ?_⟩
  · rcases hrows.mp hlen with hzero | hall
    · cases hzero
    · have hreturned := hall 1
      rw [hpc] at hreturned
      cases hreturned
  · have hnone := hlatencies 1
    rw [hpc] at hnone
    exact List.map_eq_nil_iff.mp hnone

end Benchmark
end SovereignSeed
