import Mathlib.Data.List.Infix
import Mathlib.Data.Option.Basic

/-!
# A database file and a connection

A file holds the committed data.  At most one connection is open on it; the
connection sees its own uncommitted changes, and a statement outside a
transaction commits at once.  A connection that closes drops what it has not
committed.  Connections are numbered in the order of their opening, so that one
who holds on to an old connection can be told from one who holds the current.

For data that only grows — a list of rows — the file is at all times the
beginning of what the connection sees.

## Main definitions

* `Session`, `Store` — a connection, and a file with its connection.
* `Store.openSession`, `close`, `beginTx`, `write`, `commit`, `rollback` — the operations.
* `Store.map` — one table of a database of several.
* `Store.Sound` — what every reachable store of rows satisfies.

## Main results

* `Sound.openSession`, `Sound.close`, `Sound.beginTx`, `Sound.append`,
  `Sound.commit`, `Sound.rollback` — **the operations keep a store sound.**
* `Sound.append_durable`, `Sound.commit_durable` — committed rows stay.
-/

namespace SovereignSeed

/-- An open connection: what it sees, whether a transaction is open, its number. -/
structure Session (δ : Type*) where
  working : δ
  inTx : Bool
  epoch : ℕ

/-- A database file, the open connection, and how many have been opened. -/
structure Store (δ : Type*) where
  file : δ
  session : Option (Session δ)
  opened : ℕ

namespace Store

variable {δ γ α : Type*}

/-! ### The operations -/

/-- What a reader sees: the data of the connection, or the file without one. -/
def view (s : Store δ) : δ :=
  match s.session with
  | none => s.file
  | some c => c.working

/-- The number of the open connection. -/
def epoch (s : Store δ) : Option ℕ := s.session.map Session.epoch

/-- Is a transaction open? -/
def inTx (s : Store δ) : Bool := s.session.any Session.inTx

/-- Open a connection. -/
def openSession (s : Store δ) : Store δ where
  file := s.file
  session := some ⟨s.file, false, s.opened⟩
  opened := s.opened + 1

/-- Close the connection; what is not committed is gone. -/
def close (s : Store δ) : Store δ := { s with session := none }

/-- `BEGIN`. -/
def beginTx (s : Store δ) : Store δ :=
  { s with session := s.session.map fun c => { c with inTx := true } }

/-- A statement that changes the data; outside a transaction it commits itself. -/
def write (f : δ → δ) (s : Store δ) : Store δ :=
  match s.session with
  | none => s
  | some c =>
    { s with
      file := if c.inTx then s.file else f c.working
      session := some { c with working := f c.working } }

/-- `COMMIT`. -/
def commit (s : Store δ) : Store δ :=
  match s.session with
  | none => s
  | some c => { s with file := c.working, session := some { c with inTx := false } }

/-- `ROLLBACK`, asked for or forced by an error. -/
def rollback (s : Store δ) : Store δ :=
  { s with session := s.session.map fun c => { c with working := s.file, inTx := false } }

/-- A part of the data. -/
def map (g : δ → γ) (s : Store δ) : Store γ where
  file := g s.file
  session := s.session.map fun c => ⟨g c.working, c.inTx, c.epoch⟩
  opened := s.opened

/-! ### What the operations change -/

section Fields

variable (s : Store δ) (f : δ → δ)

@[simp] theorem view_openSession : s.openSession.view = s.file := rfl
@[simp] theorem file_openSession : s.openSession.file = s.file := rfl
@[simp] theorem epoch_openSession : s.openSession.epoch = some s.opened := rfl
@[simp] theorem opened_openSession : s.openSession.opened = s.opened + 1 := rfl

@[simp] theorem view_close : s.close.view = s.file := rfl
@[simp] theorem file_close : s.close.file = s.file := rfl
@[simp] theorem epoch_close : s.close.epoch = none := rfl
@[simp] theorem opened_close : s.close.opened = s.opened := rfl

@[simp] theorem view_beginTx : s.beginTx.view = s.view := by
  unfold view beginTx
  cases s.session <;> rfl

@[simp] theorem file_beginTx : s.beginTx.file = s.file := rfl

@[simp] theorem epoch_beginTx : s.beginTx.epoch = s.epoch := by
  unfold epoch beginTx
  cases s.session <;> rfl

@[simp] theorem opened_beginTx : s.beginTx.opened = s.opened := rfl

@[simp] theorem epoch_write : (s.write f).epoch = s.epoch := by
  unfold epoch write
  cases h : s.session with
  | none => rw [h]
  | some c => rfl

@[simp] theorem opened_write : (s.write f).opened = s.opened := by
  unfold write
  cases s.session <;> rfl

/-- On an open connection a statement has its effect at once. -/
theorem view_write {e : ℕ} (h : s.epoch = some e) : (s.write f).view = f s.view := by
  unfold epoch at h
  unfold view write
  cases hc : s.session with
  | none => rw [hc] at h; cases h
  | some c => rfl

/-- A statement leaves the file alone, or commits itself. -/
theorem file_write : (s.write f).file = s.file ∨ (s.write f).file = (s.write f).view := by
  unfold write view
  cases hc : s.session with
  | none => exact .inl rfl
  | some c =>
    cases hi : c.inTx with
    | true => exact .inl (by simp only [hi, if_true])
    | false => exact .inr (by simp only [hi, Bool.false_eq_true, if_false])

@[simp] theorem view_commit : s.commit.view = s.view := by
  unfold view commit
  cases h : s.session with
  | none => rw [h]
  | some c => rfl

@[simp] theorem file_commit : s.commit.file = s.view := by
  unfold view commit
  cases s.session <;> rfl

@[simp] theorem epoch_commit : s.commit.epoch = s.epoch := by
  unfold epoch commit
  cases h : s.session with
  | none => rw [h]
  | some c => rfl

@[simp] theorem opened_commit : s.commit.opened = s.opened := by
  unfold commit
  cases s.session <;> rfl

@[simp] theorem view_rollback : s.rollback.view = s.file := by
  unfold view rollback
  cases s.session <;> rfl

@[simp] theorem file_rollback : s.rollback.file = s.file := rfl

@[simp] theorem epoch_rollback : s.rollback.epoch = s.epoch := by
  unfold epoch rollback
  cases s.session <;> rfl

theorem epoch_eq_none_iff : s.epoch = none ↔ s.session = none := by
  unfold epoch
  cases s.session <;> simp

/-- Without a connection the file is all there is. -/
theorem view_of_epoch_eq_none (h : s.epoch = none) : s.view = s.file := by
  unfold view
  rw [(epoch_eq_none_iff s).mp h]

/-- Without a connection a statement changes nothing. -/
theorem write_of_epoch_eq_none (h : s.epoch = none) : s.write f = s := by
  unfold write
  rw [(epoch_eq_none_iff s).mp h]

theorem commit_of_epoch_eq_none (h : s.epoch = none) : s.commit = s := by
  unfold commit
  rw [(epoch_eq_none_iff s).mp h]

end Fields

/-! ### One table of several -/

section Map

variable (g : δ → γ) (s : Store δ)

@[simp] theorem view_map : (s.map g).view = g s.view := by
  unfold view map
  cases s.session <;> rfl

@[simp] theorem file_map : (s.map g).file = g s.file := rfl

@[simp] theorem epoch_map : (s.map g).epoch = s.epoch := by
  unfold epoch map
  cases s.session <;> rfl

@[simp] theorem opened_map : (s.map g).opened = s.opened := rfl

@[simp] theorem map_openSession : s.openSession.map g = (s.map g).openSession := rfl

@[simp] theorem map_close : s.close.map g = (s.map g).close := rfl

@[simp] theorem map_beginTx : s.beginTx.map g = (s.map g).beginTx := by
  unfold map beginTx
  cases s.session <;> rfl

@[simp] theorem map_commit : s.commit.map g = (s.map g).commit := by
  unfold commit map
  cases h : s.session with
  | none => simp only [h, Option.map_none]
  | some c => rfl

/-- A statement about one table, seen from a table. -/
theorem map_write {f : δ → δ} {f' : γ → γ} (h : ∀ d, g (f d) = f' (g d)) :
    (s.write f).map g = (s.map g).write f' := by
  unfold write map
  cases hc : s.session with
  | none => simp only [hc, Option.map_none]
  | some c => cases hi : c.inTx <;> simp [h, hi]

end Map

/-! ### Stores of rows -/

/-- What every reachable store of rows satisfies. -/
structure Sound (s : Store (List α)) : Prop where
  /-- Outside a transaction nothing is uncommitted. -/
  synced : ∀ c, s.session = some c → c.inTx = false → c.working = s.file
  /-- Committed rows are visible. -/
  durable : s.file <+: s.view
  /-- The open connection is one of those opened. -/
  epoch_lt : ∀ e, s.epoch = some e → e < s.opened

/-- A visible row was visible, or is the one appended. -/
theorem mem_view_append {s : Store (List α)} {a b : α}
    (h : b ∈ (s.write (· ++ [a])).view) :
    b ∈ s.view ∨ b = a := by
  unfold write view at h
  unfold view
  cases hs : s.session with
  | none =>
    simp only [hs] at h
    exact .inl h
  | some c =>
    simp only [hs] at h
    exact (List.mem_append.mp h).imp id List.mem_singleton.mp

/-- A store without a connection is sound. -/
theorem sound_of_epoch_eq_none {s : Store (List α)} (h : s.epoch = none) : s.Sound where
  synced := fun c hc => by
    rw [(epoch_eq_none_iff s).mp h] at hc
    cases hc
  durable := by rw [view_of_epoch_eq_none s h]
  epoch_lt := fun e he => by
    rw [h] at he
    cases he

namespace Sound

variable {s : Store (List α)}

theorem openSession (_ : s.Sound) : s.openSession.Sound where
  synced := fun c hc _ => by cases hc; rfl
  durable := List.prefix_rfl
  epoch_lt := fun e he => by cases he; exact Nat.lt_succ_self _

theorem close (_ : s.Sound) : s.close.Sound := sound_of_epoch_eq_none rfl

theorem beginTx (h : s.Sound) : s.beginTx.Sound where
  synced := fun c hc hi => by
    obtain ⟨d, -, rfl⟩ := Option.map_eq_some_iff.mp hc
    cases hi
  durable := by simpa using h.durable
  epoch_lt := fun e he => h.epoch_lt e (by simpa using he)

theorem commit (h : s.Sound) : s.commit.Sound where
  synced := fun c hc _ => by
    unfold Store.commit at hc ⊢
    cases hs : s.session with
    | none => rw [hs] at hc; simp only [hs] at hc; cases hc
    | some d => rw [hs] at hc; cases hc; rfl
  durable := by simp
  epoch_lt := fun e he => by simpa using h.epoch_lt e (by simpa using he)

theorem rollback (h : s.Sound) : s.rollback.Sound where
  synced := fun c hc _ => by
    obtain ⟨d, -, rfl⟩ := Option.map_eq_some_iff.mp hc
    rfl
  durable := by simp
  epoch_lt := fun e he => h.epoch_lt e (by simpa using he)

/-- A row that is appended. -/
theorem append (h : s.Sound) (a : α) : (s.write (· ++ [a])).Sound where
  synced := fun c hc hi => by
    unfold write at hc ⊢
    cases hs : s.session with
    | none => simp only [hs] at hc; cases hc
    | some d =>
      simp only [hs] at hc
      cases hc
      simp only [show d.inTx = false from hi]
      rfl
  durable := by
    unfold write view
    cases hs : s.session with
    | none => simp only [hs]; exact List.prefix_rfl
    | some d =>
      have hd : s.file <+: d.working := by simpa only [view, hs] using h.durable
      cases hi : d.inTx with
      | false => simp only [hi, Bool.false_eq_true, if_false]; exact List.prefix_rfl
      | true => simp only [hi, if_true]; exact hd.trans (List.prefix_append _ _)
  epoch_lt := fun e he => by simpa using h.epoch_lt e (by simpa using he)

/-- A statement about other tables leaves a sound store alone. -/
theorem write_id (h : s.Sound) : s.write id = s := by
  obtain ⟨file, session, opened⟩ := s
  cases session with
  | none => rfl
  | some c =>
    obtain ⟨working, inTx, epoch⟩ := c
    cases inTx with
    | true => rfl
    | false =>
      obtain rfl : working = file := h.synced _ rfl rfl
      rfl

/-- Committed rows stay when a row is appended. -/
theorem append_durable (h : s.Sound) (a : α) : s.file <+: (s.write (· ++ [a])).file := by
  unfold write
  cases hs : s.session with
  | none => exact List.prefix_rfl
  | some c =>
    have hd : s.file <+: c.working := by simpa only [view, hs] using h.durable
    cases hi : c.inTx with
    | true => simp only [hi, if_true]; exact List.prefix_rfl
    | false => simp only [hi, Bool.false_eq_true, if_false]; exact hd.trans (List.prefix_append _ _)

/-- Committed rows stay when others are committed. -/
theorem commit_durable (h : s.Sound) : s.file <+: s.commit.file := by simpa using h.durable

/-- A committed row is visible. -/
theorem mem_view (h : s.Sound) {a : α} (ha : a ∈ s.file) : a ∈ s.view := h.durable.subset ha

end Sound
end Store
end SovereignSeed
