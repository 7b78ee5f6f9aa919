import Mathlib.Data.Option.Basic

/-!
# A database file with one writer at a time

Any number of connections share a file, and those that write take a lock first: the one that has it
works on a copy of the data, which a commit puts in the place of the file.  A connection that gives
up its lock without a commit leaves the file as it is.

## Main definitions

* `Locked` — a file, and the connection that holds the lock.
* `Locked.beginImmediate`, `write`, `commit`, `close` — the operations.

## Main results

* `commit_of_holds` — a commit puts what its connection sees in the place of the file.
* `not_holds_close`, `holds_close_of_ne` — a connection that closes gives up its own lock only.
-/

namespace SovereignSeed

/-- A file, and the connection that holds its lock with what it sees. -/
structure Locked (κ δ : Type*) where
  file : δ
  writer : Option (κ × δ)

namespace Locked

variable {κ δ : Type*} [DecidableEq κ] {s s' : Locked κ δ} {k j : κ} {d : δ}

/-- Connection `k` holds the lock and sees `d`. -/
def Holds (s : Locked κ δ) (k : κ) (d : δ) : Prop := s.writer = some (k, d)

/-- `BEGIN IMMEDIATE`, which waits while another connection holds the lock. -/
def beginImmediate (s : Locked κ δ) (k : κ) : Option (Locked κ δ) :=
  match s.writer with
  | none => some { s with writer := some (k, s.file) }
  | some _ => none

/-- A statement of the holder. -/
def write (s : Locked κ δ) (k : κ) (f : δ → δ) : Locked κ δ :=
  match s.writer with
  | none => s
  | some (j, d) => if j = k then { s with writer := some (k, f d) } else s

/-- `COMMIT` of the holder. -/
def commit (s : Locked κ δ) (k : κ) : Locked κ δ :=
  match s.writer with
  | none => s
  | some (j, d) => if j = k then ⟨d, none⟩ else s

/-- Closing a connection; what it has not committed is gone. -/
def close (s : Locked κ δ) (k : κ) : Locked κ δ :=
  match s.writer with
  | none => s
  | some (j, _) => if j = k then { s with writer := none } else s

omit [DecidableEq κ] in
theorem holds_of_beginImmediate (h : s.beginImmediate k = some s') :
    s.writer = none ∧ s'.file = s.file ∧ s'.Holds k s.file := by
  unfold beginImmediate at h
  split at h
  · next hw =>
    cases h
    exact ⟨hw, rfl, rfl⟩
  · cases h

theorem write_of_holds (h : s.Holds k d) (f : δ → δ) :
    (s.write k f).file = s.file ∧ (s.write k f).Holds k (f d) := by
  simp [write, Holds, show s.writer = some (k, d) from h]

/-- **A commit puts what its connection sees in the place of the file.** -/
theorem commit_of_holds (h : s.Holds k d) :
    (s.commit k).file = d ∧ (s.commit k).writer = none := by
  simp [commit, show s.writer = some (k, d) from h]

@[simp] theorem file_close (s : Locked κ δ) (k : κ) : (s.close k).file = s.file := by
  unfold close
  split
  · rfl
  · split <;> rfl

/-- **A connection that closes gives up the lock**, if it has it. -/
theorem not_holds_close (s : Locked κ δ) (k : κ) (d : δ) : ¬(s.close k).Holds k d := by
  cases hw : s.writer with
  | none => simp [close, Holds, hw]
  | some p =>
    by_cases hk : p.1 = k
    · simp [close, Holds, hw, hk]
    · intro h
      simp only [close, Holds, hw, if_neg hk] at h
      exact hk (congrArg Prod.fst (Option.some.inj h))

/-- The others keep it. -/
theorem holds_close_of_ne (s : Locked κ δ) (hj : j ≠ k) (d : δ) :
    (s.close k).Holds j d ↔ s.Holds j d := by
  cases hw : s.writer with
  | none => simp [close, Holds, hw]
  | some p =>
    by_cases hk : p.1 = k
    · simp only [close, Holds, hw, if_pos hk]
      refine ⟨nofun, fun h => ?_⟩
      obtain rfl : p = (j, d) := Option.some.inj h
      exact absurd hk hj
    · simp [close, Holds, hw, hk]

end Locked
end SovereignSeed
