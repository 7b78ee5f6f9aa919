import Mathlib.Data.List.Basic
import Mathlib.Data.List.Range
import Mathlib.Data.Nat.Bitwise
import Mathlib.Data.Nat.ModEq
import Mathlib.Logic.Function.Basic

/-!
# Windows of a ring

A ring of `n` slots stands for an unbounded sequence of positions, of which it
holds at most one lap at a time: position `p` lies in slot `p % n`.  The
*window* from `lo` to `hi` is the list of what the slots of these positions
hold.  A write is seen by a window exactly when its position is in it, as long
as both fit in one lap.

The counters of a ring are machine words, so they run through the positions
modulo a power of two that the ring size divides.

## Main definitions

* `window` — the entries of a ring from one position up to another.
* `addWord`, `subWord`, `maskWord` — counters and slots of a ring in words.

## Main results

* `eq_of_mod_eq` — a slot holds one position of a lap.
* `window_write`, `window_snoc` — what a write outside a window, and one at its
  end, does to it.
-/

namespace SovereignSeed

/-- Within one lap of `n` positions the slot determines the position. -/
theorem eq_of_mod_eq {n p q : ℕ} (h : p % n = q % n) (hle : p ≤ q) (hlt : q < p + n) : p = q := by
  have hmod : (q - p) % n = 0 := Nat.sub_mod_eq_zero_of_mod_eq h.symm
  rw [Nat.mod_eq_of_lt (by omega)] at hmod
  omega

variable {α β : Type*}

/-! ### Windows -/

/-- What the slots of the positions from `lo` up to `hi` hold. -/
def window (n : ℕ) (ring : ℕ → α) (lo hi : ℕ) : List α :=
  (List.range' lo (hi - lo)).map fun p => ring (p % n)

@[simp] theorem length_window (n : ℕ) (ring : ℕ → α) (lo hi : ℕ) :
    (window n ring lo hi).length = hi - lo := by
  simp [window]

@[simp] theorem window_self (n : ℕ) (ring : ℕ → α) (p : ℕ) : window n ring p p = [] := by
  simp [window]

/-- A window is determined by the slots of its positions. -/
theorem window_congr {n : ℕ} {ring ring' : ℕ → α} {lo hi : ℕ}
    (h : ∀ p, lo ≤ p → p < hi → ring (p % n) = ring' (p % n)) :
    window n ring lo hi = window n ring' lo hi := by
  apply List.map_congr_left
  intro p hp
  rw [List.mem_range'_1] at hp
  exact h p hp.1 (by omega)

/-- Two windows side by side. -/
theorem window_append (n : ℕ) (ring : ℕ → α) {lo mid hi : ℕ} (h : lo ≤ mid) (h' : mid ≤ hi) :
    window n ring lo mid ++ window n ring mid hi = window n ring lo hi := by
  have hlo : mid = lo + (mid - lo) := by omega
  have hlen : hi - lo = (mid - lo) + (hi - mid) := by omega
  rw [window, window, window, ← List.map_append, hlen, ← List.range'_append_1, ← hlo]

/-- The first entry of a window. -/
theorem window_cons (n : ℕ) (ring : ℕ → α) {lo hi : ℕ} (h : lo < hi) :
    window n ring lo hi = ring (lo % n) :: window n ring (lo + 1) hi := by
  have hlen : hi - lo = hi - (lo + 1) + 1 := by omega
  rw [window, hlen, List.range'_succ, List.map_cons, window]

/-- The last entry of a window. -/
theorem window_succ (n : ℕ) (ring : ℕ → α) {lo hi : ℕ} (h : lo ≤ hi) :
    window n ring lo (hi + 1) = window n ring lo hi ++ [ring (hi % n)] := by
  rw [← window_append n ring h (Nat.le_succ hi), window_cons n ring (Nat.lt_succ_self hi),
    window_self]

/-- A write to a position outside a window, within one lap of it, leaves the
window alone. -/
theorem window_write {n : ℕ} {ring : ℕ → α} {lo hi p : ℕ} (x : α) (hp : hi ≤ p)
    (hlap : p < lo + n) : window n (Function.update ring (p % n) x) lo hi = window n ring lo hi := by
  apply window_congr
  intro q hlo hhi
  rw [Function.update_of_ne]
  intro heq
  have := eq_of_mod_eq heq (by omega) (by omega)
  omega

/-- A write at the end of a window that is not a whole lap adds an entry to it. -/
theorem window_snoc {n : ℕ} {ring : ℕ → α} {lo hi : ℕ} (x : α) (h : lo ≤ hi)
    (hlap : hi < lo + n) :
    window n (Function.update ring (hi % n) x) lo (hi + 1) = window n ring lo hi ++ [x] := by
  rw [window_succ n _ h, window_write x le_rfl hlap, Function.update_self]

/-- An entry of a window, by its index. -/
theorem getElem?_window (n : ℕ) (ring : ℕ → α) {lo hi k : ℕ} (h : lo + k < hi) :
    (window n ring lo hi)[k]? = some (ring ((lo + k) % n)) := by
  rw [window, List.getElem?_map, List.getElem?_range' (by omega)]
  simp

theorem map_window (n : ℕ) (ring : ℕ → α) (f : α → β) (lo hi : ℕ) :
    (window n ring lo hi).map f = window n (fun i => f (ring i)) lo hi := by
  rw [window, List.map_map]
  rfl

/-! ### Counters in words -/

/-- Addition of `w`-bit words. -/
def addWord (w a b : ℕ) : ℕ := (a + b) % 2 ^ w

/-- Subtraction of `w`-bit words. -/
def subWord (w a b : ℕ) : ℕ := (a + 2 ^ w - b) % 2 ^ w

/-- `idx & mask`: the slot of a counter in a ring of `n` slots. -/
def maskWord (n idx : ℕ) : ℕ := idx &&& (n - 1)

theorem addWord_mod (w p k : ℕ) : addWord w (p % 2 ^ w) k = (p + k) % 2 ^ w :=
  Nat.mod_add_mod p (2 ^ w) k

/-- The difference of two counters is the number of positions between them. -/
theorem subWord_mod {w p q : ℕ} (hle : q ≤ p) (hlt : p - q < 2 ^ w) :
    subWord w (p % 2 ^ w) (q % 2 ^ w) = p - q := by
  have hq : q % 2 ^ w < 2 ^ w := Nat.mod_lt q (Nat.two_pow_pos w)
  have hmod : (p % 2 ^ w + 2 ^ w - q % 2 ^ w) % 2 ^ w = (p - q) % 2 ^ w := by
    have hsum : p - q + q = p := by omega
    apply Nat.ModEq.add_right_cancel' (q % 2 ^ w)
    rw [Nat.ModEq, Nat.sub_add_cancel (by omega), Nat.add_mod_right, Nat.mod_mod,
      Nat.add_mod_mod, hsum]
  rw [subWord, hmod, Nat.mod_eq_of_lt hlt]

/-- The slot of a counter is that of its position, when the ring size is a power
of two that a word can count. -/
theorem maskWord_mod {w log : ℕ} (h : log ≤ w) (p : ℕ) :
    maskWord (2 ^ log) (p % 2 ^ w) = p % 2 ^ log := by
  rw [maskWord, Nat.and_two_pow_sub_one_eq_mod, Nat.mod_mod_of_dvd p (Nat.pow_dvd_pow 2 h)]

end SovereignSeed
