import Mathlib.Algebra.Order.Field.Rat
import Mathlib.Algebra.Order.Group.Unbundled.Int
import Mathlib.Data.Nat.Log
import Mathlib.Tactic.Linarith
import Mathlib.Tactic.Ring

/-!
# Python floats

A `float` is an IEEE 754 binary64 datum.  A finite one is a sign and a magnitude
`mant * 2 ^ exp` in units of `2 ^ -1074`, the least positive number, so that all
arithmetic is on naturals and integers.  An exact result `A / D` in these units
is rounded to the nearest magnitude, ties to even.

## Main definitions

* `Magnitude`, `PyFloat` — the data, with the canonical form as an invariant.
* `rne`, `roundMag` — rounding of an exact ratio.
* `PyFloat.sub`, `abs`, `gt`, `le` — the operations the programs use.

## Main results

* `roundMag_exact` — a representable ratio is its own rounding.
* `roundedUnits_le_iff` — **where the rounding of a ratio stays below a bound.**
* `abs_sub_gt_iff` — a comparison of a rounded distance with a bound.
-/

namespace SovereignSeed
namespace Python

/-! ### The data -/

/-- The number of binary places below the point: the unit is `2 ^ -unitExp`. -/
@[irreducible] def unitExp : ℕ := 1074

/-- The greatest exponent of a magnitude. -/
@[irreducible] def maxExp : ℕ := 2045

/-- The magnitude of a finite float, `mant * 2 ^ exp` units of `2 ^ -1074`. -/
structure Magnitude where
  mant : ℕ
  exp : ℕ
  mant_lt : mant < 2 ^ 53
  /-- Below full precision the exponent is the least one. -/
  normal : 2 ^ 52 ≤ mant ∨ exp = 0
  exp_le : exp ≤ maxExp
  deriving DecidableEq

/-- The magnitude as a number of units. -/
def Magnitude.units (a : Magnitude) : ℕ := a.mant * 2 ^ a.exp

/-- A `float`. -/
inductive PyFloat
  | nan
  | inf (neg : Bool)
  | finite (neg : Bool) (a : Magnitude)
  deriving DecidableEq

theorem Magnitude.units_lt (a : Magnitude) : a.units < 2 ^ (53 + maxExp) :=
  calc a.units < 2 ^ 53 * 2 ^ a.exp := Nat.mul_lt_mul_of_pos_right a.mant_lt (Nat.two_pow_pos _)
    _ = 2 ^ (53 + a.exp) := (Nat.pow_add ..).symm
    _ ≤ 2 ^ (53 + maxExp) := Nat.pow_le_pow_right (by decide) (Nat.add_le_add_left a.exp_le 53)

/-- The magnitude zero. -/
def Magnitude.zero : Magnitude := ⟨0, 0, by decide, Or.inr rfl, Nat.zero_le _⟩

theorem Magnitude.eq_zero {a : Magnitude} (h : a.mant = 0) : a = .zero := by
  obtain ⟨m, e, hm, hnormal, he⟩ := a
  obtain rfl : m = 0 := h
  obtain rfl : e = 0 := hnormal.resolve_left (by decide)
  rfl

/-- `0.0`. -/
def PyFloat.zero : PyFloat := .finite false .zero

/-- The signed number of units of a finite float, and zero otherwise. -/
def PyFloat.scaled : PyFloat → ℤ
  | .finite neg a => if neg then -a.units else a.units
  | _ => 0

/-- Neither an infinity nor a NaN. -/
def PyFloat.isFinite : PyFloat → Bool
  | .finite _ _ => true
  | _ => false

/-- The rational number a finite float is. -/
def PyFloat.toRat (x : PyFloat) : ℚ := x.scaled / 2 ^ unitExp

/-! ### Rounding -/

/-- The integer nearest to `a / d`, the even one of two. -/
def rne (a d : ℕ) : ℕ :=
  if 2 * (a % d) < d then a / d
  else if d < 2 * (a % d) then a / d + 1
  else if a / d % 2 = 0 then a / d else a / d + 1

/-- The exponent at which `A / D` has 53 bits before the point, or the least. -/
def roundExp (A D : ℕ) : ℕ := Nat.log 2 (A / D) - 52

/-- The rounding of `A / D` in units, were there no greatest float. -/
def roundedUnits (A D : ℕ) : ℕ := rne A (D * 2 ^ roundExp A D) * 2 ^ roundExp A D

theorem rne_mul (q : ℕ) {d : ℕ} (hd : 0 < d) : rne (q * d) d = q := by
  rw [rne, Nat.mul_mod_left, if_pos (by omega), Nat.mul_div_cancel _ hd]

theorem div_le_rne (a d : ℕ) : a / d ≤ rne a d := by
  unfold rne
  split
  · exact le_rfl
  split
  · exact Nat.le_succ _
  split
  · exact le_rfl
  · exact Nat.le_succ _

theorem rne_le_div_succ (a d : ℕ) : rne a d ≤ a / d + 1 := by
  unfold rne
  split
  · exact Nat.le_succ _
  split
  · exact le_rfl
  split
  · exact Nat.le_succ _
  · exact le_rfl

theorem le_rne {k a d : ℕ} (hd : 0 < d) (h : k * d ≤ a) : k ≤ rne a d :=
  ((Nat.le_div_iff_mul_le hd).mpr h).trans (div_le_rne a d)

theorem rne_le {k a d : ℕ} (hd : 0 < d) (h : a ≤ k * d) : rne a d ≤ k := by
  rcases Nat.lt_or_ge (a / d) k with hlt | hge
  · exact (rne_le_div_succ a d).trans hlt
  · have ha : k * d ≤ a := (Nat.le_div_iff_mul_le hd).mp hge
    rw [Nat.le_antisymm h ha, rne_mul k hd]

/-- Rounding stays below an even integer exactly up to the tie above it. -/
theorem rne_le_iff_of_even {k a d : ℕ} (hd : 0 < d) (hk : k % 2 = 0) :
    rne a d ≤ k ↔ 2 * a ≤ 2 * (k * d) + d := by
  have ha : d * (a / d) + a % d = a := Nat.div_add_mod a d
  have hr : a % d < d := Nat.mod_lt a hd
  rcases Nat.lt_trichotomy (a / d) k with hlt | heq | hgt
  · have hmul : d * (a / d + 1) ≤ d * k := Nat.mul_le_mul_left d hlt
    rw [Nat.mul_comm k d]
    rw [Nat.mul_add, Nat.mul_one] at hmul
    have hle := (rne_le_div_succ a d).trans hlt
    constructor
    · intro _; omega
    · intro _; exact hle
  · subst heq
    rw [Nat.mul_comm (a / d) d]
    unfold rne
    split
    · constructor <;> intro _ <;> omega
    split
    · constructor <;> intro _ <;> omega
    · constructor <;> intro _ <;> omega
  · have hmul : d * (k + 1) ≤ d * (a / d) := Nat.mul_le_mul_left d hgt
    rw [Nat.mul_comm k d]
    rw [Nat.mul_add, Nat.mul_one] at hmul
    have hle := div_le_rne a d
    constructor
    · intro _; omega
    · intro _; omega

section RoundExp

variable {A D : ℕ}

/-- The rounding exponent leaves at most 53 bits. -/
theorem lt_of_roundExp (hD : 0 < D) : A < 2 ^ 53 * (D * 2 ^ roundExp A D) := by
  have hlog : A / D < 2 ^ (Nat.log 2 (A / D) + 1) := Nat.lt_pow_succ_log_self (by decide) _
  have hpow : 2 ^ (Nat.log 2 (A / D) + 1) ≤ 2 ^ (53 + roundExp A D) :=
    Nat.pow_le_pow_right (by decide) (by rw [roundExp]; omega)
  have hlt : A < 2 ^ (53 + roundExp A D) * D := (Nat.div_lt_iff_lt_mul hD).mp (hlog.trans_le hpow)
  calc A < 2 ^ (53 + roundExp A D) * D := hlt
    _ = 2 ^ 53 * (D * 2 ^ roundExp A D) := by rw [Nat.pow_add]; ac_rfl

/-- A positive rounding exponent leaves exactly 53 bits. -/
theorem le_of_roundExp (hD : 0 < D) (hp : roundExp A D ≠ 0) :
    2 ^ 52 * (D * 2 ^ roundExp A D) ≤ A := by
  have hne : A / D ≠ 0 := by
    intro h0
    rw [roundExp, h0] at hp
    simp at hp
  have hlog : 2 ^ Nat.log 2 (A / D) ≤ A / D := Nat.pow_log_le_self 2 hne
  have hexp : 52 + roundExp A D = Nat.log 2 (A / D) := by rw [roundExp] at hp ⊢; omega
  calc 2 ^ 52 * (D * 2 ^ roundExp A D) = 2 ^ (52 + roundExp A D) * D := by
        rw [Nat.pow_add]; ac_rfl
    _ ≤ A := by rw [hexp]; exact (Nat.le_div_iff_mul_le hD).mp hlog

theorem rne_roundExp_le (hD : 0 < D) : rne A (D * 2 ^ roundExp A D) ≤ 2 ^ 53 :=
  rne_le (Nat.mul_pos hD (Nat.two_pow_pos _)) (lt_of_roundExp hD).le

theorem le_rne_roundExp (hD : 0 < D) (hp : roundExp A D ≠ 0) :
    2 ^ 52 ≤ rne A (D * 2 ^ roundExp A D) :=
  le_rne (Nat.mul_pos hD (Nat.two_pow_pos _)) (le_of_roundExp hD hp)

end RoundExp

/-- The magnitude nearest to `A / D` units, or `none` beyond the greatest. -/
def roundMag (A D : ℕ) : Option Magnitude :=
  if hD : 0 < D then
    if h : rne A (D * 2 ^ roundExp A D) < 2 ^ 53 then
      if he : roundExp A D ≤ maxExp then
        some ⟨_, roundExp A D, h, (Decidable.em (roundExp A D = 0)).symm.imp_left
          (le_rne_roundExp hD), he⟩
      else none
    -- the carry out of the last place
    else if he : roundExp A D + 1 ≤ maxExp then
      some ⟨2 ^ 52, roundExp A D + 1, by decide, Or.inl le_rfl, he⟩
    else none
  else none

/-- A rounded magnitude has the rounded units. -/
theorem units_of_roundMag {A D : ℕ} {a : Magnitude} (h : roundMag A D = some a) :
    a.units = roundedUnits A D := by
  unfold roundMag at h
  split at h
  · next hD =>
    split at h
    · split at h
      · cases h; rfl
      · cases h
    · next hcarry =>
      split at h
      · cases h
        have heq : rne A (D * 2 ^ roundExp A D) = 2 ^ 53 :=
          Nat.le_antisymm (rne_roundExp_le hD) (Nat.le_of_not_lt hcarry)
        rw [roundedUnits, heq, Magnitude.units]
        ring
      · cases h
  · cases h

/-- What is rounded to a magnitude lies below the greatest power. -/
theorem lt_of_roundMag {A : ℕ} {a : Magnitude} (h : roundMag A 1 = some a) :
    A < 2 ^ (53 + maxExp) := by
  have hlt := lt_of_roundExp (A := A) Nat.one_pos
  have hexp : roundExp A 1 ≤ maxExp := by
    unfold roundMag at h
    rw [dif_pos Nat.one_pos] at h
    split at h
    · split at h
      · assumption
      · cases h
    · split at h
      · next he => omega
      · cases h
  calc A < 2 ^ 53 * (1 * 2 ^ roundExp A 1) := hlt
    _ = 2 ^ (53 + roundExp A 1) := by rw [Nat.one_mul, ← Nat.pow_add]
    _ ≤ 2 ^ (53 + maxExp) := Nat.pow_le_pow_right (by decide) (by omega)

/-- Overflow happens beyond the greatest magnitude only. -/
theorem le_of_roundMag_none {A D : ℕ} (hD : 0 < D) (h : roundMag A D = none) :
    2 ^ (53 + maxExp) ≤ roundedUnits A D := by
  unfold roundMag at h
  rw [dif_pos hD] at h
  split at h
  · split at h
    · cases h
    · next he =>
      have hp : roundExp A D ≠ 0 := by omega
      calc 2 ^ (53 + maxExp) ≤ 2 ^ (52 + roundExp A D) := Nat.pow_le_pow_right (by decide) (by omega)
        _ = 2 ^ 52 * 2 ^ roundExp A D := Nat.pow_add ..
        _ ≤ roundedUnits A D := Nat.mul_le_mul_right _ (le_rne_roundExp hD hp)
  · next hcarry =>
    split at h
    · cases h
    · next he =>
      have hge : 2 ^ 53 ≤ rne A (D * 2 ^ roundExp A D) := Nat.le_of_not_lt hcarry
      calc 2 ^ (53 + maxExp) ≤ 2 ^ (53 + roundExp A D) := Nat.pow_le_pow_right (by decide) (by omega)
        _ = 2 ^ 53 * 2 ^ roundExp A D := Nat.pow_add ..
        _ ≤ roundedUnits A D := Nat.mul_le_mul_right _ hge

/-- The magnitude is determined by its units. -/
theorem roundExp_units (a : Magnitude) : roundExp a.units 1 = a.exp := by
  rw [roundExp, Nat.div_one]
  rcases a.normal with hn | h0
  · have hlog : Nat.log 2 a.units = 52 + a.exp := by
      refine Nat.log_eq_of_pow_le_of_lt_pow ?_ ?_
      · rw [Nat.pow_add]
        exact Nat.mul_le_mul_right _ hn
      · calc a.units < 2 ^ 53 * 2 ^ a.exp :=
              Nat.mul_lt_mul_of_pos_right a.mant_lt (Nat.two_pow_pos _)
          _ = 2 ^ (52 + a.exp + 1) := by rw [← Nat.pow_add]; congr 1; omega
    omega
  · have hlt : a.units < 2 ^ 53 := by rw [Magnitude.units, h0]; simpa using a.mant_lt
    have hlog : Nat.log 2 a.units < 53 := Nat.log_lt_of_lt_pow' (by decide) hlt
    omega

/-- **A representable ratio is its own rounding.** -/
theorem roundMag_exact (a : Magnitude) {D : ℕ} (hD : 0 < D) : roundMag (a.units * D) D = some a := by
  have hexp : roundExp (a.units * D) D = a.exp := by
    rw [roundExp, Nat.mul_div_cancel _ hD, ← roundExp_units a, roundExp, Nat.div_one]
  have hmant : rne (a.units * D) (D * 2 ^ a.exp) = a.mant := by
    have heq : a.units * D = a.mant * (D * 2 ^ a.exp) := by rw [Magnitude.units]; ac_rfl
    rw [heq, rne_mul _ (Nat.mul_pos hD (Nat.two_pow_pos _))]
  unfold roundMag
  rw [dif_pos hD, dif_pos (by rw [hexp, hmant]; exact a.mant_lt), dif_pos (by rw [hexp]; exact a.exp_le)]
  congr 1
  obtain ⟨m, e, -, -, -⟩ := a
  simp only [Magnitude.mk.injEq]
  exact ⟨by rw [hexp]; exact hmant, hexp⟩

/-- **Where the rounding of a ratio stays below a bound**: for a bound with a
full, even mantissa, up to half a unit in its last place. -/
theorem roundedUnits_le_iff {A K P : ℕ} (hlo : 2 ^ 52 ≤ K) (hhi : K < 2 ^ 53) (hK : K % 2 = 0) :
    roundedUnits A 1 ≤ K * 2 ^ P ↔ 2 * A ≤ 2 * (K * 2 ^ P) + 2 ^ P := by
  have hlt := lt_of_roundExp (A := A) Nat.one_pos
  have hle := rne_roundExp_le (A := A) Nat.one_pos
  simp only [Nat.one_mul] at hlt hle
  rw [roundedUnits, Nat.one_mul]
  rcases Nat.lt_trichotomy (roundExp A 1) P with hp | hp | hp
  · -- both sides hold: the ratio lies below the binade of the bound
    have hpow : 2 ^ 53 * 2 ^ roundExp A 1 ≤ 2 ^ 52 * 2 ^ P := by
      rw [← Nat.pow_add, ← Nat.pow_add]
      exact Nat.pow_le_pow_right (by decide) (by omega)
    have hbound : 2 ^ 52 * 2 ^ P ≤ K * 2 ^ P := Nat.mul_le_mul_right _ hlo
    have hrne := Nat.mul_le_mul_right (2 ^ roundExp A 1) hle
    constructor <;> intro _ <;> omega
  · rw [hp, Nat.mul_le_mul_right_iff (Nat.two_pow_pos P),
      rne_le_iff_of_even (Nat.two_pow_pos P) hK]
  · -- neither side holds: the ratio lies above the binade of the bound
    have hne : roundExp A 1 ≠ 0 := by omega
    have hge := le_of_roundExp (A := A) Nat.one_pos hne
    have hrne := Nat.mul_le_mul_right (2 ^ roundExp A 1) (le_rne_roundExp (A := A) Nat.one_pos hne)
    simp only [Nat.one_mul] at hge hrne
    have hpow : 2 ^ 53 * 2 ^ P ≤ 2 ^ 52 * 2 ^ roundExp A 1 := by
      rw [← Nat.pow_add, ← Nat.pow_add]
      exact Nat.pow_le_pow_right (by decide) (by omega)
    have hbound : (K + 1) * 2 ^ P ≤ 2 ^ 53 * 2 ^ P := Nat.mul_le_mul_right _ hhi
    have hpos := Nat.two_pow_pos P
    rw [Nat.add_mul, Nat.one_mul] at hbound
    constructor <;> intro _ <;> omega

/-! ### Operations -/

/-- The float with the given sign nearest to `A / D` units. -/
def PyFloat.ofRatio (neg : Bool) (A D : ℕ) : PyFloat :=
  match roundMag A D with
  | some a => .finite neg a
  | none => .inf neg

/-- `x - y`. -/
def PyFloat.sub : PyFloat → PyFloat → PyFloat
  | .nan, _ => .nan
  | _, .nan => .nan
  | .inf s, .inf t => if s = t then .nan else .inf s
  | .inf s, _ => .inf s
  | _, .inf t => .inf !t
  | .finite s a, .finite t b =>
    let d := (PyFloat.finite s a).scaled - (PyFloat.finite t b).scaled
    -- the difference of equal numbers is `+0.0`, but `-0.0 - 0.0` is `-0.0`
    if d = 0 then .finite (a.mant == 0 && s && !t) .zero else .ofRatio (d < 0) d.natAbs 1

/-- `abs(x)`. -/
def PyFloat.abs : PyFloat → PyFloat
  | .nan => .nan
  | .inf _ => .inf false
  | .finite _ a => .finite false a

/-- `x <= y`: false if either is a NaN. -/
def PyFloat.le : PyFloat → PyFloat → Bool
  | .nan, _ => false
  | _, .nan => false
  | .inf s, .inf t => s || !t
  | .inf s, .finite _ _ => s
  | .finite _ _, .inf t => !t
  | .finite s a, .finite t b => (PyFloat.finite s a).scaled ≤ (PyFloat.finite t b).scaled

/-- `x > y`: false if either is a NaN. -/
def PyFloat.gt : PyFloat → PyFloat → Bool
  | .nan, _ => false
  | _, .nan => false
  | x, y => !x.le y

/-- The magnitude of the rounding of a distance, compared with a bound. -/
theorem abs_ofRatio_gt {neg : Bool} {A : ℕ} {b : Magnitude} :
    ((PyFloat.ofRatio neg A 1).abs.gt (.finite false b)) = decide (b.units < roundedUnits A 1) := by
  rw [PyFloat.ofRatio]
  split
  · next a ha =>
    have hunits := units_of_roundMag ha
    simp only [PyFloat.abs, PyFloat.gt, PyFloat.le, PyFloat.scaled, hunits, Bool.false_eq_true,
      if_false, Nat.cast_le, ← decide_not, Nat.not_le]
  · next hnone =>
    have hle := le_of_roundMag_none Nat.one_pos hnone
    have hlt : b.units < roundedUnits A 1 := b.units_lt.trans_le hle
    simp [PyFloat.abs, PyFloat.gt, PyFloat.le, hlt]

/-- **A rounded distance exceeds a bound with an even, full mantissa exactly when
the exact distance exceeds it by more than half a unit in the last place.** -/
theorem abs_sub_gt_iff {s t : Bool} {a c : Magnitude} {b : Magnitude} (hb : 2 ^ 52 ≤ b.mant)
    (heven : b.mant % 2 = 0) :
    ((PyFloat.finite s a).sub (.finite t c)).abs.gt (.finite false b) = true ↔
      2 * b.units + 2 ^ b.exp <
        2 * ((PyFloat.finite s a).scaled - (PyFloat.finite t c).scaled).natAbs := by
  have hiff := roundedUnits_le_iff (A := ((PyFloat.finite s a).scaled -
    (PyFloat.finite t c).scaled).natAbs) (P := b.exp) hb b.mant_lt heven
  rw [PyFloat.sub]
  split
  · next hd =>
    rw [hd]
    simp [PyFloat.abs, PyFloat.gt, PyFloat.le, PyFloat.scaled, Magnitude.zero, Magnitude.units]
  · rw [abs_ofRatio_gt, decide_eq_true_eq, ← Nat.not_le, ← Nat.not_le, not_iff_not, Magnitude.units]
    exact hiff

end Python
end SovereignSeed
