import SovereignSeed.Python.Float
import SovereignSeed.Python.Text

/-!
# Floats as text

`repr` writes the shortest row of digits that reads back as the number, nearest
to it among those; `float` reads decimal numerals in all the spellings Python
allows, and the names of the infinities and of NaN.

## Main definitions

* `shortest`, `PyFloat.repr` — `repr(float)`; `jsonFloat` is what JSON has for it.
* `floatOfText` — `float(str)`, or `none` where it raises `ValueError`.
* `PyFloat.ofInt` — `float(int)`, or `none` where it raises `OverflowError`.

## Main results

* `floatOfText_repr` — **`float(repr(x))` is `x`.**
* `repr_injective` — the text determines the number.
* `mem_floatChars_of_mem_repr` — the characters of a numeral.
-/

namespace SovereignSeed
namespace Python

/-! ### Writing -/

/-- A magnitude in units of `10 ^ -unitExp`. -/
def Magnitude.decimalUnits (a : Magnitude) : ℕ := a.units * 5 ^ unitExp

/-- Does a number of units of `10 ^ -unitExp` read as `a`? -/
def readsAs (a : Magnitude) (v : ℕ) : Bool := roundMag v (5 ^ unitExp) = some a

/-- The first of two rows of digits down to the place `10 ^ j` that reads as `a`. -/
def firstReading (a : Magnitude) (j n m : ℕ) : Option (ℕ × ℕ) :=
  if readsAs a (n * 10 ^ j) then some (n, j)
  else if readsAs a (m * 10 ^ j) then some (m, j)
  else none

/-- The digits of `a` down to the place `10 ^ j`, rounded to the nearest first. -/
def candidate (a : Magnitude) (j : ℕ) : Option (ℕ × ℕ) :=
  let below := a.decimalUnits / 10 ^ j
  let rest := 2 * (a.decimalUnits % 10 ^ j)
  if 10 ^ j < rest ∨ rest = 10 ^ j ∧ below % 2 = 1 then firstReading a j (below + 1) below
  else firstReading a j below (below + 1)

/-- The shortest digits of `a`, and the place of the last in units of
`10 ^ -unitExp`; all digits of `a` are enough. -/
def shortest (a : Magnitude) : ℕ × ℕ :=
  let len := (Nat.digits 10 a.decimalUnits).length
  ((List.range len).findSome? fun k => candidate a (len - k)).getD (a.decimalUnits, 0)

/-- The digits without the zeros at the end. -/
def significant (n : ℕ) : PyStr := (decimal n).rdropWhile (· == digit 0)

/-- An exponent of two digits or more. -/
def exponentDigits (n : ℕ) : PyStr := if n < 10 then digit 0 :: decimal n else decimal n

/-- `format_float_short` in mode `r`: the digits `ds` with the point after the
first `decpt` of them. -/
def layout (ds : PyStr) (decpt : ℤ) : PyStr :=
  if -4 < decpt ∧ decpt ≤ 16 then
    if decpt ≤ 0 then text "0." ++ (List.replicate (-decpt).toNat (digit 0) ++ ds)
    else if ds.length ≤ decpt.toNat then
      (ds ++ List.replicate (decpt.toNat - ds.length) (digit 0)) ++ text ".0"
    else ds.take decpt.toNat ++ (text "." ++ ds.drop decpt.toNat)
  else
    (ds.take 1 ++ (if ds.length = 1 then [] else text "." ++ ds.drop 1)) ++
      (text (if decpt ≤ 0 then "e-" else "e+") ++ exponentDigits (decpt - 1).natAbs)

/-- `repr` of a positive magnitude. -/
def Magnitude.repr (a : Magnitude) : PyStr :=
  layout (significant (shortest a).1) ((decimal (shortest a).1).length + (shortest a).2 - unitExp)

/-- `repr(x)`, which is also `str(x)`. -/
def PyFloat.repr : PyFloat → PyStr
  | .nan => text "nan"
  | .inf neg => if neg then text "-inf" else text "inf"
  | .finite neg a =>
    (if neg then text "-" else []) ++ (if a.mant = 0 then text "0.0" else a.repr)

/-- A float as `json.dumps` writes it. -/
def jsonFloat : PyFloat → PyStr
  | .nan => text "NaN"
  | .inf neg => if neg then text "-Infinity" else text "Infinity"
  | x => x.repr

/-! ### Reading -/

/-- `m * 10 ^ e` as a float. -/
def PyFloat.ofDecimal (neg : Bool) (m : ℕ) (e : ℤ) : PyFloat :=
  if 0 ≤ e + unitExp then .ofRatio neg (m * 10 ^ (e + unitExp).toNat) (5 ^ unitExp)
  else .ofRatio neg m (5 ^ unitExp * 10 ^ (-(e + unitExp)).toNat)

/-- `float(n)`, or `none` where it raises `OverflowError`. -/
def PyFloat.ofInt (n : ℤ) : Option PyFloat :=
  (roundMag (n.natAbs * 2 ^ unitExp) 1).map (.finite (n < 0))

/-- The zeros of the decimal digits of Unicode. -/
def decimalZeros : List ℕ :=
  [0x30, 0x660, 0x6f0, 0x7c0, 0x966, 0x9e6, 0xa66, 0xae6, 0xb66, 0xbe6, 0xc66, 0xce6, 0xd66,
   0xde6, 0xe50, 0xed0, 0xf20, 0x1040, 0x1090, 0x17e0, 0x1810, 0x1946, 0x19d0, 0x1a80,
   0x1a90, 0x1b50, 0x1bb0, 0x1c40, 0x1c50, 0xa620, 0xa8d0, 0xa900, 0xa9d0, 0xa9f0, 0xaa50,
   0xabf0, 0xff10, 0x104a0, 0x10d30, 0x11066, 0x110f0, 0x11136, 0x111d0, 0x112f0, 0x11450,
   0x114d0, 0x11650, 0x116c0, 0x11730, 0x118e0, 0x11950, 0x11c50, 0x11d50, 0x11da0, 0x16a60,
   0x16ac0, 0x16b50, 0x1d7ce, 0x1d7d8, 0x1d7e2, 0x1d7ec, 0x1d7f6, 0x1e140, 0x1e2f0, 0x1e950,
   0x1fbf0]

/-- A decimal digit of any script, as an ASCII digit. -/
def asciiDigit (c : CodePoint) : CodePoint :=
  match decimalZeros.find? fun z => z ≤ c.val && c.val < z + 10 with
  | some z => digit (c.val - z)
  | none => c

/-- Underscores may stand between digits; `prev` says whether a digit precedes. -/
def dropUnderscores : Bool → PyStr → Option PyStr
  | _, [] => some []
  | prev, c :: s =>
    if c = 0x5f then
      if prev && (s.head?.any isDigit) then dropUnderscores false s else none
    else (dropUnderscores (isDigit c) s).map (c :: ·)

/-- The lower case of an ASCII letter. -/
def lower (c : CodePoint) : CodePoint :=
  if 0x41 ≤ c.val ∧ c.val ≤ 0x5a then Fin.ofNat 0x110000 (c.val + 0x20) else c

/-- One digit or more. -/
def readDigits (s : PyStr) : Option ℕ :=
  if s ≠ [] ∧ s.all isDigit then some (ofDigits s) else none

/-- A signed exponent. -/
def readExponent : PyStr → Option ℤ
  | [] => none
  | c :: s =>
    if c = 0x2d then (readDigits s).map fun n : ℕ => -(n : ℤ)
    else if c = 0x2b then (readDigits s).map fun n : ℕ => (n : ℤ)
    else (readDigits (c :: s)).map fun n : ℕ => (n : ℤ)

/-- The mark of an exponent. -/
def isExponentMark (c : CodePoint) : Bool := c == 0x65 || c == 0x45

/-- The fraction of a mantissa: what follows the digits before the point. -/
def readFraction : PyStr → Option PyStr
  | [] => some []
  | c :: s => if c = 0x2e ∧ s.all isDigit then some s else none

/-- An unsigned numeral, as digits and the place of the last. -/
def readNumber (s : PyStr) : Option (ℕ × ℤ) :=
  let mant := s.takeWhile (!isExponentMark ·)
  let ip := mant.takeWhile isDigit
  (readFraction (mant.dropWhile isDigit)).bind fun fp =>
    if ip ++ fp = [] then none
    else
      match s.dropWhile (!isExponentMark ·) with
      | [] => some (ofDigits (ip ++ fp), -(fp.length : ℤ))
      | _ :: ex => (readExponent ex).map fun e => (ofDigits (ip ++ fp), e - fp.length)

/-- A numeral or a name, after the sign. -/
def readUnsigned (neg : Bool) (s : PyStr) : Option PyFloat :=
  if s.map lower = text "inf" ∨ s.map lower = text "infinity" then some (.inf neg)
  else if s.map lower = text "nan" then some .nan
  else (readNumber s).map fun r => .ofDecimal neg r.1 r.2

/-- The white space `float` and `int` allow around a numeral. The four separators
U+001C to U+001F are white space to `strip` and not to `Py_ISSPACE`. -/
def isNumeralSpace (c : CodePoint) : Bool := isSpace c && !(0x1c ≤ c.val && c.val ≤ 0x1f)

/-- The text without the white space around the numeral. -/
def stripNumeral (s : PyStr) : PyStr := (s.dropWhile isNumeralSpace).rdropWhile isNumeralSpace

/-- `float(s)`, or `none` where it raises `ValueError`. -/
def floatOfText (s : PyStr) : Option PyFloat :=
  (dropUnderscores false ((stripNumeral s).map asciiDigit)).bind fun
    | [] => none
    | c :: rest =>
      if c = 0x2d then readUnsigned true rest
      else if c = 0x2b then readUnsigned false rest
      else readUnsigned false (c :: rest)

/-! ### The shortest digits -/

theorem readsAs_firstReading {a : Magnitude} {j n m k i : ℕ}
    (h : firstReading a j n m = some (k, i)) : readsAs a (k * 10 ^ i) = true := by
  unfold firstReading at h
  split at h
  · next hnear => cases h; exact hnear
  · split at h
    · next hfar => cases h; exact hfar
    · cases h

theorem readsAs_candidate {a : Magnitude} {j n i : ℕ} (h : candidate a j = some (n, i)) :
    readsAs a (n * 10 ^ i) = true := by
  simp only [candidate] at h
  split at h <;> exact readsAs_firstReading h

/-- **The shortest digits read back as the magnitude.** -/
theorem readsAs_shortest (a : Magnitude) :
    readsAs a ((shortest a).1 * 10 ^ (shortest a).2) = true := by
  simp only [shortest]
  cases hfind : (List.range (Nat.digits 10 a.decimalUnits).length).findSome?
      fun k => candidate a ((Nat.digits 10 a.decimalUnits).length - k) with
  | none =>
    have hexact := roundMag_exact a (Nat.pow_pos (n := unitExp) (show 0 < 5 by decide))
    simpa [readsAs, Magnitude.decimalUnits] using hexact
  | some r =>
    obtain ⟨k, -, hk⟩ := List.exists_of_findSome?_eq_some hfind
    exact readsAs_candidate hk

theorem shortest_ne_zero {a : Magnitude} (h : a.mant ≠ 0) : (shortest a).1 ≠ 0 := by
  intro h0
  have hreads := readsAs_shortest a
  rw [h0, Nat.zero_mul, readsAs, decide_eq_true_eq] at hreads
  have hunits := units_of_roundMag hreads
  have hrne : ∀ d, rne 0 d = 0 := fun d => by simp [rne]
  rw [roundedUnits, hrne, Nat.zero_mul, Magnitude.units] at hunits
  exact h ((Nat.mul_eq_zero.mp hunits).resolve_right (Nat.two_pow_pos _).ne')

/-! ### Rows of digits -/

theorem foldl_digits (s : PyStr) (n : ℕ) :
    s.foldl (fun n c => 10 * n + (c.val - 0x30)) n = n * 10 ^ s.length + ofDigits s := by
  induction s generalizing n with
  | nil => simp [ofDigits]
  | cons c s ih =>
    rw [ofDigits, List.foldl_cons, List.foldl_cons, ih, ih (10 * 0 + _), List.length_cons]
    ring

theorem ofDigits_append (s t : PyStr) : ofDigits (s ++ t) = ofDigits s * 10 ^ t.length + ofDigits t := by
  rw [ofDigits, List.foldl_append, foldl_digits]
  rfl

theorem ofDigits_zeros (k : ℕ) : ofDigits (List.replicate k (digit 0)) = 0 := by
  induction k with
  | zero => rfl
  | succ k ih => rw [List.replicate_succ', ofDigits_append_singleton, ih]; rfl

/-- A numeral is its significant digits and some zeros. -/
theorem exists_zeros (n : ℕ) : ∃ z, decimal n = significant n ++ List.replicate z (digit 0) := by
  refine ⟨(List.rtakeWhile (· == digit 0) (decimal n)).length, ?_⟩
  have hsplit := List.rdropWhile_append_rtakeWhile (p := (· == digit 0)) (l := decimal n)
  have hzeros : List.rtakeWhile (· == digit 0) (decimal n) =
      List.replicate (List.rtakeWhile (· == digit 0) (decimal n)).length (digit 0) :=
    List.eq_replicate_of_mem fun c hc => by simpa using List.mem_rtakeWhile_imp hc
  rw [significant, ← hzeros]
  exact hsplit.symm

theorem significant_ne_nil {n : ℕ} (h : n ≠ 0) : significant n ≠ [] := by
  intro hnil
  obtain ⟨z, hz⟩ := exists_zeros n
  have hval := congrArg ofDigits hz
  rw [hnil, List.nil_append, ofDigits_zeros, ofDigits_decimal] at hval
  exact h hval

theorem isDigit_of_mem_significant {n : ℕ} {c : CodePoint} (h : c ∈ significant n) :
    isDigit c = true :=
  isDigit_of_mem_decimal ((List.rdropWhile_prefix _ _).subset h)

theorem isDigit_zero : isDigit (digit 0) = true := by decide

theorem isDigit_of_mem_zeros {k : ℕ} {c : CodePoint} (h : c ∈ List.replicate k (digit 0)) :
    isDigit c = true := by
  rw [List.eq_of_mem_replicate h]
  exact isDigit_zero

/-! ### Reading a layout back -/

section ReadLayout

variable {s t : PyStr}

theorem not_isExponentMark {c : CodePoint} (h : isDigit c = true ∨ c = 0x2e) :
    (!isExponentMark c) = true := by
  rcases h with h | rfl
  · have hne : c ≠ 0x65 ∧ c ≠ 0x45 := by
      constructor <;> rintro rfl <;> exact absurd h (by decide)
    simp [isExponentMark, hne]
  · decide

/-- What `readNumber` makes of a mantissa without an exponent. -/
theorem readNumber_point (hs : ∀ c ∈ s, isDigit c = true) (ht : ∀ c ∈ t, isDigit c = true)
    (hne : s ≠ []) :
    readNumber (s ++ (text "." ++ t)) = some (ofDigits (s ++ t), -(t.length : ℤ)) := by
  have hmarks : ∀ c ∈ s ++ (text "." ++ t), (!isExponentMark c) = true := by
    intro c hc
    apply not_isExponentMark
    rcases List.mem_append.mp hc with hc | hc
    · exact Or.inl (hs c hc)
    · rcases List.mem_append.mp hc with hc | hc
      · exact Or.inr (List.mem_singleton.mp hc)
      · exact Or.inl (ht c hc)
  have hip : (s ++ (text "." ++ t)).takeWhile isDigit = s := by
    rw [List.takeWhile_append_of_pos hs]
    exact List.append_nil s
  have hfp : (s ++ (text "." ++ t)).dropWhile isDigit = text "." ++ t :=
    List.dropWhile_append_of_pos hs
  have hfrac : readFraction (text "." ++ t) = some t :=
    if_pos ⟨rfl, List.all_eq_true.mpr ht⟩
  rw [readNumber, List.takeWhile_eq_self_iff.mpr hmarks, List.dropWhile_eq_nil_iff.mpr hmarks]
  simp only [hip, hfp, hfrac, Option.bind_some, List.append_eq_nil_iff, hne, false_and, if_false]

/-- What `readNumber` makes of a mantissa with an exponent. -/
theorem readNumber_exponent {u ex : PyStr} {e : ℤ} (hs : ∀ c ∈ s, isDigit c = true)
    (hu : ∀ c ∈ u, isDigit c = true) (hne : s ≠ []) (ht : t = [] ∧ u = [] ∨ t = text "." ++ u)
    (hex : readExponent ex = some e) :
    readNumber ((s ++ t) ++ (0x65 :: ex)) = some (ofDigits (s ++ u), e - u.length) := by
  have hmarks : ∀ c ∈ s ++ t, (!isExponentMark c) = true := by
    intro c hc
    apply not_isExponentMark
    rcases List.mem_append.mp hc with hc | hc
    · exact Or.inl (hs c hc)
    · rcases ht with ⟨rfl, -⟩ | rfl
      · cases hc
      · rcases List.mem_append.mp hc with hc | hc
        · exact Or.inr (List.mem_singleton.mp hc)
        · exact Or.inl (hu c hc)
  have hmant : ((s ++ t) ++ (0x65 :: ex)).takeWhile (!isExponentMark ·) = s ++ t := by
    rw [List.takeWhile_append_of_pos hmarks]
    exact List.append_nil _
  have htail : ((s ++ t) ++ (0x65 :: ex)).dropWhile (!isExponentMark ·) = 0x65 :: ex :=
    List.dropWhile_append_of_pos hmarks
  have hip : (s ++ t).takeWhile isDigit = s := by
    rw [List.takeWhile_append_of_pos hs]
    rcases ht with ⟨rfl, -⟩ | rfl <;> exact List.append_nil s
  have hrest : (s ++ t).dropWhile isDigit = t := by
    rw [List.dropWhile_append_of_pos hs]
    rcases ht with ⟨rfl, -⟩ | rfl <;> rfl
  have hfrac : readFraction t = some u := by
    rcases ht with ⟨rfl, rfl⟩ | rfl
    · rfl
    · exact if_pos ⟨rfl, List.all_eq_true.mpr hu⟩
  rw [readNumber, hmant, htail]
  simp only [hip, hrest, hfrac, hex, Option.bind_some, Option.map_some, List.append_eq_nil_iff, hne,
    false_and, if_false]

end ReadLayout

theorem isDigit_of_mem_exponentDigits {n : ℕ} {c : CodePoint} (h : c ∈ exponentDigits n) :
    isDigit c = true := by
  rw [exponentDigits] at h
  split at h
  · rcases List.mem_cons.mp h with rfl | h
    · exact isDigit_zero
    · exact isDigit_of_mem_decimal h
  · exact isDigit_of_mem_decimal h

theorem readDigits_exponentDigits (n : ℕ) : readDigits (exponentDigits n) = some n := by
  have hval : ofDigits (exponentDigits n) = n := by
    rw [exponentDigits]
    split
    · rw [← List.singleton_append, ofDigits_append, ofDigits_decimal]
      simp [show ofDigits [digit 0] = 0 from rfl]
    · exact ofDigits_decimal n
  have hne : exponentDigits n ≠ [] := by
    rw [exponentDigits]
    split
    · simp
    · exact decimal_ne_nil n
  rw [readDigits, if_pos ⟨hne, List.all_eq_true.mpr fun c hc => isDigit_of_mem_exponentDigits hc⟩,
    hval]

/-- The exponent of a layout is read back. -/
theorem readExponent_layout (decpt : ℤ) :
    readExponent ((if decpt ≤ 0 then 0x2d else 0x2b) :: exponentDigits (decpt - 1).natAbs) =
      some (decpt - 1) := by
  split
  · next h =>
    rw [readExponent, if_pos rfl, readDigits_exponentDigits, Option.map_some]
    congr 1
    omega
  · next h =>
    rw [readExponent, if_neg (by decide), if_pos rfl, readDigits_exponentDigits, Option.map_some]
    congr 1
    omega

/-- **A layout is read back as its digits**, with `k` zeros filled in. -/
theorem readNumber_layout {ds : PyStr} (hds : ∀ c ∈ ds, isDigit c = true) (hne : ds ≠ [])
    (decpt : ℤ) :
    ∃ (k : ℕ) (e : ℤ), readNumber (layout ds decpt) = some (ofDigits ds * 10 ^ k, e) ∧
      e + k = decpt - ds.length ∧ (k = 0 ∨ e = -1) := by
  have hlen : 0 < ds.length := List.length_pos_of_ne_nil hne
  have hzeros : ∀ {k : ℕ} {s : PyStr}, (∀ c ∈ s, isDigit c = true) →
      ∀ c ∈ List.replicate k (digit 0) ++ s, isDigit c = true := fun hs c hc =>
    (List.mem_append.mp hc).elim isDigit_of_mem_zeros (hs c)
  rw [layout]
  split
  · next hrange =>
    split
    · next hneg =>
      -- `0.000ds`
      refine ⟨0, decpt - ds.length, ?_, by omega, Or.inl rfl⟩
      have hread := readNumber_point (s := [digit 0]) (t := List.replicate (-decpt).toNat (digit 0) ++ ds)
        (fun c hc => by rw [List.mem_singleton.mp hc]; exact isDigit_zero) (hzeros hds) (by simp)
      have hval : ofDigits ([digit 0] ++ (List.replicate (-decpt).toNat (digit 0) ++ ds)) =
          ofDigits ds := by
        rw [ofDigits_append, ofDigits_append, ofDigits_zeros]
        simp [show ofDigits [digit 0] = 0 from rfl]
      have htext : text "0." ++ (List.replicate (-decpt).toNat (digit 0) ++ ds) =
          [digit 0] ++ (text "." ++ (List.replicate (-decpt).toNat (digit 0) ++ ds)) := rfl
      rw [htext, hread, hval, List.length_append, List.length_replicate, Nat.pow_zero, Nat.mul_one]
      congr 2
      omega
    · next hpos =>
      split
      · next hshort =>
        -- `ds000.0`
        refine ⟨decpt.toNat - ds.length + 1, -1, ?_, by omega, Or.inr rfl⟩
        have hread := readNumber_point (s := ds ++ List.replicate (decpt.toNat - ds.length) (digit 0))
          (t := [digit 0])
          (fun c hc => (List.mem_append.mp hc).elim (hds c) isDigit_of_mem_zeros)
          (fun c hc => by rw [List.mem_singleton.mp hc]; exact isDigit_zero) (by simp [hne])
        have htext : text ".0" = text "." ++ [digit 0] := rfl
        rw [htext, hread, ofDigits_append_singleton, ofDigits_append, ofDigits_zeros,
          List.length_replicate, pow_succ]
        congr 2
        rw [show (digit 0).val - 0x30 = 0 from rfl]
        ring
      · next hlong =>
        -- the point falls among the digits
        refine ⟨0, decpt - ds.length, ?_, by omega, Or.inl rfl⟩
        have hread := readNumber_point (s := ds.take decpt.toNat) (t := ds.drop decpt.toNat)
          (fun c hc => hds c (List.mem_of_mem_take hc)) (fun c hc => hds c (List.mem_of_mem_drop hc))
          (by simp only [ne_eq, List.take_eq_nil_iff, hne, or_false]; omega)
        rw [hread, List.take_append_drop, List.length_drop, Nat.pow_zero, Nat.mul_one]
        congr 2
        omega
  · -- `d.dse+XX`
    refine ⟨0, decpt - ds.length, ?_, by omega, Or.inl rfl⟩
    have hmark : text (if decpt ≤ 0 then "e-" else "e+") ++ exponentDigits (decpt - 1).natAbs =
        0x65 :: (if decpt ≤ 0 then 0x2d else 0x2b) :: exponentDigits (decpt - 1).natAbs := by
      split <;> rfl
    have hread := readNumber_exponent (s := ds.take 1) (u := ds.drop 1)
      (t := if ds.length = 1 then [] else text "." ++ ds.drop 1)
      (fun c hc => hds c (List.mem_of_mem_take hc)) (fun c hc => hds c (List.mem_of_mem_drop hc))
      (by simp [hne])
      (by
        split
        · next h1 => exact Or.inl ⟨rfl, List.drop_eq_nil_iff.mpr h1.le⟩
        · exact Or.inr rfl)
      (readExponent_layout decpt)
    rw [hmark, hread, List.take_append_drop, List.length_drop, Nat.pow_zero, Nat.mul_one]
    congr 2
    omega

/-- **The numeral of a magnitude reads back as it.** -/
theorem readNumber_repr {a : Magnitude} (h : a.mant ≠ 0) (neg : Bool) :
    (readNumber a.repr).map (fun r => PyFloat.ofDecimal neg r.1 r.2) = some (.finite neg a) := by
  have hn := shortest_ne_zero h
  have hreads := readsAs_shortest a
  rw [readsAs, decide_eq_true_eq] at hreads
  obtain ⟨z, hz⟩ := exists_zeros (shortest a).1
  have hlen := congrArg List.length hz
  rw [List.length_append, List.length_replicate] at hlen
  obtain ⟨k, e, hread, hsum, hk⟩ := readNumber_layout
    (fun c hc => isDigit_of_mem_significant hc) (significant_ne_nil hn)
    ((decimal (shortest a).1).length + (shortest a).2 - unitExp)
  have hnonneg : 0 ≤ e + unitExp := by
    have hunit : 1 ≤ unitExp := by decide +kernel
    omega
  have hexp : k + (e + unitExp).toNat = z + (shortest a).2 := by omega
  have hunits : ofDigits (significant (shortest a).1) * 10 ^ k * 10 ^ (e + unitExp).toNat =
      (shortest a).1 * 10 ^ (shortest a).2 := by
    have hval := congrArg ofDigits hz
    rw [ofDigits_append, ofDigits_zeros, ofDigits_decimal, List.length_replicate, Nat.add_zero] at hval
    calc ofDigits (significant (shortest a).1) * 10 ^ k * 10 ^ (e + unitExp).toNat
        = ofDigits (significant (shortest a).1) * 10 ^ (k + (e + unitExp).toNat) := by
          rw [Nat.mul_assoc, ← Nat.pow_add]
      _ = ofDigits (significant (shortest a).1) * 10 ^ z * 10 ^ (shortest a).2 := by
          rw [hexp, Nat.pow_add, Nat.mul_assoc]
      _ = (shortest a).1 * 10 ^ (shortest a).2 := by rw [← hval]
  rw [Magnitude.repr, hread, Option.map_some, PyFloat.ofDecimal, if_pos hnonneg, hunits,
    PyFloat.ofRatio, hreads]

/-! ### The characters of a numeral -/

/-- The characters `repr` writes. -/
def floatChars : PyStr := text "0123456789.e+-nanif"

theorem mem_floatChars_of_all {w : PyStr} (h : w.all floatChars.contains = true) :
    ∀ c ∈ w, c ∈ floatChars := by
  simpa using h

theorem mem_floatChars_of_isDigit {c : CodePoint} (h : isDigit c = true) : c ∈ floatChars := by
  simp only [isDigit, Bool.and_eq_true, decide_eq_true_eq] at h
  have hdigits : ∀ d : Fin 10, digit d.val ∈ floatChars := by decide
  have hc : digit (c.val - 0x30) = c := by
    apply Fin.ext
    rw [digit_val (by omega)]
    omega
  exact hc ▸ hdigits ⟨c.val - 0x30, by omega⟩

theorem mem_floatChars_layout {ds : PyStr} (hds : ∀ c ∈ ds, isDigit c = true) (decpt : ℤ) :
    ∀ c ∈ layout ds decpt, c ∈ floatChars := by
  have htake : ∀ {k : ℕ} {c : CodePoint}, c ∈ ds.take k → c ∈ floatChars := fun hc =>
    mem_floatChars_of_isDigit (hds _ (List.mem_of_mem_take hc))
  have hdrop : ∀ {k : ℕ} {c : CodePoint}, c ∈ ds.drop k → c ∈ floatChars := fun hc =>
    mem_floatChars_of_isDigit (hds _ (List.mem_of_mem_drop hc))
  have hzero : ∀ {k : ℕ} {c : CodePoint}, c ∈ List.replicate k (digit 0) → c ∈ floatChars := fun hc =>
    mem_floatChars_of_isDigit (isDigit_of_mem_zeros hc)
  have hpoint := mem_floatChars_of_all (w := text ".") (by decide)
  have hstart := mem_floatChars_of_all (w := text "0.") (by decide)
  have hend := mem_floatChars_of_all (w := text ".0") (by decide)
  have hmark : ∀ c ∈ text (if decpt ≤ 0 then "e-" else "e+"), c ∈ floatChars := by
    split <;> exact mem_floatChars_of_all (by decide)
  intro c hc
  rw [layout] at hc
  split at hc
  · split at hc
    · rcases List.mem_append.mp hc with hc | hc
      · exact hstart c hc
      · exact (List.mem_append.mp hc).elim hzero fun hc => mem_floatChars_of_isDigit (hds c hc)
    · split at hc
      · rcases List.mem_append.mp hc with hc | hc
        · exact (List.mem_append.mp hc).elim (fun hc => mem_floatChars_of_isDigit (hds c hc)) hzero
        · exact hend c hc
      · rcases List.mem_append.mp hc with hc | hc
        · exact htake hc
        · exact (List.mem_append.mp hc).elim (hpoint c) hdrop
  · rcases List.mem_append.mp hc with hc | hc
    · rcases List.mem_append.mp hc with hc | hc
      · exact htake hc
      · split at hc
        · cases hc
        · exact (List.mem_append.mp hc).elim (hpoint c) hdrop
    · rcases List.mem_append.mp hc with hc | hc
      · exact hmark c hc
      · exact mem_floatChars_of_isDigit (isDigit_of_mem_exponentDigits hc)

/-- **Every character of a numeral is one of a few.** -/
theorem mem_floatChars_of_mem_repr {x : PyFloat} : ∀ c ∈ x.repr, c ∈ floatChars := by
  cases x with
  | nan => exact mem_floatChars_of_all (by decide)
  | inf neg => cases neg <;> exact mem_floatChars_of_all (by decide)
  | finite neg a =>
    have hsign : ∀ c ∈ (if neg then text "-" else []), c ∈ floatChars := by
      cases neg <;> exact mem_floatChars_of_all (by decide)
    have hzero := mem_floatChars_of_all (w := text "0.0") (by decide)
    intro c hc
    rcases List.mem_append.mp hc with hc | hc
    · exact hsign c hc
    · split at hc
      · exact hzero c hc
      · exact mem_floatChars_layout (fun c hc => isDigit_of_mem_significant hc) _ c hc

/-! ### Reading a numeral back -/

/-- On the characters of a numeral the clean-up does nothing. -/
theorem floatChars_spec : ∀ c ∈ floatChars,
    isSpace c = false ∧ asciiDigit c = c ∧ c ≠ 0x5f := by
  have hall : floatChars.all (fun c => !isSpace c && asciiDigit c == c && c != 0x5f) = true := by
    decide
  intro c hc
  simpa [and_assoc] using List.all_eq_true.mp hall c hc

theorem stripNumeral_eq_self {s : PyStr} (h : ∀ c ∈ s, isSpace c = false) :
    stripNumeral s = s := by
  have hno : ∀ c ∈ s, isNumeralSpace c = false := fun c hc => by simp [isNumeralSpace, h c hc]
  have hdrop : s.dropWhile isNumeralSpace = s := by
    cases s with
    | nil => rfl
    | cons c s => exact List.dropWhile_cons_of_neg (by simp [hno c (.head _)])
  rw [stripNumeral, hdrop, List.rdropWhile_eq_self_iff]
  intro hne
  simp [hno _ (List.getLast_mem hne)]

theorem dropUnderscores_eq_self {s : PyStr} (h : ∀ c ∈ s, c ≠ 0x5f) (prev : Bool) :
    dropUnderscores prev s = some s := by
  induction s generalizing prev with
  | nil => rfl
  | cons c s ih =>
    rw [dropUnderscores, if_neg (h c (.head _)), ih fun d hd => h d (.tail _ hd)]
    rfl

/-- A numeral reaches the sign unchanged. -/
theorem floatOfText_eq {s : PyStr} (h : ∀ c ∈ s, c ∈ floatChars) (hne : s ≠ []) :
    floatOfText s = if s.head? = some 0x2d then readUnsigned true s.tail
      else if s.head? = some 0x2b then readUnsigned false s.tail else readUnsigned false s := by
  have hstrip := stripNumeral_eq_self fun c hc => (floatChars_spec c (h c hc)).1
  have hascii : s.map asciiDigit = s :=
    (List.map_congr_left fun c hc => (floatChars_spec c (h c hc)).2.1).trans (List.map_id _)
  have hunder := dropUnderscores_eq_self (fun c hc => (floatChars_spec c (h c hc)).2.2) false
  rw [floatOfText, hstrip, hascii, hunder, Option.bind_some]
  cases s with
  | nil => exact absurd rfl hne
  | cons c s => simp

/-- A numeral that starts with a digit is no name. -/
theorem readUnsigned_of_digit {s : PyStr} {c : CodePoint} (h : s.head? = some c)
    (hc : isDigit c = true) (neg : Bool) :
    readUnsigned neg s = (readNumber s).map fun r => .ofDecimal neg r.1 r.2 := by
  have hne : ∀ {w : PyStr}, w.head?.any isDigit = false → s.map lower ≠ w := by
    rintro w hw rfl
    have hlower : lower c = c := by
      simp only [isDigit, Bool.and_eq_true, decide_eq_true_eq] at hc
      rw [lower, if_neg (by omega)]
    rw [List.head?_map, h, Option.map_some, hlower, Option.any_some, hc] at hw
    cases hw
  rw [readUnsigned, if_neg, if_neg (hne (by decide))]
  exact not_or.mpr ⟨hne (by decide), hne (by decide)⟩

theorem head_layout {ds : PyStr} (hds : ∀ c ∈ ds, isDigit c = true) (hne : ds ≠ []) (decpt : ℤ) :
    ∃ c, (layout ds decpt).head? = some c ∧ isDigit c = true := by
  obtain ⟨d, ds, rfl⟩ := List.exists_cons_of_ne_nil hne
  have hd := hds d (.head _)
  rw [layout]
  split
  · split
    · exact ⟨digit 0, rfl, isDigit_zero⟩
    · split
      · exact ⟨d, rfl, hd⟩
      · next hpos _ =>
        obtain ⟨n, hn⟩ : ∃ n, decpt.toNat = n + 1 := ⟨decpt.toNat - 1, by omega⟩
        exact ⟨d, by rw [hn]; rfl, hd⟩
  · exact ⟨d, rfl, hd⟩

/-- **`float(repr(x))` is `x`.** -/
theorem floatOfText_repr (x : PyFloat) : floatOfText x.repr = some x := by
  have hchars : ∀ c ∈ x.repr, c ∈ floatChars := mem_floatChars_of_mem_repr
  cases x with
  | nan => decide
  | inf neg => cases neg <;> decide
  | finite neg a =>
    by_cases h0 : a.mant = 0
    · obtain rfl := Magnitude.eq_zero h0
      cases neg <;> decide +kernel
    · obtain ⟨c, hhead, hc⟩ := head_layout (fun c hc => isDigit_of_mem_significant hc)
        (significant_ne_nil (shortest_ne_zero h0))
        ((decimal (shortest a).1).length + (shortest a).2 - unitExp)
      have hhead : a.repr.head? = some c := hhead
      have hne : a.repr ≠ [] := by rintro h; rw [h] at hhead; cases hhead
      have hsign : c ≠ 0x2d ∧ c ≠ 0x2b := by
        constructor <;> rintro rfl <;> exact absurd hc (by decide)
      cases neg with
      | true =>
        have hrepr : PyFloat.repr (.finite true a) = 0x2d :: a.repr := by
          rw [PyFloat.repr, if_pos rfl, if_neg h0]
          rfl
        rw [hrepr] at hchars ⊢
        rw [floatOfText_eq hchars (by simp), List.head?_cons, if_pos rfl, List.tail_cons,
          readUnsigned_of_digit hhead hc, readNumber_repr h0]
      | false =>
        have hrepr : PyFloat.repr (.finite false a) = a.repr := by
          rw [PyFloat.repr, if_neg (by decide), if_neg h0, List.nil_append]
        rw [hrepr] at hchars ⊢
        rw [floatOfText_eq hchars hne, hhead, if_neg (by simpa using hsign.1),
          if_neg (by simpa using hsign.2), readUnsigned_of_digit hhead hc, readNumber_repr h0]

/-- **The text of a float determines it.** -/
theorem repr_injective : Function.Injective PyFloat.repr := fun x y h => by
  have hx := floatOfText_repr x
  rw [h, floatOfText_repr] at hx
  exact (Option.some.inj hx).symm

end Python
end SovereignSeed
