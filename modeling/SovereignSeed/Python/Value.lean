import SovereignSeed.Python.FloatText

/-!
# Python values

What a parsed header can hold, and the conversions `str` and `float`, which can
raise.  A block of conversions ends at the first one that does.

## Main definitions

* `PyValue`, `Dict` — the values, and the `dict`s over them; `Dict.has`, `Dict.get`,
  `Dict.insert`.
* `PyValue.castStr`, `PyValue.toFloat` — `str(v)` and `float(v)`; `PyValue.toStr` is
  the text where there is one.
* `Conversion`, `firstRaised` — the conversions of a `dict`, and what they raise.

## Main results

* `toStr_injective_of_isNumber` — **a number is determined by its text.**
* `castStr_of_isNumber` — a number that is a float has a text.
-/

namespace SovereignSeed
namespace Python

/-- The exceptions of the conversions. -/
inductive PyError
  | valueError
  | typeError
  | overflowError
  | recursionError
  deriving DecidableEq

/-- A value of a header; `other` is an object of another type — an array, an
object — by what `str` and `float` make of it: the text of one that is nested
too deep is a `RecursionError`. -/
inductive PyValue
  | none
  | bool (b : Bool)
  | int (n : ℤ)
  | float (x : PyFloat)
  | str (s : PyStr)
  | other (shown : Except PyError PyStr) (number : Except PyError PyFloat)
  deriving DecidableEq

/-- A `dict` with `str` keys. -/
abbrev Dict := List (PyStr × PyValue)

/-- `k in d`. -/
def Dict.has (d : Dict) (k : String) : Bool := (d.lookup (text k)).isSome

/-- `d[k]`, for a key of `d`. -/
def Dict.get (d : Dict) (k : String) : PyValue := (d.lookup (text k)).getD .none

/-- None of the fields is missing. -/
theorem missing_eq_nil_iff {d : Dict} {fields : List String} :
    (fields.filter fun f => !d.has f) = [] ↔ ∀ f ∈ fields, d.has f = true := by
  simp [List.filter_eq_nil_iff]

/-- Some field is missing. -/
theorem missing_ne_nil_iff {d : Dict} {fields : List String} :
    (fields.filter fun f => !d.has f) ≠ [] ↔ ∃ f ∈ fields, d.has f = false := by
  simp [List.filter_eq_nil_iff]

/-- The text of a value, where it has one. -/
def PyValue.toStr : PyValue → PyStr
  | .none => text "None"
  | .bool b => if b then text "True" else text "False"
  | .int n => decimalInt n
  | .float x => x.repr
  | .str s => s
  | .other shown _ => shown.toOption.getD []

/-- The number of digits up to which `str(int)` is defined. -/
@[irreducible] def maxStrDigits : ℕ := 4300

/-- Numbers of 64 bits have few enough digits. -/
theorem pow_twenty_le : (10 : ℕ) ^ 20 ≤ 10 ^ maxStrDigits := by
  have hdigits : 20 ≤ maxStrDigits := by
    rw [maxStrDigits]
    decide
  exact Nat.pow_le_pow_right (by decide) hdigits

theorem natAbs_toInt_lt (x : Int64) : x.toInt.natAbs < 10 ^ maxStrDigits := by
  have hlt := x.toInt_lt
  have hle := x.le_toInt
  have hpow := pow_twenty_le
  omega

/-- `str(v)`. -/
def PyValue.castStr : PyValue → Except PyError PyStr
  | .int n => if 10 ^ maxStrDigits ≤ n.natAbs then .error .valueError else .ok (decimalInt n)
  | .other shown _ => shown
  | v => .ok v.toStr

/-- `float(v)`. -/
def PyValue.toFloat : PyValue → Except PyError PyFloat
  | .none => .error .typeError
  | .bool b => (PyFloat.ofInt (if b then 1 else 0)).elim (.error .overflowError) .ok
  | .int n => (PyFloat.ofInt n).elim (.error .overflowError) .ok
  | .float x => .ok x
  | .str s => (floatOfText s).elim (.error .valueError) .ok
  | .other _ number => number

/-! ### One more field -/

/-- `{**d, k: v}`. -/
def Dict.insert (d : Dict) (k : String) (v : PyValue) : Dict :=
  (text k, v) :: d.filter fun m => m.1 ≠ text k

section Insert

variable {d : Dict} {k k' : String} {v : PyValue}

theorem Dict.lookup_insert_self : (d.insert k v).lookup (text k) = some v := by
  simp [Dict.insert]

theorem Dict.lookup_filter_of_ne (h : text k' ≠ text k) :
    (d.filter fun m => m.1 ≠ text k).lookup (text k') = d.lookup (text k') := by
  induction d with
  | nil => rfl
  | cons m d ih =>
    obtain ⟨key, value⟩ := m
    by_cases hkey : key = text k
    · subst hkey
      rw [List.filter_cons_of_neg (by simp), List.lookup_cons, beq_false_of_ne h]
      exact ih
    · rw [List.filter_cons_of_pos (by simpa using hkey), List.lookup_cons, List.lookup_cons, ih]

theorem Dict.lookup_insert_of_ne (h : text k' ≠ text k) :
    (d.insert k v).lookup (text k') = d.lookup (text k') := by
  rw [Dict.insert, List.lookup_cons, beq_false_of_ne h]
  exact Dict.lookup_filter_of_ne h

end Insert

/-! ### Conversions -/

/-- A conversion of a field: `str(d[k])` or `float(d[k])`. -/
inductive Conversion
  | str (k : String)
  | float (k : String)

/-- What a conversion raises, if anything. -/
def Conversion.raises (d : Dict) : Conversion → Option PyError
  | .str k => match (d.get k).castStr with
    | .ok _ => none
    | .error e => some e
  | .float k => match (d.get k).toFloat with
    | .ok _ => none
    | .error e => some e

/-- What a block of conversions raises: the exception of the first that does. -/
def firstRaised (d : Dict) (cs : List Conversion) : Option PyError :=
  cs.findSome? (Conversion.raises d)

section Blocks

variable {ε α β : Type} {x : Except ε α} {f : α → Except ε β} {d : Dict} {cs : List Conversion}
  {k : String} {e : PyError}

theorem bind_eq_ok_iff {b : β} : x >>= f = .ok b ↔ ∃ a, x = .ok a ∧ f a = .ok b := by
  constructor
  · intro h
    cases x with
    | error e => cases h
    | ok a => exact ⟨a, rfl, h⟩
  · rintro ⟨a, rfl, h⟩
    exact h

theorem bind_eq_error_iff {e : ε} :
    x >>= f = .error e ↔ x = .error e ∨ ∃ a, x = .ok a ∧ f a = .error e := by
  constructor
  · intro h
    cases x with
    | error e' =>
      cases h
      exact .inl rfl
    | ok a => exact .inr ⟨a, rfl, h⟩
  · rintro (rfl | ⟨a, rfl, h⟩)
    · rfl
    · exact h

theorem firstRaised_nil : firstRaised d [] = some e ↔ False := by
  simp [firstRaised]

theorem firstRaised_str : firstRaised d (.str k :: cs) = some e ↔
    (d.get k).castStr = .error e ∨ ∃ s, (d.get k).castStr = .ok s ∧ firstRaised d cs = some e := by
  rw [firstRaised, List.findSome?_cons, Conversion.raises]
  cases (d.get k).castStr <;> simp [firstRaised]

theorem firstRaised_float : firstRaised d (.float k :: cs) = some e ↔
    (d.get k).toFloat = .error e ∨ ∃ x, (d.get k).toFloat = .ok x ∧ firstRaised d cs = some e := by
  rw [firstRaised, List.findSome?_cons, Conversion.raises]
  cases (d.get k).toFloat <;> simp [firstRaised]

end Blocks

/-! ### Numbers and their texts -/

/-- `isinstance(v, (int, float))`; a `bool` is an `int`. -/
def PyValue.isNumber : PyValue → Bool
  | .bool _ => true
  | .int _ => true
  | .float _ => true
  | _ => false

/-- An integer that is a float has a text. -/
theorem natAbs_lt_of_ofInt {n : ℤ} {x : PyFloat} (h : PyFloat.ofInt n = some x) :
    n.natAbs < 10 ^ maxStrDigits := by
  obtain ⟨a, ha, -⟩ := Option.map_eq_some_iff.mp h
  have hunit : n.natAbs ≤ n.natAbs * 2 ^ unitExp := Nat.le_mul_of_pos_right _ (Nat.two_pow_pos _)
  have hexp : 53 + maxExp ≤ 3 * maxStrDigits := by decide +kernel
  have hpow : 2 ^ (3 * maxStrDigits) ≤ 10 ^ maxStrDigits := by
    rw [Nat.pow_mul]
    exact Nat.pow_le_pow_left (by decide) maxStrDigits
  calc n.natAbs ≤ n.natAbs * 2 ^ unitExp := hunit
    _ < 2 ^ (53 + maxExp) := lt_of_roundMag ha
    _ ≤ 2 ^ (3 * maxStrDigits) := Nat.pow_le_pow_right (by decide) hexp
    _ ≤ 10 ^ maxStrDigits := hpow

/-- **A number that is a float has a text.** -/
theorem castStr_of_isNumber {v : PyValue} {x : PyFloat} (hv : v.isNumber = true)
    (h : v.toFloat = .ok x) : v.castStr = .ok v.toStr := by
  cases v with
  | bool b => rfl
  | int n =>
    have hlt : n.natAbs < 10 ^ maxStrDigits := by
      cases hn : PyFloat.ofInt n with
      | none =>
        rw [PyValue.toFloat, hn] at h
        cases h
      | some y => exact natAbs_lt_of_ofInt hn
    rw [PyValue.castStr, if_neg (Nat.not_le_of_lt hlt)]
    rfl
  | float x => rfl
  | none => cases hv
  | str s => cases hv
  | other s => cases hv

/-- The numeral of a float is no numeral of an integer: it has a point, an
exponent or a word in it. -/
theorem exists_not_digit_mem_repr (x : PyFloat) :
    ∃ c ∈ x.repr, c ≠ 0x2d ∧ isDigit c = false := by
  have hlayout : ∀ ds decpt, ∃ c ∈ layout ds decpt, c ≠ 0x2d ∧ isDigit c = false := by
    intro ds decpt
    have hpoint : (0x2e : CodePoint) ≠ 0x2d ∧ isDigit 0x2e = false := by decide
    unfold layout
    split
    · refine ⟨0x2e, ?_, hpoint⟩
      split
      · exact List.mem_append_left _ (by decide)
      · split
        · exact List.mem_append_right _ (by decide)
        · exact List.mem_append_right _ (List.mem_append_left _ (by decide))
    · refine ⟨0x65, List.mem_append_right _ (List.mem_append_left _ ?_), by decide⟩
      split <;> decide
  cases x with
  | nan => exact ⟨0x6e, by decide, by decide⟩
  | inf neg => exact ⟨0x6e, by cases neg <;> decide, by decide⟩
  | finite neg a =>
    obtain ⟨c, hc, hne⟩ : ∃ c ∈ (if a.mant = 0 then text "0.0" else a.repr),
        c ≠ 0x2d ∧ isDigit c = false := by
      split
      · exact ⟨0x2e, by decide, by decide⟩
      · exact hlayout _ _
    exact ⟨c, List.mem_append_right _ hc, hne⟩

theorem mem_decimalInt {n : ℤ} {c : CodePoint} (h : c ∈ decimalInt n) :
    c = 0x2d ∨ isDigit c = true := by
  unfold decimalInt at h
  split at h
  · rcases List.mem_append.mp h with h | h
    · exact .inl (List.mem_singleton.mp h)
    · exact .inr (isDigit_of_mem_decimal h)
  · exact .inr (isDigit_of_mem_decimal h)

/-- The characters of a number's text. -/
theorem mem_floatChars_of_mem_toStr {v : PyValue} (hv : v.isNumber = true) :
    (∃ b, v = .bool b) ∨ ∀ c ∈ v.toStr, c ∈ floatChars := by
  cases v with
  | bool b => exact .inl ⟨b, rfl⟩
  | int n =>
    right
    intro c hc
    rcases mem_decimalInt hc with rfl | hd
    · decide
    · exact mem_floatChars_of_isDigit hd
  | float x => exact .inr mem_floatChars_of_mem_repr
  | none => cases hv
  | str s => cases hv
  | other s => cases hv

/-- **A number is determined by its text.** -/
theorem toStr_injective_of_isNumber {v w : PyValue} (hv : v.isNumber = true)
    (hw : w.isNumber = true) (h : v.toStr = w.toStr) : v = w := by
  -- a float against an integer, a truth value against either
  have hint : ∀ n x, (PyValue.int n).toStr ≠ (PyValue.float x).toStr := by
    intro n x heq
    obtain ⟨c, hc, hne, hd⟩ := exists_not_digit_mem_repr x
    have hmem : c ∈ decimalInt n := by
      rw [show decimalInt n = x.repr from heq]
      exact hc
    rcases mem_decimalInt hmem with rfl | hd'
    · exact hne rfl
    · rw [hd] at hd'; cases hd'
  have hbool : ∀ (b : Bool) {u : PyValue}, (∀ c ∈ u.toStr, c ∈ floatChars) →
      (PyValue.bool b).toStr ≠ u.toStr := by
    intro b u hu heq
    have hmem : ∀ b : Bool, (0x75 : CodePoint) ∈ (PyValue.bool b).toStr ∨
        (0x6c : CodePoint) ∈ (PyValue.bool b).toStr := by decide
    rcases hmem b with hm | hm
    · exact absurd (hu _ (heq ▸ hm)) (by decide)
    · exact absurd (hu _ (heq ▸ hm)) (by decide)
  rcases mem_floatChars_of_mem_toStr hv with ⟨b, rfl⟩ | hv' <;>
    rcases mem_floatChars_of_mem_toStr hw with ⟨b', rfl⟩ | hw'
  · revert h
    cases b <;> cases b' <;> decide
  · exact absurd h (hbool b hw')
  · exact absurd h.symm (hbool b' hv')
  cases v with
  | int m =>
    cases w with
    | int n => rw [decimalInt_injective h]
    | float x => exact absurd h (hint m x)
    | bool b => exact absurd h.symm (hbool b hv')
    | none => cases hw
    | str s => cases hw
    | other s => cases hw
  | float x =>
    cases w with
    | int n => exact absurd h.symm (hint n x)
    | float y => rw [repr_injective h]
    | bool b => exact absurd h.symm (hbool b hv')
    | none => cases hw
    | str s => cases hw
    | other s => cases hw
  | bool b => exact absurd h (hbool b hw')
  | none => cases hv
  | str s => cases hv
  | other s => cases hv

end Python
end SovereignSeed
