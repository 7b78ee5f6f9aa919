import Mathlib.Data.List.DropRight
import Mathlib.Data.List.Infix
import Mathlib.Data.Nat.Digits.Defs

/-!
# Python text

A `str` is a sequence of code points, lone surrogates included; `bytes` is a
sequence of octets.  Only what the programs ask of the two is here: `strip`,
decimal numerals, and the UTF-8 codec, which refuses surrogates and is injective
on what it accepts.

## Main definitions

* `PyStr`, `Bytes` — the two types; `text` reads a literal.
* `strip` — `str.strip()`, over the Unicode white space of `str.isspace`.
* `decimal`, `decimalInt` — `str(int)`.
* `encode` — `str.encode("utf-8")`, or `none` where it raises.

## Main results

* `utf8_injective`, `encode_injective` — the encoding determines the text.
* `decimal_injective` — a numeral determines its number.
-/

namespace SovereignSeed
namespace Python

/-- A code point of a `str`; the surrogates are code points too. -/
abbrev CodePoint := Fin 0x110000

instance neZero_codePoints : NeZero (0x110000 : ℕ) := ⟨by decide⟩

/-- A `str`. -/
abbrev PyStr := List CodePoint

/-- A `bytes`. -/
abbrev Bytes := List UInt8

/-- An ASCII literal: its bytes are its code points. -/
def text (s : String) : PyStr := s.toUTF8.data.toList.map fun b => Fin.ofNat 0x110000 b.toNat

/-! ### White space -/

/-- `str.isspace` of a single character. -/
def isSpace (c : CodePoint) : Bool :=
  (0x09 ≤ c.val && c.val ≤ 0x0d) || (0x1c ≤ c.val && c.val ≤ 0x20) || c.val == 0x85 ||
    c.val == 0xa0 || c.val == 0x1680 || (0x2000 ≤ c.val && c.val ≤ 0x200a) || c.val == 0x2028 ||
    c.val == 0x2029 || c.val == 0x202f || c.val == 0x205f || c.val == 0x3000

/-- `s.strip()`. -/
def strip (s : PyStr) : PyStr := (s.dropWhile isSpace).rdropWhile isSpace

theorem strip_sublist (s : PyStr) : (strip s).Sublist s :=
  (List.rdropWhile_prefix _ _).sublist.trans (List.dropWhile_suffix _).sublist

/-! ### Surrogates -/

/-- The first half of a surrogate pair. -/
def isHigh (c : CodePoint) : Bool := 0xd800 ≤ c.val && c.val < 0xdc00

/-- The second half of a surrogate pair. -/
def isLow (c : CodePoint) : Bool := 0xdc00 ≤ c.val && c.val < 0xe000

/-- A surrogate is no character: UTF-8 has no form for it. -/
def isSurrogate (c : CodePoint) : Bool := isHigh c || isLow c

/-! ### Numerals -/

/-- The digit `d`, at most nine. -/
def digit (d : ℕ) : CodePoint := Fin.ofNat 0x110000 (0x30 + d)

/-- `str(n)` of a natural number. -/
def decimal (n : ℕ) : PyStr :=
  if n = 0 then [digit 0] else (Nat.digits 10 n).reverse.map digit

/-- `str(n)` of an integer. -/
def decimalInt (n : ℤ) : PyStr := if n < 0 then text "-" ++ decimal n.natAbs else decimal n.natAbs

/-- The digits `0` to `9`. -/
def isDigit (c : CodePoint) : Bool := 0x30 ≤ c.val && c.val ≤ 0x39

/-- The number a row of digits stands for. -/
def ofDigits (s : PyStr) : ℕ := s.foldl (fun n c => 10 * n + (c.val - 0x30)) 0

theorem digit_val {d : ℕ} (h : d < 10) : (digit d).val = 0x30 + d := by
  rw [digit, Fin.val_ofNat, Nat.mod_eq_of_lt (by omega)]

theorem isDigit_digit {d : ℕ} (h : d < 10) : isDigit (digit d) = true := by
  simp only [isDigit, digit_val h, Bool.and_eq_true, decide_eq_true_eq]
  omega

theorem ofDigits_append_singleton (s : PyStr) (c : CodePoint) :
    ofDigits (s ++ [c]) = 10 * ofDigits s + (c.val - 0x30) := by
  rw [ofDigits, List.foldl_append]
  rfl

/-- Reading a row of digits back. -/
theorem ofDigits_map_digit (ds : List ℕ) (h : ∀ d ∈ ds, d < 10) :
    ofDigits (ds.reverse.map digit) = Nat.ofDigits 10 ds := by
  induction ds with
  | nil => rfl
  | cons d ds ih =>
    have hd : d < 10 := h d (.head _)
    rw [List.reverse_cons, List.map_append, List.map_singleton, ofDigits_append_singleton,
      ih fun e he => h e (.tail _ he), Nat.ofDigits_cons, digit_val hd]
    omega

/-- **A numeral is read back as its number.** -/
@[simp] theorem ofDigits_decimal (n : ℕ) : ofDigits (decimal n) = n := by
  rw [decimal]
  split
  · next h => subst h; rfl
  · rw [ofDigits_map_digit _ fun d hd => Nat.digits_lt_base (by decide) hd, Nat.ofDigits_digits]

theorem decimal_injective : Function.Injective decimal := fun m n h => by
  rw [← ofDigits_decimal m, h, ofDigits_decimal]

theorem isDigit_of_mem_decimal {n : ℕ} {c : CodePoint} (h : c ∈ decimal n) : isDigit c = true := by
  rw [decimal] at h
  split at h
  · rw [List.mem_singleton.mp h]
    exact isDigit_digit (by decide)
  · obtain ⟨d, hd, rfl⟩ := List.mem_map.mp h
    exact isDigit_digit (Nat.digits_lt_base (by decide) (List.mem_reverse.mp hd))

theorem decimal_ne_nil (n : ℕ) : decimal n ≠ [] := by
  rw [decimal]
  split
  · simp
  · next h => simpa [Nat.digits_eq_nil_iff_eq_zero] using h

/-- The sign of an integer is read off its numeral. -/
theorem decimalInt_injective : Function.Injective decimalInt := by
  have hsign : ∀ m n : ℕ, text "-" ++ decimal m ≠ decimal n := by
    intro m n h
    have hmem : (45 : CodePoint) ∈ decimal n := by rw [← h]; exact List.mem_append_left _ (by decide)
    exact absurd (isDigit_of_mem_decimal hmem) (by decide)
  intro m n h
  simp only [decimalInt] at h
  split at h <;> split at h
  · have := decimal_injective (List.append_cancel_left h)
    omega
  · exact absurd h (hsign _ _)
  · exact absurd h.symm (hsign _ _)
  · have := decimal_injective h
    omega

/-! ### UTF-8 -/

/-- The octets of one code point, as numbers. -/
def utf8Units (c : ℕ) : List ℕ :=
  if c < 0x80 then [c]
  else if c < 0x800 then [0xc0 + c / 64, 0x80 + c % 64]
  else if c < 0x10000 then [0xe0 + c / 64 / 64, 0x80 + c / 64 % 64, 0x80 + c % 64]
  else [0xf0 + c / 64 / 64 / 64, 0x80 + c / 64 / 64 % 64, 0x80 + c / 64 % 64, 0x80 + c % 64]

/-- The UTF-8 form of a text without surrogates. -/
def utf8 (s : PyStr) : Bytes := (s.flatMap fun c => utf8Units c.val).map UInt8.ofNat

/-- `s.encode("utf-8")`, or `none` where it raises `UnicodeEncodeError`. -/
def encode (s : PyStr) : Option Bytes := if s.any isSurrogate then none else some (utf8 s)

/-- No octet sequence begins with the forms of two code points. -/
theorem utf8Units_append_inj {c d : ℕ} {l m : List ℕ} (hc : c < 0x110000) (hd : d < 0x110000)
    (h : utf8Units c ++ l = utf8Units d ++ m) : c = d ∧ l = m := by
  unfold utf8Units at h
  -- the first octet tells how many there are, so only equal ranges remain
  split at h <;> split at h <;> (try split at h) <;> (try split at h) <;> (try split at h) <;>
    (try split at h) <;> simp only [List.cons_append, List.nil_append, List.cons.injEq] at h
  all_goals first
    | exact absurd h.1 (by omega)
    | exact ⟨h.1, h.2⟩
    | exact ⟨by omega, h.2.2⟩
    | exact ⟨by omega, h.2.2.2⟩
    | exact ⟨by omega, h.2.2.2.2⟩

theorem utf8Units_lt {c : ℕ} (hc : c < 0x110000) : ∀ u ∈ utf8Units c, u < 256 := by
  unfold utf8Units
  split
  · simp only [List.mem_singleton]; omega
  split
  · simp only [List.mem_cons, List.not_mem_nil, or_false]; omega
  split
  · simp only [List.mem_cons, List.not_mem_nil, or_false]; omega
  · simp only [List.mem_cons, List.not_mem_nil, or_false]; omega

theorem utf8Units_ne_nil (c : ℕ) : utf8Units c ≠ [] := by
  unfold utf8Units
  split <;> [simp; split <;> [simp; split <;> simp]]

/-- The octets as numbers determine the text. -/
theorem flatMap_units_injective : ∀ {s t : PyStr},
    (s.flatMap fun c => utf8Units c.val) = (t.flatMap fun c => utf8Units c.val) → s = t := by
  intro s
  induction s with
  | nil =>
    intro t h
    cases t with
    | nil => rfl
    | cons d t =>
      simp only [List.flatMap_nil, List.flatMap_cons] at h
      exact absurd (List.append_eq_nil_iff.mp h.symm).1 (utf8Units_ne_nil _)
  | cons c s ih =>
    intro t h
    cases t with
    | nil =>
      simp only [List.flatMap_nil, List.flatMap_cons] at h
      exact absurd (List.append_eq_nil_iff.mp h).1 (utf8Units_ne_nil _)
    | cons d t =>
      simp only [List.flatMap_cons] at h
      obtain ⟨hcd, hrest⟩ := utf8Units_append_inj c.isLt d.isLt h
      rw [Fin.ext hcd, ih hrest]

/-- **The UTF-8 form determines the text.** -/
theorem utf8_injective : Function.Injective utf8 := by
  intro s t h
  apply flatMap_units_injective
  have hunits : ∀ s : PyStr, (utf8 s).map UInt8.toNat = s.flatMap fun c => utf8Units c.val := by
    intro s
    rw [utf8, List.map_map]
    refine (List.map_congr_left fun u hu => ?_).trans (List.map_id _)
    obtain ⟨c, -, hc⟩ := List.mem_flatMap.mp hu
    exact UInt8.toNat_ofNat_of_lt' (utf8Units_lt c.isLt u hc)
  rw [← hunits, ← hunits, h]

theorem encode_injective {s t : PyStr} {b : Bytes} (hs : encode s = some b) (ht : encode t = some b) :
    s = t := by
  unfold encode at hs ht
  split at hs
  · cases hs
  · split at ht
    · cases ht
    · exact utf8_injective ((Option.some.inj hs).trans (Option.some.inj ht).symm)

end Python
end SovereignSeed
