import SovereignSeed.Python.Text

/-!
# Reading UTF-8

The decoder of `bytes.decode("utf-8")` and of files opened as text.  It takes one
octet after another: an open form remembers the bits it has and what the next octet
may be.  An octet that does not fit is an error; with `errors="ignore"` the form so
far is dropped, and the octet is looked at again as the first of a form.

## Main definitions

* `Form` — an open form; `lead`, `Form.next` — its first octet and the others.
* `decode` — the decoder, strict or ignoring errors.
* `readText` — the text of a file.
* `IsScalar`, `IsAscii` — texts that have a UTF-8 form, and that are their own.

## Main results

* `decode_utf8`, `readText_utf8` — **a text is read back from its UTF-8 form.**
-/

namespace SovereignSeed
namespace Python

/-- The form of a code point, of which `need` octets are still to come; the next one
lies between `low` and `high`. -/
structure Form where
  value : ℕ
  need : ℕ
  low : ℕ
  high : ℕ

/-- The form the octet `b` begins.  The bounds shut out forms that are too long,
surrogates, and numbers beyond the last code point. -/
def lead (b : ℕ) : Option Form :=
  if b < 0x80 then some ⟨b, 0, 0x80, 0xbf⟩
  else if b < 0xc2 then none
  else if b < 0xe0 then some ⟨b - 0xc0, 1, 0x80, 0xbf⟩
  else if b < 0xf0 then
    some ⟨b - 0xe0, 2, if b = 0xe0 then 0xa0 else 0x80, if b = 0xed then 0x9f else 0xbf⟩
  else if b < 0xf5 then
    some ⟨b - 0xf0, 3, if b = 0xf0 then 0x90 else 0x80, if b = 0xf4 then 0x8f else 0xbf⟩
  else none

/-- An open form with one more octet. -/
def Form.next (p : Form) (b : ℕ) : Option Form :=
  if p.low ≤ b ∧ b ≤ p.high then some ⟨64 * p.value + (b - 0x80), p.need - 1, 0x80, 0xbf⟩ else none

/-- What the octet `b` makes of the form that is open, if one is. -/
def accept (p : Option Form) (b : ℕ) : Option Form :=
  match p with
  | none => lead b
  | some p => p.next b

/-- The text of the octets, behind the form that is open. -/
def decodeFrom (ignore : Bool) : Option Form → List ℕ → Option PyStr
  | none, [] => some []
  | some _, [] => if ignore then some [] else none
  | p, b :: bs =>
    match (accept p b).or (if ignore then lead b else none) with
    | some q =>
      if q.need = 0 then (decodeFrom ignore none bs).map (Fin.ofNat 0x110000 q.value :: ·)
      else decodeFrom ignore (some q) bs
    | none => if ignore then decodeFrom ignore none bs else none

/-- `data.decode("utf-8")`, or `none` where it raises `UnicodeDecodeError`; with
`errors="ignore"` it never does. -/
def decode (ignore : Bool) (data : Bytes) : Option PyStr :=
  decodeFrom ignore none (data.map UInt8.toNat)

/-- A text over Unicode scalar values. -/
def IsScalar (s : PyStr) : Prop := s.any isSurrogate = false

instance (s : PyStr) : Decidable (IsScalar s) := inferInstanceAs (Decidable (_ = _))

theorem isScalar_append {s t : PyStr} : IsScalar (s ++ t) ↔ IsScalar s ∧ IsScalar t := by
  simp [IsScalar]

theorem IsScalar.sublist {s t : PyStr} (ht : IsScalar t) (h : s.Sublist t) : IsScalar s :=
  List.any_eq_false.mpr fun c hc => List.any_eq_false.mp ht c (h.subset hc)

theorem isScalar_strip {s : PyStr} (h : IsScalar s) : IsScalar (strip s) :=
  h.sublist (strip_sublist s)

/-- A text of ASCII characters. -/
def IsAscii (s : PyStr) : Prop := ∀ c ∈ s, c.val < 0x80

instance (s : PyStr) : Decidable (IsAscii s) :=
  decidable_of_iff (s.all fun c => decide (c.val < 0x80)) (by simp [IsAscii])

theorem IsAscii.isScalar {s : PyStr} (h : IsAscii s) : IsScalar s := by
  refine List.any_eq_false.mpr fun c hc => ?_
  have := h c hc
  simp only [isSurrogate, isHigh, isLow, Bool.or_eq_true, Bool.and_eq_true, decide_eq_true_eq]
  omega

theorem utf8_append (s t : PyStr) : utf8 (s ++ t) = utf8 s ++ utf8 t := by
  simp [utf8]

theorem encode_eq_some {s : PyStr} (h : IsScalar s) : encode s = some (utf8 s) := by
  rw [encode, h]
  rfl

/-- ASCII text is its own UTF-8 form. -/
theorem map_utf8_of_ascii {s : PyStr} (h : IsAscii s) :
    (utf8 s).map (fun b => Fin.ofNat 0x110000 b.toNat) = s := by
  have hunits : (s.flatMap fun c => utf8Units c.val) = s.map Fin.val := by
    induction s with
    | nil => rfl
    | cons c s ih =>
      rw [List.flatMap_cons, ih fun d hd => h d (.tail _ hd), utf8Units, if_pos (h c (.head _))]
      rfl
  rw [utf8, hunits, List.map_map, List.map_map]
  refine (List.map_congr_left fun c hc => ?_).trans (List.map_id _)
  have hc := h c hc
  apply Fin.ext
  simp only [Function.comp_apply, Fin.val_ofNat,
    UInt8.toNat_ofNat_of_lt' (show c.val < 256 by omega), id_eq]
  omega

/-- The octets of a text as numbers. -/
theorem toNat_utf8 (s : PyStr) : (utf8 s).map UInt8.toNat = s.flatMap fun c => utf8Units c.val := by
  rw [utf8, List.map_map]
  refine (List.map_congr_left fun u hu => ?_).trans (List.map_id _)
  obtain ⟨c, -, hc⟩ := List.mem_flatMap.mp hu
  exact UInt8.toNat_ofNat_of_lt' (utf8Units_lt c.isLt u hc)

/-- An ASCII octet is an ASCII character. -/
theorem exists_of_mem_utf8 {s : PyStr} {b : UInt8} (hb : b.toNat < 0x80) (h : b ∈ utf8 s) :
    ∃ c ∈ s, c.val = b.toNat := by
  have hunit := List.mem_map_of_mem (f := UInt8.toNat) h
  rw [toNat_utf8] at hunit
  obtain ⟨c, hc, hmem⟩ := List.mem_flatMap.mp hunit
  refine ⟨c, hc, ?_⟩
  unfold utf8Units at hmem
  split at hmem
  · exact (List.mem_singleton.mp hmem).symm
  -- the octets of longer forms are not ASCII
  split at hmem
  · simp only [List.mem_cons, List.not_mem_nil, or_false] at hmem
    omega
  split at hmem
  · simp only [List.mem_cons, List.not_mem_nil, or_false] at hmem
    omega
  · simp only [List.mem_cons, List.not_mem_nil, or_false] at hmem
    omega

section Forms

variable {ignore : Bool} {p q : Form} {b : ℕ} {bs : List ℕ}

theorem decodeFrom_open {p : Option Form} (h : accept p b = some q) (hneed : q.need ≠ 0) :
    decodeFrom ignore p (b :: bs) = decodeFrom ignore (some q) bs := by
  cases p <;> simp [decodeFrom, h, hneed]

theorem decodeFrom_done {p : Option Form} (h : accept p b = some q) (hneed : q.need = 0) :
    decodeFrom ignore p (b :: bs) =
      (decodeFrom ignore none bs).map (Fin.ofNat 0x110000 q.value :: ·) := by
  cases p <;> simp [decodeFrom, h, hneed]

theorem accept_next {n : ℕ} (hlow : p.low ≤ 0x80 + n) (hhigh : 0x80 + n ≤ p.high) :
    accept (some p) (0x80 + n) = some ⟨64 * p.value + n, p.need - 1, 0x80, 0xbf⟩ := by
  rw [accept, Form.next, if_pos ⟨hlow, hhigh⟩, Nat.add_sub_cancel_left]

/-- The last octet of a form. -/
theorem decodeFrom_last {n : ℕ} (hlow : p.low ≤ 0x80 + n) (hhigh : 0x80 + n ≤ p.high)
    (hneed : p.need = 1) : decodeFrom ignore (some p) ((0x80 + n) :: bs) =
      (decodeFrom ignore none bs).map (Fin.ofNat 0x110000 (64 * p.value + n) :: ·) :=
  decodeFrom_done (accept_next hlow hhigh) (by simp [hneed])

/-- An octet of a form that is not the last. -/
theorem decodeFrom_middle {n : ℕ} (hlow : p.low ≤ 0x80 + n) (hhigh : 0x80 + n ≤ p.high)
    (hneed : 1 < p.need) : decodeFrom ignore (some p) ((0x80 + n) :: bs) =
      decodeFrom ignore (some ⟨64 * p.value + n, p.need - 1, 0x80, 0xbf⟩) bs :=
  decodeFrom_open (accept_next hlow hhigh) (by simp only; omega)

end Forms

theorem accept_lead_two {c : ℕ} (h : 0x80 ≤ c) (h' : c < 0x800) :
    accept none (0xc0 + c / 64) = some ⟨c / 64, 1, 0x80, 0xbf⟩ := by
  rw [accept, lead, if_neg (by omega), if_neg (by omega), if_pos (by omega),
    Nat.add_sub_cancel_left]

theorem accept_lead_three {c : ℕ} (h' : c < 0x10000) :
    accept none (0xe0 + c / 64 / 64) = some ⟨c / 64 / 64, 2, if c < 0x1000 then 0xa0 else 0x80,
      if c / 64 / 64 = 13 then 0x9f else 0xbf⟩ := by
  rw [accept, lead, if_neg (by omega), if_neg (by omega), if_neg (by omega), if_pos (by omega),
    Nat.add_sub_cancel_left]
  congr 2 <;> (congr 1; simp only [eq_iff_iff]; omega)

theorem accept_lead_four {c : ℕ} (h' : c < 0x110000) :
    accept none (0xf0 + c / 64 / 64 / 64) = some ⟨c / 64 / 64 / 64, 3,
      if c < 0x40000 then 0x90 else 0x80, if c / 64 / 64 / 64 = 4 then 0x8f else 0xbf⟩ := by
  rw [accept, lead, if_neg (by omega), if_neg (by omega), if_neg (by omega), if_neg (by omega),
    if_pos (by omega), Nat.add_sub_cancel_left]
  congr 2 <;> (congr 1; simp only [eq_iff_iff]; omega)

/-- The octets of a code point are read as that code point. -/
theorem decodeFrom_units {ignore : Bool} {c : CodePoint} (h : isSurrogate c = false)
    (bs : List ℕ) : decodeFrom ignore none (utf8Units c.val ++ bs) =
      (decodeFrom ignore none bs).map (c :: ·) := by
  have hc := c.isLt
  simp only [isSurrogate, isHigh, isLow, Bool.or_eq_false_iff, Bool.and_eq_false_iff,
    decide_eq_false_iff_not] at h
  have hval : ∀ n, n = c.val → Fin.ofNat 0x110000 n = c := by
    rintro n rfl
    exact Fin.ext (Nat.mod_eq_of_lt hc)
  rw [utf8Units]
  split
  · next h1 =>
    rw [List.cons_append, List.nil_append, decodeFrom_done (q := ⟨c.val, 0, 0x80, 0xbf⟩)
      (by rw [accept, lead, if_pos h1]) rfl, hval _ rfl]
  split
  · next h1 h2 =>
    rw [List.cons_append, List.cons_append, List.nil_append,
      decodeFrom_open (accept_lead_two (by omega) h2) one_ne_zero,
      decodeFrom_last (by simp only; omega) (by simp only; omega) rfl,
      hval _ (by simp only; omega)]
  split
  · next h1 h2 h3 =>
    -- a short three octet form is shut out below, a surrogate above
    have hlow : (if c.val < 0x1000 then 0xa0 else 0x80) ≤ 0x80 + c.val / 64 % 64 := by
      split <;> omega
    have hhigh : 0x80 + c.val / 64 % 64 ≤ if c.val / 64 / 64 = 13 then 0x9f else 0xbf := by
      split <;> omega
    rw [List.cons_append, List.cons_append, List.cons_append, List.nil_append,
      decodeFrom_open (accept_lead_three h3) two_ne_zero, decodeFrom_middle hlow hhigh (by simp),
      decodeFrom_last (by simp only; omega) (by simp only; omega) rfl,
      hval _ (by simp only; omega)]
  · next h1 h2 h3 =>
    have hlow : (if c.val < 0x40000 then 0x90 else 0x80) ≤ 0x80 + c.val / 64 / 64 % 64 := by
      split <;> omega
    have hhigh : 0x80 + c.val / 64 / 64 % 64 ≤ if c.val / 64 / 64 / 64 = 4 then 0x8f else 0xbf := by
      split <;> omega
    rw [List.cons_append, List.cons_append, List.cons_append, List.cons_append, List.nil_append,
      decodeFrom_open (accept_lead_four hc) three_ne_zero, decodeFrom_middle hlow hhigh (by simp),
      decodeFrom_middle (by simp only; omega) (by simp only; omega) (by simp),
      decodeFrom_last (by simp only; omega) (by simp only; omega) rfl,
      hval _ (by simp only; omega)]

/-- **A text is read back from its UTF-8 form.** -/
theorem decode_utf8 {s : PyStr} (h : IsScalar s) (ignore : Bool) :
    decode ignore (utf8 s) = some s := by
  rw [decode, toNat_utf8]
  induction s with
  | nil => rfl
  | cons c s ih =>
    rw [IsScalar, List.any_cons, Bool.or_eq_false_iff] at h
    rw [List.flatMap_cons, decodeFrom_units h.1, ih h.2]
    rfl

/-! ### Files opened as text -/

/-- What reading with `newline=None` does to ends of lines. -/
def universalNewlines : PyStr → PyStr
  | [] => []
  | [c] => if c = 0x0d then [0x0a] else [c]
  | c :: d :: s =>
    if c = 0x0d then
      if d = 0x0a then 0x0a :: universalNewlines s else 0x0a :: universalNewlines (d :: s)
    else c :: universalNewlines (d :: s)

theorem universalNewlines_eq_self {s : PyStr} (h : ∀ c ∈ s, c ≠ 0x0d) :
    universalNewlines s = s := by
  induction s using universalNewlines.induct with
  | case1 => rfl
  | case2 => exact absurd rfl (h _ (.head _))
  | case3 c hc => rw [universalNewlines, if_neg hc]
  | case4 => exact absurd rfl (h _ (.head _))
  | case5 => exact absurd rfl (h _ (.head _))
  | case6 c d s hc ih => rw [universalNewlines, if_neg hc, ih fun e he => h e (.tail _ he)]

/-- The text of a file, or `none` where reading it raises. -/
def readText (ignore : Bool) (data : Bytes) : Option PyStr :=
  (decode ignore data).map universalNewlines

/-- **A file is read as the text that was written.** -/
theorem readText_utf8 {s : PyStr} (h : IsScalar s) (hreturn : ∀ c ∈ s, c ≠ 0x0d) (ignore : Bool) :
    readText ignore (utf8 s) = some s := by
  rw [readText, decode_utf8 h, Option.map_some, universalNewlines_eq_self hreturn]

end Python
end SovereignSeed
