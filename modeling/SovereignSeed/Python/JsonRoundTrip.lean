import SovereignSeed.Python.JsonTree
import Mathlib.Data.Nat.Digits.Lemmas

/-!
# What is written is read back

In every style the text of a value is read as the value, with the halves of
surrogate pairs joined.  The two sides are compared bracket by bracket: a reader
of items reads a row of texts if it reads each of them before whatever does not
go on with a number.

## Main definitions

* `Stops` — what may follow a value; `Reads` — a reader and a text.

## Main results

* `readBracket_bracket` — a row of texts in brackets is read back.
* `readNumeral_decimalInt`, `readNumeral_repr` — numbers are read back.
* `parse_render` — **the text of a value is read as the value.**
-/

namespace SovereignSeed
namespace Python
namespace Json

/-! ### Texts and readers -/

/-- The text does not go on with a number. -/
def Stops (s : PyStr) : Prop := ∀ c ∈ s.head?, isNumChar c = false

/-- The reader takes the text `t` for `a`, whatever value-free text is behind it. -/
def Reads {α : Type} (read : PyStr → Option (α × PyStr)) (t : PyStr) (a : α) : Prop :=
  ∀ r, Stops r → read (t ++ r) = some (a, r)

/-- The text starts with neither white space nor a closing bracket. -/
def Starts (t : PyStr) : Prop :=
  ∃ c u, t = c :: u ∧ isWs c = false ∧ c ≠ 0x5d ∧ c ≠ 0x7d

theorem stops_nil : Stops [] := nofun

theorem stops_cons {c : CodePoint} {s : PyStr} (h : isNumChar c = false) : Stops (c :: s) := by
  rintro _ ⟨⟩
  exact h

theorem isNumChar_of_isDigit {c : CodePoint} (h : isDigit c = true) : isNumChar c = true := by
  simp [isNumChar, h]

/-- White space is in no number. -/
theorem isNumChar_of_isWs {c : CodePoint} (h : isWs c = true) : isNumChar c = false := by
  simp only [isWs, Bool.or_eq_true, beq_iff_eq] at h
  rcases h with ((rfl | rfl) | rfl) | rfl <;> decide

theorem Stops.append {w s : PyStr} (hw : ∀ c ∈ w, isWs c = true) (hs : Stops s) :
    Stops (w ++ s) := by
  cases w with
  | nil => exact hs
  | cons c w => exact stops_cons (isNumChar_of_isWs (hw c (.head _)))

theorem skipWs_append {w s : PyStr} (hw : ∀ c ∈ w, isWs c = true) : skipWs (w ++ s) = skipWs s :=
  List.dropWhile_append_of_pos hw

theorem skipWs_cons {c : CodePoint} (hc : isWs c = false) (s : PyStr) :
    skipWs (c :: s) = c :: s :=
  List.dropWhile_cons_of_neg (by simp [hc])

theorem Starts.skipWs {t : PyStr} (h : Starts t) (s : PyStr) :
    Json.skipWs (t ++ s) = t ++ s := by
  obtain ⟨c, u, rfl, hc, -⟩ := h
  exact skipWs_cons hc _

/-! ### Rows in brackets -/

section Brackets

variable {α β : Type} {read : PyStr → Option (α × PyStr)} {L : Style} {d : ℕ} {cl : CodePoint}
  {f : β → PyStr} {g : β → α}

/-- A closing bracket. -/
def IsClosing (cl : CodePoint) : Prop := cl = 0x5d ∨ cl = 0x7d

theorem IsClosing.isWs (h : IsClosing cl) : isWs cl = false := by
  rcases h with rfl | rfl <;> decide

theorem IsClosing.isNumChar (h : IsClosing cl) : isNumChar cl = false := by
  rcases h with rfl | rfl <;> decide

theorem IsClosing.ne_comma (h : IsClosing cl) : (0x2c : CodePoint) ≠ cl := by
  rcases h with rfl | rfl <;> decide

/-- Behind an item there is no number. -/
theorem stops_tailText (hcl : IsClosing cl) (ts : List PyStr) (r : PyStr) :
    Stops (tailText L d cl ts ++ r) := by
  cases ts with
  | nil =>
    rw [tailText, List.append_assoc]
    exact .append (L.closing_isWs d) (stops_cons hcl.isNumChar)
  | cons t ts => exact stops_cons (by decide)

theorem length_lt_tailText (ts : List PyStr) : ts.length < (tailText L d cl ts).length := by
  induction ts with
  | nil => simp [tailText]
  | cons t ts ih =>
    simp only [tailText, List.length_cons, List.length_append]
    omega

/-- **A row of items is read back.** -/
theorem readSeq_tailText (hcl : IsClosing cl) (r : PyStr) :
    ∀ {xs : List β} {x : β} {n : ℕ}, (∀ y ∈ x :: xs, Reads read (f y) (g y)) →
      (∀ y ∈ xs, Starts (f y)) → xs.length < n →
      readSeq read cl n (f x ++ (tailText L d cl (xs.map f) ++ r)) = some (g x :: xs.map g, r) := by
  intro xs
  induction xs with
  | nil =>
    intro x n hreads _ hn
    obtain ⟨n, rfl⟩ : ∃ k, n = k + 1 := ⟨n - 1, by simp at hn; omega⟩
    rw [readSeq, hreads x (.head _) _ (stops_tailText hcl _ r), Option.bind_some]
    simp only [List.map_nil, tailText, List.append_assoc, skipWs_append (L.closing_isWs d),
      List.singleton_append, skipWs_cons hcl.isWs, if_true]
  | cons y xs ih =>
    intro x n hreads hstarts hn
    obtain ⟨n, rfl⟩ : ∃ k, n = k + 1 := ⟨n - 1, by simp at hn; omega⟩
    have hrest := ih (x := y) (n := n) (fun z hz => hreads z (.tail _ hz))
      (fun z hz => hstarts z (.tail _ hz)) (by simpa using hn)
    rw [readSeq, hreads x (.head _) _ (stops_tailText hcl _ r), Option.bind_some]
    simp only [List.map_cons, tailText, List.cons_append, List.append_assoc,
      skipWs_cons (show isWs 0x2c = false by decide), if_neg hcl.ne_comma, if_true,
      skipWs_append (L.between_isWs d), (hstarts y (.head _)).skipWs, hrest, Option.map_some]

/-- **A row of texts in brackets is read back.** -/
theorem readBracket_bracket (hcl : IsClosing cl) (op : CodePoint) {xs : List β}
    (hreads : ∀ x ∈ xs, Reads read (f x) (g x)) (hstarts : ∀ x ∈ xs, Starts (f x)) (r : PyStr) :
    readBracket read cl ((bracket L d op cl (xs.map f)).tail ++ r) = some (xs.map g, r) := by
  cases xs with
  | nil =>
    simp only [List.map_nil, bracket, List.tail_cons, List.singleton_append, readBracket,
      skipWs_cons hcl.isWs, if_true]
  | cons x xs =>
    have hseq := readSeq_tailText (L := L) (d := d)
      (n := (f x ++ (tailText L d cl (xs.map f) ++ r)).length) hcl r hreads
      (fun y hy => hstarts y (.tail _ hy)) (by
        have hlen : (xs.map f).length < (tailText L d cl (xs.map f)).length :=
          length_lt_tailText _
        simp only [List.length_map, List.length_append] at hlen ⊢
        omega)
    obtain ⟨c, u, hfx, hws, hne⟩ := hstarts x (.head _)
    have hc : c ≠ cl := by rcases hcl with rfl | rfl <;> [exact hne.1; exact hne.2]
    simp only [List.map_cons, bracket, List.tail_cons, List.append_assoc, readBracket,
      skipWs_append (L.opening_isWs d)]
    rw [hfx] at hseq ⊢
    simp only [List.cons_append, skipWs_cons hws, if_neg hc] at hseq ⊢
    exact hseq

/-- `"key": value` is read back. -/
theorem reads_memberText {t : PyStr} {a : α} (h : Reads read t a) (ht : Starts t) (k : PyStr) :
    Reads (readEntry read) (memberText L k t) (joinPairs k, a) := by
  intro r hr
  rw [readEntry, memberText, List.append_assoc, readString_quote, Option.bind_some]
  simp only [List.cons_append, skipWs_cons (show isWs 0x3a = false by decide), if_true,
    List.append_assoc, skipWs_append L.afterColon_isWs, ht.skipWs, h r hr, Option.map_some]

theorem starts_memberText (k t : PyStr) : Starts (memberText L k t) :=
  ⟨0x22, _, rfl, by decide, by decide, by decide⟩

theorem length_lt_bracket {op : CodePoint} {ts : List PyStr} {t : PyStr} (h : t ∈ ts) :
    t.length < (bracket L d op cl ts).length := by
  have htail : ∀ {ts : List PyStr}, t ∈ ts → t.length < (tailText L d cl ts).length := by
    intro ts
    induction ts with
    | nil => exact nofun
    | cons u ts ih =>
      intro h
      simp only [tailText, List.length_cons, List.length_append]
      rcases List.mem_cons.mp h with rfl | h
      · omega
      · have := ih h
        omega
  cases ts with
  | nil => cases h
  | cons u ts =>
    simp only [bracket, List.length_cons, List.length_append]
    rcases List.mem_cons.mp h with rfl | h
    · omega
    · have := htail h
      omega

end Brackets

/-! ### Numerals -/

/-- The digits before the point: there is no zero at the front of others. -/
structure Integral (ip : PyStr) : Prop where
  digits : ∀ c ∈ ip, isDigit c = true
  ne_nil : ip ≠ []
  no_zero : ip.head? = some (digit 0) → ip = [digit 0]

theorem Integral.zero : Integral [digit 0] where
  digits c hc := by
    rw [List.mem_singleton.mp hc]
    exact isDigit_zero
  ne_nil := by simp
  no_zero _ := rfl

/-- Digits that do not begin with a zero. -/
theorem Integral.of_head {ip : PyStr} (hdigits : ∀ c ∈ ip, isDigit c = true) (hne : ip ≠ [])
    (hhead : ip.head? ≠ some (digit 0)) : Integral ip :=
  ⟨hdigits, hne, fun h => absurd h hhead⟩

/-- The numeral of a positive number does not begin with a zero. -/
theorem head_decimal {n : ℕ} (h : n ≠ 0) : (decimal n).head? ≠ some (digit 0) := by
  have hdigits : Nat.digits 10 n ≠ [] := Nat.digits_ne_nil_iff_ne_zero.mpr h
  have hlast := Nat.getLast_digit_ne_zero 10 h
  have hlt : (Nat.digits 10 n).getLast hdigits < 10 :=
    Nat.digits_lt_base (by decide) (List.getLast_mem hdigits)
  rw [decimal, if_neg h, List.head?_map, List.head?_reverse,
    List.getLast?_eq_getLast_of_ne_nil hdigits]
  intro heq
  have hval := congrArg Fin.val (Option.some.inj heq)
  rw [digit_val hlt, digit_val (by decide)] at hval
  omega

theorem integral_decimal (n : ℕ) : Integral (decimal n) := by
  by_cases h : n = 0
  · subst h
    exact .zero
  · exact .of_head (fun c hc => isDigit_of_mem_decimal hc) (decimal_ne_nil n) (head_decimal h)

section Integral

variable {ip fr : PyStr}

/-- The two conditions a reader of numerals tests. -/
theorem Integral.not_leading (h : Integral ip) :
    ¬(ip = [] ∨ (ip.head? = some (digit 0) ∧ 1 < ip.length)) := by
  rintro (hnil | ⟨hhead, hlen⟩)
  · exact h.ne_nil hnil
  · rw [h.no_zero hhead] at hlen
    exact absurd hlen (by decide)

theorem Integral.takeWhile (h : Integral ip) (hfr : ∀ c ∈ fr.head?, isDigit c = false) :
    (ip ++ fr).takeWhile isDigit = ip ∧ (ip ++ fr).dropWhile isDigit = fr := by
  rw [List.takeWhile_append_of_pos h.digits, List.dropWhile_append_of_pos h.digits]
  cases fr with
  | nil => simp
  | cons c fr =>
    have hc : ¬isDigit c = true := by simp [hfr c rfl]
    rw [List.takeWhile_cons_of_neg hc, List.dropWhile_cons_of_neg hc, List.append_nil]
    exact ⟨rfl, rfl⟩

/-- The sign of a numeral. -/
def signText (neg : Bool) : PyStr := if neg then [0x2d] else []

/-- A numeral is taken apart into its sign, its digits and the rest. -/
theorem Integral.readNumeral (h : Integral ip) (hfr : ∀ c ∈ fr.head?, isDigit c = false)
    (neg : Bool) :
    Json.readNumeral (signText neg ++ (ip ++ fr)) =
      if fr = [] then
        if 10 ^ maxStrDigits ≤ ofDigits ip then none
        else some (.int (if neg then -(ofDigits ip : ℤ) else ofDigits ip))
      else if isFraction fr then (floatOfText (signText neg ++ (ip ++ fr))).map .float
      else none := by
  obtain ⟨htake, hdrop⟩ := h.takeWhile hfr
  have hneg : decide ((signText neg ++ (ip ++ fr)).head? = some 0x2d) = neg := by
    cases neg with
    | true => rfl
    | false =>
      obtain ⟨c, u, rfl⟩ := List.exists_cons_of_ne_nil h.ne_nil
      have hc : isDigit c = true := h.digits c (.head _)
      have hne : c ≠ 0x2d := by
        rintro rfl
        exact absurd hc (by decide)
      simp [signText, hne]
  have hunsigned : (if neg then (signText neg ++ (ip ++ fr)).tail
      else signText neg ++ (ip ++ fr)) = ip ++ fr := by
    cases neg <;> rfl
  rw [Json.readNumeral]
  simp only [hneg, hunsigned, htake, hdrop, if_neg h.not_leading]

end Integral

theorem decimalInt_eq (n : ℤ) :
    decimalInt n = signText (decide (n < 0)) ++ (decimal n.natAbs ++ []) := by
  rw [List.append_nil]
  unfold decimalInt
  split
  · next hneg => rw [decide_eq_true hneg]; rfl
  · next hpos => rw [decide_eq_false hpos]; rfl

/-- **The numeral of an integer is read back**, if it is not too long. -/
theorem readNumeral_decimalInt {n : ℤ} (h : n.natAbs < 10 ^ maxStrDigits) :
    readNumeral (decimalInt n) = some (.int n) := by
  rw [decimalInt_eq, (integral_decimal n.natAbs).readNumeral (by simp), if_pos rfl,
    ofDigits_decimal, if_neg (Nat.not_le.mpr h)]
  by_cases hneg : n < 0
  · simp only [hneg, decide_true, if_true, Option.some.injEq, Value.int.injEq]
    omega
  · simp only [hneg, decide_false, Bool.false_eq_true, if_false, Option.some.injEq,
      Value.int.injEq]
    omega

/-- What follows the digits before the point of a float. -/
structure Fractional (fr : PyStr) : Prop where
  chars : ∀ c ∈ fr, isNumChar c = true
  ne_nil : fr ≠ []
  head : ∀ c ∈ fr.head?, isDigit c = false
  isFraction : isFraction fr = true

/-- A point and digits. -/
theorem Fractional.point {ds : PyStr} (hds : ∀ c ∈ ds, isDigit c = true) (hne : ds ≠ []) :
    Fractional (0x2e :: ds) where
  chars c hc := by
    rcases List.mem_cons.mp hc with rfl | hc
    · decide
    · exact isNumChar_of_isDigit (hds c hc)
  ne_nil := by simp
  head := by
    rintro _ ⟨⟩
    decide
  isFraction := by
    have htake : ds.takeWhile isDigit = ds := List.takeWhile_eq_self_iff.mpr hds
    have hdrop : ds.dropWhile isDigit = [] := List.dropWhile_eq_nil_iff.mpr hds
    rw [Json.isFraction, htake, hdrop]
    simp [hne, isExponent]

/-- A mark, a sign and digits. -/
theorem isExponent_mark {c : CodePoint} (hc : c = 0x2d ∨ c = 0x2b) (n : ℕ) :
    isExponent (0x65 :: c :: exponentDigits n) = true ∧
      ∀ d ∈ (0x65 : CodePoint) :: c :: exponentDigits n, isNumChar d = true := by
  have hdigits : (exponentDigits n).all isDigit = true :=
    List.all_eq_true.mpr fun d hd => isDigit_of_mem_exponentDigits hd
  have hne : exponentDigits n ≠ [] := by
    rw [exponentDigits]
    split
    · simp
    · exact decimal_ne_nil n
  have hmark : isExponentMark 0x65 = true := by decide
  refine ⟨by rcases hc with rfl | rfl <;> simp [isExponent, hmark, hne, hdigits], fun d hd => ?_⟩
  rcases List.mem_cons.mp hd with rfl | hd
  · decide
  rcases List.mem_cons.mp hd with rfl | hd
  · rcases hc with rfl | rfl <;> decide
  · exact isNumChar_of_isDigit (isDigit_of_mem_exponentDigits hd)

/-- **The text of a positive float is digits and a fraction.** -/
theorem layout_shape {ds : PyStr} (hds : ∀ c ∈ ds, isDigit c = true) (hne : ds ≠ [])
    (hhead : ds.head? ≠ some (digit 0)) (decpt : ℤ) :
    ∃ ip fr, layout ds decpt = ip ++ fr ∧ Integral ip ∧ Fractional fr := by
  obtain ⟨c, u, rfl⟩ := List.exists_cons_of_ne_nil hne
  have hu : ∀ d ∈ u, isDigit d = true := fun d hd => hds d (.tail _ hd)
  have hc : c ≠ digit 0 := fun h => hhead (by rw [h]; rfl)
  rw [layout]
  split
  · split
    · -- `0.000ds`
      refine ⟨[digit 0], 0x2e :: (List.replicate (-decpt).toNat (digit 0) ++ c :: u), rfl, .zero,
        .point (fun d hd => ?_) (by simp)⟩
      exact (List.mem_append.mp hd).elim isDigit_of_mem_zeros (hds d)
    · split
      · -- `ds000.0`
        refine ⟨_, 0x2e :: [digit 0], rfl, .of_head (fun d hd => ?_) (by simp) (by simpa using hc),
          .point (fun d hd => ?_) (by simp)⟩
        · exact (List.mem_append.mp hd).elim (hds d) isDigit_of_mem_zeros
        · rw [List.mem_singleton.mp hd]
          exact isDigit_zero
      · -- the point falls among the digits
        next hpos hlong =>
        obtain ⟨k, hk⟩ : ∃ k, decpt.toNat = k + 1 := ⟨decpt.toNat - 1, by omega⟩
        rw [hk] at hlong ⊢
        refine ⟨(c :: u).take (k + 1), 0x2e :: (c :: u).drop (k + 1), rfl,
          .of_head (fun d hd => hds d (List.mem_of_mem_take hd)) (by simp) (by simpa using hc),
          .point (fun d hd => hds d (List.mem_of_mem_drop hd)) ?_⟩
        rw [ne_eq, List.drop_eq_nil_iff]
        omega
  · -- `d.dse+XX`
    have hsign : ∃ s, (s = 0x2d ∨ s = 0x2b) ∧
        text (if decpt ≤ 0 then "e-" else "e+") ++ exponentDigits (decpt - 1).natAbs =
          0x65 :: s :: exponentDigits (decpt - 1).natAbs := by
      split
      · exact ⟨0x2d, .inl rfl, rfl⟩
      · exact ⟨0x2b, .inr rfl, rfl⟩
    obtain ⟨s, hs, htext⟩ := hsign
    obtain ⟨hexp, hchars⟩ := isExponent_mark hs (decpt - 1).natAbs
    have hip : Integral [c] :=
      .of_head (fun d hd => by rw [List.mem_singleton.mp hd]; exact hds c (.head _)) (by simp)
        (by simpa using hc)
    rw [htext]
    cases u with
    | nil =>
      refine ⟨[c], _, rfl, hip, hchars, by simp, ?_, hexp⟩
      rintro _ ⟨⟩
      decide
    | cons d u =>
      refine ⟨[c], 0x2e :: (d :: u) ++ 0x65 :: s :: exponentDigits (decpt - 1).natAbs, rfl, hip,
        fun e he => ?_, by simp, ?_, ?_⟩
      · rcases List.mem_append.mp he with he | he
        · rcases List.mem_cons.mp he with rfl | he
          · decide
          · exact isNumChar_of_isDigit (hu e he)
        · exact hchars e he
      · rintro _ ⟨⟩
        decide
      · rw [List.cons_append, isFraction, List.takeWhile_append_of_pos hu,
          List.dropWhile_append_of_pos hu, List.dropWhile_cons_of_neg (by decide), hexp]
        simp

/-- The text of a finite float is digits and a fraction behind a sign. -/
theorem repr_shape (neg : Bool) (a : Magnitude) :
    ∃ ip fr, PyFloat.repr (.finite neg a) = signText neg ++ (ip ++ fr) ∧ Integral ip ∧
      Fractional fr := by
  have hshape : ∃ ip fr, (if a.mant = 0 then text "0.0" else a.repr) = ip ++ fr ∧ Integral ip ∧
      Fractional fr := by
    split
    · refine ⟨[digit 0], 0x2e :: [digit 0], rfl, .zero, .point (fun d hd => ?_) (by simp)⟩
      rw [List.mem_singleton.mp hd]
      exact isDigit_zero
    · next h0 =>
      have hn := shortest_ne_zero h0
      refine layout_shape (fun c hc => isDigit_of_mem_significant hc) (significant_ne_nil hn) ?_ _
      -- the significant digits begin as all digits do
      obtain ⟨z, hz⟩ := exists_zeros (shortest a).1
      have hhead := head_decimal hn
      rw [hz, List.head?_append_of_ne_nil _ (significant_ne_nil hn)] at hhead
      exact hhead
  obtain ⟨ip, fr, htext, hip, hfr⟩ := hshape
  refine ⟨ip, fr, ?_, hip, hfr⟩
  rw [PyFloat.repr, htext]
  cases neg <;> rfl

/-- **The text of a finite float is read back.** -/
theorem readNumeral_repr (neg : Bool) (a : Magnitude) :
    readNumeral (PyFloat.repr (.finite neg a)) = some (.float (.finite neg a)) := by
  obtain ⟨ip, fr, hrepr, hip, hfr⟩ := repr_shape neg a
  have hread := hip.readNumeral hfr.head neg
  rw [if_neg hfr.ne_nil, if_pos hfr.isFraction, ← hrepr, floatOfText_repr] at hread
  exact hread

/-! ### Atoms -/

/-- A numeral: number characters, a digit in front or behind a sign. -/
structure Numeral (t : PyStr) : Prop where
  chars : ∀ c ∈ t, isNumChar c = true
  front : ∃ c u, isDigit c = true ∧ (t = c :: u ∨ t = 0x2d :: c :: u)

/-- A name begins with a letter, or has one behind its sign. -/
theorem constants_front : ∀ w ∈ constants, ∃ a b v, w.1 = a :: b :: v ∧ isDigit a = false ∧
    (a = 0x2d → isDigit b = false) := by
  simp only [constants, List.mem_cons, List.not_mem_nil, or_false]
  rintro w (rfl | rfl | rfl | rfl | rfl | rfl) <;>
    exact ⟨_, _, _, rfl, by decide, by decide⟩

/-- No name begins a numeral. -/
theorem Numeral.not_constant {t : PyStr} (h : Numeral t) (r : PyStr) :
    constants.find? (fun w => w.1.isPrefixOf (t ++ r)) = none := by
  obtain ⟨c, u, hc, ht⟩ := h.front
  rw [List.find?_eq_none]
  intro w hw hprefix
  obtain ⟨a, b, v, hfront, ha, hb⟩ := constants_front w hw
  rw [hfront] at hprefix
  rcases ht with rfl | rfl
  · obtain ⟨hac, -⟩ : a = c ∧ _ := by simpa using hprefix
    rw [hac, hc] at ha
    cases ha
  · obtain ⟨hsign, hbc, -⟩ : a = 0x2d ∧ b = c ∧ _ := by simpa using hprefix
    rw [hbc, hc] at hb
    cases hb hsign

theorem Numeral.takeWhile {t : PyStr} (h : Numeral t) {r : PyStr} (hr : Stops r) :
    (t ++ r).takeWhile isNumChar = t ∧ (t ++ r).dropWhile isNumChar = r := by
  rw [List.takeWhile_append_of_pos h.chars, List.dropWhile_append_of_pos h.chars]
  cases r with
  | nil => simp
  | cons c r =>
    have hc : ¬isNumChar c = true := by simp [hr c rfl]
    rw [List.takeWhile_cons_of_neg hc, List.dropWhile_cons_of_neg hc, List.append_nil]
    exact ⟨rfl, rfl⟩

/-- **A numeral is read as its number.** -/
theorem Numeral.reads {t : PyStr} (h : Numeral t) {v : Value} (hv : readNumeral t = some v) :
    Reads readAtom t v := by
  intro r hr
  obtain ⟨htake, hdrop⟩ := h.takeWhile hr
  rw [readAtom, h.not_constant]
  simp only [htake, hdrop, hv, Option.map_some]

/-- Digits and more, behind a sign. -/
theorem Integral.numeral {ip fr : PyStr} (h : Integral ip) (hfr : ∀ c ∈ fr, isNumChar c = true)
    (neg : Bool) : Numeral (signText neg ++ (ip ++ fr)) where
  chars c hc := by
    rcases List.mem_append.mp hc with hc | hc
    · cases neg with
      | true => rw [List.mem_singleton.mp hc]; decide
      | false => cases hc
    · exact (List.mem_append.mp hc).elim (fun hc => isNumChar_of_isDigit (h.digits c hc)) (hfr c)
  front := by
    obtain ⟨c, u, rfl⟩ := List.exists_cons_of_ne_nil h.ne_nil
    refine ⟨c, u ++ fr, h.digits c (.head _), ?_⟩
    cases neg with
    | true => exact .inr rfl
    | false => exact .inl rfl

theorem numeral_decimalInt (n : ℤ) : Numeral (decimalInt n) := by
  rw [decimalInt_eq]
  exact (integral_decimal _).numeral (by simp) _

theorem numeral_repr (neg : Bool) (a : Magnitude) : Numeral (PyFloat.repr (.finite neg a)) := by
  obtain ⟨ip, fr, hrepr, hip, hfr⟩ := repr_shape neg a
  rw [hrepr]
  exact hip.numeral hfr.chars neg

/-- A float is read back. -/
theorem reads_jsonFloat (x : PyFloat) : Reads readAtom (jsonFloat x) (.float x) := by
  cases x with
  | nan => exact fun r _ => rfl
  | inf neg => cases neg <;> exact fun r _ => rfl
  | finite neg a => exact (numeral_repr neg a).reads (readNumeral_repr neg a)

/-- An integer is read back. -/
theorem reads_decimalInt {n : ℤ} (h : n.natAbs < 10 ^ maxStrDigits) :
    Reads readAtom (decimalInt n) (.int n) :=
  (numeral_decimalInt n).reads (readNumeral_decimalInt h)

/-! ### Values -/

/-- The first character of an atom is of no other value. -/
def IsAtomic (t : PyStr) : Prop :=
  ∃ c u, t = c :: u ∧ isWs c = false ∧ c ≠ 0x5d ∧ c ≠ 0x7d ∧ c ≠ 0x22 ∧ c ≠ 0x7b ∧ c ≠ 0x5b

theorem Numeral.isAtomic {t : PyStr} (h : Numeral t) : IsAtomic t := by
  obtain ⟨c, u, hc, ht⟩ := h.front
  have hall : ∀ k : CodePoint, isDigit k = false → k ≠ c := by
    rintro k hk rfl
    rw [hc] at hk
    cases hk
  rcases ht with rfl | rfl
  · refine ⟨c, u, rfl, ?_, (hall _ (by decide)).symm, (hall _ (by decide)).symm,
      (hall _ (by decide)).symm, (hall _ (by decide)).symm, (hall _ (by decide)).symm⟩
    simp [isWs, (hall 0x20 (by decide)).symm, (hall 0x09 (by decide)).symm,
      (hall 0x0a (by decide)).symm, (hall 0x0d (by decide)).symm]
  · exact ⟨0x2d, c :: u, rfl, by decide, by decide, by decide, by decide, by decide, by decide⟩

theorem isAtomic_jsonFloat (x : PyFloat) : IsAtomic (jsonFloat x) := by
  cases x with
  | nan => exact ⟨0x4e, _, rfl, by decide⟩
  | inf neg =>
    cases neg with
    | true => exact ⟨0x2d, _, rfl, by decide⟩
    | false => exact ⟨0x49, _, rfl, by decide⟩
  | finite neg a => exact (numeral_repr neg a).isAtomic

theorem IsAtomic.starts {t : PyStr} (h : IsAtomic t) : Starts t := by
  obtain ⟨c, u, ht, hws, hbracket, hbrace, -⟩ := h
  exact ⟨c, u, ht, hws, hbracket, hbrace⟩

/-- What the reader of atoms reads, the reader of values reads. -/
theorem IsAtomic.reads {t : PyStr} (h : IsAtomic t) {v : Value} (hv : Reads readAtom t v) (n : ℕ) :
    Reads (readValue (n + 1)) t v := by
  obtain ⟨c, u, rfl, -, -, -, hquote, hbrace, hbracket⟩ := h
  intro r hr
  rw [List.cons_append, readValue, if_neg hquote, if_neg hbrace, if_neg hbracket]
  exact hv r hr

/-- A value starts with its own first character. -/
theorem starts_render (L : Style) (v : Value) (d : ℕ) : Starts (v.render L d) := by
  have hbracket : ∀ {op cl : CodePoint} (ts : List PyStr), isWs op = false → op ≠ 0x5d → op ≠ 0x7d →
      Starts (bracket L d op cl ts) := by
    intro op cl ts h₁ h₂ h₃
    cases ts with
    | nil => exact ⟨op, _, rfl, h₁, h₂, h₃⟩
    | cons t ts => exact ⟨op, _, rfl, h₁, h₂, h₃⟩
  cases v with
  | null => exact ⟨0x6e, _, rfl, by decide⟩
  | bool b =>
    cases b with
    | true => exact ⟨0x74, _, rfl, by decide⟩
    | false => exact ⟨0x66, _, rfl, by decide⟩
  | int n => exact (numeral_decimalInt n).isAtomic.starts
  | float x => exact (isAtomic_jsonFloat x).starts
  | str s => exact ⟨0x22, _, rfl, by decide⟩
  | arr vs => exact hbracket _ (by decide) (by decide) (by decide)
  | obj ms => exact hbracket _ (by decide) (by decide) (by decide)

theorem bracket_eq_cons (L : Style) (d : ℕ) (op cl : CodePoint) (ts : List PyStr) :
    bracket L d op cl ts = op :: (bracket L d op cl ts).tail := by
  cases ts <;> rfl

/-- Texts in brackets end with the closing one. -/
theorem getLast_bracket (L : Style) (d : ℕ) (op cl : CodePoint) (ts : List PyStr) :
    (bracket L d op cl ts).getLast? = some cl := by
  have htail : ∀ ts : List PyStr, ∃ u, tailText L d cl ts = u ++ [cl] := by
    intro ts
    induction ts with
    | nil => exact ⟨L.closing d, rfl⟩
    | cons t ts ih =>
      obtain ⟨u, hu⟩ := ih
      refine ⟨0x2c :: (L.between d ++ (t ++ u)), ?_⟩
      rw [tailText, hu]
      simp
  cases ts with
  | nil => rfl
  | cons t ts =>
    obtain ⟨u, hu⟩ := htail ts
    have hend : bracket L d op cl (t :: ts) = (op :: (L.opening d ++ (t ++ u))) ++ [cl] := by
      rw [bracket, hu]
      simp
    rw [hend, List.getLast?_concat]

/-- **The text of a value is read as the value**, given fuel for its length. -/
theorem reads_render (L : Style) (v : Value) : ∀ {d n : ℕ}, v.printable = true →
    (v.render L d).length ≤ n → Reads (readValue n) (v.render L d) v.joined := by
  have hfuel : ∀ {t : PyStr} {n : ℕ}, Starts t → t.length ≤ n → ∃ k, n = k + 1 := by
    rintro t n ⟨c, u, rfl, -⟩ hn
    exact ⟨n - 1, by simp at hn; omega⟩
  induction v with
  | null =>
    intro d n _ hn
    obtain ⟨n, rfl⟩ := hfuel (starts_render L .null d) hn
    exact fun r _ => rfl
  | bool b =>
    intro d n _ hn
    obtain ⟨n, rfl⟩ := hfuel (starts_render L (.bool b) d) hn
    cases b <;> exact fun r _ => rfl
  | int m =>
    intro d n hp hn
    obtain ⟨n, rfl⟩ := hfuel (starts_render L (.int m) d) hn
    have hlt : m.natAbs < 10 ^ maxStrDigits := by simpa [Value.printable] using hp
    exact (numeral_decimalInt m).isAtomic.reads (reads_decimalInt hlt) n
  | float x =>
    intro d n _ hn
    obtain ⟨n, rfl⟩ := hfuel (starts_render L (.float x) d) hn
    exact (isAtomic_jsonFloat x).reads (reads_jsonFloat x) n
  | str s =>
    intro d n _ hn r _
    obtain ⟨n, rfl⟩ := hfuel (starts_render L (.str s) d) hn
    have hread := readString_quote s r
    rw [Value.render]
    rw [quote, List.cons_append] at hread ⊢
    rw [readValue, if_pos rfl, hread]
    rfl
  | arr vs ih =>
    intro d n hp hn r _
    obtain ⟨n, rfl⟩ := hfuel (starts_render L (.arr vs) d) hn
    rw [Value.render, itemTexts_eq] at hn ⊢
    have hreads : ∀ v ∈ vs, Reads (readValue n) (v.render L (d + 1)) v.joined := fun v hv => by
      refine ih v hv (printable_arr.mp hp v hv)
        (Nat.le_of_lt_succ ((length_lt_bracket ?_).trans_le hn))
      exact List.mem_map_of_mem hv
    have hbody := readBracket_bracket (L := L) (d := d) (.inl rfl) 0x5b hreads
      (fun v _ => starts_render L v (d + 1)) r
    rw [bracket_eq_cons, List.cons_append, readValue, if_neg (by decide), if_neg (by decide),
      if_pos rfl, hbody, Option.map_some, Value.joined, rebuild_arr]
    rfl
  | obj ms ih =>
    intro d n hp hn r _
    obtain ⟨n, rfl⟩ := hfuel (starts_render L (.obj ms) d) hn
    rw [Value.render, memberTexts_eq] at hn ⊢
    have hreads : ∀ m ∈ ms, Reads (readEntry (readValue n))
        (memberText L m.1 (m.2.render L (d + 1))) (joinPairs m.1, m.2.joined) := fun m hm => by
      refine reads_memberText (ih m hm (printable_obj.mp hp m hm) ?_) (starts_render L _ _) _
      have hlt := (length_lt_bracket (List.mem_map_of_mem hm)).trans_le hn
      simp only [memberText, List.length_append, List.length_cons] at hlt
      omega
    have hbody := readBracket_bracket (L := L) (d := d) (.inr rfl) 0x7b hreads
      (fun m _ => starts_memberText _ _) r
    rw [bracket_eq_cons, List.cons_append, readValue, if_neg (by decide), if_pos rfl, hbody,
      Option.map_some, Value.joined, rebuild_obj]
    rfl

/-- **The text of a value is read as the value**, surrogate pairs joined. -/
theorem parse_render (L : Style) {v : Value} (h : v.printable = true) :
    parse (v.render L 0) = some v.joined := by
  have hread := reads_render L v h (Nat.le_succ (v.render L 0).length) [] stops_nil
  have hskip := (starts_render L v 0).skipWs []
  rw [List.append_nil] at hread hskip
  rw [parse, hskip, hread]
  rfl

/-! ### Joined texts -/

/-- A surrogate is escaped as its unit. -/
theorem escapeChar_surrogate {c : CodePoint} (h : 0xd800 ≤ c.val) (h' : c.val < 0x10000) :
    escapeChar c = unicodeEscape c.val := by
  cases hl : shortEscapes.lookup c with
  | some e =>
    have hall : shortEscapes.all (fun p => decide (p.1.val < 0xd800)) = true := by decide
    have hlt := of_decide_eq_true (List.all_eq_true.mp hall _ (mem_shortEscapes hl))
    exact absurd h (Nat.not_le.mpr hlt)
  | none =>
    simp only [escapeChar, hl]
    rw [if_neg (by omega), if_pos h']

/-- The units of a character beyond the basic plane are its escapes. -/
theorem escapeChar_astral {c d e : CodePoint} (hc : 0xd800 ≤ c.val) (hc' : c.val < 0xdc00)
    (hd : 0xdc00 ≤ d.val) (hd' : d.val < 0xe000)
    (he : e.val = 0x10000 + 1024 * (c.val - 0xd800) + (d.val - 0xdc00)) :
    escapeChar e = escapeChar c ++ escapeChar d := by
  rw [escapeChar_surrogate (c := c) hc (by omega),
    escapeChar_surrogate (c := d) (by omega) (by omega)]
  have hhigh : 0xd800 + (e.val - 0x10000) / 1024 = c.val := by omega
  have hlow : 0xdc00 + (e.val - 0x10000) % 1024 = d.val := by omega
  cases hl : shortEscapes.lookup e with
  | some e' =>
    have hlt := (shortEscapes_spec _ (mem_shortEscapes hl)).2.2
    dsimp only at hlt
    omega
  | none =>
    simp only [escapeChar, hl]
    rw [if_neg (by omega), if_neg (by omega), hhigh, hlow]

/-- The two halves of a pair are escaped as the character they are. -/
theorem escapeChar_pair {c d : CodePoint} (h : (isHigh c && isLow d) = true) :
    escapeChar (Fin.ofNat 0x110000 (0x10000 + 1024 * (c.val - 0xd800) + (d.val - 0xdc00))) =
      escapeChar c ++ escapeChar d := by
  simp only [isHigh, isLow, Bool.and_eq_true, decide_eq_true_eq] at h
  obtain ⟨⟨hc, hc'⟩, hd, hd'⟩ := h
  refine escapeChar_astral hc (by omega) hd (by omega) ?_
  rw [Fin.val_ofNat, Nat.mod_eq_of_lt (by omega)]

/-- Joining changes no escape. -/
theorem quote_joinPairs (s : PyStr) : quote (joinPairs s) = quote s := by
  have hescapes : (joinPairs s).flatMap escapeChar = s.flatMap escapeChar := by
    induction s using joinPairs.induct with
    | case1 => rfl
    | case2 c => rfl
    | case3 c d s hpair ih =>
      rw [joinPairs, if_pos hpair, List.flatMap_cons, escapeChar_pair hpair, ih, List.flatMap_cons,
        List.flatMap_cons, List.append_assoc]
    | case4 c d s hpair ih =>
      rw [joinPairs, if_neg hpair, List.flatMap_cons, ih]
      rfl
  rw [quote, hescapes, quote]

/-- **Joining changes no text.** -/
theorem render_joined (L : Style) (v : Value) : ∀ d, v.joined.render L d = v.render L d := by
  induction v with
  | null => exact fun _ => rfl
  | bool b => exact fun _ => rfl
  | int n => exact fun _ => rfl
  | float x => exact fun _ => rfl
  | str s => exact fun _ => quote_joinPairs s
  | arr vs ih =>
    intro d
    rw [Value.joined, rebuild_arr, Value.render, Value.render, itemTexts_eq, itemTexts_eq,
      List.map_map]
    exact congrArg _ (List.map_congr_left fun v hv => ih v hv (d + 1))
  | obj ms ih =>
    intro d
    rw [Value.joined, rebuild_obj, Value.render, Value.render, memberTexts_eq, memberTexts_eq,
      id_eq, List.map_map]
    refine congrArg _ (List.map_congr_left fun m hm => ?_)
    exact congrArg₂ (fun q t => q ++ 0x3a :: (L.afterColon ++ t)) (quote_joinPairs m.1)
      (ih m hm (d + 1))

end Json
end Python
end SovereignSeed
