import SovereignSeed.Python.JsonPrefix
import SovereignSeed.Python.Utf8

/-!
# Files that are read while they grow

What a reader of text makes of a beginning of a file that another program is writing: the
cut may fall inside the octets of a character, inside an object, or behind it.  With
`errors="ignore"` an octet form that is cut off is dropped, so the reader has a beginning
of the text; and an object that is cut off is not read.

## Main definitions

* `takeOctets` — the characters whose octets are all within a beginning.

## Main results

* `decode_take` — **a beginning of a file is read as a beginning of its text.**
* `takeOctets_append` — where a beginning of two texts ends.
* `load_eq_none_of_load_append` — **what begins an object and is not all of it is no value.**
-/

namespace SovereignSeed
namespace Python

/-! ### Cut off inside a character -/

/-- The characters of a text whose octets are all among the first `n`. -/
def takeOctets : ℕ → PyStr → PyStr
  | _, [] => []
  | n, c :: s =>
    if (utf8Units c.val).length ≤ n then c :: takeOctets (n - (utf8Units c.val).length) s else []

theorem takeOctets_nil (n : ℕ) : takeOctets n [] = [] := by cases n <;> rfl

theorem takeOctets_isPrefix (s : PyStr) : ∀ n, takeOctets n s <+: s := by
  induction s with
  | nil =>
    intro n
    rw [takeOctets_nil]
  | cons c s ih =>
    intro n
    rw [takeOctets]
    split
    · exact List.prefix_cons_inj c |>.mpr (ih _)
    · exact List.nil_prefix

/-- The number of octets of a text. -/
theorem length_utf8_cons (c : CodePoint) (s : PyStr) :
    (utf8 (c :: s)).length = (utf8Units c.val).length + (utf8 s).length := by
  simp [utf8]

/-- **Where a beginning of two texts ends**: behind the first one, or inside it. -/
theorem takeOctets_append (t s : PyStr) : ∀ n, takeOctets n (s ++ t) =
    if (utf8 s).length ≤ n then s ++ takeOctets (n - (utf8 s).length) t else takeOctets n s := by
  induction s with
  | nil =>
    intro n
    simp [utf8]
  | cons c s ih =>
    intro n
    rw [List.cons_append, takeOctets, takeOctets, length_utf8_cons, ih]
    by_cases hc : (utf8Units c.val).length ≤ n
    · by_cases hs : (utf8 s).length ≤ n - (utf8Units c.val).length
      · rw [if_pos hc, if_pos hs, if_pos (by omega), Nat.sub_sub, List.cons_append]
      · rw [if_pos hc, if_neg hs, if_neg (by omega), if_pos hc]
    · rw [if_neg hc, if_neg (by omega), if_neg hc]

/-- A text is all there once its octets are. -/
theorem takeOctets_eq_self_iff {s : PyStr} {n : ℕ} : takeOctets n s = s ↔ (utf8 s).length ≤ n := by
  induction s generalizing n with
  | nil => simp [takeOctets_nil, utf8]
  | cons c s ih =>
    rw [takeOctets, length_utf8_cons]
    split
    · next hc =>
      rw [List.cons_inj_right, ih]
      omega
    · next hc =>
      refine iff_of_false (List.cons_ne_nil c s).symm ?_
      omega

/-- A form that is cut off is dropped. -/
theorem decodeFrom_torn {c : CodePoint} (h : isSurrogate c = false) {n : ℕ}
    (hn : n < (utf8Units c.val).length) :
    decodeFrom true none ((utf8Units c.val).take n) = some [] := by
  have hc := c.isLt
  simp only [isSurrogate, isHigh, isLow, Bool.or_eq_false_iff, Bool.and_eq_false_iff,
    decide_eq_false_iff_not] at h
  unfold utf8Units at hn ⊢
  split
  · next h1 =>
    rw [if_pos h1, List.length_singleton, Nat.lt_one_iff] at hn
    rw [hn]
    rfl
  next h1 =>
  rw [if_neg h1] at hn
  split
  · next h2 =>
    rw [if_pos h2] at hn
    obtain rfl | rfl : n = 0 ∨ n = 1 := by simp at hn; omega
    · rfl
    · rw [List.take_succ_cons, List.take_zero,
        decodeFrom_open (accept_lead_two (by omega) h2) one_ne_zero]
      rfl
  next h2 =>
  rw [if_neg h2] at hn
  split
  · next h3 =>
    rw [if_pos h3] at hn
    have hlow : (if c.val < 0x1000 then 0xa0 else 0x80) ≤ 0x80 + c.val / 64 % 64 := by
      split <;> omega
    have hhigh : 0x80 + c.val / 64 % 64 ≤ if c.val / 64 / 64 = 13 then 0x9f else 0xbf := by
      split <;> omega
    obtain rfl | rfl | rfl : n = 0 ∨ n = 1 ∨ n = 2 := by simp at hn; omega
    · rfl
    · rw [List.take_succ_cons, List.take_zero, decodeFrom_open (accept_lead_three h3) two_ne_zero]
      rfl
    · rw [List.take_succ_cons, List.take_succ_cons, List.take_zero,
        decodeFrom_open (accept_lead_three h3) two_ne_zero, decodeFrom_middle hlow hhigh (by simp)]
      rfl
  · next h3 =>
    rw [if_neg h3] at hn
    have hlow : (if c.val < 0x40000 then 0x90 else 0x80) ≤ 0x80 + c.val / 64 / 64 % 64 := by
      split <;> omega
    have hhigh : 0x80 + c.val / 64 / 64 % 64 ≤ if c.val / 64 / 64 / 64 = 4 then 0x8f else 0xbf := by
      split <;> omega
    obtain rfl | rfl | rfl | rfl : n = 0 ∨ n = 1 ∨ n = 2 ∨ n = 3 := by simp at hn; omega
    · rfl
    · rw [List.take_succ_cons, List.take_zero, decodeFrom_open (accept_lead_four hc) three_ne_zero]
      rfl
    · rw [List.take_succ_cons, List.take_succ_cons, List.take_zero,
        decodeFrom_open (accept_lead_four hc) three_ne_zero, decodeFrom_middle hlow hhigh (by simp)]
      rfl
    · rw [List.take_succ_cons, List.take_succ_cons, List.take_succ_cons, List.take_zero,
        decodeFrom_open (accept_lead_four hc) three_ne_zero, decodeFrom_middle hlow hhigh (by simp),
        decodeFrom_middle (by simp only; omega) (by simp only; omega) (by simp)]
      rfl

/-- **A beginning of a file is read as a beginning of its text.** -/
theorem decode_take {s : PyStr} (h : IsScalar s) (n : ℕ) :
    decode true ((utf8 s).take n) = some (takeOctets n s) := by
  rw [decode, List.map_take, toNat_utf8]
  induction s generalizing n with
  | nil =>
    rw [takeOctets_nil, List.flatMap_nil, List.take_nil]
    rfl
  | cons c s ih =>
    rw [IsScalar, List.any_cons, Bool.or_eq_false_iff] at h
    rw [List.flatMap_cons, List.take_append, takeOctets]
    split
    · next hn =>
      rw [List.take_of_length_le hn, decodeFrom_units h.1, ih h.2]
      rfl
    · next hn =>
      rw [Nat.sub_eq_zero_of_le (by omega), List.take_zero, List.append_nil,
        decodeFrom_torn h.1 (by omega)]

/-- The text of a beginning of a file without returns. -/
theorem readText_take {s : PyStr} (h : IsScalar s) (hreturn : ∀ c ∈ s, c ≠ 0x0d) (n : ℕ) :
    readText true ((utf8 s).take n) = some (takeOctets n s) := by
  have hkept : ∀ c ∈ takeOctets n s, c ≠ 0x0d := fun c hc =>
    hreturn c ((takeOctets_isPrefix s n).subset hc)
  rw [readText, decode_take h, Option.map_some, universalNewlines_eq_self hkept]

/-! ### Cut off inside an object -/

namespace Json

/-- What begins with a brace is an object, if it is a value. -/
theorem exists_obj_of_load {s : PyStr} {v : Value} (hs : s.head? = some 0x7b)
    (h : load s = some v) : ∃ ms, v = .obj ms := by
  obtain ⟨u, hu, rfl⟩ := Option.map_eq_some_iff.mp h
  obtain ⟨s, rfl⟩ : ∃ t, s = 0x7b :: t := by
    cases s with
    | nil => cases hs
    | cons c t =>
      cases hs
      exact ⟨t, rfl⟩
  rw [parse, skipWs_cons (by decide)] at hu
  split at hu
  · next w rest hread =>
    rw [List.length_cons, readValue, if_neg (by decide), if_pos rfl] at hread
    obtain ⟨⟨ms, r⟩, -, heq⟩ := Option.map_eq_some_iff.mp hread
    cases heq
    split at hu
    · cases hu
      rw [Value.dict, rebuild_obj]
      exact ⟨_, rfl⟩
    · cases hu
  · cases hu

/-- An object is read up to its brace, so behind a whole one there is only white space. -/
theorem parse_append_of_parse {s q : PyStr} {v w : Value} (hs : s.head? = some 0x7b)
    (h : parse s = some v) (hq : parse (s ++ q) = some w) : skipWs q = [] := by
  obtain ⟨s, rfl⟩ : ∃ t, s = 0x7b :: t := by
    cases s with
    | nil => cases hs
    | cons c t =>
      cases hs
      exact ⟨t, rfl⟩
  unfold parse at h hq
  rw [skipWs_cons (by decide)] at h
  rw [List.cons_append, skipWs_cons (by decide)] at hq
  split at h
  · next u rest hread =>
    have hwhole := readValue_brace_append (extends_readValue
      (show s.length + 1 ≤ (s ++ q).length + 1 by simp)) hread q
    rw [List.length_cons, hwhole] at hq
    split at h
    · next hrest =>
      dsimp only at hq
      split at hq
      · next hall =>
        -- the rest is white space, and so is what is behind it
        have hws := List.dropWhile_eq_nil_iff.mp hall
        exact List.dropWhile_eq_nil_iff.mpr fun c hc => hws c (List.mem_append_right _ hc)
      · cases hq
    · cases h
  · cases h

/-- **What begins an object and is not all of it is no value.** -/
theorem load_eq_none_of_load_append {s q : PyStr} {w : Value} (hs : s.head? = some 0x7b)
    (hq : skipWs q ≠ []) (h : load (s ++ q) = some w) : load s = none := by
  obtain ⟨v, hv, -⟩ := Option.map_eq_some_iff.mp h
  cases hparse : parse s with
  | none => rw [load, hparse, Option.map_none]
  | some u => exact absurd (parse_append_of_parse hs hparse hv) hq

end Json

end Python
end SovereignSeed
