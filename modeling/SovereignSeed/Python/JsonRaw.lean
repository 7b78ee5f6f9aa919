import SovereignSeed.Python.JsonBytes

/-!
# Strings put into JSON as they are

A program that writes JSON by a template puts its strings between quotation marks without
escaping them.  The reader gives such a string back if it has neither a quotation mark nor a
backslash nor a control character, and in no other case: not even by way of a mark that is
escaped and a string that ends further on.

A reader takes at least as many characters as the shortest text of what it reads has, so a
text cannot hold much more than the members one sees in it.

## Main definitions

* `rawString`, `rawMember`, `rawObject` — the template; `IsPlain` — strings it is good for.
* `Value.size`, `memberSize` — the shortest texts.

## Main results

* `plain_of_readString`, `readString_raw` — **a raw string is read back exactly if it is
  plain.**
* `size_le_of_readValue`, `sizes_le_of_readSeq` — reading takes at least the sizes.
* `load_rawObject` — **the template is read back from plain strings.**
-/

namespace SovereignSeed
namespace Python
namespace Json

/-! ### The template -/

/-- `"s"`. -/
def rawString (s : PyStr) : PyStr := 0x22 :: (s ++ [0x22])

/-- `"k": t`. -/
def rawMember (m : PyStr × PyStr) : PyStr := rawString m.1 ++ 0x3a :: 0x20 :: m.2

/-- `{"k": t, …}`, given the texts of the values. -/
def rawObject (ms : List (PyStr × PyStr)) : PyStr :=
  bracket .spaced 0 0x7b 0x7d (ms.map rawMember)

/-- A text without quotation marks, backslashes and control characters. -/
def IsPlain (s : PyStr) : Prop := ∀ c ∈ s, c ≠ 0x22 ∧ c ≠ 0x5c ∧ 0x20 ≤ c.val

instance (s : PyStr) : Decidable (IsPlain s) :=
  decidable_of_iff (s.all fun c => decide (c ≠ 0x22 ∧ c ≠ 0x5c ∧ 0x20 ≤ c.val))
    (by simp only [List.all_eq_true, decide_eq_true_eq, IsPlain])

theorem isPrint_of_mem_rawString {s : PyStr} {c : CodePoint} (h : c ∈ rawString s) :
    c ∈ s ∨ isPrint c = true := by
  rcases List.mem_cons.mp h with rfl | h
  · exact .inr (by decide)
  rcases List.mem_append.mp h with h | h
  · exact .inl h
  · rw [List.mem_singleton.mp h]
    exact .inr (by decide)

/-- Around a key and a value the template puts printable characters. -/
theorem isPrint_of_mem_rawMember {m : PyStr × PyStr} {c : CodePoint} (h : c ∈ rawMember m) :
    c ∈ m.1 ∨ c ∈ m.2 ∨ isPrint c = true := by
  rcases List.mem_append.mp h with h | h
  · exact (isPrint_of_mem_rawString h).imp_right .inr
  rcases List.mem_cons.mp h with rfl | h
  · exact .inr (.inr (by decide))
  rcases List.mem_cons.mp h with rfl | h
  · exact .inr (.inr (by decide))
  · exact .inr (.inl h)

/-! ### Reading a raw string -/

/-- A plain string is read up to the mark behind it. -/
theorem readBody_plain (r : PyStr) : ∀ {s : PyStr}, IsPlain s →
    readBody (s ++ 0x22 :: r) = some (s, r) := by
  intro s
  induction s with
  | nil =>
    intro _
    rw [List.nil_append, readBody_mark]
  | cons c s ih =>
    intro h
    obtain ⟨hquote, hslash, hcontrol⟩ := h c (.head _)
    rw [List.cons_append, readBody_char hquote hslash (by omega),
      ih fun d hd => h d (.tail _ hd)]
    rfl

/-- **A plain string is read back.** -/
theorem readString_raw {s : PyStr} (h : IsPlain s) (hscalar : IsScalar s) (r : PyStr) :
    readString (rawString s ++ r) = some (s, r) := by
  have hjoin := (joinPairs_eq_self_iff s).mpr (hasPair_of_isScalar hscalar)
  rw [rawString, List.cons_append, List.append_assoc, readString, List.singleton_append,
    readBody_plain r h, Option.map_some, hjoin]

/-- Joining halves leaves the quotation marks. -/
theorem count_joinPairs (s : PyStr) : (joinPairs s).count 0x22 = s.count 0x22 := by
  induction s using joinPairs.induct with
  | case1 => rfl
  | case2 c => rfl
  | case3 c d s hpair ih =>
    rw [joinPairs, if_pos hpair]
    simp only [isHigh, isLow, Bool.and_eq_true, decide_eq_true_eq] at hpair
    obtain ⟨⟨hc, hc'⟩, hd, hd'⟩ := hpair
    have hval : (Fin.ofNat 0x110000
        (0x10000 + 1024 * (c.val - 0xd800) + (d.val - 0xdc00))).val =
          0x10000 + 1024 * (c.val - 0xd800) + (d.val - 0xdc00) :=
      Nat.mod_eq_of_lt (by omega)
    have hne : ∀ e : CodePoint, 0x22 < e.val → e ≠ 0x22 := by
      rintro e he rfl
      exact absurd he (by decide)
    rw [List.count_cons_of_ne (hne _ (by omega)), List.count_cons_of_ne (hne c (by omega)),
      List.count_cons_of_ne (hne d (by omega)), ih]
  | case4 c d s hpair ih =>
    rw [joinPairs, if_neg hpair, List.count_cons, List.count_cons, ih]

/-- Hexadecimal digits are not characters without a value. -/
theorem ne_of_hexVal4 {x a b c d : CodePoint} {u : ℕ} (hx : hexVal x = none)
    (h : hexVal4 a b c d = some u) : a ≠ x ∧ b ≠ x ∧ c ≠ x ∧ d ≠ x := by
  unfold hexVal4 at h
  split at h
  · next ha hb hc hd =>
    refine ⟨?_, ?_, ?_, ?_⟩ <;> rintro rfl
    · rw [hx] at ha
      cases ha
    · rw [hx] at hb
      cases hb
    · rw [hx] at hc
      cases hc
    · rw [hx] at hd
      cases hd
  · cases h

/-- What has been read stands before the mark that ends it.  Every other quotation mark there
is escaped, and an escape is longer than its character. -/
theorem split_of_readBody {u t r : PyStr} (h : readBody u = some (t, r)) :
    ∃ c, u = c ++ 0x22 :: r ∧ c.count 0x22 ≤ t.count 0x22 ∧ t.length ≤ c.length ∧
      (t.length = c.length → t = c ∧ IsPlain c) := by
  refine readBody_rec (P := fun u t r => ∃ c, u = c ++ 0x22 :: r ∧ c.count 0x22 ≤ t.count 0x22 ∧
    t.length ≤ c.length ∧ (t.length = c.length → t = c ∧ IsPlain c)) ?_ ?_ ?_ ?_ h
  · exact fun r => ⟨[], rfl, le_rfl, le_rfl, fun _ => ⟨rfl, List.forall_mem_nil _⟩⟩
  · rintro h1 h2 h3 h4 x s t r hx ⟨c, rfl, hcount, hlen, -⟩
    obtain ⟨hd1, hd2, hd3, hd4⟩ :=
      ne_of_hexVal4 (show hexVal 0x22 = none by decide) hx
    refine ⟨0x5c :: 0x75 :: h1 :: h2 :: h3 :: h4 :: c, rfl, ?_, ?_, fun heq => ?_⟩
    · rw [List.count_cons_of_ne (by decide), List.count_cons_of_ne (by decide),
        List.count_cons_of_ne hd1, List.count_cons_of_ne hd2, List.count_cons_of_ne hd3,
        List.count_cons_of_ne hd4]
      exact hcount.trans List.count_le_count_cons
    · simp only [List.length_cons]
      omega
    · simp only [List.length_cons] at heq
      omega
  · rintro e x s t r hlookup ⟨c, rfl, hcount, hlen, -⟩
    refine ⟨0x5c :: e :: c, rfl, ?_, ?_, fun heq => ?_⟩
    · rw [List.count_cons_of_ne (by decide)]
      by_cases he : e = 0x22
      · -- an escaped mark is one mark
        subst he
        obtain rfl : (0x22 : CodePoint) = x := Option.some.inj hlookup
        rw [List.count_cons_self, List.count_cons_self]
        exact Nat.succ_le_succ hcount
      · rw [List.count_cons_of_ne he]
        exact hcount.trans List.count_le_count_cons
    · simp only [List.length_cons]
      omega
    · simp only [List.length_cons] at heq
      omega
  · rintro x s t r hquote hslash hlow ⟨c, rfl, hcount, hlen, hsame⟩
    refine ⟨x :: c, rfl, ?_, Nat.succ_le_succ hlen, fun heq => ?_⟩
    · rw [List.count_cons_of_ne hquote, List.count_cons_of_ne hquote]
      exact hcount
    · obtain ⟨rfl, hplain⟩ := hsame (Nat.succ.inj heq)
      exact ⟨rfl, List.forall_mem_cons.mpr ⟨⟨hquote, hslash, Nat.not_lt.mp hlow⟩, hplain⟩⟩

/-- **A raw string is read back exactly if it is plain.** -/
theorem plain_of_readString {s q r : PyStr} (h : readString (rawString s ++ q) = some (s, r)) :
    IsPlain s ∧ r = q := by
  rw [rawString, List.cons_append, List.append_assoc, List.singleton_append, readString] at h
  obtain ⟨⟨t, r'⟩, ht, heq⟩ := Option.map_eq_some_iff.mp h
  obtain ⟨hjoin, rfl⟩ := Prod.mk.inj heq
  dsimp only at hjoin ht
  obtain ⟨c, hsplit, hcount, hlen, hsame⟩ := split_of_readBody ht
  have hmarks : s.count 0x22 = t.count 0x22 := by rw [← hjoin, count_joinPairs]
  have hshort : s.length ≤ t.length := by
    rw [← hjoin]
    exact joinPairs_length_le t
  rcases List.append_eq_append_iff.mp hsplit with ⟨w, rfl, hw⟩ | ⟨w, rfl, hw⟩
  · cases w with
    | nil =>
      rw [List.append_nil] at hlen hsame
      obtain ⟨-, hplain⟩ := hsame (by omega)
      exact ⟨hplain, (List.cons.inj hw).2.symm⟩
    | cons x w =>
      -- the mark behind the string would be escaped
      obtain ⟨rfl, -⟩ := List.cons.inj hw
      rw [List.count_append, List.count_cons_self] at hcount
      omega
  · rw [List.length_append] at hshort
    obtain rfl : w = [] := List.eq_nil_of_length_eq_zero (by omega)
    rw [List.length_nil, Nat.add_zero] at hshort
    rw [List.append_nil]
    obtain ⟨-, hplain⟩ := hsame (by omega)
    exact ⟨hplain, (List.cons.inj hw).2⟩

/-! ### Sizes -/

/-- The length of the shortest text of an integer or a string; at least one for all others. -/
def Value.size : Value → ℕ
  | .int n => (decimalInt n).length
  | .str s => s.length + 2
  | _ => 1

/-- The length of the shortest text of a member. -/
def memberSize (m : PyStr × Value) : ℕ := m.1.length + 3 + m.2.size

theorem size_pos (v : Value) : 0 < v.size := by
  cases v with
  | int n =>
    have hdecimal := List.length_pos_of_ne_nil (decimal_ne_nil n.natAbs)
    rw [Value.size, decimalInt]
    split
    · rw [List.length_append]
      omega
    · exact hdecimal
  | str s => exact Nat.succ_pos _
  | _ => exact Nat.one_pos

theorem length_skipWs_le (s : PyStr) : (skipWs s).length ≤ s.length :=
  (List.dropWhile_suffix _).length_le

/-- A string takes its length and its marks. -/
theorem length_le_of_readString {s t r : PyStr} (h : readString s = some (t, r)) :
    t.length + 2 + r.length ≤ s.length := by
  unfold readString at h
  split at h
  · obtain ⟨⟨t', r'⟩, ht, heq⟩ := Option.map_eq_some_iff.mp h
    cases heq
    obtain ⟨c, hsplit, -, hlen, -⟩ := split_of_readBody ht
    have hjoin := joinPairs_length_le t'
    dsimp only
    rw [List.length_cons, hsplit, List.length_append, List.length_cons]
    omega
  · cases h

/-- A row of digits is as long as the numeral of its number, or longer. -/
theorem length_decimal_le {s : PyStr} (h : ∀ c ∈ s, isDigit c = true) (hne : s ≠ []) :
    (decimal (ofDigits s)).length ≤ s.length := by
  have hlt : ∀ {s : PyStr}, (∀ c ∈ s, isDigit c = true) → ofDigits s < 10 ^ s.length := by
    intro s
    induction s using List.reverseRecOn with
    | nil => exact fun _ => by decide
    | append_singleton s c ih =>
      intro h
      have hs := ih fun d hd => h d (List.mem_append_left _ hd)
      have hc : isDigit c = true := h c (List.mem_append_right _ (.head _))
      simp only [isDigit, Bool.and_eq_true, decide_eq_true_eq] at hc
      rw [ofDigits_append_singleton, List.length_append, List.length_singleton, pow_succ]
      omega
  rw [decimal]
  split
  · exact List.length_pos_of_ne_nil hne
  · rw [List.length_map, List.length_reverse, Nat.digits_length_le_iff (by decide)]
    exact hlt h

theorem length_decimalInt_neg (n : ℕ) : (decimalInt (-n)).length ≤ (decimal n).length + 1 := by
  have hone : (text "-").length = 1 := rfl
  unfold decimalInt
  split
  · rw [List.length_append, hone, Int.natAbs_neg, Int.natAbs_natCast]
    omega
  · rw [Int.natAbs_neg, Int.natAbs_natCast]
    omega

theorem size_le_of_readNumeral {t : PyStr} {v : Value} (h : readNumeral t = some v) :
    v.size ≤ t.length := by
  unfold readNumeral at h
  extract_lets neg unsigned ip tail at h
  have hip : ip.length ≤ unsigned.length := (List.takeWhile_prefix _).length_le
  have hdigits : ∀ c ∈ ip, isDigit c = true := fun c hc => List.mem_takeWhile_imp hc
  have hsign : unsigned.length + neg.toNat ≤ t.length := by
    cases t with
    | nil => exact Nat.le_refl 0
    | cons c t =>
      by_cases hc : c = 0x2d
      · simp [unsigned, neg, hc]
      · simp [unsigned, neg, hc]
  split at h
  · cases h
  next hleading =>
  have hne : ip ≠ [] := fun hnil => hleading (.inl hnil)
  have hlong := length_decimal_le hdigits hne
  split at h
  · split at h
    · cases h
    cases h
    rw [Value.size]
    cases hneg : neg with
    | true =>
      have hminus := length_decimalInt_neg (ofDigits ip)
      rw [hneg] at hsign
      rw [if_pos rfl]
      dsimp only [Bool.toNat, cond_true] at hsign
      omega
    | false =>
      have hplus : decimalInt (ofDigits ip : ℤ) = decimal (ofDigits ip) := by
        rw [decimalInt, if_neg (by omega), Int.natAbs_natCast]
      rw [if_neg (by decide), hplus]
      omega
  split at h
  · obtain ⟨x, -, rfl⟩ := Option.map_eq_some_iff.mp h
    have hpos := List.length_pos_of_ne_nil hne
    have hone : (Value.float x).size = 1 := rfl
    omega
  · cases h

theorem size_le_of_readAtom {s r : PyStr} {v : Value} (h : readAtom s = some (v, r)) :
    v.size + r.length ≤ s.length := by
  unfold readAtom at h
  split at h
  · next w hw =>
    cases h
    have hprefix : w.1 <+: s := by
      have hpred := List.find?_some hw
      exact List.isPrefixOf_iff_prefix.mp (by simpa using hpred)
    have hword : w.2.size = 1 ∧ 0 < w.1.length := by
      have hmem := List.mem_of_find?_eq_some hw
      simp only [constants, List.mem_cons, List.not_mem_nil, or_false] at hmem
      rcases hmem with rfl | rfl | rfl | rfl | rfl | rfl <;> exact ⟨rfl, by decide⟩
    have hle := hprefix.length_le
    rw [List.length_drop]
    omega
  · obtain ⟨u, hu, heq⟩ := Option.map_eq_some_iff.mp h
    cases heq
    have hsize := size_le_of_readNumeral hu
    have hsplit := congrArg List.length (List.takeWhile_append_dropWhile (p := isNumChar) (l := s))
    rw [List.length_append] at hsplit
    omega

section Readers

variable {α : Type} {read : PyStr → Option (α × PyStr)} {cl : CodePoint} {f : α → ℕ}

/-- A row takes its items, and a comma or a bracket behind each. -/
theorem sizes_le_of_readSeq
    (hread : ∀ s a r, read s = some (a, r) → f a + r.length ≤ s.length) :
    ∀ {n : ℕ} {s r : PyStr} {as : List α}, readSeq read cl n s = some (as, r) →
      (as.map fun a => f a + 1).sum + r.length ≤ s.length := by
  intro n
  induction n with
  | zero => exact nofun
  | succ n ih =>
    intro s r as h
    rw [readSeq] at h
    obtain ⟨⟨a, q⟩, hq, h⟩ := Option.bind_eq_some_iff.mp h
    have hfirst := hread _ _ _ hq
    have hskip := length_skipWs_le q
    dsimp only at h
    split at h
    · cases h
    next c rest hrest =>
    rw [hrest, List.length_cons] at hskip
    split at h
    · cases h
      rw [List.map_singleton, List.sum_singleton]
      omega
    split at h
    · obtain ⟨⟨as', r'⟩, has, heq⟩ := Option.map_eq_some_iff.mp h
      cases heq
      have hothers := ih has
      have hskip' := length_skipWs_le rest
      rw [List.map_cons, List.sum_cons]
      dsimp only at hothers ⊢
      omega
    · cases h

theorem sizes_le_of_readBracket
    (hread : ∀ s a r, read s = some (a, r) → f a + r.length ≤ s.length) {s r : PyStr}
    {as : List α} (h : readBracket read cl s = some (as, r)) :
    (as.map fun a => f a + 1).sum + r.length ≤ s.length := by
  have hskip := length_skipWs_le s
  unfold readBracket at h
  split at h
  · cases h
  next c rest hrest =>
  rw [hrest] at hskip
  split at h
  · cases h
    rw [List.length_cons] at hskip
    rw [List.map_nil, List.sum_nil]
    omega
  · exact (sizes_le_of_readSeq hread h).trans hskip

end Readers

theorem size_le_of_readEntry {read : PyStr → Option (Value × PyStr)}
    (hread : ∀ s v r, read s = some (v, r) → v.size + r.length ≤ s.length) {s r : PyStr}
    {m : PyStr × Value} (h : readEntry read s = some (m, r)) :
    memberSize m + r.length ≤ s.length := by
  unfold readEntry at h
  obtain ⟨⟨k, q⟩, hk, h⟩ := Option.bind_eq_some_iff.mp h
  have hkey := length_le_of_readString hk
  have hskip := length_skipWs_le q
  dsimp only at h
  split at h
  · cases h
  next c rest hrest =>
  rw [hrest, List.length_cons] at hskip
  split at h
  · obtain ⟨⟨v, r'⟩, hv, heq⟩ := Option.map_eq_some_iff.mp h
    cases heq
    have hvalue := hread _ _ _ hv
    have hskip' := length_skipWs_le rest
    rw [memberSize]
    dsimp only at hvalue ⊢
    omega
  · cases h

/-- **A value takes its size.** -/
theorem size_le_of_readValue : ∀ {n : ℕ} {s r : PyStr} {v : Value},
    readValue n s = some (v, r) → v.size + r.length ≤ s.length := by
  intro n
  induction n with
  | zero => exact nofun
  | succ n ih =>
    intro s r v h
    cases s with
    | nil => cases h
    | cons c s =>
      rw [readValue] at h
      split at h
      · obtain ⟨⟨t, r'⟩, ht, heq⟩ := Option.map_eq_some_iff.mp h
        cases heq
        exact length_le_of_readString ht
      split at h
      · obtain ⟨⟨ms, r'⟩, hms, heq⟩ := Option.map_eq_some_iff.mp h
        cases heq
        have hsizes := sizes_le_of_readBracket (f := memberSize)
          (fun s m r hm => size_le_of_readEntry (fun _ _ _ hv => ih hv) hm) hms
        have hone : (Value.obj ms).size = 1 := rfl
        rw [List.length_cons]
        dsimp only
        omega
      split at h
      · obtain ⟨⟨vs, r'⟩, hvs, heq⟩ := Option.map_eq_some_iff.mp h
        cases heq
        have hsizes := sizes_le_of_readBracket (f := Value.size)
          (fun s v r hv => ih hv) hvs
        have hone : (Value.arr vs).size = 1 := rfl
        rw [List.length_cons]
        dsimp only
        omega
      · exact size_le_of_readAtom h

/-! ### Reading the template -/

/-- A value in the template. -/
def rawText : Value → PyStr
  | .str s => rawString s
  | v => v.render .spaced 0

/-- An integer, or a string that the template is good for. -/
def Value.IsRaw : Value → Prop
  | .int n => n.natAbs < 10 ^ maxStrDigits
  | .str s => IsPlain s ∧ IsScalar s
  | _ => False

/-- A member that the template is good for. -/
structure RawMember (m : PyStr × Value) : Prop where
  plain : IsPlain m.1
  scalar : IsScalar m.1
  value : m.2.IsRaw

/-- The members with the texts of their values. -/
def rawTexts (ms : Members) : List (PyStr × PyStr) := ms.map fun m => (m.1, rawText m.2)

theorem starts_rawText {v : Value} (h : v.IsRaw) : Starts (rawText v) := by
  cases v with
  | int n => exact (numeral_decimalInt n).isAtomic.starts
  | str s => exact ⟨0x22, _, rfl, by decide, by decide, by decide⟩
  | _ => cases h

/-- A value in the template is read back. -/
theorem reads_rawText {v : Value} (h : v.IsRaw) (n : ℕ) :
    Reads (readValue (n + 1)) (rawText v) v := by
  cases v with
  | int k => exact (numeral_decimalInt k).isAtomic.reads (reads_decimalInt h) n
  | str s =>
    intro r _
    have hread := readString_raw h.1 h.2 r
    rw [rawText]
    rw [rawString, List.cons_append] at hread ⊢
    rw [readValue, if_pos rfl, hread]
    rfl
  | _ => cases h

/-- A plain key and a value are read back. -/
theorem reads_rawEntry {α : Type} {read : PyStr → Option (α × PyStr)} {k t : PyStr} {a : α}
    (hplain : IsPlain k) (hscalar : IsScalar k) (h : Reads read t a) (ht : Starts t) :
    Reads (readEntry read) (rawMember (k, t)) (k, a) := by
  intro r hr
  rw [rawMember, List.append_assoc, readEntry, readString_raw hplain hscalar, Option.bind_some]
  have hskip : skipWs (0x20 :: (t ++ r)) = t ++ r :=
    (skipWs_append (w := [0x20]) isWs_of_mem_space).trans (ht.skipWs r)
  simp only [List.cons_append, skipWs_cons (show isWs 0x3a = false by decide), if_true, hskip,
    h r hr, Option.map_some]

/-- A member of the template is read back. -/
theorem reads_rawMember {m : PyStr × Value} (h : RawMember m) (n : ℕ) :
    Reads (readEntry (readValue (n + 1))) (rawMember (m.1, rawText m.2)) m :=
  reads_rawEntry h.plain h.scalar (reads_rawText h.value n) (starts_rawText h.value)

theorem starts_rawMember (m : PyStr × PyStr) : Starts (rawMember m) :=
  ⟨0x22, _, rfl, by decide, by decide, by decide⟩

/-- **The template is read back from plain strings.** -/
theorem parse_rawObject {ms : Members} (h : ∀ m ∈ ms, RawMember m) {w : PyStr}
    (hw : ∀ c ∈ w, isWs c = true) : parse (rawObject (rawTexts ms) ++ w) = some (.obj ms) := by
  have hmap : (rawTexts ms).map rawMember = ms.map fun m => rawMember (m.1, rawText m.2) := by
    rw [rawTexts, List.map_map]
    rfl
  have hbody := fun n : ℕ => readBracket_bracket (L := .spaced) (d := 0) (.inr rfl) 0x7b
    (fun m hm => reads_rawMember (h m hm) n) (fun m _ => starts_rawMember _) w
  obtain ⟨n, hn⟩ : ∃ n, (rawObject (rawTexts ms) ++ w).length = n + 1 := by
    rw [rawObject, bracket_eq_cons]
    exact ⟨_, rfl⟩
  rw [parse, hn, rawObject, hmap, bracket_eq_cons, List.cons_append,
    skipWs_cons (show isWs 0x7b = false by decide), readValue, if_neg (by decide), if_pos rfl,
    hbody]
  have hrest : skipWs w = [] := by
    rw [← List.append_nil w, skipWs_append hw]
    rfl
  rw [Option.map_some]
  dsimp only
  rw [if_pos hrest, List.map_id']

/-- **Plain members with keys of their own are loaded as they are.** -/
theorem load_rawObject {ms : Members} (h : ∀ m ∈ ms, RawMember m) (hkeys : (ms.map Prod.fst).Nodup)
    {w : PyStr} (hw : ∀ c ∈ w, isWs c = true) :
    load (rawObject (rawTexts ms) ++ w) = some (.obj ms) := by
  have hvalues : ∀ m ∈ ms, m.2.dict = m.2 := by
    intro m hm
    have hraw := (h m hm).value
    obtain ⟨k, v⟩ := m
    cases v with
    | int n => rfl
    | str s => rfl
    | _ => cases hraw
  rw [load, parse_rawObject h hw, Option.map_some, dict_obj_eq_self hkeys hvalues]

/-! ### What a text was written from -/

/-- **A member that is read back was plain.** -/
theorem plain_of_readEntry {n : ℕ} {k s q r : PyStr}
    (h : readEntry (readValue n) (rawMember (k, rawString s) ++ q) = some ((k, .str s), r)) :
    IsPlain k ∧ IsPlain s := by
  rw [rawMember, List.append_assoc] at h
  unfold readEntry at h
  obtain ⟨⟨k', r'⟩, hkey, h⟩ := Option.bind_eq_some_iff.mp h
  dsimp only at h
  split at h
  · cases h
  next c rest hrest =>
  split at h
  · obtain ⟨⟨v, r''⟩, hvalue, heq⟩ := Option.map_eq_some_iff.mp h
    obtain ⟨hpair, -⟩ := Prod.mk.inj heq
    obtain ⟨hk, hv⟩ := Prod.mk.inj hpair
    dsimp only at hk hv hvalue
    subst hk hv
    obtain ⟨hplain, rfl⟩ := plain_of_readString hkey
    -- behind the colon the value starts with its mark
    have hcolon : c :: rest = 0x3a :: (0x20 :: rawString s ++ q) := by
      rw [← hrest]
      exact skipWs_cons (by decide) _
    obtain ⟨-, rfl⟩ := List.cons.inj hcolon
    have hskip : skipWs (0x20 :: rawString s ++ q) = 0x22 :: (s ++ [0x22] ++ q) :=
      (skipWs_append (w := [0x20]) isWs_of_mem_space).trans (skipWs_cons (by decide) _)
    rw [hskip] at hvalue
    cases n with
    | zero => cases hvalue
    | succ n =>
      rw [readValue, if_pos rfl] at hvalue
      obtain ⟨⟨t, r'⟩, ht, heq⟩ := Option.map_eq_some_iff.mp hvalue
      obtain ⟨hstr, -⟩ := Prod.mk.inj heq
      obtain rfl : t = s := Value.str.inj hstr
      exact ⟨hplain, (plain_of_readString ht).1⟩
  · cases h

/-- The first item of a row is read first. -/
theorem head_of_readSeq {α : Type} {read : PyStr → Option (α × PyStr)} {cl : CodePoint} {n : ℕ}
    {s r : PyStr} {a : α} {as : List α} (h : readSeq read cl n s = some (a :: as, r)) :
    ∃ q, read s = some (a, q) := by
  cases n with
  | zero => cases h
  | succ n =>
    rw [readSeq] at h
    obtain ⟨⟨b, q⟩, hq, h⟩ := Option.bind_eq_some_iff.mp h
    dsimp only at h
    split at h
    · cases h
    split at h
    · cases h
      exact ⟨q, hq⟩
    split at h
    · obtain ⟨⟨bs, q'⟩, -, heq⟩ := Option.map_eq_some_iff.mp h
      obtain ⟨hcons, -⟩ := Prod.mk.inj heq
      obtain ⟨rfl, -⟩ := List.cons.inj hcons
      exact ⟨q, hq⟩
    · cases h

/-- Behind a first member of the template come the others. -/
theorem exists_others_of_readBracket {m : PyStr × Value} (hm : RawMember m) {n : ℕ} {q r : PyStr}
    {ms : Members} (hq : Starts q)
    (h : readBracket (readEntry (readValue (n + 1))) 0x7d
      (rawMember (m.1, rawText m.2) ++ 0x2c :: 0x20 :: q) = some (ms, r)) :
    ∃ k others, ms = m :: others ∧
      readSeq (readEntry (readValue (n + 1))) 0x7d k q = some (others, r) := by
  have hfirst := reads_rawMember hm n (0x2c :: 0x20 :: q) (stops_cons (by decide))
  have hskip : skipWs (0x20 :: q) = q := by
    have hfront := hq.skipWs []
    rw [List.append_nil] at hfront
    exact (skipWs_append (w := [0x20]) isWs_of_mem_space).trans hfront
  rw [readBracket, (starts_rawMember _).skipWs] at h
  split at h
  · cases h
  next c rest hrest =>
  obtain ⟨rfl, -⟩ := List.cons.inj hrest
  rw [if_neg (by decide), List.length_cons, ← hrest, readSeq, hfirst, Option.bind_some] at h
  dsimp only at h
  rw [skipWs_cons (by decide)] at h
  dsimp only at h
  rw [if_neg (by decide), if_pos rfl, hskip] at h
  obtain ⟨⟨others, r'⟩, hothers, heq⟩ := Option.map_eq_some_iff.mp h
  obtain ⟨rfl, rfl⟩ := Prod.mk.inj heq
  exact ⟨_, others, rfl, hothers⟩

/-- A row that is not much longer than two of its entries has no others. -/
theorem eq_pair_of_sum_le {α : Type} {f : α → ℕ} {l : List α} {a b : α} {d : ℕ} (ha : a ∈ l)
    (hb : b ∈ l) (hne : a ≠ b) (hf : ∀ x, d < f x) (hsum : (l.map f).sum ≤ f a + f b + d) :
    l = [a, b] ∨ l = [b, a] := by
  have hnil : ∀ {x : List α}, (x.map f).sum ≤ d → x = [] := by
    intro x hx
    cases x with
    | nil => rfl
    | cons y x =>
      have hy := hf y
      rw [List.map_cons, List.sum_cons] at hx
      omega
  obtain ⟨x, y, rfl⟩ := List.append_of_mem ha
  rcases List.mem_append.mp hb with hb | hb
  · obtain ⟨z, w, rfl⟩ := List.append_of_mem hb
    simp only [List.map_append, List.map_cons, List.sum_append, List.sum_cons] at hsum
    rw [hnil (x := z) (by omega), hnil (x := w) (by omega), hnil (x := y) (by omega)]
    exact .inr rfl
  · obtain ⟨z, w, rfl⟩ := List.append_of_mem ((List.mem_cons.mp hb).resolve_left hne.symm)
    simp only [List.map_append, List.map_cons, List.sum_append, List.sum_cons] at hsum
    rw [hnil (x := x) (by omega), hnil (x := z) (by omega), hnil (x := w) (by omega)]
    exact .inl rfl

/-- `dict`s come from objects alone. -/
theorem eq_of_dict_eq {v w : Value} (hw : ∀ vs, w ≠ .arr vs) (hw' : ∀ ms, w ≠ .obj ms)
    (h : v.dict = w) : v = w := by
  cases v with
  | arr vs =>
    rw [Value.dict, rebuild_arr] at h
    exact absurd h.symm (hw _)
  | obj ms =>
    rw [Value.dict, rebuild_obj] at h
    exact absurd h.symm (hw' _)
  | _ => exact h

/-- A member of a `dict` without an object inside was there before. -/
theorem mem_of_mem_dict {ms : Members} {m : PyStr × Value} (hm : ∀ vs, m.2 ≠ .arr vs)
    (hm' : ∀ ms, m.2 ≠ .obj ms) (h : m ∈ dictOf (ms.map fun m => (m.1, m.2.dict))) : m ∈ ms := by
  obtain ⟨u, hu, rfl⟩ := List.mem_map.mp (mem_of_mem_dictOf h)
  have heq : u.2 = u.2.dict := eq_of_dict_eq hm hm' rfl
  rw [← heq]
  exact hu

end Json
end Python
end SovereignSeed
