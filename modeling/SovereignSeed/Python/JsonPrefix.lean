import SovereignSeed.Python.JsonRoundTrip
import Mathlib.Data.List.Find

/-!
# Texts that are cut off

No proper beginning of an object's text is the text of a value.  What a reader takes from
a text it takes from every longer one, as long as it does not read to the end; behind an
item of a row there is always a comma or a bracket, so only the whole row can end there.

## Main definitions

* `Extends` — a reader reads what another one does, whatever is appended.

## Main results

* `extends_readValue` — the reader of values extends itself, given more fuel.
* `parse_eq_none_of_append` — **no proper beginning of an object's text is read.**
-/

namespace SovereignSeed
namespace Python
namespace Json

/-! ### Readers and longer texts -/

/-- What `read` takes from a text, without reading to its end, `read'` takes from every
longer one. -/
def Extends {α : Type} (read read' : PyStr → Option (α × PyStr)) : Prop :=
  ∀ s a r q, read s = some (a, r) → r ≠ [] → read' (s ++ q) = some (a, r ++ q)

theorem skipWs_append_of_ne_nil {s : PyStr} (h : skipWs s ≠ []) (q : PyStr) :
    skipWs (s ++ q) = skipWs s ++ q := by
  rw [skipWs, List.dropWhile_append, if_neg (by simpa [skipWs] using h)]
  rfl

theorem ne_nil_of_skipWs {s : PyStr} (h : skipWs s ≠ []) : s ≠ [] := by
  rintro rfl
  exact h rfl

/-! ### Strings -/

/-- A string is read up to its closing mark, whatever is behind it. -/
theorem readBody_append (q : PyStr) {s t r : PyStr} (h : readBody s = some (t, r)) :
    readBody (s ++ q) = some (t, r ++ q) := by
  refine readBody_rec (P := fun s t r => readBody (s ++ q) = some (t, r ++ q)) ?_ ?_ ?_ ?_ h
  · intro r
    rw [List.cons_append, readBody_mark]
  · intro h1 h2 h3 h4 u s t r hu ih
    simp only [List.cons_append]
    rw [readBody_unit, hu, Option.bind_some, ih]
    rfl
  · intro e c s t r hlookup ih
    rw [List.cons_append, List.cons_append, readBody_letter hlookup, ih]
    rfl
  · intro c s t r hquote hslash hlow ih
    rw [List.cons_append, readBody_char hquote hslash hlow, ih]
    rfl

theorem readString_append {s t r : PyStr} (h : readString s = some (t, r)) (q : PyStr) :
    readString (s ++ q) = some (t, r ++ q) := by
  unfold readString at h
  split at h
  · obtain ⟨u, hu, heq⟩ := Option.map_eq_some_iff.mp h
    cases heq
    rw [List.cons_append, readString, readBody_append q hu]
    rfl
  · cases h

/-! ### Rows in brackets -/

section Brackets

variable {α : Type} {read read' : PyStr → Option (α × PyStr)} {cl : CodePoint}

/-- A row is read up to its bracket, whatever is behind it. -/
theorem readSeq_append (hread : Extends read read') (hnil : read [] = none) (q : PyStr) :
    ∀ {n m : ℕ} {s r : PyStr} {as : List α}, n ≤ m → readSeq read cl n s = some (as, r) →
      readSeq read' cl m (s ++ q) = some (as, r ++ q) := by
  intro n
  induction n with
  | zero => exact nofun
  | succ n ih =>
    intro m s r as hm h
    obtain ⟨m, rfl⟩ : ∃ k, m = k + 1 := ⟨m - 1, by omega⟩
    rw [readSeq] at h ⊢
    obtain ⟨⟨a, r₁⟩, hfirst, h⟩ := Option.bind_eq_some_iff.mp h
    dsimp only at h
    split at h
    · cases h
    next c rest hskip =>
    -- there is a comma or a bracket behind the item
    have hne : skipWs r₁ ≠ [] := by simp [hskip]
    rw [hread _ _ _ q hfirst (ne_nil_of_skipWs hne), Option.bind_some]
    simp only [skipWs_append_of_ne_nil hne, hskip, List.cons_append]
    split at h
    · next hc =>
      cases h
      rw [if_pos hc]
    next hc =>
    rw [if_neg hc]
    split at h
    · next hcomma =>
      obtain ⟨⟨as', r'⟩, hrest, heq⟩ := Option.map_eq_some_iff.mp h
      cases heq
      -- there is an item behind the comma
      have hne' : skipWs rest ≠ [] := by
        intro hempty
        rw [hempty] at hrest
        cases n with
        | zero => cases hrest
        | succ n => rw [readSeq, hnil] at hrest; cases hrest
      rw [if_pos hcomma, skipWs_append_of_ne_nil hne', ih (by omega) hrest]
      rfl
    · cases h

theorem readBracket_append (hread : Extends read read') (hnil : read [] = none) {s r : PyStr}
    {as : List α} (h : readBracket read cl s = some (as, r)) (q : PyStr) :
    readBracket read' cl (s ++ q) = some (as, r ++ q) := by
  unfold readBracket at h
  split at h
  · cases h
  next c rest hskip =>
  have hne : skipWs s ≠ [] := by simp [hskip]
  simp only [readBracket, skipWs_append_of_ne_nil hne, hskip, List.cons_append]
  split at h
  · next hc =>
    cases h
    rw [if_pos hc]
  · next hc =>
    rw [if_neg hc]
    exact readSeq_append hread hnil q (by simp) h

theorem extends_readEntry (hread : Extends read read') (hnil : read [] = none) :
    Extends (readEntry read) (readEntry read') := by
  intro s m r q h hr
  unfold readEntry at h ⊢
  obtain ⟨⟨k, r₁⟩, hkey, h⟩ := Option.bind_eq_some_iff.mp h
  dsimp only at h
  split at h
  · cases h
  next c rest hskip =>
  have hne : skipWs r₁ ≠ [] := by simp [hskip]
  rw [readString_append hkey, Option.bind_some]
  simp only [skipWs_append_of_ne_nil hne, hskip, List.cons_append]
  split at h
  · next hcolon =>
    obtain ⟨⟨a, r'⟩, hvalue, heq⟩ := Option.map_eq_some_iff.mp h
    cases heq
    have hne' : skipWs rest ≠ [] := by
      intro hempty
      rw [hempty, hnil] at hvalue
      cases hvalue
    rw [if_pos hcolon, skipWs_append_of_ne_nil hne', hread _ _ _ q hvalue hr]
    rfl
  · cases h

end Brackets

/-! ### Atoms -/

/-- What is read as a number is a numeral. -/
theorem numeral_of_readNumeral {t : PyStr} {v : Value} (hchars : ∀ c ∈ t, isNumChar c = true)
    (h : readNumeral t = some v) : Numeral t where
  chars := hchars
  front := by
    unfold readNumeral at h
    extract_lets neg unsigned ip tail at h
    -- without a digit in front the numeral is not read
    have hip : ip ≠ [] := by
      intro hnil
      rw [if_pos (.inl hnil)] at h
      cases h
    obtain ⟨c, u, hcons⟩ := List.exists_cons_of_ne_nil hip
    have hdigit : isDigit c = true := List.mem_takeWhile_imp (hcons ▸ List.mem_cons_self)
    obtain ⟨w, hw⟩ : ∃ w, unsigned = c :: w := by
      refine ⟨u ++ tail, ?_⟩
      rw [← List.cons_append, ← hcons]
      exact List.takeWhile_append_dropWhile.symm
    refine ⟨c, w, hdigit, ?_⟩
    cases t with
    | nil => exact absurd hw (by simp [unsigned])
    | cons a t =>
      by_cases hsign : a = 0x2d
      · have htail : unsigned = t := by simp [unsigned, neg, hsign]
        exact .inr (by rw [hsign, ← htail, hw])
      · have hwhole : unsigned = a :: t := by simp [unsigned, neg, hsign]
        exact .inl (hwhole.symm.trans hw)

/-- No name begins another one. -/
theorem constants_incomparable : ∀ w ∈ constants, ∀ w' ∈ constants, w.1 <+: w'.1 → w.1 = w'.1 := by
  have hall : (constants.map Prod.fst).all (fun w => (constants.map Prod.fst).all fun w' =>
      !w.isPrefixOf w' || w == w') = true := by
    decide
  intro w hw w' hw' hprefix
  have h := List.all_eq_true.mp (List.all_eq_true.mp hall _ (List.mem_map_of_mem hw)) _
    (List.mem_map_of_mem hw')
  simpa [List.isPrefixOf_iff_prefix.mpr hprefix] using h

theorem prefix_of_find {s : PyStr} {w : PyStr × Value}
    (h : constants.find? (fun w => w.1.isPrefixOf s) = some w) : w.1 <+: s := by
  have hpred := List.find?_some h
  exact List.isPrefixOf_iff_prefix.mp (by simpa using hpred)

/-- A name at the front stays the only one. -/
theorem find_constants_append {s : PyStr} {w : PyStr × Value}
    (h : constants.find? (fun w => w.1.isPrefixOf s) = some w) (q : PyStr) :
    constants.find? (fun w => w.1.isPrefixOf (s ++ q)) = some w := by
  have hw := prefix_of_find h
  rw [← h]
  refine List.find?_congr fun w' hw' => ?_
  rw [Bool.eq_iff_iff, List.isPrefixOf_iff_prefix, List.isPrefixOf_iff_prefix]
  constructor
  · intro hprefix
    have hmem := List.mem_of_find?_eq_some h
    have hwhole := hw.trans (List.prefix_append s q)
    rcases List.prefix_or_prefix_of_prefix hprefix hwhole with hle | hle
    · rwa [constants_incomparable w' hw' w hmem hle]
    · rwa [← constants_incomparable w hmem w' hw' hle]
  · exact fun hprefix => hprefix.trans (List.prefix_append s q)

theorem extends_readAtom : Extends readAtom readAtom := by
  intro s v r q h hr
  unfold readAtom at h
  split at h
  · next w hw =>
    cases h
    simp only [readAtom, find_constants_append hw q]
    rw [List.drop_append_of_le_length (prefix_of_find hw).length_le]
  · obtain ⟨u, hu, heq⟩ := Option.map_eq_some_iff.mp h
    cases heq
    have hnumeral := numeral_of_readNumeral (fun c hc => List.mem_takeWhile_imp hc) hu
    -- the numeral ends inside the text, so a longer text does not prolong it
    have hstops : Stops (s.dropWhile isNumChar ++ q) := by
      obtain ⟨c, r, hcons⟩ := List.exists_cons_of_ne_nil hr
      have hhead := List.head?_dropWhile_not isNumChar s
      rw [hcons] at hhead ⊢
      exact stops_cons (by simpa using hhead)
    have hread := hnumeral.reads hu _ hstops
    rw [← List.append_assoc, List.takeWhile_append_dropWhile] at hread
    exact hread

/-! ### Values -/

section Values

variable {n m : ℕ} {s r : PyStr} {v : Value}

theorem readValue_nil (n : ℕ) : readValue n [] = none := by cases n <;> rfl

/-- An object is read up to its brace, whatever is behind it. -/
theorem readValue_brace_append (h : Extends (readValue n) (readValue m))
    (hv : readValue (n + 1) (0x7b :: s) = some (v, r)) (q : PyStr) :
    readValue (m + 1) (0x7b :: (s ++ q)) = some (v, r ++ q) := by
  rw [readValue, if_neg (by decide), if_pos rfl] at hv ⊢
  obtain ⟨⟨ms, r'⟩, hms, heq⟩ := Option.map_eq_some_iff.mp hv
  cases heq
  have hnil : readEntry (readValue n) [] = none := rfl
  rw [readBracket_append (extends_readEntry h (readValue_nil n)) hnil hms, Option.map_some]

/-- **What is read of a text is read of every longer one**, given more fuel. -/
theorem extends_readValue : ∀ {n m : ℕ}, n ≤ m → Extends (readValue n) (readValue m) := by
  intro n
  induction n with
  | zero => exact fun _ _ _ _ _ h => nomatch h
  | succ n ih =>
    intro m hm s v r q h hr
    obtain ⟨m, rfl⟩ : ∃ k, m = k + 1 := ⟨m - 1, by omega⟩
    have hread := ih (show n ≤ m by omega)
    cases s with
    | nil => cases h
    | cons c s =>
      rw [List.cons_append]
      by_cases hbrace : c = 0x7b
      · subst hbrace
        exact readValue_brace_append hread h q
      rw [readValue, if_neg hbrace] at h ⊢
      split at h
      · next hquote =>
        obtain ⟨⟨t, r'⟩, ht, heq⟩ := Option.map_eq_some_iff.mp h
        cases heq
        rw [if_pos hquote, ← List.cons_append, readString_append ht]
        rfl
      next hquote =>
      rw [if_neg hquote]
      split at h
      · next hbracket =>
        obtain ⟨⟨vs, r'⟩, hvs, heq⟩ := Option.map_eq_some_iff.mp h
        cases heq
        rw [if_pos hbracket, readBracket_append hread (readValue_nil n) hvs]
        rfl
      · next hbracket =>
        rw [if_neg hbracket, ← List.cons_append]
        exact extends_readAtom _ _ _ q h hr

/-- **No proper beginning of an object's text is read.** -/
theorem parse_eq_none_of_append {L : Style} {ms : Members} (h : (Value.obj ms).printable = true)
    {s q : PyStr} (heq : s ++ q = (Value.obj ms).render L 0) (hq : q ≠ []) : parse s = none := by
  obtain ⟨n, hn, hread⟩ : ∃ n, n = ((Value.obj ms).render L 0).length ∧
      readValue (n + 1) ((Value.obj ms).render L 0 ++ []) = some ((Value.obj ms).joined, []) :=
    ⟨_, rfl, reads_render L _ h (Nat.le_succ _) [] stops_nil⟩
  have hfront : (Value.obj ms).render L 0 = 0x7b :: ((Value.obj ms).render L 0).tail :=
    bracket_eq_cons ..
  cases s with
  | nil => rfl
  | cons c s =>
    obtain ⟨rfl, htail⟩ : c = 0x7b ∧ s ++ q = ((Value.obj ms).render L 0).tail := by
      rw [hfront, List.cons_append] at heq
      exact List.cons.inj heq
    rw [parse, skipWs_cons (by decide)]
    split
    · next v rest hv =>
      -- the whole text would be read with `q` left over
      have hle : s.length + 1 ≤ n := by
        rw [hn, ← heq, List.length_append, List.length_cons]
        omega
      have hwhole := readValue_brace_append (extends_readValue hle) hv q
      rw [List.append_nil, hfront, ← htail, hwhole] at hread
      have hnil : rest ++ q = [] := congrArg Prod.snd (Option.some.inj hread)
      exact absurd (List.append_eq_nil_iff.mp hnil).2 hq
    · rfl

end Values

end Json
end Python
end SovereignSeed
