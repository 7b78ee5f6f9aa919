import SovereignSeed.Python.JsonPrefix
import SovereignSeed.Python.JsonRaw
import Mathlib.Algebra.Order.BigOperators.Group.List

/-!
# The strings in a text

Outside of strings the reader meets no quotation mark, so that all strings it reads are found
by going from one mark to the next.  A string does not go beyond its line: the end of a line
is a control character.  A template that puts one string on each line is therefore looked at
line by line, whatever its strings do to the brackets.

## Main definitions

* `strings` — the strings between marks, as they are read.
* `Value.direct` — the string a value is; `Passes` — a reader passes what it takes.
* `Gives` — what the strings of a line are like.

## Main results

* `direct_mem_strings` — **a string that is read is one of the strings of its text.**
* `line_of_readString`, `mem_strings_line` — a string ends on its line.
* `gives_plain`, `gives_raw` — **a raw string gives itself, if it is plain, or shorter ones.**
* `gives_bracket` — an indented text gives what its lines give.
-/

namespace SovereignSeed
namespace Python
namespace Json

/-! ### From mark to mark -/

/-- The strings between quotation marks, up to one that does not end. -/
def strings (s : PyStr) : List PyStr :=
  match s with
  | [] => []
  | c :: s =>
    if c = 0x22 then
      match _h : readString (c :: s) with
      | some (t, r) => t :: strings r
      | none => []
    else strings s
termination_by s.length
decreasing_by
  · have hle := length_le_of_readString _h
    omega
  · exact Nat.lt_succ_self _

theorem strings_nil : strings [] = [] := by
  rw [strings]

theorem strings_cons {c : CodePoint} (h : c ≠ 0x22) (s : PyStr) : strings (c :: s) = strings s := by
  rw [strings, if_neg h]

/-- A string, and those behind it. -/
theorem strings_of_readString {s t r : PyStr} (h : readString s = some (t, r)) :
    strings s = t :: strings r := by
  cases s with
  | nil => cases h
  | cons c s =>
    have hc : c = 0x22 := by
      by_contra hne
      unfold readString at h
      split at h
      · next heq => exact hne (List.cons.inj heq).1
      · cases h
    rw [strings, if_pos hc]
    split
    · next t' r' heq =>
      rw [h] at heq
      cases heq
      rfl
    · next heq =>
      rw [h] at heq
      cases heq

theorem strings_eq_nil {s : PyStr} (h : readString (0x22 :: s) = none) :
    strings (0x22 :: s) = [] := by
  rw [strings, if_pos rfl]
  split
  · next heq =>
    rw [h] at heq
    cases heq
  · rfl

/-- What has no mark has no string. -/
theorem strings_append {w : PyStr} (hw : ∀ c ∈ w, c ≠ 0x22) (s : PyStr) :
    strings (w ++ s) = strings s := by
  induction w with
  | nil => rfl
  | cons c w ih =>
    rw [List.cons_append, strings_cons (hw c (.head _)), ih fun d hd => hw d (.tail _ hd)]

theorem strings_skipWs (s : PyStr) : strings (skipWs s) = strings s := by
  conv_rhs => rw [← List.takeWhile_append_dropWhile (p := isWs) (l := s)]
  refine (strings_append (fun c hc => ?_) _).symm
  rintro rfl
  exact absurd (List.mem_takeWhile_imp hc) (by decide)

/-! ### What the reader reads -/

/-- The string a value is. -/
def Value.direct : Value → List PyStr
  | .str s => [s]
  | _ => []

/-- What `read` takes is among the strings it passes. -/
def Passes {α : Type} (f : α → List PyStr) (read : PyStr → Option (α × PyStr)) : Prop :=
  ∀ s a r, read s = some (a, r) → f a ⊆ strings s ∧ strings r ⊆ strings s

/-- Numbers and names. -/
def Value.IsAtom : Value → Prop
  | .str _ | .arr _ | .obj _ => False
  | _ => True

theorem Value.IsAtom.direct {v : Value} (h : v.IsAtom) : v.direct = [] := by
  cases v with
  | str s => exact h.elim
  | _ => rfl

theorem isAtom_of_readNumeral {t : PyStr} {v : Value} (h : readNumeral t = some v) :
    v.IsAtom := by
  unfold readNumeral at h
  extract_lets neg unsigned ip tail at h
  split at h
  · cases h
  split at h
  · split at h
    · cases h
    · cases h
      trivial
  split at h
  · obtain ⟨x, -, rfl⟩ := Option.map_eq_some_iff.mp h
    trivial
  · cases h

theorem isAtom_of_readAtom {s r : PyStr} {v : Value} (h : readAtom s = some (v, r)) :
    v.IsAtom := by
  unfold readAtom at h
  split at h
  · next w hw =>
    cases h
    have hmem := List.mem_of_find?_eq_some hw
    simp only [constants, List.mem_cons, List.not_mem_nil, or_false] at hmem
    rcases hmem with rfl | rfl | rfl | rfl | rfl | rfl <;> trivial
  · obtain ⟨u, hu, heq⟩ := Option.map_eq_some_iff.mp h
    cases heq
    exact isAtom_of_readNumeral hu

/-- Names and numbers have no marks. -/
theorem strings_of_readAtom {s r : PyStr} {v : Value} (h : readAtom s = some (v, r)) :
    strings r = strings s := by
  have hmarks : (constants.all fun w => w.1.all (· != 0x22)) = true := by decide
  unfold readAtom at h
  split at h
  · next w hw =>
    cases h
    have hw' := List.all_eq_true.mp (List.all_eq_true.mp hmarks _ (List.mem_of_find?_eq_some hw))
    obtain ⟨u, rfl⟩ := prefix_of_find hw
    rw [List.drop_left, strings_append fun c hc => bne_iff_ne.mp (hw' c hc)]
  · obtain ⟨u, -, heq⟩ := Option.map_eq_some_iff.mp h
    cases heq
    conv_rhs => rw [← List.takeWhile_append_dropWhile (p := isNumChar) (l := s)]
    refine (strings_append (fun c hc => ?_) _).symm
    rintro rfl
    exact absurd (List.mem_takeWhile_imp hc) (by decide)

theorem passes_readAtom : Passes Value.direct readAtom := by
  intro s v r h
  rw [(isAtom_of_readAtom h).direct, strings_of_readAtom h]
  exact ⟨List.nil_subset _, List.Subset.refl _⟩

section Readers

variable {α : Type} {read : PyStr → Option (α × PyStr)} {cl : CodePoint} {f : α → List PyStr}

theorem passes_readSeq (hread : Passes f read) (hcl : cl ≠ 0x22) (n : ℕ) :
    Passes (List.flatMap f) (readSeq read cl n) := by
  induction n with
  | zero => exact fun _ _ _ => nofun
  | succ n ih =>
    intro s as r h
    rw [readSeq] at h
    obtain ⟨⟨a, q⟩, hq, h⟩ := Option.bind_eq_some_iff.mp h
    obtain ⟨hfirst, hbehind⟩ := hread _ _ _ hq
    rw [← strings_skipWs q] at hbehind
    dsimp only at h
    split at h
    · cases h
    next c rest hrest =>
    rw [hrest] at hbehind
    split at h
    · next hc =>
      cases h
      rw [hc, strings_cons hcl] at hbehind
      rw [List.flatMap_singleton]
      exact ⟨hfirst, hbehind⟩
    split at h
    · next hc =>
      obtain ⟨⟨as', r'⟩, has, heq⟩ := Option.map_eq_some_iff.mp h
      cases heq
      rw [hc, strings_cons (by decide)] at hbehind
      obtain ⟨hothers, hend⟩ := ih _ _ _ has
      rw [strings_skipWs] at hothers hend
      rw [List.flatMap_cons]
      exact ⟨List.append_subset.mpr ⟨hfirst, List.Subset.trans hothers hbehind⟩,
        List.Subset.trans hend hbehind⟩
    · cases h

theorem passes_readBracket (hread : Passes f read) (hcl : cl ≠ 0x22) :
    Passes (List.flatMap f) (readBracket read cl) := by
  intro s as r h
  rw [← strings_skipWs s]
  unfold readBracket at h
  split at h
  · cases h
  next c rest hrest =>
  rw [hrest]
  split at h
  · next hc =>
    cases h
    rw [hc, strings_cons hcl]
    exact ⟨List.nil_subset _, List.Subset.refl _⟩
  · exact passes_readSeq hread hcl _ _ _ _ h

theorem passes_readEntry (hread : Passes f read) :
    Passes (fun m : PyStr × α => f m.2) (readEntry read) := by
  intro s m r h
  unfold readEntry at h
  obtain ⟨⟨k, q⟩, hk, h⟩ := Option.bind_eq_some_iff.mp h
  rw [strings_of_readString hk, ← strings_skipWs q]
  dsimp only at h
  split at h
  · cases h
  next c rest hrest =>
  rw [hrest]
  split at h
  · next hc =>
    obtain ⟨⟨a, r'⟩, ha, heq⟩ := Option.map_eq_some_iff.mp h
    cases heq
    obtain ⟨hvalue, hbehind⟩ := hread _ _ _ ha
    rw [strings_skipWs] at hvalue hbehind
    rw [hc, strings_cons (by decide)]
    exact ⟨List.subset_cons_of_subset _ hvalue, List.subset_cons_of_subset _ hbehind⟩
  · cases h

end Readers

theorem passes_readValue (n : ℕ) : Passes Value.direct (readValue n) := by
  induction n with
  | zero => exact fun _ _ _ => nofun
  | succ n ih =>
    intro s v r h
    cases s with
    | nil => cases h
    | cons c s =>
      rw [readValue] at h
      split at h
      · obtain ⟨⟨t, r'⟩, ht, heq⟩ := Option.map_eq_some_iff.mp h
        cases heq
        rw [strings_of_readString ht]
        exact ⟨List.cons_subset_cons _ (List.nil_subset _), List.subset_cons_self _ _⟩
      split at h
      · next hc =>
        obtain ⟨⟨ms, r'⟩, hms, heq⟩ := Option.map_eq_some_iff.mp h
        cases heq
        rw [hc, strings_cons (by decide)]
        exact ⟨List.nil_subset _, (passes_readBracket (passes_readEntry ih) (by decide) _ _ _ hms).2⟩
      split at h
      · next hc =>
        obtain ⟨⟨vs, r'⟩, hvs, heq⟩ := Option.map_eq_some_iff.mp h
        cases heq
        rw [hc, strings_cons (by decide)]
        exact ⟨List.nil_subset _, (passes_readBracket ih (by decide) _ _ _ hvs).2⟩
      · exact passes_readAtom _ _ _ h

/-- **A string that is read is one of the strings of its text.** -/
theorem direct_mem_strings {s t : PyStr} {ms : Members} {k : PyStr}
    (h : parse s = some (.obj ms)) (hm : (k, Value.str t) ∈ ms) : t ∈ strings s := by
  unfold parse at h
  split at h
  · next v rest hv =>
    split at h
    · cases h
      rw [← strings_skipWs s]
      generalize skipWs s = u at hv
      cases u with
      | nil => cases hv
      | cons c u =>
        rw [readValue] at hv
        split at hv
        · obtain ⟨q, -, heq⟩ := Option.map_eq_some_iff.mp hv
          cases heq
        split at hv
        · next hc =>
          obtain ⟨⟨ms', r'⟩, hms, heq⟩ := Option.map_eq_some_iff.mp hv
          cases heq
          rw [hc, strings_cons (by decide)]
          have hpass := passes_readBracket (passes_readEntry (passes_readValue s.length))
            (show (0x7d : CodePoint) ≠ 0x22 by decide)
          exact (hpass _ _ _ hms).1 (List.mem_flatMap.mpr ⟨_, hm, List.mem_singleton_self _⟩)
        split at hv
        · obtain ⟨q, -, heq⟩ := Option.map_eq_some_iff.mp hv
          cases heq
        · exact (isAtom_of_readAtom hv).elim
    · cases h
  · cases h

/-! ### Lines -/

/-- The octets of a string hold no end of a line. -/
theorem noLine_of_readBody {s t r : PyStr} (h : readBody s = some (t, r)) :
    ∃ c, s = c ++ 0x22 :: r ∧ (0x0a : CodePoint) ∉ c := by
  have hhex : hexVal 0x0a = none := by decide
  have hletter : escapeLetters.lookup (0x0a : CodePoint) = none := by decide
  refine readBody_rec (P := fun s _ r => ∃ c, s = c ++ 0x22 :: r ∧ (0x0a : CodePoint) ∉ c)
    ?_ ?_ ?_ ?_ h
  · exact fun r => ⟨[], rfl, nofun⟩
  · rintro h1 h2 h3 h4 u s t r hu ⟨c, rfl, hc⟩
    refine ⟨0x5c :: 0x75 :: h1 :: h2 :: h3 :: h4 :: c, rfl, ?_⟩
    obtain ⟨hd1, hd2, hd3, hd4⟩ := ne_of_hexVal4 hhex hu
    simp only [List.mem_cons, not_or]
    exact ⟨by decide, by decide, hd1.symm, hd2.symm, hd3.symm, hd4.symm, hc⟩
  · rintro e x s t r hlookup ⟨c, rfl, hc⟩
    refine ⟨0x5c :: e :: c, rfl, ?_⟩
    simp only [List.mem_cons, not_or]
    refine ⟨by decide, ?_, hc⟩
    rintro rfl
    rw [hletter] at hlookup
    cases hlookup
  · rintro x s t r - - hlow ⟨c, rfl, hc⟩
    refine ⟨x :: c, rfl, ?_⟩
    rw [List.mem_cons, not_or]
    refine ⟨?_, hc⟩
    rintro rfl
    exact hlow (by decide)

/-- **A string ends on its line.**  With as many characters as octets it is plain. -/
theorem line_of_readString {u q t r : PyStr}
    (h : readString (0x22 :: (u ++ 0x0a :: q)) = some (t, r)) :
    ∃ c w, u = c ++ 0x22 :: w ∧ r = w ++ 0x0a :: q ∧ t.length ≤ c.length ∧
      (t.length = c.length → IsPlain c) := by
  rw [readString] at h
  obtain ⟨⟨t', r'⟩, ht, heq⟩ := Option.map_eq_some_iff.mp h
  cases heq
  obtain ⟨c, hsplit, -, hlen, hsame⟩ := split_of_readBody ht
  obtain ⟨c', hsplit', hline⟩ := noLine_of_readBody ht
  obtain rfl : c = c' := List.append_cancel_right (hsplit.symm.trans hsplit')
  have hjoin := joinPairs_length_le t'
  have hplain : (joinPairs t').length = c.length → IsPlain c := fun heq =>
    (hsame (by omega)).2
  rcases List.append_eq_append_iff.mp hsplit with ⟨w, rfl, hw⟩ | ⟨w, rfl, hw⟩
  · cases w with
    | nil => exact absurd (List.cons.inj hw).1 (by decide)
    | cons x w =>
      obtain ⟨rfl, -⟩ := List.cons.inj hw
      exact absurd (List.mem_append_right u (.head w)) hline
  · cases w with
    | nil => exact absurd (List.cons.inj hw).1 (by decide)
    | cons x w =>
      obtain ⟨rfl, rfl⟩ := List.cons.inj hw
      exact ⟨c, w, rfl, rfl, hjoin.trans hlen, hplain⟩

/-- A line holds strings that are shorter than the line by their marks. -/
theorem mem_strings_line {q t : PyStr} : ∀ {n : ℕ} {u : PyStr}, u.length ≤ n →
    t ∈ strings (u ++ 0x0a :: q) → t ∈ strings q ∨ t.length + 2 ≤ u.length := by
  intro n
  induction n with
  | zero =>
    intro u hn h
    rw [List.length_eq_zero_iff.mp (Nat.le_zero.mp hn), List.nil_append,
      strings_cons (by decide)] at h
    exact .inl h
  | succ n ih =>
    intro u hn h
    cases u with
    | nil =>
      rw [List.nil_append, strings_cons (by decide)] at h
      exact .inl h
    | cons c u =>
      rw [List.length_cons] at hn ⊢
      by_cases hc : c = 0x22
      · subst hc
        rw [List.cons_append] at h
        cases hread : readString (0x22 :: (u ++ 0x0a :: q)) with
        | none =>
          rw [strings_eq_nil hread] at h
          cases h
        | some p =>
          obtain ⟨t', r⟩ := p
          obtain ⟨d, w, rfl, rfl, hlen, -⟩ := line_of_readString hread
          rw [strings_of_readString hread] at h
          rw [List.length_append, List.length_cons] at hn ⊢
          rcases List.mem_cons.mp h with rfl | h
          · exact .inr (by omega)
          · exact (ih (by omega) h).imp_right fun hle => by omega
      · rw [List.cons_append, strings_cons hc] at h
        exact (ih (by omega) h).imp_right fun hle => by omega

/-! ### Templates of lines -/

/-- What ends an item of an indented text: a comma or nothing, and the end of the line. -/
structure EndsLine (e : PyStr) : Prop where
  length_le : e.length ≤ 1
  noMarks : ∀ c ∈ e, c ≠ 0x22

theorem endsLine_nil : EndsLine [] := ⟨Nat.zero_le _, nofun⟩

theorem endsLine_comma : EndsLine [0x2c] := by
  refine ⟨le_rfl, fun c hc => ?_⟩
  rw [List.mem_singleton.mp hc]
  decide

/-- The strings of the text at the end of a line all have the property. -/
def Gives (P : PyStr → Prop) (u : PyStr) : Prop :=
  ∀ e q t, EndsLine e → t ∈ strings (u ++ (e ++ 0x0a :: q)) → P t ∨ t ∈ strings q

section Gives

variable {P Q : PyStr → Prop}

theorem Gives.mono {u : PyStr} (h : Gives P u) (himp : ∀ t, P t → Q t) : Gives Q u :=
  fun e q t he ht => (h e q t he ht).imp_left (himp t)

theorem EndsLine.strings {e : PyStr} (he : EndsLine e) (q : PyStr) :
    strings (e ++ 0x0a :: q) = Json.strings q := by
  rw [strings_append he.noMarks, strings_cons (by decide)]

theorem gives_of_noMarks {u : PyStr} (h : ∀ c ∈ u, c ≠ 0x22) : Gives P u := by
  intro e q t he ht
  rw [strings_append h, he.strings] at ht
  exact .inr ht

/-- A plain string gives itself. -/
theorem gives_plain {s : PyStr} (hplain : IsPlain s) (hscalar : IsScalar s) (hP : P s) :
    Gives P (rawString s) := by
  intro e q t he ht
  rw [strings_of_readString (readString_raw hplain hscalar _), he.strings] at ht
  rcases List.mem_cons.mp ht with rfl | ht
  · exact .inl hP
  · exact .inr ht

/-- **A raw string that is not plain gives shorter ones.** -/
theorem gives_raw {s : PyStr} (hplain : ¬IsPlain s) (hP : ∀ t : PyStr, t.length < s.length → P t) :
    Gives P (rawString s) := by
  intro e q t he ht
  have hraw : rawString s ++ (e ++ 0x0a :: q) = 0x22 :: ((s ++ 0x22 :: e) ++ 0x0a :: q) := by
    simp [rawString]
  rw [hraw] at ht
  cases hread : readString (0x22 :: ((s ++ 0x22 :: e) ++ 0x0a :: q)) with
  | none =>
    rw [strings_eq_nil hread] at ht
    cases ht
  | some p =>
    obtain ⟨t', r⟩ := p
    obtain ⟨c, w, hsplit, rfl, hlen, hsame⟩ := line_of_readString hread
    have hsum := congrArg List.length hsplit
    have he' := he.length_le
    simp only [List.length_append, List.length_cons] at hsum
    -- the string ends at its own mark or before
    have hc : c = s ∨ c.length < s.length := by
      rcases List.append_eq_append_iff.mp hsplit with ⟨a, rfl, ha⟩ | ⟨a, rfl, ha⟩
      · cases a with
        | nil => exact .inl (List.append_nil s)
        | cons x a =>
          obtain ⟨-, rfl⟩ := List.cons.inj ha
          exact absurd rfl (he.noMarks _ (List.mem_append_right a (.head w)))
      · cases a with
        | nil => exact .inl (List.append_nil c).symm
        | cons x a =>
          rw [List.length_append, List.length_cons]
          exact .inr (by omega)
    rw [strings_of_readString hread] at ht
    rcases List.mem_cons.mp ht with rfl | ht
    · refine .inl (hP _ ?_)
      rcases hc with rfl | hc
      · exact lt_of_le_of_ne hlen fun heq => hplain (hsame heq)
      · omega
    · exact (mem_strings_line le_rfl ht).symm.imp_left fun hle => hP _ (by omega)

/-- A plain key, and what its value gives. -/
theorem gives_rawMember {k u : PyStr} (hplain : IsPlain k) (hscalar : IsScalar k) (hP : P k)
    (h : Gives P u) : Gives P (rawMember (k, u)) := by
  intro e q t he ht
  rw [rawMember, List.append_assoc, strings_of_readString (readString_raw hplain hscalar _),
    List.cons_append, List.cons_append, strings_cons (by decide), strings_cons (by decide)] at ht
  rcases List.mem_cons.mp ht with rfl | ht
  · exact .inl hP
  · exact h e q t he ht

/-- Items on lines of their own. -/
theorem gives_bracket {d : ℕ} {op cl : CodePoint} (hop : op ≠ 0x22) (hcl : cl ≠ 0x22)
    {us : List PyStr} (h : ∀ u ∈ us, Gives P u) : Gives P (bracket .indented d op cl us) := by
  have hspaces : ∀ n, ∀ c ∈ List.replicate n (0x20 : CodePoint), c ≠ 0x22 := by
    intro n c hc
    rw [List.eq_of_mem_replicate hc]
    decide
  have hnewline : ∀ n s, strings (newline n ++ s) = strings s := fun n s => by
    rw [newline, List.cons_append, strings_cons (by decide), strings_append (hspaces _)]
  -- behind an item there is a comma, or the end of the brackets
  have hends : ∀ us s, ∃ e q, EndsLine e ∧
      tailText .indented d cl us ++ s = e ++ 0x0a :: q := by
    intro us s
    cases us with
    | nil => exact ⟨[], _, endsLine_nil, rfl⟩
    | cons u us => exact ⟨[0x2c], _, endsLine_comma, rfl⟩
  have htail : ∀ us : List PyStr, (∀ u ∈ us, Gives P u) → ∀ u, Gives P u → ∀ e q t, EndsLine e →
      t ∈ strings (u ++ (tailText .indented d cl us ++ (e ++ 0x0a :: q))) →
        P t ∨ t ∈ strings q := by
    intro us
    induction us with
    | nil =>
      intro _ u hu e q t he ht
      obtain ⟨e', q', he', hq'⟩ := hends [] (e ++ 0x0a :: q)
      rw [hq'] at ht
      refine (hu e' q' t he' ht).imp_right fun ht => ?_
      rw [← he'.strings, ← hq', tailText, List.append_assoc] at ht
      change t ∈ strings (newline d ++ _) at ht
      rw [hnewline, List.singleton_append, strings_cons hcl, he.strings] at ht
      exact ht
    | cons v us ih =>
      intro hus u hu e q t he ht
      obtain ⟨e', q', he', hq'⟩ := hends (v :: us) (e ++ 0x0a :: q)
      rw [hq'] at ht
      refine (hu e' q' t he' ht).elim .inl fun ht => ?_
      rw [← he'.strings, ← hq', tailText, List.cons_append, strings_cons (by decide),
        List.append_assoc, List.append_assoc] at ht
      change t ∈ strings (newline (d + 1) ++ _) at ht
      rw [hnewline] at ht
      exact ih (fun w hw => hus w (.tail _ hw)) v (hus v (.head _)) e q t he ht
  intro e q t he ht
  cases us with
  | nil =>
    rw [bracket, List.cons_append, List.cons_append, List.nil_append, strings_cons hop,
      strings_cons hcl, he.strings] at ht
    exact .inr ht
  | cons u us =>
    rw [bracket, List.cons_append, strings_cons hop, List.append_assoc, List.append_assoc] at ht
    change t ∈ strings (newline (d + 1) ++ _) at ht
    rw [hnewline] at ht
    exact htail us (fun w hw => h w (.tail _ hw)) u (h u (.head _)) e q t he ht

/-- Strings that are plain, or shorter than one that is not, are all plain. -/
theorem plain_of_shorter {ss : List PyStr}
    (h : ∀ s ∈ ss, IsPlain s ∨ ∃ s' ∈ ss, ¬IsPlain s' ∧ s.length < s'.length) :
    ∀ s ∈ ss, IsPlain s := by
  -- by induction on the room that is left above the string
  have hroom : ∀ n, ∀ s ∈ ss, (ss.map List.length).sum - s.length ≤ n → IsPlain s := by
    intro n
    induction n with
    | zero =>
      intro s hs hn
      refine (h s hs).resolve_right ?_
      rintro ⟨s', hs', -, hlt⟩
      have hle : s'.length ≤ _ := List.le_sum_of_mem (List.mem_map_of_mem hs')
      omega
    | succ n ih =>
      intro s hs hn
      refine (h s hs).resolve_right ?_
      rintro ⟨s', hs', hplain, hlt⟩
      exact hplain (ih s' hs' (by omega))
  exact fun s hs => hroom _ s hs le_rfl

end Gives

end Json
end Python
end SovereignSeed
