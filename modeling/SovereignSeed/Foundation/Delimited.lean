import Mathlib.Data.List.Basic
import Mathlib.Data.Set.Basic

/-!
# Labelled records as text

A record is written as its first field, then each further field behind a label:
`f₀ l₁ f₁ l₂ f₂ …`.  The label in front of a field is drawn from a family known
in advance, so that a field with few forms can itself count as part of a label.

When labels of one family cannot overlap, the text determines the record exactly
when no field holds a label of the family before it or of the family after it.

## Main definitions

* `joined` — the text of a record.
* `Labelled` — the labels come from the given families.
* `Separating` — two labels of a family never overlap.
* `Clean` — no field holds a label of a neighbouring family.

## Main results

* `eq_of_joined_eq` — a clean record is the only one with its text.
* `exists_ne_of_not_clean` — any other record shares its text with another one.
* `determined_iff_clean` — **the text determines the record iff it is clean.**
* `Separating.singleton`, `Separating.framed` — families that separate.
-/

namespace SovereignSeed
namespace Delimited

variable {α : Type*}

/-! ### Records and their texts -/

/-- The text of a record: a field, then each label with the field behind it. -/
def joined (f : List α) : List (List α × List α) → List α
  | [] => f
  | (l, g) :: ps => f ++ l ++ joined g ps

/-- The labels of a record are drawn, in order, from the given families. -/
def Labelled (Ls : List (Set (List α))) (ps : List (List α × List α)) : Prop :=
  List.Forall₂ (fun L p => p.1 ∈ L) Ls ps

/-- `f` holds no label of the family `L`. -/
def Free (L : Set (List α)) (f : List α) : Prop := ∀ l ∈ L, ¬ l <:+: f

/-- No field holds a label of the family before it or of the family after it. -/
def Clean : List (Set (List α)) → List α → List (List α × List α) → Prop
  | L :: Ls, f, (_, g) :: ps => Free L f ∧ Free L g ∧ Clean Ls g ps
  | _, _, _ => True

/-- Labels are not empty, and of two labels in a text, neither starts inside the
other. -/
structure Separating (L : Set (List α)) : Prop where
  ne_nil : ∀ l ∈ L, l ≠ []
  eq_of_overlap : ∀ {l m a x y : List α}, l ∈ L → m ∈ L → l ++ x = a ++ (m ++ y) →
    a.length < l.length → a = [] ∧ l = m

/-- Text in front of a record belongs to its first field. -/
theorem joined_append (a f : List α) (ps : List (List α × List α)) :
    joined (a ++ f) ps = a ++ joined f ps := by
  cases ps with
  | nil => rfl
  | cons p ps => simp only [joined, List.append_assoc]

/-! ### Texts that determine their record -/

/-- Two labels of a separating family at the start of one text, the second after
`a`: either both are the same, or the second comes after the first. -/
theorem Separating.cases {L : Set (List α)} (hL : Separating L) {l m a x y : List α} (hl : l ∈ L)
    (hm : m ∈ L) (h : l ++ x = a ++ (m ++ y)) :
    (a = [] ∧ l = m ∧ x = y) ∨ ∃ u, a = l ++ u ∧ x = u ++ (m ++ y) := by
  by_cases hlt : a.length < l.length
  · obtain ⟨rfl, rfl⟩ := hL.eq_of_overlap hl hm h hlt
    exact .inl ⟨rfl, rfl, List.append_cancel_left h⟩
  · rcases List.append_eq_append_iff.mp h with ⟨u, hu, hx⟩ | ⟨u, hu, hx⟩
    · exact .inr ⟨u, hu, hx⟩
    · -- the length leaves only the empty rest
      obtain rfl : u = [] := by
        have hlen := congrArg List.length hu
        rw [List.length_append] at hlen
        exact List.length_eq_zero_iff.mp (by omega)
      exact .inr ⟨[], by simpa using hu.symm, by simpa using hx.symm⟩

/-- **A clean record is the only one with its text.** -/
theorem eq_of_joined_eq {Ls : List (Set (List α))} (hsep : ∀ L ∈ Ls, Separating L) :
    ∀ {f g : List α} {ps qs : List (List α × List α)}, Labelled Ls ps → Labelled Ls qs →
      Clean Ls f ps → joined f ps = joined g qs → f = g ∧ ps = qs := by
  induction Ls with
  | nil =>
    intro f g ps qs hps hqs _ heq
    cases hps
    cases hqs
    exact ⟨heq, rfl⟩
  | cons L Ls ih =>
    intro f g ps qs hps hqs hclean heq
    have hL := hsep L (.head _)
    have ih := @ih fun M hM => hsep M (.tail _ hM)
    rcases hps with _ | @⟨_, ⟨l, f₁⟩, _, ps, hl, hps⟩
    rcases hqs with _ | @⟨_, ⟨m, g₁⟩, _, qs, hm, hqs⟩
    obtain ⟨hfree, hfree₁, hclean⟩ := hclean
    simp only [joined, List.append_assoc] at heq
    rcases List.append_eq_append_iff.mp heq with ⟨a, ha, h⟩ | ⟨a, ha, h⟩
    · rcases hL.cases (l := l) hl hm h with ⟨rfl, rfl, hrest⟩ | ⟨u, rfl, hrest⟩
      · obtain ⟨rfl, rfl⟩ := ih hps hqs hclean hrest
        exact ⟨by rw [ha, List.append_nil], rfl⟩
      · -- the other record has its label of this family inside what follows `l`
        rw [← joined_append, ← joined_append] at hrest
        obtain ⟨rfl, -⟩ := ih hps hqs hclean hrest
        exact absurd ⟨u, g₁, by rw [List.append_assoc]⟩ (hfree₁ m hm)
    · rcases hL.cases (l := m) hm hl h with ⟨rfl, rfl, hrest⟩ | ⟨u, rfl, -⟩
      · obtain ⟨rfl, rfl⟩ := ih hps hqs hclean hrest.symm
        exact ⟨by rw [ha, List.append_nil], rfl⟩
      · exact absurd ⟨g, u, by rw [ha, List.append_assoc]⟩ (hfree m hm)

/-- **A record that is not clean shares its text with another one.** -/
theorem exists_ne_of_not_clean {Ls : List (Set (List α))} (hsep : ∀ L ∈ Ls, Separating L) :
    ∀ {f : List α} {ps : List (List α × List α)}, Labelled Ls ps → ¬ Clean Ls f ps →
      ∃ g qs, Labelled Ls qs ∧ joined g qs = joined f ps ∧ ¬ (g = f ∧ qs = ps) := by
  induction Ls with
  | nil => exact fun _ hdirty => absurd trivial hdirty
  | cons L Ls ih =>
    intro f ps hps hdirty
    have hL := hsep L (.head _)
    rcases hps with _ | @⟨_, ⟨l, f₁⟩, _, ps, hl, hps⟩
    by_cases hfree : Free L f
    · by_cases hfree₁ : Free L f₁
      · have hdirty₁ : ¬ Clean Ls f₁ ps := fun hclean => hdirty ⟨hfree, hfree₁, hclean⟩
        obtain ⟨g₁, qs, hqs, heq, hne⟩ := ih (fun M hM => hsep M (.tail _ hM)) hps hdirty₁
        refine ⟨f, (l, g₁) :: qs, .cons hl hqs, by simp only [joined, heq], fun hsame => hne ?_⟩
        obtain ⟨⟨-, rfl⟩, rfl⟩ := by simpa using hsame.2
        exact ⟨rfl, rfl⟩
      · -- the first label and what precedes the inner one move into the field before
        obtain ⟨m, hm, x, y, rfl⟩ : ∃ m ∈ L, m <:+: f₁ := by simpa [Free] using hfree₁
        refine ⟨f ++ l ++ x, (m, y) :: ps, .cons hm hps, ?_, fun hsame => hL.ne_nil l hl ?_⟩
        · simp only [joined, joined_append, List.append_assoc]
        · have hlen := congrArg List.length hsame.1
          simp only [List.length_append] at hlen
          exact List.length_eq_zero_iff.mp (by omega)
    · -- what follows the inner label moves into the field behind
      obtain ⟨m, hm, x, y, rfl⟩ : ∃ m ∈ L, m <:+: f := by simpa [Free] using hfree
      refine ⟨x, (m, y ++ l ++ f₁) :: ps, .cons hm hps, ?_, fun hsame => hL.ne_nil m hm ?_⟩
      · simp only [joined, joined_append, List.append_assoc]
      · have hlen := congrArg List.length hsame.1
        simp only [List.length_append] at hlen
        exact List.length_eq_zero_iff.mp (by omega)

/-- **The text determines the record exactly when the record is clean.** -/
theorem determined_iff_clean {Ls : List (Set (List α))} (hsep : ∀ L ∈ Ls, Separating L)
    {f : List α} {ps : List (List α × List α)} (hps : Labelled Ls ps) :
    (∀ g qs, Labelled Ls qs → joined g qs = joined f ps → g = f ∧ qs = ps) ↔ Clean Ls f ps := by
  constructor
  · intro hdet
    by_contra hdirty
    obtain ⟨g, qs, hqs, heq, hne⟩ := exists_ne_of_not_clean hsep hps hdirty
    exact hne (hdet g qs hqs heq)
  · intro hclean g qs hqs heq
    obtain ⟨rfl, rfl⟩ := eq_of_joined_eq hsep hps hqs hclean heq.symm
    exact ⟨rfl, rfl⟩

/-! ### Families that separate -/

/-- The first `c` of a text has one place. -/
theorem eq_of_append_cons_eq {c : α} {s t x y : List α} (hs : c ∉ s) (ht : c ∉ t)
    (h : s ++ c :: x = t ++ c :: y) : s = t ∧ x = y := by
  rcases List.append_eq_append_iff.mp h with ⟨u, rfl, hu⟩ | ⟨u, rfl, hu⟩
  · cases u with
    | nil => exact ⟨(List.append_nil s).symm, (List.cons.inj hu).2⟩
    | cons d u =>
      obtain ⟨rfl, -⟩ := List.cons.inj hu
      exact absurd (List.mem_append_right s (.head u)) ht
  · cases u with
    | nil => exact ⟨List.append_nil t, (List.cons.inj hu).2.symm⟩
    | cons d u =>
      obtain ⟨rfl, -⟩ := List.cons.inj hu
      exact absurd (List.mem_append_right t (.head u)) hs

/-- The last `c` of a text has one place. -/
theorem eq_of_append_cons_eq_of_last {c : α} {s t x y : List α} (hx : c ∉ x) (hy : c ∉ y)
    (h : s ++ c :: x = t ++ c :: y) : s = t ∧ x = y := by
  have hrev : x.reverse ++ c :: s.reverse = y.reverse ++ c :: t.reverse := by
    simpa using congrArg List.reverse h
  obtain ⟨hxy, hst⟩ := eq_of_append_cons_eq (by simpa using hx) (by simpa using hy) hrev
  exact ⟨List.reverse_injective hst, List.reverse_injective hxy⟩

/-- A symbol found within the length of `t` is one of `t`. -/
theorem mem_of_append_eq {c : α} {t x a z : List α} (h : t ++ x = a ++ c :: z)
    (hlt : a.length < t.length) : c ∈ t := by
  have hget : (t ++ x)[a.length]? = some c := by
    rw [h, List.getElem?_append_right (Nat.le_refl _), Nat.sub_self]
    rfl
  rw [List.getElem?_append_left hlt] at hget
  exact List.mem_of_getElem? hget

/-- One label, whose first symbol does not come again in it. -/
theorem Separating.singleton {c : α} {t : List α} (h : c ∉ t) : Separating {c :: t} where
  ne_nil := fun l hl => by
    obtain rfl : l = c :: t := hl
    exact List.cons_ne_nil c t
  eq_of_overlap := by
    rintro l m a x y rfl rfl heq hlt
    refine ⟨?_, rfl⟩
    cases a with
    | nil => rfl
    | cons d a =>
      have hrest := (List.cons.inj heq).2
      exact absurd (mem_of_append_eq hrest (Nat.lt_of_succ_lt_succ hlt)) h

/-- Two fixed parts, told apart by their first symbols, around a text of `N`. -/
theorem Separating.framed {c p₀ q₀ : α} {p q : List α} {N : Set (List α)} (hpq : q₀ ≠ p₀)
    (hp : c ∉ p₀ :: p) (hq : c ∉ q₀ :: q) (hN : ∀ n ∈ N, c ∉ n) :
    Separating {l | ∃ n ∈ N, l = c :: (p₀ :: p ++ n ++ c :: q₀ :: q)} where
  ne_nil := by
    rintro l ⟨n, -, rfl⟩
    exact List.cons_ne_nil _ _
  eq_of_overlap := by
    rintro l m a x y ⟨n, hn, rfl⟩ ⟨n', hn', rfl⟩ heq hlt
    have hfree : c ∉ p₀ :: p ++ n := fun hc => (List.mem_append.mp hc).elim hp (hN n hn)
    cases a with
    | nil =>
      refine ⟨rfl, ?_⟩
      have hfree' : c ∉ p₀ :: p ++ n' := fun hc => (List.mem_append.mp hc).elim hp (hN n' hn')
      have hrest : (p₀ :: p ++ n) ++ c :: (q₀ :: q ++ x) =
          (p₀ :: p ++ n') ++ c :: (q₀ :: q ++ y) := by
        simpa using (List.cons.inj heq).2
      rw [(eq_of_append_cons_eq hfree hfree' hrest).1]
    | cons d a =>
      have hrest : (p₀ :: p ++ n) ++ c :: (q₀ :: q ++ x) =
          a ++ c :: p₀ :: (p ++ n' ++ c :: q₀ :: q ++ y) := by
        simpa using (List.cons.inj heq).2
      -- the only `c` inside the label is the one before `q₀`, where `p₀` would have to stand
      rcases List.append_eq_append_iff.mp hrest with ⟨u, rfl, hu⟩ | ⟨u, hu, hu'⟩
      · cases u with
        | nil => exact absurd (List.cons.inj (List.cons.inj hu).2).1 hpq
        | cons e u =>
          refine absurd (mem_of_append_eq (List.cons.inj hu).2 ?_) hq
          simp only [List.length_cons, List.length_append] at hlt ⊢
          omega
      · cases u with
        | nil => exact absurd (List.cons.inj (List.cons.inj hu').2).1.symm hpq
        | cons e u =>
          obtain ⟨rfl, -⟩ := List.cons.inj hu'
          exact absurd (hu ▸ List.mem_append_right a (.head u)) hfree

end Delimited
end SovereignSeed
