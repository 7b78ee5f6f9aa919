import Mathlib.Data.List.Forall2
import Mathlib.Data.List.Induction

/-!
# Hash chains

A chain of entries, each of which names the hash of the one before it; the first
names a mark that is no hash.  Where equal hashes mean related entries, and related
entries name the same predecessor, two chains with one tip are related entry by
entry: they are followed back from the tip, and end together at the mark.

## Main definitions

* `Linked`, `tip` — a chain that starts at a mark, and its last hash.

## Main results

* `linked_append_singleton` — a chain grows at its tip.
* `Linked.forall₂_of_tip_eq` — **chains with one tip are related entry by entry.**
-/

namespace SovereignSeed
namespace HashChain

variable {ε δ : Type*} {prev hash : ε → δ}

/-- Each entry names the hash of the one before it, the first one the mark `g`. -/
def Linked (prev hash : ε → δ) : δ → List ε → Prop
  | _, [] => True
  | g, e :: es => prev e = g ∧ Linked prev hash (hash e) es

/-- The hash of the last entry, or the mark. -/
def tip (hash : ε → δ) (g : δ) (es : List ε) : δ := (es.getLast?.map hash).getD g

@[simp] theorem tip_append_singleton (g : δ) (es : List ε) (e : ε) :
    tip hash g (es ++ [e]) = hash e := by
  simp [tip]

theorem tip_cons (g : δ) (e : ε) (es : List ε) : tip hash g (e :: es) = tip hash (hash e) es := by
  cases es with
  | nil => rfl
  | cons f es => simp [tip, List.getLast?_cons]

/-- A chain grows at its tip. -/
theorem linked_append_singleton {e : ε} : ∀ {es : List ε} {g : δ},
    Linked prev hash g (es ++ [e]) ↔ Linked prev hash g es ∧ prev e = tip hash g es := by
  intro es
  induction es with
  | nil => simp [Linked, tip]
  | cons f es ih => simp [Linked, ih, tip_cons, and_assoc]

/-- **Chains with one tip are related entry by entry.** -/
theorem Linked.forall₂_of_tip_eq {R : ε → ε → Prop} {g : δ} : ∀ {xs ys : List ε},
    (∀ x ∈ xs, ∀ y ∈ ys, hash x = hash y → R x y) →
    (∀ x ∈ xs, ∀ y ∈ ys, R x y → prev x = prev y) →
    (∀ x ∈ xs, hash x ≠ g) → (∀ y ∈ ys, hash y ≠ g) →
    Linked prev hash g xs → Linked prev hash g ys → tip hash g xs = tip hash g ys →
    List.Forall₂ R xs ys := by
  intro xs
  induction xs using List.reverseRecOn with
  | nil =>
    intro ys _ _ _ hy _ _ htip
    rcases List.eq_nil_or_concat' ys with rfl | ⟨ys, y, rfl⟩
    · exact .nil
    · rw [tip_append_singleton] at htip
      exact absurd htip.symm (hy y (by simp))
  | append_singleton xs x ih =>
    intro ys hR hprev hx hy hxs hys htip
    rcases List.eq_nil_or_concat' ys with rfl | ⟨ys, y, rfl⟩
    · rw [tip_append_singleton] at htip
      exact absurd htip (hx x (by simp))
    · rw [tip_append_singleton, tip_append_singleton] at htip
      obtain ⟨hxs, hxprev⟩ := linked_append_singleton.mp hxs
      obtain ⟨hys, hyprev⟩ := linked_append_singleton.mp hys
      have hxy : R x y := hR x (by simp) y (by simp) htip
      have hback : tip hash g xs = tip hash g ys := by
        rw [← hxprev, ← hyprev, hprev x (by simp) y (by simp) hxy]
      refine List.rel_append (ih ?_ ?_ ?_ ?_ hxs hys hback) (.cons hxy .nil)
      · exact fun x hx y hy => hR x (List.mem_append_left _ hx) y (List.mem_append_left _ hy)
      · exact fun x hx y hy => hprev x (List.mem_append_left _ hx) y (List.mem_append_left _ hy)
      · exact fun x h => hx x (List.mem_append_left _ h)
      · exact fun y h => hy y (List.mem_append_left _ h)

end HashChain
end SovereignSeed
