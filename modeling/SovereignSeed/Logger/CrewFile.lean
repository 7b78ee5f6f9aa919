import SovereignSeed.Logger.Dashboard
import SovereignSeed.Mpmc.Crew

/-!
# The log file of a crew

The logger of a crew prints a row of numbers for each record it is handed, by a template of
`fprintf`, and the audit app may open the file at any time.

What the ring has handed over is a merge of beginnings of the producers' rounds, and so is what
has been printed of it, and what a reader finds in a beginning of the file.

## Main definitions

* `numberMembers`, `numberRow` — a row of numbers.

## Main results

* `isRow_numberRow` — a row of numbers is a row.
* `read_crew` — **what a reader finds is a merge of beginnings of the rounds.**
-/

namespace SovereignSeed
namespace Logger

open Python Python.Json Mpmc

/-! ### Rows of numbers -/

/-- The members of a row of numbers. -/
def numberMembers (ns : List (PyStr × ℤ)) : Members := ns.map fun n => (n.1, .int n.2)

/-- What `"{\"k\": %ld, …}\n"` prints of some numbers, without the end of the line, and the
record that is read. -/
def numberRow (ns : List (PyStr × ℤ)) : PyStr × Value :=
  (rawObject (rawTexts (numberMembers ns)), .obj (numberMembers ns))

/-- The keys of a template: they differ, and are printed as they are. -/
def PlainKeys (keys : List PyStr) : Prop :=
  keys.Nodup ∧ ∀ k ∈ keys, IsPlain k ∧ IsScalar k

instance (keys : List PyStr) : Decidable (PlainKeys keys) := inferInstanceAs (Decidable (_ ∧ _))

/-- **A row of numbers is a row**, if they have no more than 64 bits. -/
theorem isRow_numberRow {ns : List (PyStr × ℤ)} (hne : ns ≠ [])
    (hkeys : PlainKeys (ns.map Prod.fst))
    (hbits : ∀ n ∈ ns, n.2.natAbs < 2 ^ 64) : IsRow (numberRow ns).1 (numberRow ns).2 := by
  have hfst : (numberMembers ns).map Prod.fst = ns.map Prod.fst := by
    rw [numberMembers, List.map_map]
    rfl
  refine isRow_rawObject (fun hnil => hne (List.map_eq_nil_iff.mp hnil)) ?_ (hfst ▸ hkeys.1)
  intro m hm
  obtain ⟨n, hn, rfl⟩ := List.mem_map.mp hm
  obtain ⟨hplain, hscalar⟩ := hkeys.2 n.1 (List.mem_map_of_mem hn)
  refine ⟨hplain, hscalar, ?_⟩
  have hlt := hbits n hn
  have hpow := pow_twenty_le
  show n.2.natAbs < 10 ^ maxStrDigits
  omega

/-- The numbers of a `long` or a `long long`, and of an `unsigned long`. -/
theorem natAbs_toInt_lt_two_pow (x : BitVec 64) : x.toInt.natAbs < 2 ^ 64 := by
  have hlt := x.toInt_lt
  have hle := x.le_toInt
  omega

theorem natAbs_toNat_lt_two_pow (x : BitVec 64) : (x.toNat : ℤ).natAbs < 2 ^ 64 := by
  rw [Int.natAbs_natCast]
  exact x.isLt

/-! ### The file -/

section File

variable {P : ℕ} {ι α : Type*} {Q : QueueSize} {round : Fin P → ℕ → Payload ι α}
  {issued : Fin P → ℕ} {q : Queue (Option (Fin P)) ι α} {row : Payload ι α → PyStr × Value}
  {rows hand : List (PyStr × Value)}

/-- **What a reader finds in a beginning of the file is a merge of beginnings of the rounds**:
of every producer the first ones once each, in order. -/
theorem read_crew (h : Crew Q round issued q)
    (hrow : ∀ w i, IsRow (row (round w i)).1 (row (round w i)).2)
    (hprinted : q.rets.map (fun r => row r.2.2) = rows ++ hand) (n : ℕ) :
    ∃ L : List (Fin P × ℕ),
      loadJsonl ((rowsFile rows).take n) = L.map (fun l => (row (round l.1 l.2)).2) ∧
      ∀ w, ∃ c ≤ issued w, (share Prod.fst L w).map Prod.snd = List.range c := by
  obtain ⟨L, hL, hshare⟩ := h.merge_prefix
  -- the rows are those of a beginning of the merge
  have hall : L.map (fun l => row (round l.1 l.2)) = rows ++ hand := by
    have hmap := congrArg (List.map row) hL
    rw [List.map_map, List.map_map] at hmap
    exact hmap.symm.trans hprinted
  obtain ⟨l, hand', rfl, hrows, -⟩ := List.map_eq_append_iff.mp hall
  have hisRow : ∀ r ∈ rows, IsRow r.1 r.2 := by
    intro r hr
    rw [← hrows] at hr
    obtain ⟨l, -, rfl⟩ := List.mem_map.mp hr
    exact hrow l.1 l.2
  obtain ⟨k, torn, -, -, -, hload, -⟩ := read_of_take hisRow n
  refine ⟨l.take k, ?_, fun w => ?_⟩
  · rw [hload, ← hrows, ← List.map_take, List.map_map]
    rfl
  · obtain ⟨c, hc, hcount⟩ := hshare w
    have hfirst : (l ++ hand').take l.length = l := List.take_left
    obtain ⟨d, hd, hwhole⟩ := exists_share_take hcount l.length
    rw [hfirst] at hwhole
    obtain ⟨e, he, htake⟩ := exists_share_take hwhole k
    exact ⟨e, he.trans (hd.trans hc), htake⟩

end File

end Logger
end SovereignSeed
