import Mathlib.Algebra.BigOperators.Fin
import Mathlib.Algebra.Order.BigOperators.Group.Finset
import Mathlib.Data.List.Perm.Basic
import Mathlib.Logic.Function.Basic

/-! # Counting the elements of a list by key

`Tally key list count` says that `count k` is the number of elements of `list` whose
key is `k`.  Elements come and go one at a time, the order of the list is
irrelevant, and a counter that stands for an element is positive.  `weigh_update` is the
same bookkeeping for a finite family of members that each carry a weight.
-/

namespace Library.Counting

open Function (update)

variable {α κ : Type} [DecidableEq κ] {key other : α → κ} {list rest : List α} {count : κ → Nat}
  {a : α}

def Tally (key : α → κ) (list : List α) (count : κ → Nat) : Prop :=
  ∀ k, count k = list.countP fun a => key a = k

namespace Tally

theorem nil (key : α → κ) : Tally key [] fun _ => 0 := fun _ => rfl

theorem perm (tally : Tally key list count) (same : rest.Perm list) : Tally key rest count :=
  fun k => (tally k).trans (same.countP_eq _).symm

theorem congr (tally : Tally key list count) (agree : ∀ a ∈ list, other a = key a) :
    Tally other list count := fun k =>
  (tally k).trans (List.countP_congr fun a member => by simp [agree a member])

theorem insert (tally : Tally key list count) (a : α) :
    Tally key (a :: list) (update count (key a) (count (key a) + 1)) := by
  intro k
  by_cases same : k = key a
  · subst same
    simp [tally (key a)]
  · simp [same, Ne.symm same, tally k]

theorem pos (tally : Tally key (a :: list) count) : 0 < count (key a) := by
  simp [tally (key a)]

theorem pos_of_mem (tally : Tally key list count) (member : a ∈ list) : 0 < count (key a) := by
  rw [tally (key a), List.countP_pos_iff]
  exact ⟨a, member, by simp⟩

theorem remove (tally : Tally key (a :: list) count) :
    Tally key list (update count (key a) (count (key a) - 1)) := by
  intro k
  have current := tally k
  by_cases same : k = key a
  · subst same
    simp only [List.countP_cons, decide_true, if_true] at current
    simp only [Function.update_self]
    omega
  · simpa [same, Ne.symm same] using current

end Tally

/-! ## Families of weights -/

section Weights

variable {ι : Type} [Fintype ι]

theorem weigh_le (weight : ι → Nat) {bound : Nat} (bounded : ∀ i, weight i ≤ bound) :
    ∑ i, weight i ≤ Fintype.card ι * bound := by
  have sum := Finset.sum_le_card_nsmul Finset.univ weight bound fun i _ => bounded i
  simpa using sum

variable [DecidableEq ι]

/-- One member of the family changes. -/
theorem weigh_update (weight : α → Nat) (family : ι → α) (i : ι) (a : α) :
    ∑ j, weight (update family i a j) + weight (family i) = ∑ j, weight (family j) + weight a := by
  have others : ∑ j ∈ Finset.univ.erase i, weight (update family i a j) =
      ∑ j ∈ Finset.univ.erase i, weight (family j) := by
    refine Finset.sum_congr rfl fun j member => ?_
    rw [Function.update_of_ne (Finset.ne_of_mem_erase member)]
  have after := Finset.add_sum_erase Finset.univ (fun j => weight (update family i a j))
    (Finset.mem_univ i)
  have before := Finset.add_sum_erase Finset.univ (fun j => weight (family j)) (Finset.mem_univ i)
  rw [Function.update_self] at after
  omega

/-- A member without weight leaves the others. -/
theorem weigh_le_of_zero (weight : ι → Nat) {bound : Nat} (bounded : ∀ i, weight i ≤ bound) {i : ι}
    (zero : weight i = 0) : ∑ j, weight j ≤ (Fintype.card ι - 1) * bound := by
  have split := Finset.add_sum_erase Finset.univ weight (Finset.mem_univ i)
  have others := Finset.sum_le_card_nsmul (Finset.univ.erase i) weight bound fun j _ => bounded j
  rw [Finset.card_erase_of_mem (Finset.mem_univ i), Finset.card_univ, smul_eq_mul] at others
  rw [← split, zero, Nat.zero_add]
  exact others

end Weights

end Library.Counting
