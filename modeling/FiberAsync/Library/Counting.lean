import Mathlib.Algebra.BigOperators.Group.Finset.Basic
import Mathlib.Algebra.Order.BigOperators.Group.Finset

/-!
# Counting over a family of cells

A family of cells, one of which is overwritten at each step, and a weight of
each cell: what the step does to the total weight, and what a total of zero or
the presence of a heavy cell says about the cells. Counters kept beside the
family are compared with these totals. A family without a bound, of which
finitely many cells count, is tallied instead.
-/

namespace FiberAsync.Counting

set_option autoImplicit false

universe u v

variable {ι : Type u} {κ : Type v} {s : Finset ι} (weight : κ → Nat) (cell : ι → κ)

/-- The total weight of the cells in `s`. -/
def total (s : Finset ι) (weight : κ → Nat) (cell : ι → κ) : Nat := ∑ i ∈ s, weight (cell i)

theorem weight_le_total {i : ι} (hi : i ∈ s) : weight (cell i) ≤ total s weight cell :=
  Finset.single_le_sum (f := fun j => weight (cell j)) (fun _ _ => Nat.zero_le _) hi

theorem total_eq_zero_iff : total s weight cell = 0 ↔ ∀ i ∈ s, weight (cell i) = 0 :=
  Finset.sum_eq_zero_iff

theorem total_congr {cell' : ι → κ} (h : ∀ i ∈ s, weight (cell' i) = weight (cell i)) :
    total s weight cell' = total s weight cell := Finset.sum_congr rfl h

variable [DecidableEq ι]

theorem total_update {i : ι} (hi : i ∈ s) (c : κ) :
    total s weight (Function.update cell i c) + weight (cell i) =
      total s weight cell + weight c := by
  have hrest : ∑ j ∈ s.erase i, weight (Function.update cell i c j) =
      ∑ j ∈ s.erase i, weight (cell j) := by
    apply Finset.sum_congr rfl
    intro j hj
    rw [Function.update_of_ne (Finset.ne_of_mem_erase hj)]
  unfold total
  rw [← Finset.add_sum_erase s _ hi, ← Finset.add_sum_erase s (fun j => weight (cell j)) hi, hrest,
    Function.update_self]
  omega

theorem total_update_same (i : ι) {c : κ} (hc : weight c = weight (cell i)) :
    total s weight (Function.update cell i c) = total s weight cell := by
  apply Finset.sum_congr rfl
  intro j _
  by_cases hj : j = i
  · subst j
    rw [Function.update_self, hc]
  · rw [Function.update_of_ne hj]

section Tally

variable {p : κ → Bool} {cell : ι → κ} {n : Nat} {i : ι} {c : κ}

/-- `n` is the number of the cells that satisfy `p`. -/
def Tally (p : κ → Bool) (cell : ι → κ) (n : Nat) : Prop :=
  ∃ b : Finset ι, (∀ i, i ∈ b ↔ p (cell i) = true) ∧ b.card = n

namespace Tally

omit [DecidableEq ι] in
theorem zero (h : ∀ i, p (cell i) = false) : Tally p cell 0 :=
  ⟨∅, fun i => by simp [h i], rfl⟩

omit [DecidableEq ι] in
theorem eq_false (h : Tally p cell 0) (i : ι) : p (cell i) = false := by
  obtain ⟨b, hb, hcard⟩ := h
  rw [Finset.card_eq_zero.mp hcard] at hb
  simpa using (hb i).not.mp (Finset.notMem_empty i)

theorem update_same (h : Tally p cell n) (hc : p c = p (cell i)) :
    Tally p (Function.update cell i c) n := by
  obtain ⟨b, hb, hcard⟩ := h
  refine ⟨b, fun j => ?_, hcard⟩
  by_cases hj : j = i
  · subst j
    rw [Function.update_self, hc]
    exact hb i
  · rw [Function.update_of_ne hj]
    exact hb j

theorem update_enters (h : Tally p cell n) (hi : p (cell i) = false) (hc : p c = true) :
    Tally p (Function.update cell i c) (n + 1) := by
  obtain ⟨b, hb, hcard⟩ := h
  have hnot : i ∉ b := by
    intro hmem
    rw [(hb i).mp hmem] at hi
    cases hi
  refine ⟨insert i b, fun j => ?_, by rw [Finset.card_insert_of_notMem hnot, hcard]⟩
  by_cases hj : j = i
  · subst j
    simp [hc]
  · rw [Finset.mem_insert, Function.update_of_ne hj, or_iff_right hj]
    exact hb j

theorem update_leaves (h : Tally p cell n) (hi : p (cell i) = true) (hc : p c = false) :
    Tally p (Function.update cell i c) (n - 1) := by
  obtain ⟨b, hb, hcard⟩ := h
  have hmem : i ∈ b := (hb i).mpr hi
  refine ⟨b.erase i, fun j => ?_, by rw [Finset.card_erase_of_mem hmem, hcard]⟩
  by_cases hj : j = i
  · subst j
    simp [hc]
  · rw [Finset.mem_erase, Function.update_of_ne hj, and_iff_right hj]
    exact hb j

end Tally

end Tally

end FiberAsync.Counting
