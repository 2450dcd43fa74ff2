import Mathlib.Algebra.BigOperators.Group.Finset.Basic
import Mathlib.Algebra.Order.BigOperators.Group.Finset

/-!
# Shared ownership by counting references

Places hold references to objects, and so do the temporaries of a step that has
taken a reference out of one place and not yet put it into another. Each object
has a count. While taking, putting, copying and dropping references go with
their changes of the counts, a count is positive exactly while something refers
to the object.
-/

namespace FiberAsync.Ownership

set_option autoImplicit false

universe u v

variable {ι : Type u} {κ : Type v} [DecidableEq ι]

/-- Finitely many places refer to objects, and every object has as many
references from them and from the temporaries as its count says. -/
def Counted (refs : κ → List ι) (temps : List ι) (count : ι → Nat) : Prop :=
  ∃ b : Finset κ, (∀ k, k ∉ b → refs k = []) ∧
    ∀ i, count i = temps.count i + ∑ k ∈ b, (refs k).count i

variable {refs : κ → List ι} {temps temps' l : List ι} {count count' : ι → Nat} {i : ι} {k : κ}

namespace Counted

theorem start : Counted (fun _ : κ => []) [] (fun _ : ι => 0) :=
  ⟨∅, fun _ _ => rfl, fun _ => rfl⟩

/-- References pass between a place and the temporaries. -/
theorem exchange [DecidableEq κ] (h : Counted refs temps count)
    (hp : (refs k ++ temps).Perm (l ++ temps')) :
    Counted (Function.update refs k l) temps' count := by
  obtain ⟨b, hb, hcount⟩ := h
  have hout : ∀ j, j ∉ insert k b → Function.update refs k l j = [] := by
    intro j hj
    rw [Finset.mem_insert, not_or] at hj
    rw [Function.update_of_ne hj.1]
    exact hb j hj.2
  refine ⟨insert k b, hout, fun i => ?_⟩
  have hsame : ∑ j ∈ (insert k b).erase k, (Function.update refs k l j).count i =
      ∑ j ∈ (insert k b).erase k, (refs j).count i := by
    apply Finset.sum_congr rfl
    intro j hj
    rw [Function.update_of_ne (Finset.ne_of_mem_erase hj)]
  have hbefore : ∑ j ∈ b, (refs j).count i =
      (refs k).count i + ∑ j ∈ (insert k b).erase k, (refs j).count i := by
    rw [Finset.add_sum_erase _ (fun j => (refs j).count i) (Finset.mem_insert_self k b)]
    symm
    apply Finset.sum_insert_of_eq_zero_if_notMem
    intro hk
    rw [hb k hk, List.count_nil]
  rw [← Finset.add_sum_erase _ _ (Finset.mem_insert_self k b), Function.update_self, hsame,
    hcount i, hbefore]
  have hperm := hp.count_eq i
  rw [List.count_append, List.count_append] at hperm
  omega

theorem take [DecidableEq κ] (h : Counted refs temps count) (hp : (refs k).Perm (l ++ temps')) :
    Counted (Function.update refs k l) (temps' ++ temps) count := by
  apply h.exchange
  rw [← List.append_assoc]
  exact hp.append_right temps

theorem put [DecidableEq κ] (h : Counted refs (temps' ++ temps) count)
    (hp : l.Perm (refs k ++ temps')) : Counted (Function.update refs k l) temps count := by
  apply h.exchange
  rw [← List.append_assoc]
  exact (hp.symm).append_right temps

theorem copy (h : Counted refs temps count) (l : List ι) :
    Counted refs (l ++ temps) fun i => count i + l.count i := by
  obtain ⟨b, hb, hcount⟩ := h
  refine ⟨b, hb, fun i => ?_⟩
  change count i + l.count i = _
  rw [hcount i, List.count_append]
  omega

theorem drop (h : Counted refs (i :: temps) count) :
    Counted refs temps (Function.update count i (count i - 1)) := by
  obtain ⟨b, hb, hcount⟩ := h
  refine ⟨b, hb, fun j => ?_⟩
  have hj := hcount j
  by_cases hji : j = i
  · subst j
    rw [List.count_cons_self] at hj
    rw [Function.update_self]
    omega
  · rw [List.count_cons_of_ne (Ne.symm hji)] at hj
    rw [Function.update_of_ne hji]
    exact hj

theorem pos_of_temp (h : Counted refs temps count) (hi : i ∈ temps) : 0 < count i := by
  obtain ⟨b, _, hcount⟩ := h
  have hpos := List.count_pos_iff.mpr hi
  rw [hcount i]
  omega

theorem count_le (h : Counted refs temps count) : temps.count i ≤ count i := by
  obtain ⟨b, _, hcount⟩ := h
  rw [hcount i]
  omega

theorem pos_of_mem (h : Counted refs temps count) (hi : i ∈ refs k) : 0 < count i := by
  obtain ⟨b, hb, hcount⟩ := h
  have hk : k ∈ b := by
    by_contra hk
    rw [hb k hk] at hi
    cases hi
  have hle := Finset.single_le_sum (f := fun j => (refs j).count i) (fun _ _ => Nat.zero_le _) hk
  have hpos := List.count_pos_iff.mpr hi
  rw [hcount i]
  omega

theorem pos_iff (h : Counted refs temps count) : 0 < count i ↔ i ∈ temps ∨ ∃ k, i ∈ refs k := by
  constructor
  · intro hpos
    obtain ⟨b, _, hcount⟩ := h
    rw [hcount i] at hpos
    rcases Nat.eq_zero_or_pos (temps.count i) with hzero | htemp
    · rw [hzero, Nat.zero_add] at hpos
      obtain ⟨k, _, hk⟩ := Finset.exists_ne_zero_of_sum_ne_zero hpos.ne'
      exact Or.inr ⟨k, List.count_pos_iff.mp (Nat.pos_of_ne_zero hk)⟩
    · exact Or.inl (List.count_pos_iff.mp htemp)
  · intro href
    rcases href with hi | ⟨k, hi⟩
    · exact h.pos_of_temp hi
    · exact h.pos_of_mem hi

/-- All references to the object are among the temporaries and in one place. -/
theorem not_mem_of_count (h : Counted refs temps count)
    (hall : count i = temps.count i + (refs k).count i) {j : κ} (hj : j ≠ k) : i ∉ refs j := by
  classical
  intro hi
  obtain ⟨b, hb, hcount⟩ := h
  have hmem : ∀ m, i ∈ refs m → m ∈ b := by
    intro m hm
    by_contra hout
    rw [hb m hout] at hm
    cases hm
  have hpair : ∑ m ∈ {j, k}, (refs m).count i ≤ ∑ m ∈ insert k b, (refs m).count i := by
    apply Finset.sum_le_sum_of_subset
    intro m hm
    rw [Finset.mem_insert, Finset.mem_singleton] at hm
    rcases hm with rfl | rfl
    · exact Finset.mem_insert_of_mem (hmem _ hi)
    · exact Finset.mem_insert_self _ _
  have hextra : ∑ m ∈ insert k b, (refs m).count i = ∑ m ∈ b, (refs m).count i := by
    apply Finset.sum_insert_of_eq_zero_if_notMem
    intro hk
    rw [hb k hk, List.count_nil]
  rw [Finset.sum_pair hj, hextra] at hpair
  have hpos := List.count_pos_iff.mpr hi
  have hi' := hcount i
  omega

theorem place_le (h : Counted refs temps count) (k : κ) :
    temps.count i + (refs k).count i ≤ count i := by
  obtain ⟨b, hb, hcount⟩ := h
  rw [hcount i]
  apply Nat.add_le_add_left
  by_cases hk : k ∈ b
  · exact Finset.single_le_sum (f := fun j => (refs j).count i) (fun _ _ => Nat.zero_le _) hk
  · rw [hb k hk, List.count_nil]
    exact Nat.zero_le _

/-- An object with one reference is in one place only. -/
theorem unique (h : Counted refs temps count) (hone : count i ≤ 1) (hi : i ∈ refs k) :
    i ∉ temps ∧ (refs k).count i = 1 ∧ ∀ j, j ≠ k → i ∉ refs j := by
  have hle := h.place_le (i := i) k
  have hpos := List.count_pos_iff.mpr hi
  have htemps : temps.count i = 0 := by omega
  have hall : count i = temps.count i + (refs k).count i := by omega
  exact ⟨List.count_eq_zero.mp htemps, by omega, fun j hj => h.not_mem_of_count hall hj⟩

end Counted

end FiberAsync.Ownership
