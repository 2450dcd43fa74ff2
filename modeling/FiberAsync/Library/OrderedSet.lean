import Mathlib.Order.Lattice
import Mathlib.Data.List.TakeWhile

/-!
# Sets kept in the order of a comparator

A set of handles, listed from `begin()` to `end()`, whose comparator reads a key
through each handle, as `std::set` keeps pointers. The key behind a handle may
change while the handle is outside the set.
-/

namespace FiberAsync.OrderedSet

set_option autoImplicit false

universe u v

section Operations

variable {α : Type u} (lt : α → α → Bool)

/-- Nothing is inserted beside an equivalent element. -/
def insert (x : α) : List α → List α
  | [] => [x]
  | e :: l => if lt x e then x :: e :: l else if lt e x then e :: insert x l else e :: l

/-- The element equivalent to `x`; `none` is `end()`. -/
def find (x : α) : List α → Option α
  | [] => none
  | e :: l => if lt e x then find x l else if lt x e then none else some e

/-- What is before the first element above the key searched for, and the rest. -/
def upperBound (above : α → Bool) (l : List α) : List α × List α :=
  (l.takeWhile (fun e => !above e), l.dropWhile (fun e => !above e))

theorem upperBound_append (above : α → Bool) (l : List α) :
    (upperBound above l).1 ++ (upperBound above l).2 = l := List.takeWhile_append_dropWhile

theorem not_above_of_mem {above : α → Bool} {l : List α} {e : α}
    (h : e ∈ (upperBound above l).1) : above e = false := by
  simpa using List.mem_takeWhile_imp h

end Operations

variable {α : Type u} {K : Type v} [LinearOrder K] {lt : α → α → Bool} {key key' : α → K}
  {l : List α} {x : α}

/-- The comparator compares the keys. -/
def Orders (lt : α → α → Bool) (key : α → K) : Prop := ∀ a b, lt a b = true ↔ key a < key b

def Sorted (key : α → K) (l : List α) : Prop := l.Pairwise fun a b => key a < key b

namespace Sorted

theorem nodup (h : Sorted key l) : l.Nodup :=
  List.Pairwise.imp (fun hlt heq => (ne_of_lt hlt) (congrArg key heq)) h

theorem congr (h : Sorted key l) (hkey : ∀ a ∈ l, key' a = key a) : Sorted key' l := by
  apply List.Pairwise.imp_of_mem _ h
  intro a b ha hb hlt
  rw [hkey a ha, hkey b hb]
  exact hlt

theorem sublist {l' : List α} (h : Sorted key l) (hsub : l'.Sublist l) : Sorted key l' :=
  List.Pairwise.sublist hsub h

theorem eq_of_mem_iff {l' : List α} (h : Sorted key l) (h' : Sorted key l')
    (hmem : ∀ a, a ∈ l ↔ a ∈ l') : l = l' := by
  have hperm : l.Perm l' := (List.perm_ext_iff_of_nodup h.nodup h'.nodup).mpr hmem
  exact hperm.eq_of_pairwise (fun a b _ _ hab hba => absurd hab (not_lt.mpr hba.le)) h h'

end Sorted

theorem Sorted.mem_upperBound_iff (h : Sorted key l) {above : α → Bool} {bound : K}
    (habove : ∀ e, above e = true ↔ bound < key e) :
    x ∈ (upperBound above l).1 ↔ x ∈ l ∧ key x ≤ bound := by
  unfold upperBound
  induction l with
  | nil => simp
  | cons e l ih =>
    obtain ⟨he, hl⟩ := List.pairwise_cons.mp h
    cases hcut : above e with
    | false =>
      have hle : key e ≤ bound := not_lt.mp fun hlt => by simp [(habove e).mpr hlt] at hcut
      rw [List.takeWhile_cons_of_pos (by simp [hcut]), List.mem_cons, List.mem_cons, ih hl]
      constructor
      · rintro (rfl | ⟨hx, hxle⟩)
        · exact ⟨Or.inl rfl, hle⟩
        · exact ⟨Or.inr hx, hxle⟩
      · rintro ⟨rfl | hx, hxle⟩
        · exact Or.inl rfl
        · exact Or.inr ⟨hx, hxle⟩
    | true =>
      have hlt : bound < key e := (habove e).mp hcut
      rw [List.takeWhile_cons_of_neg (by simp [hcut])]
      refine iff_of_false List.not_mem_nil ?_
      rintro ⟨hx, hle⟩
      rcases List.mem_cons.mp hx with rfl | hx
      · exact absurd hle (not_le.mpr hlt)
      · exact absurd hle (not_le.mpr (lt_trans hlt (he x hx)))

theorem mem_insert_imp {y : α} (h : y ∈ insert lt x l) : y = x ∨ y ∈ l := by
  induction l with
  | nil => simpa [insert] using h
  | cons e l ih =>
    unfold insert at h
    split_ifs at h with hxe hex
    · exact List.mem_cons.mp h
    · rcases List.mem_cons.mp h with rfl | h
      · exact Or.inr List.mem_cons_self
      · exact (ih h).imp_right (List.mem_cons_of_mem e)
    · exact Or.inr h

section Laws

variable (ho : Orders lt key)
include ho

theorem perm_insert (hnew : ∀ e ∈ l, key e ≠ key x) : (insert lt x l).Perm (x :: l) := by
  induction l with
  | nil => exact .refl _
  | cons e l ih =>
    obtain ⟨he, hl⟩ := List.forall_mem_cons.mp hnew
    unfold insert
    split_ifs with hxe hex
    · exact .refl _
    · exact (List.Perm.cons e (ih hl)).trans (.swap x e l)
    · rw [ho] at hxe hex
      exact absurd (le_antisymm (not_lt.mp hxe) (not_lt.mp hex)) he

theorem Sorted.insert (h : Sorted key l) : Sorted key (insert lt x l) := by
  induction l with
  | nil => exact List.pairwise_singleton _ _
  | cons e l ih =>
    obtain ⟨he, hl⟩ := List.pairwise_cons.mp h
    unfold OrderedSet.insert
    split_ifs with hxe hex
    · rw [ho] at hxe
      apply List.pairwise_cons.mpr ⟨_, h⟩
      intro a ha
      rcases List.mem_cons.mp ha with rfl | ha
      · exact hxe
      · exact lt_trans hxe (he a ha)
    · apply List.pairwise_cons.mpr ⟨_, ih hl⟩
      intro a ha
      rcases mem_insert_imp ha with rfl | ha
      · exact (ho _ _).mp hex
      · exact he a ha
    · exact h

theorem find_of_mem (h : Sorted key l) (hx : x ∈ l) : find lt x l = some x := by
  induction l with
  | nil => cases hx
  | cons e l ih =>
    obtain ⟨he, hl⟩ := List.pairwise_cons.mp h
    unfold find
    rcases List.mem_cons.mp hx with rfl | hx
    · have hirr : ¬ lt x x = true := fun hlt => lt_irrefl _ ((ho _ _).mp hlt)
      rw [if_neg hirr, if_neg hirr]
    · rw [if_pos ((ho _ _).mpr (he x hx))]
      exact ih hl hx

theorem find_of_not_mem (hnew : ∀ e ∈ l, key e ≠ key x) : find lt x l = none := by
  induction l with
  | nil => rfl
  | cons e l ih =>
    obtain ⟨he, hl⟩ := List.forall_mem_cons.mp hnew
    unfold find
    split_ifs with hex hxe
    · exact ih hl
    · rfl
    · rw [ho] at hxe hex
      exact absurd (le_antisymm (not_lt.mp hxe) (not_lt.mp hex)) he

end Laws

end FiberAsync.OrderedSet
