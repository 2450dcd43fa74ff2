import Mathlib.Logic.Function.Basic

/-!
# Plain mutexes and the regions they guard

A family of mutexes records who locked each of them, and every thread is in at
most one guarded region. While locking and unlocking go with entering and
leaving a region, the owner of a mutex is the thread in its region; the rules
say which steps keep that. An unlock by some other thread leaves one half of it:
who owns a mutex is in its region.
-/

namespace FiberAsync.Locks

set_option autoImplicit false

universe u v

variable {ι : Type u} {κ : Type v} {owner : κ → Option ι} {region : ι → Option κ}

/-- The owner of a mutex is the thread in the region it guards. -/
def Owned (owner : κ → Option ι) (region : ι → Option κ) : Prop :=
  ∀ i k, region i = some k ↔ owner k = some i

theorem Owned.exclusive (h : Owned owner region) {i j : ι} {k : κ} (hi : region i = some k)
    (hj : region j = some k) : i = j := by
  have howner := (h i k).mp hi
  rw [(h j k).mp hj] at howner
  exact (Option.some.inj howner).symm

variable {i : ι} {k : κ}

theorem Owned.stay [DecidableEq ι] (h : Owned owner region) {r : Option κ} (hr : r = region i) :
    Owned owner (Function.update region i r) := by
  rw [hr, Function.update_eq_self]
  exact h

theorem Owned.release_free [DecidableEq κ] (h : Owned owner region) (hfree : owner k = none) :
    Owned (Function.update owner k none) region := by
  rw [← hfree, Function.update_eq_self]
  exact h

variable [DecidableEq ι] [DecidableEq κ]

theorem Owned.acquire (h : Owned owner region) (hfree : owner k = none) (hout : region i = none) :
    Owned (Function.update owner k (some i)) (Function.update region i (some k)) := by
  intro j l
  by_cases hj : j = i
  · subst j
    by_cases hl : l = k
    · subst l
      simp
    · have hne : owner l ≠ some i := fun ho => by
        rw [← h i l, hout] at ho
        cases ho
      simp [hl, hne, Ne.symm hl]
  · by_cases hl : l = k
    · subst l
      have hne : region j ≠ some k := fun hr => by
        rw [h j k, hfree] at hr
        cases hr
      simp [hj, hne, Ne.symm hj]
    · simpa [hj, hl] using h j l

theorem Owned.release (h : Owned owner region) (hin : region i = some k) :
    Owned (Function.update owner k none) (Function.update region i none) := by
  intro j l
  by_cases hj : j = i
  · subst j
    by_cases hl : l = k
    · subst l
      simp
    · have hne : owner l ≠ some i := fun ho => by
        rw [← h i l, hin] at ho
        exact hl (Option.some.inj ho).symm
      simp [hl, hne]
  · by_cases hl : l = k
    · subst l
      have hne : region j ≠ some k := fun hr => hj (h.exclusive hr hin)
      simp [hj, hne]
    · simpa [hj, hl] using h j l

/-- Who owns a mutex is in the region it guards. -/
def Held (owner : κ → Option ι) (region : ι → Option κ) : Prop :=
  ∀ i k, owner k = some i → region i = some k

omit [DecidableEq κ] in
theorem Held.stay (h : Held owner region) {r : Option κ} (hr : r = region i) :
    Held owner (Function.update region i r) := by
  rw [hr, Function.update_eq_self]
  exact h

theorem Held.acquire (h : Held owner region) (hout : region i = none) :
    Held (Function.update owner k (some i)) (Function.update region i (some k)) := by
  intro j l ho
  by_cases hl : l = k
  · subst l
    rw [Function.update_self] at ho
    cases ho
    exact Function.update_self _ _ _
  · rw [Function.update_of_ne hl] at ho
    have hj : j ≠ i := by
      rintro rfl
      rw [h j l ho] at hout
      cases hout
    rw [Function.update_of_ne hj]
    exact h j l ho

omit [DecidableEq ι] in
/-- Whoever unlocks, the mutex is free after it. -/
theorem Held.free (h : Held owner region) (k : κ) :
    Held (Function.update owner k none) region := by
  intro j l ho
  by_cases hl : l = k
  · subst l
    rw [Function.update_self] at ho
    cases ho
  · rw [Function.update_of_ne hl] at ho
    exact h j l ho

theorem Held.release (h : Held owner region) (hin : region i = some k) :
    Held (Function.update owner k none) (Function.update region i none) := by
  intro j l ho
  have hheld := h.free k j l ho
  by_cases hj : j = i
  · subst j
    rw [hin] at hheld
    cases hheld
    rw [Function.update_self] at ho
    cases ho
  · rw [Function.update_of_ne hj]
    exact hheld

end FiberAsync.Locks
