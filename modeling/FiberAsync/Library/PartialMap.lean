import FiberAsync.Library.Runs
import Mathlib.Logic.Function.Basic

/-!
# A partial map whose lookups may create

The lookups and deletions of a map from keys to values, one at a time. A lookup
that is to create an entry takes for it a value that no key has yet. An entry is
what the last call that wrote it has left.
-/

namespace FiberAsync.PartialMap

set_option autoImplicit false

open Runs

universe u v

inductive Op (κ : Type u) where
  | get (k : κ) (create : Bool)
  | del (k : κ)
  deriving DecidableEq, Repr

variable {κ : Type u} {ν : Type v}

def Op.key : Op κ → κ
  | get k _ | del k => k

variable [DecidableEq κ]

/-- A call, with the value that it returns. -/
inductive Step (M : κ → Option ν) : Op κ × Option ν → (κ → Option ν) → Prop where
  | found (k : κ) (create : Bool) (v : ν) : M k = some v → Step M (.get k create, some v) M
  | absent (k : κ) : M k = none → Step M (.get k false, none) M
  | created (k : κ) (v : ν) : M k = none → (∀ j, M j ≠ some v) →
      Step M (.get k true, some v) (Function.update M k (some v))
  | deleted (k : κ) : Step M (.del k, none) (Function.update M k none)

def system : System (κ → Option ν) (Op κ × Option ν) where
  init M := M = fun _ => none
  step := Step

/-- The call is a deletion of the key, or a lookup that creates its entry. -/
def Writes (k : κ) (m : Move (κ → Option ν) (Op κ × Option ν)) : Prop :=
  m.act.1 = .del k ∨ m.act.1 = .get k true ∧ m.pre k = none

variable {M M' : κ → Option ν} {a : Op κ × Option ν} {k : κ} {v : ν}
  {tr : List (Move (κ → Option ν) (Op κ × Option ν))}

theorem Step.frame (h : Step M a M') (hk : k ≠ a.1.key) : M' k = M k := by
  cases h with
  | found | absent => rfl
  | created j v => exact Function.update_of_ne hk _ _
  | deleted j => exact Function.update_of_ne hk _ _

theorem Step.kept (h : Step M a M') (hw : ¬ Writes k ⟨M, a, M'⟩) : M' k = M k := by
  cases h with
  | found | absent => rfl
  | created j v hj _ =>
    refine Function.update_of_ne (fun heq => hw (Or.inr ?_)) _ _
    subst heq
    exact ⟨rfl, hj⟩
  | deleted j =>
    refine Function.update_of_ne (fun heq => hw (Or.inl ?_)) _ _
    subst heq
    rfl

theorem Step.written (h : Step M a M') (hw : Writes k ⟨M, a, M'⟩) :
    M' k = some v ↔ a = (.get k true, some v) := by
  cases h with
  | found j create w hj =>
    obtain hdel | ⟨hget, hnone⟩ := hw
    · cases hdel
    · cases hget
      cases hnone.symm.trans hj
  | absent j hj =>
    obtain hdel | ⟨hget, _⟩ := hw
    · cases hdel
    · cases hget
  | created j w hj _ =>
    obtain hdel | ⟨hget, _⟩ := hw
    · cases hdel
    · cases hget
      rw [Function.update_self]
      simp
  | deleted j =>
    obtain hdel | ⟨hget, _⟩ := hw
    · cases hdel
      rw [Function.update_self]
      simp
    · cases hget

variable {r : Option ν} {create : Bool}

theorem Step.get_some (h : Step M (.get k create, r) M') (hk : M k = some v) :
    r = some v ∧ M' = M := by
  cases h with
  | found k create w hw => exact ⟨hw.symm.trans hk, rfl⟩
  | absent k hnone => cases hnone.symm.trans hk
  | created k w hnone _ => cases hnone.symm.trans hk

theorem Step.get_none (h : Step M (.get k false, r) M') (hk : M k = none) : r = none ∧ M' = M := by
  cases h with
  | found k create w hw => cases hk.symm.trans hw
  | absent => exact ⟨rfl, rfl⟩

theorem Step.get_create (h : Step M (.get k true, r) M') (hk : M k = none) :
    ∃ w, r = some w ∧ M' k = some w := by
  cases h with
  | found k create w hw => cases hk.symm.trans hw
  | created k w _ _ => exact ⟨w, rfl, Function.update_self _ _ _⟩

theorem Step.del (h : Step M (.del k, r) M') : M' k = none := by
  cases h with
  | deleted => exact Function.update_self _ _ _

/-- The last creating lookup of the key since its last deletion has returned that value. -/
def Stores (k : κ) (v : ν) (tr : List (Move (κ → Option ν) (Op κ × Option ν))) : Prop :=
  ∃ m, Last (Writes k) tr m ∧ m.act = (.get k true, some v)

/-- In a run from the empty map, an entry is what was stored last. -/
theorem entry_iff_stores (h : Run system (fun _ => none) tr M) :
    M k = some v ↔ Stores k v tr := by
  refine h.history (fun tr M => M k = some v ↔ Stores k v tr) (fun {tr M a M'} ih hstep => ?_) ?_
  · by_cases hw : Writes k ⟨M, a, M'⟩
    · rw [hstep.written hw]
      constructor
      · intro ha
        exact ⟨_, Last.snoc_self hw, ha⟩
      · intro hstores
        obtain ⟨m, hlast, ha⟩ := hstores
        obtain ⟨_, rfl⟩ := (Last.snoc_iff.mp hlast).resolve_right fun hnot => hnot.1 hw
        exact ha
    · rw [hstep.kept hw, ih]
      refine exists_congr fun m => and_congr_left fun _ => ?_
      rw [Last.snoc_iff]
      rw [or_iff_right fun h => hw h.1]
      exact (and_iff_right hw).symm
  · refine iff_of_false (by simp) fun hstores => ?_
    obtain ⟨m, ⟨before, after, heq, _⟩, _⟩ := hstores
    simp at heq

end FiberAsync.PartialMap
