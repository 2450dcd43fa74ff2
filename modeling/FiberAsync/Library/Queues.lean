import FiberAsync.Library.Runs
import Mathlib.Data.List.Count

/-!
# Queues from which each taker takes what it may

Elements are added at the end of a list; a taker removes the first element that it
may take, and nothing if there is none. An element waits for no more turns of the
takers that may take it than there are elements ahead of it: one that comes later
is never taken in its place.
-/

namespace FiberAsync.Queues

set_option autoImplicit false

open Runs

universe u v w x

variable {ι : Type u} {κ : Type v} (may : ι → κ → Bool)

/-- One step of a queue: who takes a turn, and what it takes. -/
inductive Change (l : List κ) : Option ι → Option κ → List κ → Prop where
  | add (added : List κ) : Change l none none (l ++ added)
  | take (i : ι) (skipped : List κ) (x : κ) (rest : List κ) : l = skipped ++ x :: rest →
      (∀ y ∈ skipped, may i y = false) → may i x = true →
      Change l (some i) (some x) (skipped ++ rest)
  | miss (i : ι) : (∀ y ∈ l, may i y = false) → Change l (some i) none l

/-- The element is in the queue, with at most `n` of those that count ahead of it. -/
def Waits (counts : κ → Bool) (x : κ) (n : Nat) (l : List κ) : Prop :=
  ∃ ahead behind, l = ahead ++ x :: behind ∧ ahead.countP counts ≤ n

variable {may} {counts : κ → Bool} {x y : κ} {n : Nat} {l l' : List κ}

theorem Waits.append (h : Waits counts x n l) (added : List κ) : Waits counts x n (l ++ added) := by
  obtain ⟨ahead, behind, rfl, hn⟩ := h
  exact ⟨ahead, behind ++ added, by simp, hn⟩

/-- The first element a taker may take is the one that waits, or one ahead of it, or
the taker may not take the one that waits. -/
theorem split_first {i : ι} {ahead behind skipped rest : List κ}
    (heq : ahead ++ x :: behind = skipped ++ y :: rest)
    (hskip : ∀ z ∈ skipped, may i z = false) :
    y = x ∨ may i x = false ∧ (∃ tail, skipped = ahead ++ x :: tail) ∨
      ∃ tail, ahead = skipped ++ y :: tail ∧ rest = tail ++ x :: behind := by
  rcases List.append_eq_append_iff.mp heq with ⟨tail, hskipped, hx⟩ | ⟨tail, hahead, hy⟩
  · cases tail with
    | nil =>
      obtain ⟨rfl, _⟩ := List.cons.inj hx
      exact Or.inl rfl
    | cons z tail =>
      obtain ⟨rfl, _⟩ := List.cons.inj hx
      exact Or.inr (Or.inl ⟨hskip x (by simp [hskipped]), tail, hskipped⟩)
  · cases tail with
    | nil =>
      obtain ⟨rfl, _⟩ := List.cons.inj hy
      exact Or.inl rfl
    | cons z tail =>
      obtain ⟨rfl, hrest⟩ := List.cons.inj hy
      exact Or.inr (Or.inr ⟨tail, hahead, hrest⟩)

/-- One step takes the element or leaves it waiting; a turn of a taker that may take
it and takes only what counts brings it nearer. -/
theorem Change.waits {i : Option ι} {taken : Option κ} (h : Change may l i taken l')
    (hw : Waits counts x n l) : taken = some x ∨ ∃ k, Waits counts x k l' ∧ k ≤ n ∧
      ∀ j, i = some j → may j x = true → (∀ y, may j y = true → counts y = true) → k < n := by
  cases h with
  | add added => exact Or.inr ⟨n, hw.append added, Nat.le_refl n, fun j hj => by cases hj⟩
  | miss i hnone =>
    refine Or.inr ⟨n, hw, Nat.le_refl n, fun j hj hmay => ?_⟩
    obtain ⟨ahead, behind, rfl, _⟩ := hw
    cases hj
    rw [hnone x (by simp)] at hmay
    cases hmay
  | take i skipped y rest heq hskip hy =>
    obtain ⟨ahead, behind, hl, hn⟩ := hw
    rcases split_first (hl.symm.trans heq) hskip with
      rfl | ⟨hnot, tail, rfl⟩ | ⟨tail, rfl, rfl⟩
    · exact Or.inl rfl
    · refine Or.inr ⟨n, ⟨ahead, tail ++ rest, by simp, hn⟩, Nat.le_refl n, fun j hj hmay => ?_⟩
      cases hj
      rw [hnot] at hmay
      cases hmay
    · rw [List.countP_append, List.countP_cons] at hn
      refine Or.inr ⟨(skipped ++ tail).countP counts, ⟨skipped ++ tail, behind, by simp, ?_⟩, ?_⟩
      · exact Nat.le_refl _
      · rw [List.countP_append]
        refine ⟨by omega, fun j hj _ hcounts => ?_⟩
        cases hj
        rw [if_pos (hcounts y hy)] at hn
        omega

section Runs

variable {σ : Type w} {α : Type x} {S : System σ α} {s s' : σ} {tr : List (Move σ α)}
  (queue : σ → List κ) (taker : σ → α → Option ι) (taken : σ → α → Option κ) (mine : ι → Bool)

/-- The turns of some of the takers in a run. -/
def turns (tr : List (Move σ α)) : Nat :=
  tr.countP fun m => (taker m.pre m.act).any mine

variable (changes : ∀ {s a s'}, S.step s a s' →
    Change may (queue s) (taker s a) (taken s a) (queue s'))
  (hmine : ∀ i, mine i = true → may i x = true ∧ ∀ y, may i y = true → counts y = true)

include changes hmine

theorem Run.waits (h : Run S s tr s') (hw : Waits counts x n (queue s)) :
    (∃ m ∈ tr, taken m.pre m.act = some x) ∨
      ∃ k, Waits counts x k (queue s') ∧ k + turns taker mine tr ≤ n := by
  induction h generalizing n with
  | nil => exact Or.inr ⟨n, hw, by simp [turns]⟩
  | @cons s t u a tr hstep _ ih =>
    rcases (changes hstep).waits hw with htaken | ⟨k, hk, hle, hlt⟩
    · exact Or.inl ⟨⟨s, a, t⟩, List.mem_cons_self, htaken⟩
    · rcases ih hk with ⟨m, hm, htaken⟩ | ⟨j, hj, hturns⟩
      · exact Or.inl ⟨m, List.mem_cons_of_mem _ hm, htaken⟩
      · refine Or.inr ⟨j, hj, ?_⟩
        unfold turns at hturns ⊢
        rw [List.countP_cons]
        split
        case isTrue hturn =>
          obtain ⟨i, hi, hmy⟩ := (Option.any_eq_true _ _).mp hturn
          have hnear := hlt i hi (hmine i hmy).1 (hmine i hmy).2
          omega
        case isFalse => omega

/-- After more turns than there were elements ahead the element has been taken. -/
theorem Run.taken_of_turns (h : Run S s tr s') (hw : Waits counts x n (queue s))
    (hturns : n < turns taker mine tr) : ∃ m ∈ tr, taken m.pre m.act = some x := by
  rcases Run.waits queue taker taken mine changes hmine h hw with htaken | ⟨k, _, hle⟩
  · exact htaken
  · omega

end Runs

end FiberAsync.Queues
