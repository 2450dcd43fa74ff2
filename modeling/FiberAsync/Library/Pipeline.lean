import FiberAsync.Library.Ownership
import Mathlib.Data.List.Basic
import Mathlib.Logic.Function.Basic

/-!
# Items on their way through a shared queue

A worker makes items, which it puts at the end of a vector of its own, moves them
from its front to a queue that all workers share, takes items from the front of the
queue, and starts what it has taken. A worker's line is what it would start next if
it worked alone.
-/

namespace FiberAsync.Pipelines

set_option autoImplicit false

universe u v

/-- At most one item is in the hands of a worker. -/
structure Pipeline (τ : Type u) (α : Type v) where
  hand : τ → Option α
  queue : List α
  vector : τ → List α

section Model

variable {τ : Type u} {α : Type v} [DecidableEq τ]

namespace Pipeline

variable (p : Pipeline τ α)

def line (t : τ) : List α := (p.hand t).toList ++ p.queue ++ p.vector t

/-- The item is on its way. -/
def Holds (z : α) : Prop := (∃ t, p.hand t = some z) ∨ z ∈ p.queue ∨ ∃ t, z ∈ p.vector t

def give (t : τ) (x : Option α) (queue : List α) : Pipeline τ α :=
  { p with hand := Function.update p.hand t x, queue }

def fill (t : τ) (l queue : List α) : Pipeline τ α :=
  { p with vector := Function.update p.vector t l, queue }

end Pipeline

/-- A step of worker `t`, with the item it starts and the items it makes. A
worker may also take something from the queue that is not an item. -/
inductive Step (t : τ) (p : Pipeline τ α) : Option α → List α → Pipeline τ α → Prop where
  | stay : Step t p none [] p
  | take {x : Option α} {rest : List α} : p.hand t = none → p.queue = x.toList ++ rest →
      Step t p none [] (p.give t x rest)
  | start {x : Option α} : p.hand t = x → Step t p x [] (p.give t none p.queue)
  | enqueue {x : α} {rest : List α} : p.vector t = x :: rest →
      Step t p none [] (p.fill t rest (p.queue ++ [x]))
  | make {l : List α} : Step t p none l (p.fill t (p.vector t ++ l) p.queue)

/-- Some item with `P` has none with `Q` before it. -/
def Ahead (P Q : α → Prop) (l : List α) : Prop :=
  ∃ before x after, l = before ++ x :: after ∧ P x ∧ ∀ y ∈ before, ¬ Q y

variable {p p' : Pipeline τ α} {t u : τ} {x : Option α} {made l : List α} {P Q : α → Prop}

theorem Step.of_eq {q : Pipeline τ α} (h : Step t p x made p') (heq : q = p') :
    Step t p x made q := heq ▸ h

/-- A worker's own steps shorten its line at the front and lengthen it at the end. -/
theorem Step.line_self (h : Step t p x made p') :
    ∃ rest, p.line t = x.toList ++ rest ∧ p'.line t = rest ++ made := by
  cases h with
  | stay => exact ⟨p.line t, rfl, (List.append_nil _).symm⟩
  | take hhand hqueue =>
    refine ⟨p.line t, rfl, ?_⟩
    simp [Pipeline.line, hhand, hqueue, Pipeline.give]
  | start hhand =>
    refine ⟨p.queue ++ p.vector t, ?_, ?_⟩
    · simp [Pipeline.line, hhand]
    · simp [Pipeline.line, Pipeline.give]
  | enqueue hvector =>
    refine ⟨p.line t, rfl, ?_⟩
    simp [Pipeline.line, hvector, Pipeline.fill]
  | make =>
    refine ⟨p.line t, rfl, ?_⟩
    simp [Pipeline.line, Pipeline.fill]

theorem Pipeline.Holds.of_hand {z : α} (h : (Function.update p.hand t x) u = some z)
    (hx : x = some z → p.Holds z) : p.Holds z := by
  by_cases hut : u = t
  · subst u
    rw [Function.update_self] at h
    exact hx h
  · rw [Function.update_of_ne hut] at h
    exact Or.inl ⟨u, h⟩

theorem Pipeline.Holds.of_vector {z : α} (h : z ∈ (Function.update p.vector t l) u)
    (hl : z ∈ l → p.Holds z) : p.Holds z := by
  by_cases hut : u = t
  · subst u
    rw [Function.update_self] at h
    exact hl h
  · rw [Function.update_of_ne hut] at h
    exact Or.inr (Or.inr ⟨u, h⟩)

theorem Step.holds (h : Step t p x made p') {z : α} (hz : p'.Holds z) :
    p.Holds z ∨ z ∈ made := by
  cases h with
  | stay => exact Or.inl hz
  | @take x rest _ hqueue =>
    apply Or.inl
    have hmem : ∀ w, w ∈ x.toList ++ rest → p.Holds w :=
      fun w hw => Or.inr (Or.inl (hqueue ▸ hw))
    rcases hz with ⟨u, hu⟩ | hz | ⟨u, hu⟩
    · exact .of_hand hu fun heq => hmem z (by simp [heq])
    · exact hmem z (List.mem_append_right _ hz)
    · exact Or.inr (Or.inr ⟨u, hu⟩)
  | start _ =>
    apply Or.inl
    rcases hz with ⟨u, hu⟩ | hz | ⟨u, hu⟩
    · exact .of_hand hu fun heq => (nomatch heq)
    · exact Or.inr (Or.inl hz)
    · exact Or.inr (Or.inr ⟨u, hu⟩)
  | @enqueue w rest hvector =>
    apply Or.inl
    have hmem : ∀ y ∈ w :: rest, p.Holds y := fun y hy => Or.inr (Or.inr ⟨t, hvector ▸ hy⟩)
    rcases hz with ⟨u, hu⟩ | hz | ⟨u, hu⟩
    · exact Or.inl ⟨u, hu⟩
    · rcases List.mem_append.mp hz with hz | hz
      · exact Or.inr (Or.inl hz)
      · rw [List.mem_singleton.mp hz]
        exact hmem w List.mem_cons_self
    · exact .of_vector hu fun hrest => hmem z (List.mem_cons_of_mem w hrest)
  | make =>
    rcases hz with ⟨u, hu⟩ | hz | ⟨u, hu⟩
    · exact Or.inl (Or.inl ⟨u, hu⟩)
    · exact Or.inl (Or.inr (Or.inl hz))
    · by_cases hmade : z ∈ made
      · exact Or.inr hmade
      · refine Or.inl (.of_vector hu fun h => ?_)
        exact Or.inr (Or.inr ⟨t, (List.mem_append.mp h).resolve_right hmade⟩)

theorem Step.holds_started {z : α} (h : Step t p (some z) made p') : p.Holds z := by
  cases h with
  | start hhand => exact Or.inl ⟨t, hhand⟩

/-- A worker that has and takes nothing leaves the lines of the others alone. -/
theorem Step.line_other (h : Step u p none [] p') (hvector : p.vector u = [])
    (hhand : p'.hand u = none) (hne : t ≠ u) : p'.line t = p.line t := by
  cases h with
  | stay => rfl
  | @take x rest _ hqueue =>
    have hx : x = none := by
      rw [← hhand]
      exact (Function.update_self u x p.hand).symm
    subst hx
    simp [Pipeline.line, Pipeline.give, Function.update_of_ne hne, hqueue]
  | start => simp [Pipeline.line, Pipeline.give, Function.update_of_ne hne]
  | enqueue hcons =>
    rw [hvector] at hcons
    cases hcons
  | make => simp [Pipeline.line, Pipeline.fill]

omit [DecidableEq τ] in
theorem Pipeline.holds_of_line {z : α} (h : z ∈ p.line t) : p.Holds z := by
  simp only [Pipeline.line, List.mem_append, Option.mem_toList] at h
  rcases h with (h | h) | h
  · exact Or.inl ⟨t, h⟩
  · exact Or.inr (Or.inl h)
  · exact Or.inr (Or.inr ⟨t, h⟩)

/-- What leaves a line that has an item with `P` ahead of those with `Q` is that
item, or not one with `Q` and leaves the rest of the line so. -/
theorem Ahead.shift {rest : List α} (h : Ahead P Q (x.toList ++ rest)) (made : List α) :
    (∃ z, x = some z ∧ P z) ∨ (∀ z, x = some z → ¬ Q z) ∧ Ahead P Q (rest ++ made) := by
  obtain ⟨before, z, after, hline, hz, hbefore⟩ := h
  cases x with
  | none =>
    refine Or.inr ⟨fun z hz => (nomatch hz), before, z, after ++ made, ?_, hz, hbefore⟩
    rw [show rest = before ++ z :: after from hline, List.append_assoc]
    rfl
  | some w =>
    cases before with
    | nil =>
      obtain ⟨rfl, _⟩ := List.cons.inj hline
      exact Or.inl ⟨_, rfl, hz⟩
    | cons y before =>
      obtain ⟨rfl, hrest⟩ := List.cons.inj hline
      obtain ⟨hy, hbefore⟩ := List.forall_mem_cons.mp hbefore
      refine Or.inr ⟨fun z hz => ?_, before, z, after ++ made, ?_, hz, hbefore⟩
      · cases hz
        exact hy
      · rw [show rest = before ++ z :: after from hrest, List.append_assoc]
        rfl

end Model

/-- Where an item on its way can be. -/
inductive Slot (τ : Type u) where
  | hand (t : τ)
  | queue
  | vector (t : τ)
  deriving DecidableEq

section Conservation

open Ownership

variable {τ : Type u} {α : Type v} [DecidableEq τ] {p p' : Pipeline τ α} {t : τ} {x : Option α}
  {made l started : List α} {count : α → Nat}

def Pipeline.items (p : Pipeline τ α) : Slot τ → List α
  | .hand t => (p.hand t).toList
  | .queue => p.queue
  | .vector t => p.vector t

theorem Pipeline.items_give : (p.give t x l).items =
    Function.update (Function.update p.items .queue l) (.hand t) x.toList := by
  funext k
  cases k with
  | hand u =>
    by_cases hut : u = t
    · subst u
      simp [items, give]
    · have hne : Slot.hand u ≠ Slot.hand t := fun heq => hut (Slot.hand.inj heq)
      simp [items, give, Function.update_of_ne hut, Function.update_of_ne hne]
  | queue => simp [items, give]
  | vector u => simp [items, give]

theorem Pipeline.items_fill {queue : List α} : (p.fill t l queue).items =
    Function.update (Function.update p.items (.vector t) l) .queue queue := by
  funext k
  cases k with
  | hand u => simp [items, fill]
  | queue => simp [items, fill]
  | vector u =>
    by_cases hut : u = t
    · subst u
      simp [items, fill]
    · have hne : Slot.vector u ≠ Slot.vector t := fun heq => hut (Slot.vector.inj heq)
      simp [items, fill, Function.update_of_ne hut, Function.update_of_ne hne]

/-- Started items are like temporaries: with those on their way they are all that
have been made. -/
theorem Step.counted [DecidableEq α] (h : Step t p x made p')
    (hc : Counted p.items started count) :
    Counted p'.items (x.toList ++ started) fun z => count z + made.count z := by
  cases h with
  | stay => exact hc
  | @take y rest hhand hqueue =>
    have htaken : Counted (Function.update p.items .queue rest) (y.toList ++ started) count := by
      apply hc.take
      change p.queue.Perm _
      rw [hqueue]
      exact List.perm_append_comm
    rw [Pipeline.items_give]
    apply htaken.put
    have hempty : Function.update p.items .queue rest (.hand t) = [] := by
      change (p.hand t).toList = []
      rw [hhand]
      rfl
    rw [hempty]
    rfl
  | start hhand =>
    have hqueue : Function.update p.items .queue p.queue = p.items := Function.update_eq_self _ _
    rw [Pipeline.items_give, hqueue]
    apply hc.take
    change (p.hand t).toList.Perm _
    rw [hhand]
    rfl
  | @enqueue y rest hvector =>
    have htaken : Counted (Function.update p.items (.vector t) rest) ([y] ++ started) count := by
      apply hc.take
      change (p.vector t).Perm _
      rw [hvector]
      exact (List.perm_append_singleton y rest).symm
    rw [Pipeline.items_fill]
    apply htaken.put
    rfl
  | make =>
    have hqueue : Function.update (Function.update p.items (.vector t) (p.vector t ++ made))
        .queue p.queue = Function.update p.items (.vector t) (p.vector t ++ made) :=
      Function.update_eq_self _ _
    rw [Pipeline.items_fill, hqueue]
    apply (hc.copy made).put
    rfl

end Conservation

end FiberAsync.Pipelines
