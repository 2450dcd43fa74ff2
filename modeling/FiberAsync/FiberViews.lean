import FiberAsync.FiberHandoff

/-!
# The conditions of a fiber

A fiber is followed through a run by the view of it: how many queue entries and
wake-ups exist for it, which worker executes it, and its own state. As long as
it is queued only after it has been switched out, it is in one of six
conditions.
-/

namespace FiberAsync

set_option autoImplicit false

/-- All that the scheduler, the timers and the workers say about one fiber. -/
@[ext]
structure FiberView (τ : Type) where
  /-- queue entries of the fiber, and workers that have dequeued it -/
  published : Nat
  /-- armed wake-ups, and those on their way to the queue entry -/
  waking : Nat
  on : τ → Option OnPc
  state : FiberState
  saved : Bool

namespace FiberView

variable {τ : Type}

def fresh : FiberView τ := ⟨0, 0, fun _ => none, .READY, true⟩

variable [DecidableEq τ] {v v' : FiberView τ} {l : τ}

def at_ (l : τ) (pc : OnPc) : τ → Option OnPc := Function.update (fun _ => none) l (some pc)

/-- The six conditions that a fiber can be in. -/
inductive Ok : FiberView τ → Prop where
  | published : Ok ⟨1, 0, fun _ => none, .READY, true⟩
  | running (l : τ) (b : Bool) : Ok ⟨0, 0, at_ l .running, .RUNNING, b⟩
  | armed (l : τ) (b : Bool) : Ok ⟨0, 1, at_ l .armed, .RUNNING, b⟩
  | readied (l : τ) (b : Bool) : Ok ⟨0, 1, at_ l .readied, .READY, b⟩
  | waiting : Ok ⟨0, 1, fun _ => none, .READY, true⟩
  | finished (b : Bool) : Ok ⟨0, 0, fun _ => none, .TERM, b⟩

section Changes

variable (v : FiberView τ) (l : τ)

def resume : FiberView τ :=
  { v with
    published := v.published - 1, on := Function.update v.on l (some .running),
    state := .RUNNING, saved := false }

def arm : FiberView τ :=
  { v with waking := v.waking + 1, on := Function.update v.on l (some .armed) }

def ready : FiberView τ :=
  { v with
    on := Function.update v.on l (some .readied),
    state := if v.state ≠ .TERM then .READY else .TERM }

def swap : FiberView τ := { v with on := Function.update v.on l none, saved := true }

def publish : FiberView τ := { v with published := v.published + 1, waking := v.waking - 1 }

def finish : FiberView τ := { v with on := Function.update v.on l none, state := .TERM }

end Changes

/-- What a step can do to the view of the fiber that it is about. -/
inductive Changes (v : FiberView τ) : FiberView τ → Prop where
  | resume (l : τ) : 0 < v.published → Changes v (v.resume l)
  | arm (l : τ) : v.on l = some .running → Changes v (v.arm l)
  | ready (l : τ) : v.on l = some .armed → Changes v (v.ready l)
  | swap (l : τ) : v.on l = some .readied → Changes v (v.swap l)
  | publish : 0 < v.waking → Changes v v.publish
  | finish (l : τ) : v.on l = some .running → Changes v (v.finish l)

theorem at_eq_some {l l' : τ} {pc pc' : OnPc} (h : at_ l pc l' = some pc') : l' = l ∧ pc' = pc := by
  unfold at_ at h
  by_cases hl : l' = l
  · subst l'
    rw [Function.update_self] at h
    exact ⟨rfl, (Option.some.inj h).symm⟩
  · rw [Function.update_of_ne hl] at h
    cases h

theorem at_self (l : τ) (pc : OnPc) : at_ l pc l = some pc := Function.update_self _ _ _

theorem update_at (l : τ) (pc pc' : OnPc) : Function.update (at_ l pc) l (some pc') = at_ l pc' :=
  Function.update_idem _ _ _

theorem update_at_none (l : τ) (pc : OnPc) : Function.update (at_ l pc) l none = fun _ => none := by
  unfold at_
  rw [Function.update_idem, Function.update_eq_self]

/-- A fiber stays in one of its conditions as long as it is published only after
it has been switched out. -/
theorem Ok.changes (h : Ok v) (hc : Changes v v')
    (hout : v'.published = v.published + 1 → ∀ l, v.on l = none) : Ok v' := by
  cases hc with
  | resume l hpos =>
    cases h with
    | published => exact .running l false
    | running | armed | readied | waiting | finished => cases hpos
  | arm l hon =>
    cases h with
    | running l' b =>
      obtain ⟨rfl, _⟩ := at_eq_some hon
      rw [arm, update_at]
      exact .armed l b
    | armed | readied => cases (at_eq_some hon).2
    | published | waiting | finished => cases hon
  | ready l hon =>
    cases h with
    | armed l' b =>
      obtain ⟨rfl, _⟩ := at_eq_some hon
      rw [ready, update_at]
      exact .readied l b
    | running | readied => cases (at_eq_some hon).2
    | published | waiting | finished => cases hon
  | swap l hon =>
    cases h with
    | readied l' b =>
      obtain ⟨rfl, _⟩ := at_eq_some hon
      rw [swap, update_at_none]
      exact .waiting
    | running | armed => cases (at_eq_some hon).2
    | published | waiting | finished => cases hon
  | publish hpos =>
    have hnone := hout rfl
    cases h with
    | waiting => exact .published
    | armed l b | readied l b =>
      have hl := (at_self l _).symm.trans (hnone l)
      cases hl
    | published | running | finished => cases hpos
  | finish l hon =>
    cases h with
    | running l' b =>
      obtain ⟨rfl, _⟩ := at_eq_some hon
      rw [finish, update_at_none]
      exact .finished b
    | armed | readied => cases (at_eq_some hon).2
    | published | waiting | finished => cases hon

theorem fresh_not_changes : ¬ Changes (fresh : FiberView τ) v' := by
  intro h
  cases h with
  | resume _ hpos | publish hpos => cases hpos
  | arm _ hon | ready _ hon | swap _ hon | finish _ hon => cases hon

theorem Ok.of_published (h : Ok v) (hpos : 0 < v.published) :
    v.state = .READY ∧ v.saved = true := by
  cases h with
  | published => exact ⟨rfl, rfl⟩
  | running | armed | readied | waiting | finished => cases hpos

theorem Ok.of_armed (h : Ok v) (hon : v.on l = some .armed) : v.state = .RUNNING := by
  cases h with
  | armed => rfl
  | running | readied => cases (at_eq_some hon).2
  | published | waiting | finished => cases hon

end FiberView

end FiberAsync
