import FiberAsync.Library.Runs

/-!
# Linearized runs

A call of an implementation takes several steps of its thread, with steps of
other threads in between. A run is linearized when some of its steps are the
points of calls and those, in their order, are a run of a specification whose
steps are whole calls. The last section counts the calls of one caller against
their points and returns.
-/

namespace FiberAsync.Runs

set_option autoImplicit false

universe u v w x

section Linearization

variable {σ : Type u} {α : Type v} {τ : Type w} {β : Type x} {S : System σ α} {T : System τ β}

/-- The second list has an element for each point of the first, in their order.
Which call has its point in a move may be read off the moves before it. -/
inductive Linearized (silent : Move σ α → Prop)
    (point : List (Move σ α) → Move σ α → Move τ β → Prop) :
    List (Move σ α) → List (Move τ β) → Prop where
  | nil : Linearized silent point [] []
  | silent {tr : List (Move σ α)} {tr' : List (Move τ β)} {m : Move σ α} :
      Linearized silent point tr tr' → silent m → Linearized silent point (tr ++ [m]) tr'
  | point {tr : List (Move σ α)} {tr' : List (Move τ β)} {m : Move σ α} {m' : Move τ β} :
      Linearized silent point tr tr' → point tr m m' →
      Linearized silent point (tr ++ [m]) (tr' ++ [m'])

variable {silent : Move σ α → Prop} {point : List (Move σ α) → Move σ α → Move τ β → Prop}
  {tr : List (Move σ α)} {tr' : List (Move τ β)} {s s' : σ} {t : τ}

/-- A relation that silent steps keep, and points together with a step of the
specification, linearizes every run. -/
theorem Run.linearize (silent : Move σ α → Prop)
    (point : List (Move σ α) → Move σ α → Move τ β → Prop) (R : List (Move σ α) → σ → τ → Prop)
    (step_sim : ∀ {tr s a s' t}, R tr s t → S.step s a s' →
      silent ⟨s, a, s'⟩ ∧ R (tr ++ [⟨s, a, s'⟩]) s' t ∨
      ∃ b t', T.step t b t' ∧ point tr ⟨s, a, s'⟩ ⟨t, b, t'⟩ ∧ R (tr ++ [⟨s, a, s'⟩]) s' t')
    (h : Run S s tr s') (hR : R [] s t) :
    ∃ tr' t', Run T t tr' t' ∧ Linearized silent point tr tr' ∧ R tr s' t' := by
  apply h.history fun tr s' =>
    ∃ tr' t', Run T t tr' t' ∧ Linearized silent point tr tr' ∧ R tr s' t'
  · intro tr s₁ a s₂ hs hstep
    obtain ⟨tr', t₁, hrun, hlin, hR₁⟩ := hs
    rcases step_sim hR₁ hstep with ⟨hsilent, hR₂⟩ | ⟨b, t₂, ht, hpoint, hR₂⟩
    · exact ⟨tr', t₁, hrun, .silent hlin hsilent, hR₂⟩
    · exact ⟨_, t₂, hrun.append (Run.single ht), .point hlin hpoint, hR₂⟩
  · exact ⟨[], t, .nil t, .nil, hR⟩

end Linearization

section Calls

variable {σ : Type u} {α : Type v} {tr : List (Move σ α)}

/-- Where a caller is: in no call, or in one and before or after its point. -/
inductive Phase where
  | out
  | before
  | after
  deriving DecidableEq, Repr

/-- What one move is for a caller: a call, a point, a return. -/
inductive Turn : Phase → Phase → Bool → Bool → Bool → Prop where
  | other (p : Phase) : Turn p p false false false
  | call : Turn .out .before true false false
  | point : Turn .before .after false true false
  | back : Turn .after .out false false true
  | pointBack : Turn .before .out false true true

/-- The calls of one caller that a run has seen: each has had one point, unless the
caller is still before it, and has returned, unless the caller is after it. -/
structure Paired (calls points returns : Move σ α → Bool) (tr : List (Move σ α))
    (p : Phase) : Prop where
  called : tr.countP calls = tr.countP points + if p = .before then 1 else 0
  returned : tr.countP points = tr.countP returns + if p = .after then 1 else 0

theorem Paired.nil (calls points returns : Move σ α → Bool) :
    Paired calls points returns [] .out := ⟨rfl, rfl⟩

/-- Calls, points and returns of a caller take turns. -/
theorem Paired.snoc {calls points returns : Move σ α → Bool} {p p' : Phase} {m : Move σ α}
    (h : Paired calls points returns tr p)
    (hturn : Turn p p' (calls m) (points m) (returns m)) :
    Paired calls points returns (tr ++ [m]) p' := by
  have hcount : ∀ f : Move σ α → Bool, (tr ++ [m]).countP f = tr.countP f + (f m).toNat := by
    intro f
    rw [List.countP_append]
    cases hf : f m <;> simp [hf]
  have hcalls := hcount calls
  have hpoints := hcount points
  have hreturns := hcount returns
  obtain ⟨hcalled, hreturned⟩ := h
  generalize calls m = c at hturn hcalls
  generalize points m = q at hturn hpoints
  generalize returns m = r at hturn hreturns
  constructor
  · rw [hcalls, hpoints, hcalled]
    cases hturn <;> simp
  · rw [hpoints, hreturns, hreturned]
    cases hturn <;> simp

end Calls

end FiberAsync.Runs
