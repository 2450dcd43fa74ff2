import FiberAsync.Library.Runs

/-!
# Calls that are tried again

A wrapper around an operation: as long as an attempt has a transient result it may
be repeated, and else its result is that of the call. A call may be refused
without an attempt, and between two attempts it may be given up or end without a
result. Whatever result is neither transient nor made up by the wrapper goes from the
attempt that had it to the call that made the attempt, once and in order.
-/

namespace FiberAsync.Retries

set_option autoImplicit false

open Runs

universe u v

variable {κ : Type u} {ρ : Type v}

inductive Phase (κ : Type u) (ρ : Type v) where
  | idle
  | called (c : κ)
  | retrying (c : κ)
  | done (c : κ) (r : ρ)
  deriving DecidableEq, Repr

inductive Act (κ : Type u) (ρ : Type v) where
  | call (c : κ)
  | attempt (c : κ) (r : ρ)
  | refuse (c : κ) (r : ρ)
  | giveUp (c : κ) (r : ρ)
  /-- an exception ends the call -/
  | throw (c : κ)
  | back (c : κ) (r : ρ)
  deriving DecidableEq, Repr

/-- Which results lead to another attempt, and which the wrapper makes up itself. -/
structure Policy (ρ : Type v) where
  transient : ρ → Prop
  refusal : ρ → Prop
  expiry : ρ → Prop

inductive Step (P : Policy ρ) : Phase κ ρ → Act κ ρ → Phase κ ρ → Prop where
  | call (c : κ) : Step P .idle (.call c) (.called c)
  | refuse (c : κ) (r : ρ) : P.refusal r → Step P (.called c) (.refuse c r) (.done c r)
  | answer (c : κ) (r : ρ) : Step P (.called c) (.attempt c r) (.done c r)
  | retry (c : κ) (r : ρ) : P.transient r → Step P (.called c) (.attempt c r) (.retrying c)
  | again (c : κ) (r : ρ) : P.transient r → Step P (.retrying c) (.attempt c r) (.retrying c)
  | settle (c : κ) (r : ρ) : ¬ P.transient r → Step P (.retrying c) (.attempt c r) (.done c r)
  | giveUp (c : κ) (r : ρ) : P.expiry r → Step P (.retrying c) (.giveUp c r) (.done c r)
  | throw (c : κ) : Step P (.retrying c) (.throw c) .idle
  | back (c : κ) (r : ρ) : Step P (.done c r) (.back c r) .idle

def system (P : Policy ρ) : System (Phase κ ρ) (Act κ ρ) where
  init p := p = .idle
  step := Step P

/-- The policy leaves the result to the operation. -/
structure Policy.Final (P : Policy ρ) (r : ρ) : Prop where
  lasting : ¬ P.transient r
  unrefused : ¬ P.refusal r
  unexpired : ¬ P.expiry r

theorem Step.attempt_transient {P : Policy ρ} {p : Phase κ ρ} {c : κ} {r : ρ}
    (h : p = .called c ∨ p = .retrying c) (hr : P.transient r) :
    Step P p (.attempt c r) (.retrying c) := by
  rcases h with rfl | rfl
  · exact .retry c r hr
  · exact .again c r hr

theorem Step.attempt_lasting {P : Policy ρ} {p : Phase κ ρ} {c : κ} {r : ρ}
    (h : p = .called c ∨ p = .retrying c) (hr : ¬ P.transient r) :
    Step P p (.attempt c r) (.done c r) := by
  rcases h with rfl | rfl
  · exact .answer c r
  · exact .settle c r hr

section Results

variable (f : ρ → Bool)

def Act.attempted : Act κ ρ → Option (κ × ρ)
  | attempt c r => if f r then some (c, r) else none
  | _ => none

def Act.returned : Act κ ρ → Option (κ × ρ)
  | back c r => if f r then some (c, r) else none
  | _ => none

/-- The result that the caller is about to get. -/
def Phase.pending : Phase κ ρ → Option (κ × ρ)
  | done c r => if f r then some (c, r) else none
  | _ => none

variable {P : Policy ρ} {f} {p q : Phase κ ρ} {a : Act κ ρ}

theorem Step.pending (hfinal : ∀ r, f r = true → P.Final r) (h : Step P p a q) :
    (p.pending f).toList ++ (a.attempted f).toList =
      (a.returned f).toList ++ (q.pending f).toList := by
  cases h with
  | call | throw => rfl
  | answer c r | settle c r => rfl
  | refuse c r hr =>
    have hf : f r = false := Bool.eq_false_iff.mpr fun h => (hfinal r h).unrefused hr
    simp [Phase.pending, Act.attempted, Act.returned, hf]
  | retry c r hr | again c r hr =>
    have hf : f r = false := Bool.eq_false_iff.mpr fun h => (hfinal r h).lasting hr
    simp [Phase.pending, Act.attempted, Act.returned, hf]
  | giveUp c r hr =>
    have hf : f r = false := Bool.eq_false_iff.mpr fun h => (hfinal r h).unexpired hr
    simp [Phase.pending, Act.attempted, Act.returned, hf]
  | back c r => simp [Phase.pending, Act.attempted, Act.returned]

/-- The final results of the attempts are those that calls have returned, and the one
that a call is about to return. -/
theorem attempted_eq_returned {tr : List (Move (Phase κ ρ) (Act κ ρ))}
    (hfinal : ∀ r, f r = true → P.Final r) (h : Run (system P) .idle tr q) :
    (tr.map Move.act).filterMap (Act.attempted f) =
      (tr.map Move.act).filterMap (Act.returned f) ++ (q.pending f).toList := by
  apply h.history fun tr q => (tr.map Move.act).filterMap (Act.attempted f) =
    (tr.map Move.act).filterMap (Act.returned f) ++ (q.pending f).toList
  · intro tr p a q ih hstep
    have hone : ∀ g : Act κ ρ → Option (κ × ρ), [a].filterMap g = (g a).toList := by
      intro g
      cases hg : g a <;> simp [hg]
    simp only [List.map_append, List.map_cons, List.map_nil, List.filterMap_append, hone, ih,
      List.append_assoc]
    rw [Step.pending hfinal hstep]
  · rfl

end Results

end FiberAsync.Retries
