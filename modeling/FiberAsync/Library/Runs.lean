import Mathlib.Algebra.Ring.Nat
import Mathlib.Data.List.Basic

/-!
# Runs of a labelled transition system

A run is recorded as the list of its moves, so that a property of the states
reached and a condition on the steps taken can be compared move by move.
The last section has the two rules the safety results are assembled from: what
one guarded step keeps is kept by a whole guarded run, and a property that each
step has exactly when its guard holds is had by a run exactly when all of its
steps are guarded.
-/

namespace FiberAsync.Runs

set_option autoImplicit false

universe u v w x

/-- Where runs start, and what one labelled step may do. -/
structure System (σ : Type u) (α : Type v) where
  init : σ → Prop
  step : σ → α → σ → Prop

structure Move (σ : Type u) (α : Type v) where
  pre : σ
  act : α
  post : σ

variable {σ : Type u} {α : Type v} {S : System σ α}

inductive Run (S : System σ α) : σ → List (Move σ α) → σ → Prop where
  | nil (s : σ) : Run S s [] s
  | cons {s t u : σ} {a : α} {tr : List (Move σ α)} :
      S.step s a t → Run S t tr u → Run S s (⟨s, a, t⟩ :: tr) u

def Reachable (S : System σ α) (t : σ) : Prop := ∃ s tr, S.init s ∧ Run S s tr t

namespace Run

variable {s t u : σ} {tr tr' : List (Move σ α)}

theorem single {a : α} (h : S.step s a t) : Run S s [⟨s, a, t⟩] t := .cons h (.nil t)

theorem append (h : Run S s tr t) (h' : Run S t tr' u) : Run S s (tr ++ tr') u := by
  induction h with
  | nil => exact h'
  | cons hs _ ih => exact .cons hs (ih h')

theorem split (h : Run S s (tr ++ tr') u) : ∃ t, Run S s tr t ∧ Run S t tr' u := by
  induction tr generalizing s with
  | nil => exact ⟨s, .nil s, h⟩
  | cons m tr ih =>
    cases h with
    | cons hs hr =>
      obtain ⟨t, ht, hu⟩ := ih hr
      exact ⟨t, .cons hs ht, hu⟩

theorem step_of_mem (h : Run S s tr t) {m : Move σ α} (hm : m ∈ tr) :
    S.step m.pre m.act m.post := by
  induction h with
  | nil => simp at hm
  | cons hs _ ih =>
    rcases List.mem_cons.mp hm with rfl | hm
    · exact hs
    · exact ih hm

theorem split_at {m : Move σ α} (h : Run S s (tr ++ m :: tr') u) :
    Run S s tr m.pre ∧ S.step m.pre m.act m.post ∧ Run S m.post tr' u := by
  obtain ⟨t, ht, hu⟩ := h.split
  cases hu with
  | cons hs hr => exact ⟨ht, hs, hr⟩

/-- An invariant that also reads the moves made so far. -/
theorem history (P : List (Move σ α) → σ → Prop)
    (keeps : ∀ {tr s a t}, P tr s → S.step s a t → P (tr ++ [⟨s, a, t⟩]) t)
    (h : Run S s tr t) (hs : P [] s) : P tr t := by
  suffices hall : ∀ before, P before s → P (before ++ tr) t from hall [] hs
  clear hs
  induction h with
  | nil => exact fun before hb => by simpa using hb
  | cons hstep _ ih =>
    intro before hb
    simpa using ih _ (keeps hb hstep)

end Run

/-- The last move with a property. -/
def Last (p : Move σ α → Prop) (tr : List (Move σ α)) (m : Move σ α) : Prop :=
  ∃ before after, tr = before ++ m :: after ∧ p m ∧ ∀ x ∈ after, ¬ p x

namespace Last

variable {p : Move σ α → Prop} {tr : List (Move σ α)} {m x : Move σ α}

theorem snoc_self (h : p m) : Last p (tr ++ [m]) m := ⟨tr, [], rfl, h, by simp⟩

theorem snoc (h : Last p tr m) (hx : ¬ p x) : Last p (tr ++ [x]) m := by
  obtain ⟨before, after, rfl, hm, hafter⟩ := h
  refine ⟨before, after ++ [x], by simp, hm, fun y hy => ?_⟩
  rcases List.mem_append.mp hy with hy | hy
  · exact hafter y hy
  · rw [List.mem_singleton.mp hy]
    exact hx

theorem snoc_iff : Last p (tr ++ [x]) m ↔ p x ∧ m = x ∨ ¬ p x ∧ Last p tr m := by
  constructor
  · intro hlast
    obtain ⟨before, after, heq, hm, hafter⟩ := hlast
    rcases List.eq_nil_or_concat after with rfl | ⟨rest, y, rfl⟩
    · obtain ⟨_, hx⟩ := List.append_inj' heq rfl
      cases hx
      exact Or.inl ⟨hm, rfl⟩
    · rw [List.concat_eq_append, ← List.cons_append, ← List.append_assoc] at heq
      obtain ⟨htr, hx⟩ := List.append_inj' heq rfl
      cases hx
      have hrest : ∀ z ∈ rest, ¬ p z := fun z hz => hafter z (by simp [hz])
      exact Or.inr ⟨hafter x (by simp), before, rest, htr, hm, hrest⟩
  · intro hlast
    rcases hlast with ⟨hx, rfl⟩ | ⟨hx, hlast⟩
    · exact snoc_self hx
    · exact hlast.snoc hx

end Last

section Rules

variable (Inv : σ → Prop) (g : σ → α → Prop) {s t : σ} {tr : List (Move σ α)}

/-- What every guarded step keeps is kept by every run of guarded steps. -/
theorem Run.invariant_of_guard
    (keeps : ∀ {s a t}, Inv s → g s a → S.step s a t → Inv t)
    (h : Run S s tr t) (hs : Inv s) (hg : ∀ m ∈ tr, g m.pre m.act) : Inv t := by
  induction h with
  | nil => exact hs
  | cons hstep _ ih =>
    have hhead := hg _ List.mem_cons_self
    exact ih (keeps hs hhead hstep) (fun m hm => hg m (List.mem_cons_of_mem _ hm))

theorem Run.invariant_at_of_guard
    (keeps : ∀ {s a t}, Inv s → g s a → S.step s a t → Inv t)
    (h : Run S s tr t) (hs : Inv s) (hg : ∀ m ∈ tr, g m.pre m.act)
    {m : Move σ α} (hm : m ∈ tr) : Inv m.pre ∧ Inv m.post := by
  induction h with
  | nil => simp at hm
  | cons hstep _ ih =>
    have hnext := keeps hs (hg _ List.mem_cons_self) hstep
    rcases List.mem_cons.mp hm with rfl | hm
    · exact ⟨hs, hnext⟩
    · exact ih hnext (fun m hm => hg m (List.mem_cons_of_mem _ hm)) hm

theorem Run.invariant (keeps : ∀ {s a t}, Inv s → S.step s a t → Inv t)
    (h : Run S s tr t) (hs : Inv s) : Inv t :=
  h.invariant_of_guard Inv (fun _ _ => True) (fun hi _ => keeps hi) hs (fun _ _ => trivial)

theorem Run.invariant_at (keeps : ∀ {s a t}, Inv s → S.step s a t → Inv t)
    (h : Run S s tr t) (hs : Inv s) {m : Move σ α} (hm : m ∈ tr) : Inv m.pre ∧ Inv m.post :=
  h.invariant_at_of_guard Inv (fun _ _ => True) (fun hi _ => keeps hi) hs (fun _ _ => trivial) hm

theorem Reachable.invariant (keeps : ∀ {s a t}, Inv s → S.step s a t → Inv t)
    (start : ∀ s, S.init s → Inv s) (h : Reachable S t) : Inv t := by
  obtain ⟨s, tr, hs, hr⟩ := h
  exact hr.invariant Inv keeps (start s hs)

theorem Reachable.trans (h : Reachable S s) (h' : Run S s tr t) : Reachable S t := by
  obtain ⟨s₀, tr₀, hs, hr⟩ := h
  exact ⟨s₀, tr₀ ++ tr, hs, hr.append h'⟩

/-- If, at a state with the invariant, a step has the property exactly when it
is guarded, then a run has it at all steps exactly when all are guarded. The
invariant need only survive the guarded steps. -/
theorem Run.forall_iff_guard (P : Move σ α → Prop)
    (keeps : ∀ {s a t}, Inv s → g s a → S.step s a t → Inv t)
    (exact_step : ∀ {s a t}, Inv s → S.step s a t → (P ⟨s, a, t⟩ ↔ g s a))
    (h : Run S s tr t) (hs : Inv s) :
    (∀ m ∈ tr, P m) ↔ ∀ m ∈ tr, g m.pre m.act := by
  induction h with
  | nil => simp
  | cons hstep _ ih =>
    simp only [List.forall_mem_cons, exact_step hs hstep]
    constructor
    · intro hx
      obtain ⟨hg, ht⟩ := hx
      exact ⟨hg, (ih (keeps hs hg hstep)).mp ht⟩
    · intro hx
      obtain ⟨hg, ht⟩ := hx
      exact ⟨hg, (ih (keeps hs hg hstep)).mpr ht⟩

end Rules

section Restriction

variable (g : σ → α → Prop) {s t : σ} {tr : List (Move σ α)}

/-- The same system with the steps that satisfy a guard. -/
def System.restrict (S : System σ α) (g : σ → α → Prop) : System σ α where
  init := S.init
  step s a t := S.step s a t ∧ g s a

theorem Run.restrict (h : Run S s tr t) (hg : ∀ m ∈ tr, g m.pre m.act) :
    Run (S.restrict g) s tr t := by
  induction h with
  | nil => exact .nil _
  | cons hstep _ ih =>
    obtain ⟨hhead, htail⟩ := List.forall_mem_cons.mp hg
    exact .cons ⟨hstep, hhead⟩ (ih htail)

end Restriction

/-- If a step that keeps the invariant and lowers a potential can be taken
wherever the goal is not met, then some run meets it. -/
theorem Run.exists_of_potential (Inv goal : σ → Prop) (μ : σ → Nat)
    (progress : ∀ {s}, Inv s → goal s ∨ ∃ a t, S.step s a t ∧ Inv t ∧ μ t < μ s)
    {s : σ} (hs : Inv s) : ∃ tr t, Run S s tr t ∧ goal t := by
  induction hμ : μ s using Nat.strongRecOn generalizing s with
  | ind n ih =>
    rcases progress hs with hgoal | ⟨a, t, hstep, ht, hlt⟩
    · exact ⟨[], s, .nil s, hgoal⟩
    · obtain ⟨tr, u, hrun, hgoal⟩ := ih (μ t) (hμ ▸ hlt) ht rfl
      exact ⟨_, u, .cons hstep hrun, hgoal⟩

/-- Steps that are paid for: where each step takes what it spends from a potential, which
only what it brings in can raise, a run spends at most what it starts with and brings in. -/
theorem Run.amortized (μ : σ → Nat) (spent cost : α → Nat) {s t : σ} {tr : List (Move σ α)}
    (h : Run S s tr t) (pays : ∀ m ∈ tr, S.step m.pre m.act m.post →
      μ m.post + spent m.act ≤ μ m.pre + cost m.act) :
    μ t + (tr.map fun m => spent m.act).sum ≤ μ s + (tr.map fun m => cost m.act).sum := by
  induction h with
  | nil => exact Nat.le_refl _
  | @cons s t u a tr hstep _ ih =>
    have hhead : μ t + spent a ≤ μ s + cost a := pays _ List.mem_cons_self hstep
    have htail := ih fun m hm => pays m (List.mem_cons_of_mem _ hm)
    simp only [List.map_cons, List.sum_cons]
    omega

section Executable

variable (next : σ → α → Option σ)

/-- A whole schedule, executed: its moves and the state it ends in. -/
def traceAll (s : σ) : List α → Option (List (Move σ α) × σ)
  | [] => some ([], s)
  | a :: as => (next s a).bind fun t => (traceAll t as).map fun r => (⟨s, a, t⟩ :: r.1, r.2)

theorem Run.of_traceAll (sound : ∀ {s a t}, next s a = some t → S.step s a t) {s t : σ}
    {as : List α} {tr : List (Move σ α)} (h : traceAll next s as = some (tr, t)) :
    Run S s tr t ∧ tr.map Move.act = as := by
  induction as generalizing s tr with
  | nil =>
    cases h
    exact ⟨.nil _, rfl⟩
  | cons a as ih =>
    obtain ⟨u, hu, h⟩ := Option.bind_eq_some_iff.mp h
    obtain ⟨⟨tr', t'⟩, ht, h⟩ := Option.map_eq_some_iff.mp h
    cases h
    obtain ⟨hr, hacts⟩ := ih ht
    exact ⟨.cons (sound hu) hr, by simp [hacts]⟩

/-- An executed schedule with a given observation of its moves and its end. -/
theorem Run.exists_of_traceAll (sound : ∀ {s a t}, next s a = some t → S.step s a t)
    {β : Type v} (obs : List (Move σ α) × σ → β) {s : σ} {as : List α} {b : β}
    (h : (traceAll next s as).map obs = some b) :
    ∃ tr t, Run S s tr t ∧ tr.map Move.act = as ∧ obs (tr, t) = b := by
  obtain ⟨⟨tr, t⟩, ht, hobs⟩ := Option.map_eq_some_iff.mp h
  obtain ⟨hr, hacts⟩ := Run.of_traceAll next sound ht
  exact ⟨tr, t, hr, hacts, hobs⟩

theorem eq_take_append_drop {tr : List (Move σ α)} {n : Nat} {m : Move σ α}
    (h : tr[n]? = some m) : tr = tr.take n ++ m :: tr.drop (n + 1) := by
  obtain ⟨hlt, rfl⟩ := List.getElem?_eq_some_iff.mp h
  rw [← List.drop_eq_getElem_cons hlt, List.take_append_drop]

theorem Run.split_of_getElem {s t : σ} {tr : List (Move σ α)} (h : Run S s tr t) {n : Nat}
    {m : Move σ α} (hm : tr[n]? = some m) :
    Run S s (tr.take n) m.pre ∧ Run S m.pre (tr.drop n) t := by
  obtain ⟨hlt, hget⟩ := List.getElem?_eq_some_iff.mp hm
  have hdrop : tr.drop n = m :: tr.drop (n + 1) := by rw [List.drop_eq_getElem_cons hlt, hget]
  rw [← List.take_append_drop n tr, hdrop] at h
  obtain ⟨hbefore, hstep, hafter⟩ := h.split_at
  exact ⟨hbefore, hdrop ▸ .cons hstep hafter⟩

theorem act_of_getElem {tr : List (Move σ α)} {as : List α} {n : Nat} {m : Move σ α}
    (h : tr[n]? = some m) (hacts : tr.map Move.act = as) : as[n]? = some m.act := by
  rw [← hacts, List.getElem?_map, h]
  rfl

end Executable

section Simulation

variable {β : Type x} {τ : Type w} {T : System τ β} (lab : α → β) (R : σ → τ → Prop)

/-- A move of the implementation beside the move that answers it. -/
structure Answers (m : Move σ α) (m' : Move τ β) : Prop where
  act : m'.act = lab m.act
  pre : R m.pre m'.pre
  post : R m.post m'.post

/-- Forward simulation: a run of the implementation is answered, move by move,
by a run of the specification. -/
theorem Run.simulate_each
    (step_sim : ∀ {s a s' t}, R s t → S.step s a s' → ∃ t', T.step t (lab a) t' ∧ R s' t')
    {s s' : σ} {tr : List (Move σ α)} (h : Run S s tr s') {t : τ} (hR : R s t) :
    ∃ tr' t', Run T t tr' t' ∧ List.Forall₂ (Answers lab R) tr tr' ∧ R s' t' := by
  induction h generalizing t with
  | nil => exact ⟨[], t, .nil t, .nil, hR⟩
  | cons hstep _ ih =>
    obtain ⟨t₁, ht, hR₁⟩ := step_sim hR hstep
    obtain ⟨tr', t', hr, hall, hR'⟩ := ih hR₁
    exact ⟨_, t', .cons ht hr, .cons ⟨rfl, hR, hR₁⟩ hall, hR'⟩

theorem Answers.acts {tr : List (Move σ α)} {tr' : List (Move τ β)}
    (h : List.Forall₂ (Answers lab R) tr tr') :
    tr'.map Move.act = tr.map fun m => lab m.act := by
  induction h with
  | nil => rfl
  | cons hm _ ih => simp [hm.act, ih]

/-- The moves that answer the parts of a run before and after a move. -/
theorem Answers.split {tr : List (Move σ α)} {before after : List (Move τ β)} {m : Move τ β}
    (h : List.Forall₂ (Answers lab R) tr (before ++ m :: after)) :
    ∃ before' m' after', tr = before' ++ m' :: after' ∧
      List.Forall₂ (Answers lab R) before' before ∧ Answers lab R m' m ∧
      List.Forall₂ (Answers lab R) after' after := by
  induction before generalizing tr with
  | nil =>
    cases h with
    | cons hm hafter => exact ⟨[], _, _, rfl, .nil, hm, hafter⟩
  | cons y before ih =>
    cases h with
    | cons hy hrest =>
      obtain ⟨before', m', after', rfl, hb, hm, ha⟩ := ih hrest
      exact ⟨_ :: before', m', after', rfl, .cons hy hb, hm, ha⟩

section Observed

variable {p : Move σ α → Prop} {q : Move τ β → Prop}
  (hpq : ∀ m m', Answers lab R m m' → (p m ↔ q m'))

include hpq

theorem Answers.none {tr : List (Move σ α)} {tr' : List (Move τ β)}
    (h : List.Forall₂ (Answers lab R) tr tr') (hq : ∀ y ∈ tr', ¬ q y) : ∀ x ∈ tr, ¬ p x := by
  induction h with
  | nil => simp
  | cons hm _ ih =>
    obtain ⟨hy, hrest⟩ := List.forall_mem_cons.mp hq
    exact List.forall_mem_cons.mpr ⟨fun hp => hy ((hpq _ _ hm).mp hp), ih hrest⟩

theorem Last.of_answers {tr : List (Move σ α)} {tr' : List (Move τ β)}
    (h : List.Forall₂ (Answers lab R) tr tr') {m' : Move τ β} (hlast : Last q tr' m') :
    ∃ m, Answers lab R m m' ∧ Last p tr m := by
  obtain ⟨before, after, rfl, hq, hafter⟩ := hlast
  obtain ⟨before', m, after', rfl, _, hm, ha⟩ := Answers.split lab R h
  exact ⟨m, hm, before', after', rfl, (hpq m m' hm).mpr hq, Answers.none lab R hpq ha hafter⟩

end Observed

section Function

variable {T : System τ α} (abs : σ → τ)

def Move.map (m : Move σ α) : Move τ α := ⟨abs m.pre, m.act, abs m.post⟩

/-- Refinement by a function: seen through it, a run is a run of the specification. -/
theorem Run.map (Inv : σ → Prop)
    (step_map : ∀ {s a t}, Inv s → S.step s a t → T.step (abs s) a (abs t) ∧ Inv t)
    {s t : σ} {tr : List (Move σ α)} (h : Run S s tr t) (hs : Inv s) :
    Run T (abs s) (tr.map (Move.map abs)) (abs t) := by
  induction h with
  | nil => exact .nil _
  | cons hstep _ ih =>
    obtain ⟨hmap, ht⟩ := step_map hs hstep
    exact .cons hmap (ih ht)

theorem Last.map_iff {p : Move τ α → Prop} {tr : List (Move σ α)} {m' : Move τ α} :
    Last p (tr.map (Move.map abs)) m' ↔
      ∃ m, m.map abs = m' ∧ Last (fun m => p (m.map abs)) tr m := by
  constructor
  · intro hlast
    obtain ⟨before, after, heq, hm, hafter⟩ := hlast
    obtain ⟨before, rest, rfl, rfl, hrest⟩ := List.map_eq_append_iff.mp heq
    obtain ⟨m, after, rfl, rfl, rfl⟩ := List.map_eq_cons_iff.mp hrest
    exact ⟨m, rfl, before, after, rfl, hm, fun x hx => hafter _ (List.mem_map_of_mem hx)⟩
  · intro hlast
    obtain ⟨m, rfl, before, after, rfl, hm, hafter⟩ := hlast
    refine ⟨before.map (Move.map abs), after.map (Move.map abs), by simp, hm, fun x hx => ?_⟩
    obtain ⟨y, hy, rfl⟩ := List.mem_map.mp hx
    exact hafter y hy

end Function

/-- Simulation of what can be observed: a step without an observation is none of the
specification, and one with an observation is the step so named. -/
theorem Run.observe {T : System τ β} (obs : Move σ α → Option β) (R : σ → τ → Prop)
    (step_sim : ∀ {s a s' t}, R s t → S.step s a s' → obs ⟨s, a, s'⟩ = none ∧ R s' t ∨
      ∃ b t', obs ⟨s, a, s'⟩ = some b ∧ T.step t b t' ∧ R s' t')
    {s s' : σ} {tr : List (Move σ α)} (h : Run S s tr s') {t : τ} (hR : R s t) :
    ∃ tr' t', Run T t tr' t' ∧ tr'.map Move.act = tr.filterMap obs ∧ R s' t' := by
  induction h generalizing t with
  | nil => exact ⟨[], t, .nil t, rfl, hR⟩
  | cons hstep _ ih =>
    rcases step_sim hR hstep with ⟨hnone, hR₁⟩ | ⟨b, t₁, hsome, ht, hR₁⟩
    · obtain ⟨tr', t', hr, hacts, hR'⟩ := ih hR₁
      exact ⟨tr', t', hr, by rw [hacts, List.filterMap_cons_none hnone], hR'⟩
    · obtain ⟨tr', t', hr, hacts, hR'⟩ := ih hR₁
      refine ⟨_, t', .cons ht hr, ?_, hR'⟩
      rw [List.map_cons, hacts, List.filterMap_cons_some hsome]

theorem Run.simulate {T : System τ α} (R : σ → τ → Prop)
    (step_sim : ∀ {s a s' t}, R s t → S.step s a s' → ∃ t', T.step t a t' ∧ R s' t')
    {s s' : σ} {tr : List (Move σ α)} (h : Run S s tr s') {t : τ} (hR : R s t) :
    ∃ tr' t', Run T t tr' t' ∧ tr'.map Move.act = tr.map Move.act ∧ R s' t' := by
  obtain ⟨tr', t', hr, hall, hR'⟩ := h.simulate_each id R step_sim hR
  exact ⟨tr', t', hr, Answers.acts id R hall, hR'⟩

end Simulation

end FiberAsync.Runs
