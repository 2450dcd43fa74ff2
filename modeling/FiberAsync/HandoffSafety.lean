import FiberAsync.HandoffSteps
import FiberAsync.Library.Results

/-!
# No fiber is picked up while it executes

In a run in which no fiber is queued early every fiber stays in one of its
conditions, so that the assertions hold and every fiber is saved before it is
resumed; two early wake-ups break that.
-/

namespace FiberAsync

set_option autoImplicit false

open Runs Results Counting

namespace Handoff

variable {τ : Type} [DecidableEq τ] [Fintype τ] {s s' : Handoff τ} {l : τ} {f g : FiberId}
  {a : Act τ}

/-- Every fiber made so far is in one of its conditions, and no token names another. -/
structure ViewsOk (s : Handoff τ) : Prop where
  made : ∀ f < s.created, (s.view f).Ok
  unmade : ∀ f, s.created ≤ f → s.view f = .fresh

theorem initial_viewsOk : (initial : Handoff τ).ViewsOk where
  made := fun _ hf => absurd hf (Nat.not_lt_zero _)
  unmade := by
    intro f _
    have hp : total Finset.univ (HandoffPc.publishes f) (initial : Handoff τ).worker = 0 :=
      (total_eq_zero_iff _ _).mpr fun _ _ => rfl
    have hk : total Finset.univ (HandoffPc.wakes f) (initial : Handoff τ).worker = 0 :=
      (total_eq_zero_iff _ _).mpr fun _ _ => rfl
    unfold view
    rw [hp, hk]
    rfl

omit [Fintype τ] in
theorem created_eq (h : s.exec a = some (.ok s')) (ha : a ≠ .spawn) : s'.created = s.created := by
  cases a with
  | spawn => exact absurd rfl ha
  | run l =>
    simp only [exec, runWorker] at h
    repeat' split at h
    all_goals cases h
    all_goals rfl
  | sleep | addEvent | finish | expire | dispatch =>
    simp only [exec] at h
    repeat' split at h
    all_goals cases h
    all_goals rfl

omit [DecidableEq τ] in
theorem view_spawn_self (hfresh : s.view s.created = .fresh) :
    s.spawn.view s.created = { FiberView.fresh with published := 1 } := by
  have hpub : s.spawn.queuePublishes s.created = s.queuePublishes s.created + 1 := by
    refine (queuePublishes_push s _).trans ?_
    simp [HandoffTask.publishes]
  have hwake : s.spawn.queueWakes s.created = s.queueWakes s.created := queueWakes_push s _
  have hp := congrArg FiberView.published hfresh
  have hk := congrArg FiberView.waking hfresh
  have ho := congrArg FiberView.on hfresh
  apply FiberView.ext
  · change s.spawn.queuePublishes s.created + total _ _ s.worker = 1
    change s.queuePublishes s.created + total _ _ s.worker = 0 at hp
    omega
  · change _ + _ + s.spawn.queueWakes s.created + total _ _ s.worker = 0
    rw [hwake]
    exact hk
  · exact ho
  · exact Function.update_self _ _ _
  · exact Function.update_self _ _ _

omit [DecidableEq τ] in
theorem view_spawn_of_ne (hg : g ≠ s.created) : s.spawn.view g = s.view g := by
  have hpub : s.spawn.queuePublishes g = s.queuePublishes g := by
    refine (queuePublishes_push s _).trans ?_
    simp [HandoffTask.publishes, hg.symm]
  have hwake : s.spawn.queueWakes g = s.queueWakes g := queueWakes_push s _
  apply FiberView.ext
  · change s.spawn.queuePublishes g + total _ _ s.worker = _
    rw [hpub]
    rfl
  · change _ + _ + s.spawn.queueWakes g + total _ _ s.worker = _
    rw [hwake]
    rfl
  · rfl
  · exact Function.update_of_ne hg _ _
  · exact Function.update_of_ne hg _ _

theorem ViewsOk.spawn (hs : s.ViewsOk) : s.spawn.ViewsOk := by
  constructor
  · intro f hf
    by_cases hnew : f = s.created
    · subst f
      rw [view_spawn_self (hs.unmade s.created le_rfl)]
      exact .published
    · rw [view_spawn_of_ne hnew]
      exact hs.made f (Nat.lt_of_le_of_ne (Nat.le_of_lt_succ hf) hnew)
  · intro f hf
    rw [view_spawn_of_ne (Nat.ne_of_gt hf)]
    exact hs.unmade f (Nat.le_of_succ_le hf)

theorem ViewsOk.step (hs : s.ViewsOk) (hearly : ¬ s.Early a) (h : s.exec a = some (.ok s')) :
    s'.ViewsOk := by
  by_cases ha : a = .spawn
  · subst a
    cases h
    exact hs.spawn
  obtain ⟨f, hf, hother⟩ := concerns h ha
  have hcreated := created_eq h ha
  have hok : f < s.created → (s'.view f).Ok := by
    intro hlt
    rcases hf with heq | ⟨hc, hq⟩
    · rw [heq]
      exact hs.made f hlt
    · apply (hs.made f hlt).changes hc
      intro hpub l
      by_contra hon
      exact hearly ⟨f, hq hpub, l, hon⟩
  have hfresh : s.created ≤ f → s'.view f = .fresh := by
    intro hle
    have hv := hs.unmade f hle
    rcases hf with heq | ⟨hc, _⟩
    · rw [heq, hv]
    · rw [hv] at hc
      exact absurd hc FiberView.fresh_not_changes
  constructor
  · intro g hg
    rw [hcreated] at hg
    by_cases heq : g = f
    · subst g
      exact hok hg
    · rw [hother g heq]
      exact hs.made g hg
  · intro g hg
    rw [hcreated] at hg
    by_cases heq : g = f
    · subst g
      exact hfresh hg
    · rw [hother g heq]
      exact hs.unmade g hg

theorem ViewsOk.ok (hs : s.ViewsOk) (h : s.view f ≠ .fresh) : (s.view f).Ok := by
  by_cases hf : f < s.created
  · exact hs.made f hf
  · exact absurd (hs.unmade f (Nat.le_of_not_lt hf)) h

theorem ViewsOk.published (hs : s.ViewsOk) (h : 0 < (s.view f).published) :
    s.m_state f = .READY ∧ s.saved f = true :=
  (hs.ok fun heq => by rw [heq] at h; cases h).of_published h

omit [DecidableEq τ] in
theorem published_pos_of_mem (h : .fiber f ∈ s._queue) : 0 < (s.view f).published := by
  have hone : 0 < s.queuePublishes f := by
    apply List.sum_pos_iff_exists_pos_nat.mpr
    exact ⟨1, List.mem_map.mpr ⟨_, h, by simp [HandoffTask.publishes]⟩, Nat.one_pos⟩
  unfold view
  dsimp only
  omega

theorem ViewsOk.asserts (hs : s.ViewsOk) (fault : HandoffFault) :
    s.exec a ≠ some (.error fault) := by
  intro h
  cases a with
  | run l =>
    simp only [exec] at h
    cases hpc : s.worker l with
    | loop =>
      simp only [hpc, runWorker] at h
      split at h
      case h_1 | h_2 => cases h
      case h_3 f queue hq =>
        have hmem : HandoffTask.fiber f ∈ s._queue := hq ▸ List.mem_cons_self
        have hready := (hs.published (published_pos_of_mem hmem)).1
        rw [if_pos hready] at h
        cases h
    | taken f =>
      have hready := (hs.published (published_pos hpc)).1
      simp only [hpc, runWorker, hready] at h
      cases h
    | armed f =>
      have hon := on_eq_some (f := f) (o := .armed) hpc (by simp [HandoffPc.on])
      have hne : s.view f ≠ .fresh := fun heq => by
        rw [heq] at hon
        cases hon
      have hrunning : s.m_state f = .RUNNING := (hs.ok hne).of_armed hon
      simp only [hpc, runWorker, hrunning] at h
      cases h
    | idle cbs =>
      cases cbs <;> simp only [hpc, runWorker] at h <;> cases h
    | running | readied | calling =>
      simp only [hpc, runWorker] at h
      cases h
  | spawn => cases h
  | sleep | addEvent | finish | expire | dispatch =>
    simp only [exec] at h
    repeat' split at h
    all_goals cases h

theorem ViewsOk.safe (hs : s.ViewsOk) : s.Safe :=
  ⟨fun _ => hs.asserts, fun _ _ hpc => (hs.published (published_pos hpc)).2⟩

/-- With any number of workers and fibers: in a run in which no fiber is queued
before it has been switched out, no assertion fails and every fiber is saved
before it is resumed. -/
theorem handoff_safe {tr : List (Move (Handoff τ) (Act τ))} (h : Run system initial tr s)
    (hm : ∀ m ∈ tr, ¬ m.pre.Early m.act) : s.Safe := by
  have hs := h.invariant_of_guard ViewsOk (fun s a => ¬ s.Early a)
    (fun hs hm hstep => hs.step hm hstep) initial_viewsOk hm
  exact hs.safe

def slept : List (Act Bool) :=
  [.spawn, .run false, .run false, .sleep false, .run false, .run false, .run true,
    .expire true 0] ++ List.replicate 5 (.run true)

theorem handoff_safe_slept : ∃ tr s, Run system initial tr s ∧ tr.map Move.act = slept ∧
    s.worker true = .taken 0 ∧ s.Safe := by
  have hrun : (traceAll next initial slept).map (fun r =>
      ((r.1.all fun m => !decide (m.pre.Early m.act)), r.2.worker true)) =
      some (true, .taken 0) := by decide +kernel
  obtain ⟨tr, s, hr, hacts, hobs⟩ := Run.exists_of_traceAll _ next_sound _ hrun
  obtain ⟨hall, hpc⟩ := Prod.mk.inj hobs
  refine ⟨tr, s, hr, hacts, hpc, handoff_safe hr fun m hm => ?_⟩
  simpa using List.all_eq_true.mp hall m hm

/-- `usleep(0)`: the other worker takes the timer, runs its callback and finds
the fiber in the queue while the fiber has not yet called `yield`. -/
def dequeuedRunning : List (Act Bool) :=
  [.spawn, .run false, .run false, .run true, .sleep false, .expire true 0] ++
    List.replicate 4 (.run true)

/-- The fiber is between `m_state = READY` and the end of `swapcontext` when the
other worker dispatches its event and dequeues it. -/
def resumedUnsaved : List (Act Bool) :=
  [.spawn, .run false, .run false, .run true, .addEvent false, .run false, .dispatch true 0,
    .run true, .run true]

theorem handoff_unsafe :
    (∃ tr s, Run system initial tr s ∧ tr.map Move.act = dequeuedRunning ∧
      s.exec (.run true) = some (.error .notReady)) ∧
    ∃ tr s, Run system initial tr s ∧ tr.map Move.act = resumedUnsaved ∧
      s.worker false = .readied 0 ∧ s.worker true = .taken 0 ∧ s.m_state 0 = .READY ∧
      s.saved 0 = false := by
  constructor
  · have hrun : (traceAll next initial dequeuedRunning).map (fun r =>
        (r.2.exec (.run true)).bind errorOf) = some (some .notReady) := by decide +kernel
    obtain ⟨tr, s, hr, hacts, hobs⟩ := Run.exists_of_traceAll _ next_sound _ hrun
    obtain ⟨x, hx, herror⟩ := Option.bind_eq_some_iff.mp hobs
    exact ⟨tr, s, hr, hacts, hx.trans (congrArg some (errorOf_eq_some.mp herror))⟩
  · have hrun : (traceAll next initial resumedUnsaved).map (fun r =>
        ((r.2.worker false, r.2.worker true), r.2.m_state 0, r.2.saved 0)) =
        some ((.readied 0, .taken 0), .READY, false) := by decide +kernel
    obtain ⟨tr, s, hr, hacts, hobs⟩ := Run.exists_of_traceAll _ next_sound _ hrun
    simp only [Prod.mk.injEq] at hobs
    obtain ⟨⟨hfalse, htrue⟩, hstate, hsaved⟩ := hobs
    exact ⟨tr, s, hr, hacts, hfalse, htrue, hstate, hsaved⟩

end Handoff

end FiberAsync
