import FiberAsync.Fiber

/-!
# The slot for the current scheduler

`t_scheduler` of one thread, which constructs, stops and destroys any number of
schedulers, also from the tasks that it executes for one of them. Both branches
of the constructor write the slot, and so does the run loop that `stop` starts on
the caller's thread; the destructor empties it. The slots of the workers are others.
-/

namespace FiberAsync

set_option autoImplicit false

open Runs

/-- What `stop` and the destructor read of a scheduler. -/
structure SchedulerObject where
  _use_caller : Bool
  /-- the state of the root fiber, if there is one -/
  _rootFiber : Option FiberState
  _queue : List ScheduleTask
  _activeThreadCount : Nat
  _stopping : Bool
  root : _rootFiber.isSome = _use_caller

namespace SchedulerObject

variable (o : SchedulerObject)

def stopping : Bool := o._stopping && o._queue.isEmpty && o._activeThreadCount == 0

/-- `resume` and the end of the root fiber. -/
def setRoot (state : FiberState) (h : o._use_caller = true) : SchedulerObject :=
  { o with _rootFiber := some state, root := h.symm }

end SchedulerObject

inductive SchedulerFault where
  /-- `qc_assert(threads >= 1)` in the constructor -/
  | noThreads
  /-- `qc_assert(GetThis() == nullptr)` in the constructor -/
  | occupied
  /-- `qc_assert(GetThis() == this)` in `stop` -/
  | notThis
  /-- `qc_assert(GetThis() != this)` in `stop` -/
  | isThis
  /-- `qc_assert(m_state == READY)` in `resume` of the root fiber -/
  | notReady
  /-- `qc_assert(_stopping)` in the destructor -/
  | notStopping
  /-- `qc_assert(m_state == TERM)` in the destructor of the root fiber -/
  | notTerm
  deriving DecidableEq, Repr

/-- A thread and the schedulers that exist, by their addresses. -/
structure SlotThread where
  t_scheduler : Option SchedulerId
  scheduler : SchedulerId → Option SchedulerObject
  /-- the assertion that has ended the process -/
  failed : Option SchedulerFault

inductive SlotAct where
  /-- `Scheduler(threads, use_caller, name)` at a free address -/
  | construct (k : SchedulerId) (threads : Nat) (use_caller : Bool)
  | stop (k : SchedulerId)
  /-- the run loop that `stop` has started on this thread ends -/
  | ran (k : SchedulerId)
  | destroy (k : SchedulerId)
  /-- the tasks, and whoever adds and executes them, on any thread -/
  | work (k : SchedulerId) (queue : List ScheduleTask) (active : Nat)
  deriving DecidableEq, Repr

def SlotAct.constructs : SlotAct → Option SchedulerId
  | construct k _ _ => some k
  | _ => none

namespace SlotThread

def initial : SlotThread := ⟨none, fun _ => none, none⟩

section Functions

variable (s : SlotThread) (k : SchedulerId) (o : SchedulerObject)

/-- `Scheduler::GetThis()` -/
def GetThis : Option SchedulerId := s.t_scheduler

def setThis : SlotThread := { s with t_scheduler := some k }

def put (o : Option SchedulerObject) : SlotThread :=
  { s with scheduler := Function.update s.scheduler k o }

def construct (threads : Nat) (use_caller : Bool) : Except SchedulerFault SlotThread :=
  if threads < 1 then .error .noThreads
  else if use_caller then
    if s.GetThis ≠ none then .error .occupied
    else
      let s := s.setThis k
      .ok ((s.put k (some ⟨true, some .READY, [], 0, false, rfl⟩)).setThis k)
  else .ok ((s.put k (some ⟨false, none, [], 0, false, rfl⟩)).setThis k)

/-- `stop()`, up to the first statement of `run()` if there is a root fiber. -/
def stop : Except SchedulerFault SlotThread :=
  if o.stopping then .ok s
  else
    let o := { o with _stopping := true }
    if h : o._use_caller then
      if s.GetThis ≠ some k then .error .notThis
      else if o._rootFiber ≠ some .READY then .error .notReady
      else .ok ((s.put k (some (o.setRoot .RUNNING h))).setThis k)
    else if s.GetThis = some k then .error .isThis
    else .ok (s.put k (some o))

/-- `~Scheduler()`, and that of its root fiber -/
def destroy : Except SchedulerFault SlotThread :=
  if ¬ o._stopping then .error .notStopping
  else if o._rootFiber ≠ none ∧ o._rootFiber ≠ some .TERM then .error .notTerm
  else if s.GetThis = some k then .ok { s.put k none with t_scheduler := none }
  else .ok (s.put k none)

/-- The call, if it can be made. -/
def attempt : SlotAct → Option (Except SchedulerFault SlotThread)
  | .construct k threads use_caller =>
    if (s.scheduler k).isNone then some (s.construct k threads use_caller) else none
  | .stop k => (s.scheduler k).map fun o => s.stop k o
  | .ran k => (s.scheduler k).bind fun o =>
    if h : o._rootFiber = some .RUNNING then
      some (.ok (s.put k (some (o.setRoot .TERM (o.root.symm.trans (by rw [h]; rfl))))))
    else none
  | .destroy k => (s.scheduler k).map fun o => s.destroy k o
  | .work k queue active => (s.scheduler k).map fun o =>
    .ok (s.put k (some { o with _queue := queue, _activeThreadCount := active }))

def settle : Except SchedulerFault SlotThread → SlotThread
  | .ok s' => s'
  | .error f => { s with failed := some f }

def next (a : SlotAct) : Option SlotThread :=
  if s.failed.isNone then (s.attempt a).map s.settle else none

/-- The assertion in `stop` about `GetThis()` has failed. -/
def StopFails : Prop := s.failed = some .notThis ∨ s.failed = some .isThis

end Functions

def system : System SlotThread SlotAct where
  init s := s = initial
  step s a s' := s.next a = some s'

theorem next_sound {s s' : SlotThread} {a : SlotAct} (h : s.next a = some s') :
    system.step s a s' := h

variable {s s' : SlotThread} {a : SlotAct} {k : SchedulerId} {o : SchedulerObject}
  {f : SchedulerFault}

/-- What a call that returns does to the slot, and which schedulers exist then. -/
inductive Effect (s : SlotThread) : SlotAct → SlotThread → Prop where
  | made (k : SchedulerId) (threads : Nat) (use_caller : Bool) (s' : SlotThread) :
      s'.failed = s.failed → s'.t_scheduler = some k →
      (∀ j, (s'.scheduler j).isSome ↔ j = k ∨ (s.scheduler j).isSome) →
      Effect s (.construct k threads use_caller) s'
  | gone (k : SchedulerId) (s' : SlotThread) : s'.failed = s.failed →
      s'.t_scheduler = (if s.t_scheduler = some k then none else s.t_scheduler) →
      (∀ j, (s'.scheduler j).isSome ↔ j ≠ k ∧ (s.scheduler j).isSome) → Effect s (.destroy k) s'
  | same (a : SlotAct) (s' : SlotThread) : a.constructs = none → s'.failed = s.failed →
      s'.t_scheduler = s.t_scheduler →
      (∀ j, (s'.scheduler j).isSome ↔ (s.scheduler j).isSome) → Effect s a s'

theorem Effect.failed_eq (h : Effect s a s') : s'.failed = s.failed := by
  cases h <;> assumption

theorem put_isSome (k j : SchedulerId) : ((s.put k (some o)).scheduler j).isSome ↔
    j = k ∨ (s.scheduler j).isSome := by
  by_cases hj : j = k <;> simp [put, hj]

theorem put_isSome_of_isSome (h : s.scheduler k = some o) (o' : SchedulerObject)
    (j : SchedulerId) : ((s.put k (some o')).scheduler j).isSome ↔ (s.scheduler j).isSome := by
  rw [put_isSome, or_iff_right_of_imp]
  intro hj
  rw [hj, h]
  rfl

theorem put_none_isSome (k j : SchedulerId) : ((s.put k none).scheduler j).isSome ↔
    j ≠ k ∧ (s.scheduler j).isSome := by
  by_cases hj : j = k <;> simp [put, hj]

theorem construct_effect {threads : Nat} {use_caller : Bool}
    (h : s.construct k threads use_caller = .ok s') :
    Effect s (.construct k threads use_caller) s' := by
  unfold construct at h
  split at h
  · cases h
  split at h
  · split at h
    · cases h
    · cases h
      exact .made k _ _ _ rfl rfl (put_isSome k)
  · cases h
    exact .made k _ _ _ rfl rfl (put_isSome k)

theorem stop_effect (hk : s.scheduler k = some o) (h : s.stop k o = .ok s') :
    Effect s (.stop k) s' := by
  unfold stop at h
  split at h
  · cases h
    exact .same _ _ rfl rfl rfl fun _ => Iff.rfl
  dsimp only at h
  split at h
  · split at h
    · cases h
    case isFalse hthis =>
      split at h
      · cases h
      · cases h
        exact .same _ _ rfl rfl (not_not.mp hthis).symm (put_isSome_of_isSome hk _)
  · split at h
    · cases h
    · cases h
      exact .same _ _ rfl rfl rfl (put_isSome_of_isSome hk _)

theorem destroy_effect (h : s.destroy k o = .ok s') : Effect s (.destroy k) s' := by
  unfold destroy at h
  split at h
  · cases h
  split at h
  · cases h
  split at h
  case isTrue hthis =>
    cases h
    exact .gone k _ rfl (if_pos hthis).symm (put_none_isSome k)
  case isFalse hthis =>
    cases h
    exact .gone k _ rfl (if_neg hthis).symm (put_none_isSome k)

theorem effect_of_attempt (h : s.attempt a = some (.ok s')) : Effect s a s' := by
  cases a with
  | construct k threads use_caller =>
    obtain ⟨_, h⟩ := Option.ite_none_right_eq_some.mp h
    exact construct_effect (Option.some.inj h)
  | stop k =>
    obtain ⟨o, hk, h⟩ := Option.map_eq_some_iff.mp h
    exact stop_effect hk h
  | ran k =>
    obtain ⟨o, hk, h⟩ := Option.bind_eq_some_iff.mp h
    split at h
    · cases h
      exact .same _ _ rfl rfl rfl (put_isSome_of_isSome hk _)
    · cases h
  | destroy k =>
    obtain ⟨o, _, h⟩ := Option.map_eq_some_iff.mp h
    exact destroy_effect h
  | work k queue active =>
    obtain ⟨o, hk, h⟩ := Option.map_eq_some_iff.mp h
    cases h
    exact .same _ _ rfl rfl rfl (put_isSome_of_isSome hk _)

theorem step_cases (h : system.step s a s') : s.failed = none ∧
    (s.attempt a = some (.ok s') ∨
      ∃ f, s.attempt a = some (.error f) ∧ s' = { s with failed := some f }) := by
  obtain ⟨hrun, h⟩ := Option.ite_none_right_eq_some.mp h
  obtain ⟨r, hattempt, rfl⟩ := Option.map_eq_some_iff.mp h
  refine ⟨Option.isNone_iff_eq_none.mp hrun, ?_⟩
  cases r with
  | ok s' => exact Or.inl hattempt
  | error f => exact Or.inr ⟨f, hattempt, rfl⟩

/-- The scheduler that was constructed last of all. -/
def Latest (k : SchedulerId) (tr : List (Move SlotThread SlotAct)) : Prop :=
  ∃ m, Last (fun m => m.act.constructs.isSome) tr m ∧ m.act.constructs = some k

variable {tr : List (Move SlotThread SlotAct)}

theorem latest_snoc_of_constructs {x : Move SlotThread SlotAct} {j : SchedulerId}
    (hx : x.act.constructs = some j) : Latest k (tr ++ [x]) ↔ k = j := by
  constructor
  · intro hlatest
    obtain ⟨m, hlast, hm⟩ := hlatest
    rcases Last.snoc_iff.mp hlast with ⟨_, rfl⟩ | ⟨hno, _⟩
    · exact Option.some.inj (hm.symm.trans hx)
    · exact absurd (by rw [hx]; rfl) hno
  · intro hk
    exact ⟨x, Last.snoc_self (by rw [hx]; rfl), hk ▸ hx⟩

theorem latest_snoc {x : Move SlotThread SlotAct} (hx : x.act.constructs = none) :
    Latest k (tr ++ [x]) ↔ Latest k tr := by
  have hno : ¬ x.act.constructs.isSome = true := by simp [hx]
  refine exists_congr fun m => and_congr_left fun _ => ?_
  rw [Last.snoc_iff, or_iff_right fun h => hno h.1]
  exact and_iff_right hno

/-- The slot points at the scheduler constructed last, if that one still exists. -/
structure SlotOk (tr : List (Move SlotThread SlotAct)) (s : SlotThread) : Prop where
  live : ∀ k, s.t_scheduler = some k → (s.scheduler k).isSome
  latest : s.failed = none → ∀ k, (s.scheduler k).isSome → (s.t_scheduler = some k ↔ Latest k tr)

theorem SlotOk.effect (h : SlotOk tr s) (hrun : s.failed = none) (he : Effect s a s') :
    SlotOk (tr ++ [⟨s, a, s'⟩]) s' := by
  cases he with
  | made k _ _ _ _ hslot hsome =>
    refine ⟨fun j hj => ?_, fun _ j _ => ?_⟩
    · rw [hslot] at hj
      exact (hsome j).mpr (Or.inl (Option.some.inj hj).symm)
    · rw [hslot, latest_snoc_of_constructs rfl, Option.some.injEq, eq_comm]
  | gone k _ _ hslot hsome =>
    have hother : ∀ j, j ≠ k → (s'.t_scheduler = some j ↔ s.t_scheduler = some j) := by
      intro j hj
      rw [hslot]
      split
      case isTrue hthis => simp [hthis, Ne.symm hj]
      case isFalse => exact Iff.rfl
    have hself : s'.t_scheduler ≠ some k := by
      rw [hslot]
      split
      case isTrue => exact nofun
      case isFalse hthis => exact hthis
    refine ⟨fun j hj => ?_, fun _ j hj => ?_⟩
    · have hne : j ≠ k := fun heq => hself (heq ▸ hj)
      exact (hsome j).mpr ⟨hne, h.live j ((hother j hne).mp hj)⟩
    · obtain ⟨hne, hj⟩ := (hsome j).mp hj
      rw [hother j hne, h.latest hrun j hj, latest_snoc rfl]
  | same _ _ hact _ hslot hsome =>
    refine ⟨fun j hj => ?_, fun _ j hj => ?_⟩
    · exact (hsome j).mpr (h.live j (hslot ▸ hj))
    · rw [hslot, h.latest hrun j ((hsome j).mp hj), latest_snoc hact]

theorem SlotOk.keeps (h : SlotOk tr s) (hs : system.step s a s') :
    SlotOk (tr ++ [⟨s, a, s'⟩]) s' := by
  obtain ⟨hrun, hattempt | ⟨f, _, rfl⟩⟩ := step_cases hs
  · exact h.effect hrun (effect_of_attempt hattempt)
  · exact ⟨h.live, fun hnone => nomatch hnone⟩

theorem run_slotOk (h : Run system initial tr s) : SlotOk tr s :=
  h.history SlotOk SlotOk.keeps ⟨nofun, nofun⟩

theorem stop_fails_iff : s.stop k o = .error .notThis ∨ s.stop k o = .error .isThis ↔
    o.stopping = false ∧ ¬ (o._use_caller = true ↔ s.t_scheduler = some k) := by
  by_cases hstopping : o.stopping = true
  · have hstop : s.stop k o = .ok s := if_pos hstopping
    simp [hstop, hstopping]
  by_cases hcaller : o._use_caller = true
  · by_cases hthis : s.t_scheduler = some k
    · have hstop : s.stop k o = .error .notReady ∨ ∃ s', s.stop k o = .ok s' := by
        rw [stop, if_neg hstopping]
        dsimp only
        rw [dif_pos hcaller, GetThis, if_neg (not_not.mpr hthis)]
        split
        · exact Or.inl rfl
        · exact Or.inr ⟨_, rfl⟩
      rcases hstop with hstop | ⟨s', hstop⟩ <;> simp [hstop, hcaller, hthis]
    · have hstop : s.stop k o = .error .notThis := by
        rw [stop, if_neg hstopping]
        dsimp only
        rw [dif_pos hcaller, GetThis, if_pos hthis]
      simp [hstop, hstopping, hcaller, hthis]
  · have hstop : s.stop k o = if s.t_scheduler = some k then .error .isThis
        else .ok (s.put k (some { o with _stopping := true })) := by
      rw [stop, if_neg hstopping]
      exact dif_neg hcaller
    rw [hstop]
    split
    case isTrue hthis => simp [hstopping, hcaller, hthis]
    case isFalse hthis => simp [hcaller, hthis]

theorem attempt_fault (h : s.attempt a = some (.error f)) (hf : f = .notThis ∨ f = .isThis) :
    ∃ k o, a = .stop k ∧ s.scheduler k = some o ∧ s.stop k o = .error f := by
  cases a with
  | stop k =>
    obtain ⟨o, hk, h⟩ := Option.map_eq_some_iff.mp h
    exact ⟨k, o, rfl, hk, h⟩
  | construct k threads use_caller =>
    obtain ⟨_, h⟩ := Option.ite_none_right_eq_some.mp h
    have h := Option.some.inj h
    unfold construct at h
    split at h
    · cases h
      simp at hf
    split at h
    · split at h
      · cases h
        simp at hf
      · cases h
    · cases h
  | ran k =>
    obtain ⟨o, _, h⟩ := Option.bind_eq_some_iff.mp h
    split at h <;> cases h
  | destroy k =>
    obtain ⟨o, _, h⟩ := Option.map_eq_some_iff.mp h
    unfold destroy at h
    split at h
    · cases h
      simp at hf
    split at h
    · cases h
      simp at hf
    split at h <;> cases h
  | work k queue active =>
    obtain ⟨o, _, h⟩ := Option.map_eq_some_iff.mp h
    cases h

/-- A `stop` that does not return at once is for the scheduler constructed last if
it uses the caller, and for another one if it does not. -/
def Fits (before : List (Move SlotThread SlotAct)) (m : Move SlotThread SlotAct) : Prop :=
  ∀ k o, m.act = .stop k → m.pre.scheduler k = some o → o.stopping = false →
    (o._use_caller = true ↔ Latest k before)

theorem stopFails_iff (h : SlotOk tr s) (hs : system.step s a s') :
    ¬ s'.StopFails ↔ Fits tr ⟨s, a, s'⟩ := by
  obtain ⟨hrun, hcases⟩ := step_cases hs
  have hlatest : ∀ {k o}, s.scheduler k = some o → (s.t_scheduler = some k ↔ Latest k tr) :=
    fun {k o} hk => h.latest hrun k (by rw [hk]; rfl)
  constructor
  · intro hno k o hact hk hstopping
    rw [← hlatest hk]
    by_contra hne
    have hfails := stop_fails_iff.mpr ⟨hstopping, hne⟩
    cases hact
    have hattempt : s.attempt (.stop k) = some (s.stop k o) := by
      change (s.scheduler k).map _ = _
      rw [hk]
      rfl
    rcases hcases with hok | ⟨f, herror, rfl⟩
    · rcases hfails with hf | hf <;> rw [hattempt, hf] at hok <;> cases hok
    · rw [hattempt] at herror
      have herror := Option.some.inj herror
      apply hno
      rcases hfails with hf | hf <;> cases hf.symm.trans herror
      · exact Or.inl rfl
      · exact Or.inr rfl
  · intro hfits hfails
    rcases hcases with hok | ⟨f, herror, rfl⟩
    · have hfailed := (effect_of_attempt hok).failed_eq.trans hrun
      rcases hfails with hf | hf <;> cases hf.symm.trans hfailed
    · have hf : f = .notThis ∨ f = .isThis := by
        rcases hfails with hf | hf
        · exact Or.inl (Option.some.inj hf)
        · exact Or.inr (Option.some.inj hf)
      obtain ⟨k, o, rfl, hk, hstop⟩ := attempt_fault herror hf
      have hfault : s.stop k o = .error .notThis ∨ s.stop k o = .error .isThis := by
        rcases hf with rfl | rfl
        · exact Or.inl hstop
        · exact Or.inr hstop
      obtain ⟨hstopping, hne⟩ := stop_fails_iff.mp hfault
      exact hne ((hfits k o rfl hk hstopping).trans (hlatest hk).symm)

theorem run_slotOk_at (h : Run system initial tr s) {m : Move SlotThread SlotAct} (hm : m ∈ tr) :
    ∃ before, SlotOk before m.post := by
  obtain ⟨before, after, rfl⟩ := List.append_of_mem hm
  obtain ⟨hbefore, hs, _⟩ := h.split_at
  exact ⟨_, (run_slotOk hbefore).keeps hs⟩

/-- In every run, whatever the sequence: no `stop` fails there exactly when each is
for the scheduler that it should be for, and the slot points at no scheduler that
is gone. -/
theorem stop_supported_iff (h : Run system initial tr s) :
    ((∀ m ∈ tr, ¬ m.post.StopFails) ↔
      ∀ before m after, tr = before ++ m :: after → Fits before m) ∧
    ∀ m ∈ tr, ∀ k, m.post.scheduler k = none → m.post.t_scheduler ≠ some k := by
  have hat : ∀ {before m after}, tr = before ++ m :: after →
      (¬ m.post.StopFails ↔ Fits before m) := by
    intro before m after heq
    obtain ⟨hbefore, hs, _⟩ := (heq ▸ h).split_at
    exact stopFails_iff (run_slotOk hbefore) hs
  refine ⟨⟨fun hall before m after heq => ?_, fun hall m hm => ?_⟩, fun m hm k hnone hslot => ?_⟩
  · exact (hat heq).mp (hall m (by simp [heq]))
  · obtain ⟨before, after, heq⟩ := List.append_of_mem hm
    exact (hat heq).mpr (hall before m after heq)
  · obtain ⟨before, hok⟩ := run_slotOk_at h hm
    have hsome := hok.live k hslot
    rw [hnone] at hsome
    cases hsome

instance : Decidable s.StopFails := inferInstanceAs (Decidable (_ ∨ _))

/-- A scheduler on the caller's thread, and later two of which the second lives on. -/
def threeLifetimes : List SlotAct :=
  [.construct 0 1 true, .work 0 [.ofCb 7 (-1)] 0, .stop 0, .work 0 [] 0, .ran 0, .stop 0,
    .destroy 0, .construct 0 2 false, .construct 1 1 false, .stop 0, .destroy 0]

theorem stop_supported_iff_lifetimes : ∃ tr s, Run system initial tr s ∧
    tr.map Move.act = threeLifetimes ∧ s.t_scheduler = some 1 ∧
    (∀ m ∈ tr, ¬ m.post.StopFails) ∧
    ((∀ m ∈ tr, ¬ m.post.StopFails) ↔
      ∀ before m after, tr = before ++ m :: after → Fits before m) ∧
    ∀ m ∈ tr, ∀ k, m.post.scheduler k = none → m.post.t_scheduler ≠ some k := by
  have hrun : (traceAll next initial threeLifetimes).map (fun r =>
      (r.2.t_scheduler, decide (∀ m ∈ r.1, ¬ m.post.StopFails))) = some (some 1, true) := by
    decide +kernel
  obtain ⟨tr, s, hr, hacts, hobs⟩ := Run.exists_of_traceAll next next_sound _ hrun
  obtain ⟨hslot, hall⟩ := Prod.ext_iff.mp hobs
  exact ⟨tr, s, hr, hacts, hslot, of_decide_eq_true hall, stop_supported_iff hr⟩

/-- The slot keeps a scheduler that does not use the caller, and no longer the one
on the caller's thread when another one has been constructed. -/
theorem stop_fails_after_constructors :
    (∃ tr s, Run system initial tr s ∧ tr.map Move.act = [.construct 0 1 false, .stop 0] ∧
      s.failed = some .isThis) ∧
    ∃ tr s, Run system initial tr s ∧
      tr.map Move.act = [.construct 0 1 true, .construct 1 1 false, .stop 0] ∧
      s.failed = some .notThis := by
  constructor
  · exact Run.exists_of_traceAll next next_sound (fun r => r.2.failed) (by decide +kernel)
  · exact Run.exists_of_traceAll next next_sound (fun r => r.2.failed) (by decide +kernel)

end SlotThread

end FiberAsync
