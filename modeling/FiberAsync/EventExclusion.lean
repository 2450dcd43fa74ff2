import FiberAsync.EventThreads
import FiberAsync.Library.Locks

/-!
# Mutual exclusion on a context

Every section under a context's mutex is entered by locking it and left by an
unlock, except that the guard in `idle` unlocks once more when an iteration that
processed an event ends. That unlock is the only one of a thread that does not
hold the mutex.
-/

namespace FiberAsync

set_option autoImplicit false

open Runs Results Locks

namespace RemovePc

def region : RemovePc → Option ContextPtr
  | locked p | unlock p => some p
  | _ => none

def unlocks : RemovePc → Option (ContextPtr × Guard)
  | unlock p => some (p, Guard.new.1)
  | _ => none

end RemovePc

namespace Pc

/-- The context whose guarded region the thread is in. -/
def region : Pc → Option ContextPtr
  | addLocked _ _ p | addUnlock p | idleLocked p _ _ | idleContinue p _ | idleUnlock p _ _ =>
    some p
  | remove _ _ at_ | idleDeleting _ _ _ _ _ at_ => at_.region
  | _ => none

/-- The mutex that the next step of the thread unlocks, and the guard object through which. -/
def unlocks : Pc → Option (ContextPtr × Guard)
  | addUnlock p | idleContinue p _ | idleUnlock p _ _ => some (p, Guard.new.1)
  | remove _ _ at_ | idleDeleting _ _ _ _ _ at_ => at_.unlocks
  | idleEnd p _ => some (p, Shared.released)
  | _ => none

@[simp] theorem region_nextReport (more : List Report) : (nextReport more).region = none := by
  cases more <;> rfl

@[simp] theorem region_process (p : ContextPtr) (more : List Report) (es : List Event) :
    (process p more es).region = none := by
  cases es <;> rfl

theorem unlocks_eq_released {pc : Pc} {p : ContextPtr} :
    pc.unlocks = some (p, Shared.released) ↔ ∃ more, pc = .idleEnd p more := by
  have hne : Guard.new.1 ≠ Shared.released := by decide
  cases pc with
  | remove k fd at_ | idleDeleting p e es more fd at_ =>
    cases at_ <;> simp [unlocks, RemovePc.unlocks, hne]
  | _ => simp [unlocks, hne]

end Pc

namespace Shared

variable {sh sh' : Shared} {t : Tid} {p : ContextPtr}

/-- What a step does to the mutexes and to the region that its thread is in. -/
inductive LockEffect (sh : Shared) (t : Tid) (r : Option ContextPtr)
    (u : Option (ContextPtr × Guard)) (sh' : Shared) (r' : Option ContextPtr) : Prop where
  | stay : u = none → sh'.owner = sh.owner → r' = r → LockEffect sh t r u sh' r'
  | acquire (p : ContextPtr) : u = none → sh.owner p = none → r = none → r' = some p →
      sh'.owner = Function.update sh.owner p (some t) → LockEffect sh t r u sh' r'
  | release (p : ContextPtr) : u = some (p, Guard.new.1) → r = some p → r' = none →
      sh'.owner = Function.update sh.owner p none → LockEffect sh t r u sh' r'
  | stray (p : ContextPtr) : u = some (p, released) → r = none → r' = none →
      sh'.owner = Function.update sh.owner p none → LockEffect sh t r u sh' r'

theorem RemoveSteps.lockEffect {k : Removal} {cause : Cause} {fd : Nat} {at_ : RemovePc}
    {o : Option RemovePc} (h : RemoveSteps sh t k cause fd at_ sh' o) :
    LockEffect sh t at_.region at_.unlocks sh' (o.bind RemovePc.region) := by
  cases h with
  | found | missing | locked => exact .stay rfl rfl rfl
  | lock hfree => exact .acquire _ rfl hfree rfl rfl rfl
  | unlock => exact .release _ rfl rfl rfl rfl

theorem Steps.lockEffect {pc pc' : Pc} (h : Steps sh t pc sh' pc') :
    LockEffect sh t pc.region pc.unlocks sh' pc'.region := by
  cases h with
  | addFound | addMissing | addGrow | addOp | addLocked | idleDispatch | idleSkip
  | idleTrigger | idleReset | idleDel => exact .stay rfl rfl rfl
  | idleDecrement => exact .stay rfl rfl (Pc.region_process _ _ _)
  | addLock hfree | idleLock hfree => exact .acquire _ rfl hfree rfl rfl rfl
  | addUnlock => exact .release _ rfl rfl rfl rfl
  | idleContinue => exact .release _ rfl rfl (Pc.region_nextReport _) rfl
  | idleUnlock => exact .release _ rfl rfl (Pc.region_process _ _ _) rfl
  | idleEnd => exact .stray _ rfl rfl (Pc.region_nextReport _) rfl
  | removeStep h | deleteStep h => exact h.lockEffect
  | removeReturn h | deleteReturn h => exact h.lockEffect

end Shared

namespace Threads

variable {s s' : Threads} {t : Tid} {a : Act}

def Exclusive (s : Threads) : Prop :=
  ∀ t t' p, (s.pc t).region = some p → (s.pc t').region = some p → t = t'

/-- If the step unlocks a mutex, its thread holds the mutex and its guard is locked. -/
def UnlocksOwn (s : Threads) (a : Act) : Prop :=
  ∀ t p g, a = .run t → (s.pc t).unlocks = some (p, g) →
    s.owner p = some t ∧ g.m_locked = true

/-- The step is the end of an iteration of `idle` that processed an event. -/
def EndsDispatch (s : Threads) (a : Act) : Prop :=
  ∃ t p more, a = .run t ∧ s.pc t = .idleEnd p more

/-- An iteration of `idle` that processed an event ends while nobody holds the mutex. -/
def KeepsMutex (s : Threads) (a : Act) : Prop :=
  ∀ t p more, a = .run t → s.pc t = .idleEnd p more → s.owner p = none

/-- The test of `KeepsMutex`. -/
def keepsMutex (s : Threads) : Act → Bool
  | .run t => match s.pc t with
    | .idleEnd p _ => s.owner p = none
    | _ => true
  | _ => true

theorem keepsMutex_sound (h : s.keepsMutex a = true) : s.KeepsMutex a := by
  rintro t p more rfl hpc
  simp only [keepsMutex, hpc] at h
  exact of_decide_eq_true h

def OwnersOk (s : Threads) : Prop := Owned s.owner (Pc.region ∘ s.pc)

theorem OwnersOk.exclusive (hs : s.OwnersOk) : s.Exclusive :=
  fun _ _ _ h h' => Owned.exclusive hs h h'

theorem initial_ownersOk : initial.OwnersOk := fun t p => by simp [initial, Pc.region]

theorem OwnersOk.start {pc : Pc} (hs : s.OwnersOk) (hpc : pc.region = none)
    (h : s.start t pc = .ok s') : s'.OwnersOk := by
  obtain ⟨hout, rfl⟩ := start_ok_iff.mp h
  unfold OwnersOk
  rw [Function.comp_update]
  apply Owned.stay hs
  rw [hpc, Function.comp_apply, hout]
  rfl

theorem OwnersOk.run (hs : s.OwnersOk)
    (hfree : ∀ p more, s.pc t = .idleEnd p more → s.owner p = none)
    (h : s.exec (.run t) = .ok s') : s'.OwnersOk := by
  obtain ⟨sh, pc, hstep, rfl⟩ := steps_of_run h
  unfold OwnersOk
  rw [Function.comp_update]
  rcases hstep.lockEffect with ⟨_, ho, hr⟩ | ⟨p, _, hp, hout, hr, ho⟩ |
    ⟨p, _, hin, hr, ho⟩ | ⟨p, hu, hout, hr, ho⟩
  · rw [ho]
    exact Owned.stay hs hr
  · rw [ho, hr]
    exact Owned.acquire hs hp hout
  · rw [ho, hr]
    exact Owned.release hs hin
  · obtain ⟨more, hpc⟩ := Pc.unlocks_eq_released.mp hu
    rw [ho, hr]
    exact Owned.stay (Owned.release_free hs (hfree p more hpc)) hout.symm

theorem OwnersOk.exec (hs : s.OwnersOk)
    (hfree : ∀ t p more, a = .run t → s.pc t = .idleEnd p more → s.owner p = none)
    (h : s.exec a = .ok s') : s'.OwnersOk := by
  cases a with
  | addEvent t c => exact hs.start rfl h
  | remove t k fd => exact hs.start rfl h
  | report t reports => exact hs.start (Pc.region_nextReport reports) h
  | run t => exact hs.run (fun p more => hfree t p more rfl) h

theorem OwnersOk.unlocksOwn (hs : s.OwnersOk) (hg : ¬ s.EndsDispatch a)
    (h : s.exec a = .ok s') : s.UnlocksOwn a := by
  intro t p g ha hu
  subst ha
  obtain ⟨sh, pc, hstep, rfl⟩ := steps_of_run h
  rcases hstep.lockEffect with ⟨hu', _⟩ | ⟨_, hu', _⟩ | ⟨q, hu', hin, _⟩ | ⟨q, hu', _⟩
  · rw [hu'] at hu
    cases hu
  · rw [hu'] at hu
    cases hu
  · rw [hu'] at hu
    cases hu
    exact ⟨(hs t p).mp hin, rfl⟩
  · obtain ⟨more, hpc⟩ := Pc.unlocks_eq_released.mp hu'
    exact absurd ⟨t, q, more, rfl, hpc⟩ hg

theorem not_unlocksOwn (h : s.EndsDispatch a) : ¬ s.UnlocksOwn a := by
  obtain ⟨t, p, more, rfl, hpc⟩ := h
  intro hu
  exact Bool.false_ne_true (hu t p Shared.released rfl (by rw [hpc]; rfl)).2

/-- In a run, every unlock is issued by the thread that holds the mutex, through
a guard that is locked, and no two threads are ever in one region, exactly when
no iteration of `idle` that processed an event comes to its end. -/
theorem exclusion_iff {tr : List (Move Threads Act)} (h : Run system initial tr s) :
    (∀ m ∈ tr, m.pre.UnlocksOwn m.act ∧ m.post.Exclusive) ↔
      ∀ m ∈ tr, ¬ m.pre.EndsDispatch m.act := by
  have keeps : ∀ {s a s'}, OwnersOk s → ¬ s.EndsDispatch a → system.step s a s' →
      OwnersOk s' := by
    intro s a s' hs hg hstep
    exact hs.exec (fun t p more ha hpc => absurd ⟨t, p, more, ha, hpc⟩ hg) hstep.2
  apply h.forall_iff_guard OwnersOk (fun s a => ¬ s.EndsDispatch a) _ keeps _ initial_ownersOk
  intro s a s' hs hstep
  constructor
  · intro hp hg
    exact not_unlocksOwn hg hp.1
  · intro hg
    exact ⟨hs.unlocksOwn hg hstep.2, (keeps hs hg hstep).exclusive⟩

theorem exclusion_iff_add : ∃ tr s, Run system initial tr s ∧
    tr.map Move.act = [.addEvent 0 ⟨5, .READ, some 0, ⟨some 0, 0, true⟩⟩, .run 0, .run 0, .run 0] ∧
    ((∀ m ∈ tr, m.pre.UnlocksOwn m.act ∧ m.post.Exclusive) ↔
      ∀ m ∈ tr, ¬ m.pre.EndsDispatch m.act) := by
  have hrun : (traceAll next initial [.addEvent 0 ⟨5, .READ, some 0, ⟨some 0, 0, true⟩⟩, .run 0,
    .run 0, .run 0]).map (fun _ => ()) = some () := by decide +kernel
  obtain ⟨tr, s, hr, hacts, _⟩ := Run.exists_of_traceAll next next_sound _ hrun
  exact ⟨tr, s, hr, hacts, exclusion_iff hr⟩

/-- One thread registers an event, a second dispatches it and is at the end of
the iteration, the first is in the region again, the stray unlock lets a third
one in. -/
def strayUnlock : List Act :=
  let c : AddCall := ⟨5, .READ, some 0, ⟨some 0, 0, true⟩⟩
  .addEvent 0 c :: List.replicate 5 (.run 0) ++
  .report 1 [(5, EPOLLIN)] :: List.replicate 11 (.run 1) ++
  .addEvent 0 c :: List.replicate 3 (.run 0) ++
  [.run 1, .remove 2 (.delEvent .READ) 5, .run 2, .run 2]

theorem two_threads_in_region : ∃ tr s, Run system initial tr s ∧
    tr.map Move.act = strayUnlock ∧ (s.pc 0).region = some 5 ∧ (s.pc 2).region = some 5 ∧
    ¬ s.Exclusive := by
  have hrun : (traceAll next initial strayUnlock).map
      (fun r => ((r.2.pc 0).region, (r.2.pc 2).region)) = some (some 5, some 5) := by
    decide +kernel
  obtain ⟨tr, s, hr, hacts, hregions⟩ := Run.exists_of_traceAll next next_sound _ hrun
  obtain ⟨h0, h2⟩ := Prod.mk.inj hregions
  exact ⟨tr, s, hr, hacts, h0, h2, fun hx => absurd (hx 0 2 5 h0 h2) (by decide)⟩

end Threads

end FiberAsync
