import FiberAsync.ClosedDescriptors
import FiberAsync.ConcurrentAccounting
import FiberAsync.EventDispatch

/-!
# What a suspended fiber waits for

A fiber that sleeps in `do_io` is in the slot of its event, or a task for it is
in the queue: whatever takes it out of the slot queues it, except the section of
`delEvent` and the last statement of a `triggerEvent` in `idle`, which empties the
slot without the mutex, when another waiter may have come into it.
-/

namespace FiberAsync

set_option autoImplicit false

open Runs Results

namespace IOManager

variable {io io' : IOManager} {p q : ContextPtr} {e e' : Event} {w : Waiter} {fd : Nat}
  {r : Outcome}

/-- The event is set and its slot holds the waiter. -/
structure Armed (io : IOManager) (p : ContextPtr) (e : Event) (w : Waiter) : Prop where
  lt : p < io.allocated
  set : (io.contexts p).m_events.has e = true
  slot : ((io.contexts p).getEventContext e).waiter = some w

/-- The waiter is still in its slot, or it has been handed over. -/
def Kept (io : IOManager) (p : ContextPtr) (e : Event) (w : Waiter) (io' : IOManager) : Prop :=
  io'.Armed p e w ∨ w ∈ io'.tasks.drop io.tasks.length

theorem Armed.of_other (h : io.Armed p e w) (hallocated : io'.allocated = io.allocated)
    (honly : OnlyAt io q io') (hq : p ≠ q) : io'.Armed p e w := by
  have hctx := honly.others p hq
  exact ⟨hallocated ▸ h.lt, by rw [hctx]; exact h.set, by rw [hctx]; exact h.slot⟩

theorem Armed.handOver (h : io.Armed p e w) (ht : io.handOver q e' = .ok io') :
    io'.Armed p e w := by
  obtain ⟨_, w', _, rfl⟩ := handOver_ok_iff.mp ht
  exact ⟨h.lt, h.set, h.slot⟩

theorem Armed.resetContext (h : io.Armed p e w) (hne : ¬ (q = p ∧ e' = e)) :
    (io.resetContext q e').Armed p e w := by
  have hview := resetContext_sameView io q e'
  by_cases hq : p = q
  · subst q
    have he : e' ≠ e := fun heq => hne ⟨rfl, heq⟩
    refine ⟨h.lt, ?_, ?_⟩
    · rw [hview.events]
      exact h.set
    · simp only [IOManager.resetContext, setContext, Function.update_self,
        FdContext.getEventContext_reset, he, if_false]
      exact h.slot
  · exact h.of_other rfl (resetContext_onlyAt io q e') hq

theorem Armed.addEventLocked {op : EpollOp} {c : AddCall} (h : io.Armed p e w)
    (ha : io.addEventLocked op q c = .ok (r, io')) : io'.Armed p e w := by
  rcases addEventLocked_ok_iff.mp ha with ⟨_, _, rfl⟩ | ⟨hm, _, _, _, _, rfl⟩
  · exact h
  · by_cases hq : p = q
    · subst q
      have he : c.event ≠ e := by
        rintro rfl
        rw [h.set] at hm
        cases hm
      refine ⟨h.lt, ?_, ?_⟩
      · simp [added, setContext, h.set]
      · simp only [added, setContext, Function.update_self, FdContext.getEventContext_set, he,
          if_false]
        cases e <;> exact h.slot
    · exact h.of_other rfl (added_onlyAt io op q c) hq

/-- What `addEvent` puts into the slot. -/
theorem armed_of_added {op : EpollOp} {c : AddCall} (hp : p < io.allocated)
    (hw : c.eventContext.waiter = some w) : (io.added op p c).Armed p c.event w := by
  refine ⟨hp, ?_, ?_⟩
  · simp [added, setContext]
  · simp [added, setContext, hw]

end IOManager

theorem Removal.armed {k : Removal} {io io' : IOManager} {p q : ContextPtr} {e : Event}
    {w : Waiter} {fd : Nat} {r : Outcome} (h : io.Armed p e w)
    (hl : k.locked io q fd = .ok (r, io')) :
    io.Kept p e w io' ∨ k = .delEvent e ∧ q = p := by
  have htable := Removal.locked_sameTable hl
  have hcells := Removal.locked_cells hl
  by_cases hq : p = q
  · subst q
    by_cases hsel : k.selects e = true
    · cases k with
      | delEvent e' =>
        have he : e' = e := of_decide_eq_true hsel
        exact Or.inr ⟨by rw [he], rfl⟩
      | cancelEvent e' | cancelAll =>
        have htasks := Removal.locked_tasks hl
        rw [List.append_assoc] at htasks
        refine Or.inl (Or.inr ?_)
        rw [htasks, List.drop_left]
        cases e with
        | READ => exact List.mem_append_left _ (by simp [hsel, h.set, handsOver, h.slot])
        | WRITE => exact List.mem_append_right _ (by simp [hsel, h.set, handsOver, h.slot])
    · refine Or.inl (Or.inl ⟨htable.allocated ▸ h.lt, ?_, ?_⟩)
      · rw [hcells.bits, h.set]
        simp [hsel]
      · rw [hcells.slots e fun hx => hsel hx.1]
        exact h.slot
  · exact Or.inl (Or.inl (h.of_other htable.allocated hcells.only hq))

/-- The thread is in the section of `delEvent` on the event, or at the end of a
`triggerEvent` in `idle`. -/
def Pc.Forgets (pc : Pc) (p : ContextPtr) (e : Event) : Prop :=
  (∃ fd, pc = .remove (.delEvent e) fd (.locked p)) ∨
    (∃ q es more fd, pc = .idleDeleting q e es more fd (.locked p)) ∨
    ∃ es more, pc = .idleReset p e es more

/-- The context that `addEvent` has found for its descriptor. -/
def Pc.found : Pc → Option (AddCall × ContextPtr)
  | .addOp c p | .addLock c _ p | .addLocked c _ p => some (c, p)
  | _ => none

namespace Shared

open IOManager

variable {sh sh' : Shared} {t : Tid} {pc pc' : Pc} {p : ContextPtr} {e : Event} {w : Waiter}

theorem kept_of_eq {io io' : IOManager} (h : io.Armed p e w) (heq : io' = io) :
    io.Kept p e w io' := Or.inl (heq ▸ h)

theorem RemoveSteps.armed {k : Removal} {cause : Cause} {fd : Nat} {at_ : RemovePc}
    {o : Option RemovePc} (ha : sh.io.Armed p e w) (h : RemoveSteps sh t k cause fd at_ sh' o) :
    sh.io.Kept p e w sh'.io ∨ k = .delEvent e ∧ at_ = .locked p := by
  cases h with
  | locked hl =>
    rcases Removal.armed ha hl with hkept | ⟨hk, hq⟩
    · exact Or.inl hkept
    · exact Or.inr ⟨hk, by rw [hq]⟩
  | _ => exact Or.inl (kept_of_eq ha rfl)

/-- One step of any thread: the waiter stays in its slot or is handed over, or the step is
one that forgets it. -/
theorem Steps.armed (ht : sh.io.TableOk) (ha : sh.io.Armed p e w) (h : Steps sh t pc sh' pc') :
    sh.io.Kept p e w sh'.io ∨ pc.Forgets p e := by
  cases h with
  | addGrow hg =>
    have hr := (growContext_resized ht hg).1
    have hctx := hr.old p ha.lt
    exact Or.inl (Or.inl ⟨ha.lt.trans_le hr.grows, by rw [hctx]; exact ha.set,
      by rw [hctx]; exact ha.slot⟩)
  | addLocked hl => exact Or.inl (Or.inl (ha.addEventLocked hl))
  | idleTrigger hover => exact Or.inl (Or.inl (ha.handOver hover))
  | @idleReset q e' es more =>
    by_cases hq : q = p ∧ e' = e
    · obtain ⟨rfl, rfl⟩ := hq
      exact Or.inr (Or.inr (Or.inr ⟨es, more, rfl⟩))
    · exact Or.inl (Or.inl (ha.resetContext hq))
  | removeStep h | removeReturn h =>
    rcases h.armed ha with hkept | ⟨rfl, rfl⟩
    · exact Or.inl hkept
    · exact Or.inr (Or.inl ⟨_, rfl⟩)
  | deleteStep h | deleteReturn h =>
    rcases h.armed ha with hkept | ⟨hk, rfl⟩
    · exact Or.inl hkept
    · cases hk
      exact Or.inr (Or.inr (Or.inl ⟨_, _, _, _, rfl⟩))
  | idleDecrement => exact Or.inl (Or.inl ⟨ha.lt, ha.set, ha.slot⟩)
  | _ => exact Or.inl (kept_of_eq ha rfl)

/-- The context that a call of `addEvent` works on is one of its descriptor. -/
theorem Steps.found {c : AddCall} (ht : sh.io.TableOk)
    (hold : ∀ p, pc.found = some (c, p) → p < sh.io.allocated ∧ (sh.io.contexts p).m_fd = c.fd)
    (h : Steps sh t pc sh' pc') (hp : pc'.found = some (c, p)) :
    p < sh'.io.allocated ∧ (sh'.io.contexts p).m_fd = c.fd := by
  have hnext : ∀ more, (Pc.nextReport more).found = none := by
    intro more
    cases more <;> rfl
  have hprocess : ∀ q more es, (Pc.process q more es).found = none := by
    intro q more es
    cases es <;> rfl
  cases h with
  | addFound hf =>
    cases hp
    exact ht.of_contextAt (findContext_some_iff.mp hf).2
  | addGrow hg =>
    cases hp
    exact (growContext_eq ht hg).2
  | addOp | addLock =>
    cases hp
    exact hold _ rfl
  | idleContinue | idleEnd =>
    rw [hnext] at hp
    cases hp
  | idleUnlock | idleDecrement =>
    rw [hprocess] at hp
    cases hp
  | _ => cases hp

end Shared

namespace Shared

variable {sh sh' : Shared} {t : Tid} {pc pc' : Pc} {c : AddCall}

/-- A thread in `addEvent` stays in the same call. -/
theorem Steps.adding (h : Steps sh t pc sh' pc') (hc : pc'.adding = some c) :
    pc.adding = some c := by
  cases h with
  | idleContinue | idleEnd =>
    rw [Pc.adding_nextReport] at hc
    cases hc
  | idleUnlock | idleDecrement =>
    rw [Pc.adding_process] at hc
    cases hc
  | addFound | addMissing | addGrow | addOp | addLock => exact hc
  | _ => cases hc

/-- The call ends with its section under the mutex. -/
theorem Steps.added (h : Steps sh t pc sh' pc') (hc : pc.adding = some c)
    (hnone : pc'.adding = none) : ∃ op p r, pc = .addLocked c op p ∧
      sh.io.addEventLocked op p c = .ok (r, sh'.io) := by
  cases h with
  | addLocked hl =>
    cases hc
    exact ⟨_, _, _, rfl, hl⟩
  | addFound | addMissing | addGrow | addOp | addLock => cases hnone
  | _ => cases hc

end Shared

namespace IoFibers

open IOManager Shared

variable {s s' : IoFibers} {a : IoAct} {i : FiberId} {c : IoCall} {w : IoWait}
  {tr : List (Move IoFibers IoAct)}

/-- The fiber as a waiter of its IOManager. -/
def waiterOf (i : FiberId) : Waiter := (Pool.self, .ofFiber (some i) (-1))

/-- The fiber is in `addEvent` in `do_io`, or behind it, and has not been resumed. -/
def Sleeps (s : IoFibers) (i : FiberId) (c : IoCall) (w : IoWait) : Prop :=
  s.fiber i = .yield c w ∨ s.fiber i = .suspended c w

/-- The section of `addEvent` that puts the fiber into its slot is behind it. -/
def Registered (s : IoFibers) (i : FiberId) (c : IoCall) (w : IoWait) : Prop :=
  s.Sleeps i c w ∧ (s.pc i).adding = none

/-- A context of the descriptor holds the fiber as the waiter of its event. -/
def HoldsAt (s : IoFibers) (i : FiberId) (c : IoCall) (p : ContextPtr) : Prop :=
  (s.io.contexts p).m_fd = c.fd ∧ s.io.Armed p c.fn.event (waiterOf i)

def Queued (s : IoFibers) (i : FiberId) : Prop := ∃ task ∈ s._queue, task.fiber = some i

/-- The step takes the fiber out of its slot, as a section of `delEvent` or at the end of
a `triggerEvent` in `idle`. -/
def Forgets (m : Move IoFibers IoAct) (i : FiberId) (c : IoCall) : Prop :=
  ∃ t p, m.act = .event (.run t) ∧ (m.pre.pc t).Forgets p c.fn.event ∧ m.pre.HoldsAt i c p

/-- The fiber has been taken out of its slot so since it went to sleep. -/
def Forgotten (tr : List (Move IoFibers IoAct)) (i : FiberId) (c : IoCall) (w : IoWait) : Prop :=
  ∃ before m after, tr = before ++ m :: after ∧ Forgets m i c ∧
    ∀ x ∈ m :: after, x.pre.Sleeps i c w

/-- Nothing changes in the contexts, and no task is made. -/
structure SameSlots (io io' : IOManager) : Prop where
  contexts : io'.contexts = io.contexts
  allocated : io'.allocated = io.allocated
  table : io'.m_fdContexts = io.m_fdContexts

/-- What a step does to the threads in the event API. -/
inductive ThreadsStep (s : IoFibers) (a : IoAct) (s' : IoFibers) : Prop where
  | same : s'.pc = s.pc → SameSlots s.io s'.io → ThreadsStep s a s'
  | start (t : Tid) (pc : Pc) : s'.pc = Function.update s.pc t pc → SameSlots s.io s'.io →
      pc.found = none → (∀ c w, ¬ s.Sleeps t c w) → ThreadsStep s a s'
  | step (t : Tid) (sh : Shared) (pc : Pc) : a = .event (.run t) →
      (∀ c w, s'.Sleeps t c w → s.throws t = false) → Steps s.toShared t (s.pc t) sh pc →
      s'.io = sh.io → s'.pc = Function.update s.pc t pc →
      s'._queue = s._queue ++ Pool.handed (sh.io.tasks.drop s.io.tasks.length) →
      ThreadsStep s a s'

theorem SameSlots.refl (io : IOManager) : SameSlots io io := ⟨rfl, rfl, rfl⟩

theorem ThreadsStep.of_same (h : s'.toThreads = s.toThreads) : ThreadsStep s a s' :=
  .same (by rw [h]) (by rw [h]; exact .refl _)

theorem answered_frame {r : Returned Nat} :
    (s.answered c r).toThreads = s.toThreads ∧ (s.answered c r)._queue = s._queue := by
  unfold answered
  split <;> exact ⟨rfl, rfl⟩

theorem RunStep.threads (h : RunStep s i s') : ThreadsStep s (.run i) s' := by
  cases h with
  | addEvent c w th hpc hth =>
    obtain ⟨_, rfl⟩ := Threads.start_ok_iff.mp hth
    refine .start i _ rfl (.refl _) rfl ?_
    rintro c' w' (h | h) <;> cases hpc.symm.trans h
  | cancelAll fd th hpc hth | timedOut fd e th hpc hth =>
    obtain ⟨_, rfl⟩ := Threads.start_ok_iff.mp hth
    refine .start i _ rfl (.refl _) rfl ?_
    rintro c' w' (h | h) <;> cases hpc.symm.trans h
  | close_f fd hpc => exact .same rfl ⟨rfl, rfl, rfl⟩
  | _ => exact .of_same rfl

theorem threads_step (hs : system.step s a s') : ThreadsStep s a s' := by
  have hstart : ∀ {b : Act} {th : Threads} {pc : Pc}, s.ready b.tid = true →
      s.toThreads.start b.tid pc = .ok th → pc.found = none →
      ThreadsStep s (.event b) (s.stepped th) := by
    intro b th pc hready hth hfound
    have hout := (ready_iff.mp hready).1
    obtain ⟨_, rfl⟩ := Threads.start_ok_iff.mp hth
    refine .start b.tid pc rfl (.refl _) hfound ?_
    rintro c w (h | h) <;> cases hout.symm.trans h
  cases stepped_of_step hs with
  | run i hrun => exact hrun.threads
  | direct | answer => exact .of_same answered_frame.1
  | threw t c w th hpc hth =>
    obtain ⟨sh, pc, hsteps, rfl⟩ := Threads.steps_of_run hth
    refine .step t sh pc rfl (fun c' w' hsleeps => ?_) hsteps rfl rfl rfl
    rcases hsleeps with hsleeps | hsleeps <;>
      cases (Function.update_self t _ s.fiber).symm.trans hsleeps
  | event b th hth hreturns =>
    have h := hs.2
    cases b with
    | run t =>
      obtain ⟨sh, pc, hsteps, rfl⟩ := Threads.steps_of_run hth
      exact .step t sh pc rfl (fun _ _ _ => hreturns t rfl) hsteps rfl rfl rfl
    | addEvent t c =>
      exact hstart (b := .addEvent t c) (Option.ite_none_right_eq_some.mp h).1 hth rfl
    | remove t k fd =>
      exact hstart (b := .remove t k fd) (Option.ite_none_right_eq_some.mp h).1 hth rfl
    | report t reports =>
      refine hstart (b := .report t reports) (Option.ite_none_right_eq_some.mp h).1 hth ?_
      cases reports <;> rfl
  | _ => exact .of_same rfl

theorem Sleeps.of_update {j : FiberId} {pc : IoPc} (h : s'.Sleeps i c w)
    (hfiber : s'.fiber = Function.update s.fiber j pc)
    (hself : i = j → pc = .yield c w ∨ pc = .suspended c w → s.Sleeps i c w) :
    s.Sleeps i c w := by
  unfold Sleeps at h
  rw [hfiber] at h
  by_cases hj : i = j
  · subst j
    rw [Function.update_self] at h
    exact hself rfl h
  · rw [Function.update_of_ne hj] at h
    exact h

/-- A fiber that sleeps after a step slept before it, or it has just called `addEvent`. -/
theorem sleeps_step (hs : Stepped s a s') (h : s'.Sleeps i c w) :
    s.Sleeps i c w ∨ s'.fiber i = .yield c w ∧ s'.pc i = .addFind (addCall i c) := by
  have hother : ∀ {j : FiberId} {pc : IoPc}, s'.fiber = Function.update s.fiber j pc →
      (∀ c w, pc ≠ .yield c w ∧ pc ≠ .suspended c w) → s.Sleeps i c w := by
    intro j pc hfiber hne
    refine h.of_update hfiber fun _ hpc => ?_
    rcases hpc with hpc | hpc
    · exact absurd hpc (hne c w).1
    · exact absurd hpc (hne c w).2
  cases hs with
  | run j hrun =>
    cases hrun with
    | addEvent c' w' th hpc hth =>
      obtain ⟨_, rfl⟩ := Threads.start_ok_iff.mp hth
      by_cases hj : i = j
      · subst j
        unfold Sleeps at h
        change Function.update s.fiber i _ i = _ ∨ Function.update s.fiber i _ i = _ at h
        rw [Function.update_self] at h
        rcases h with h | h
        · cases h
          exact Or.inr ⟨Function.update_self _ _ _, Function.update_self _ _ _⟩
        · cases h
      · exact Or.inl (h.of_update rfl fun hij => absurd hij hj)
    | yield c' w' hpc =>
      refine Or.inl (h.of_update rfl fun hij hsleeps => ?_)
      subst hij
      rcases hsleeps with hsleeps | hsleeps <;> cases hsleeps
      exact Or.inl hpc
    | _ => exact Or.inl (hother rfl (by simp))
  | io | close | timeout | threw => exact Or.inl (hother rfl (by simp))
  | again | resume => exact Or.inl (hother rfl (by simp))
  | direct | answer =>
    exact Or.inl (hother (congrArg (Function.update · _ _) answered_fiber) (by simp))
  | _ => exact Or.inl h

/-- A fiber yields when its call of `addEvent` has returned. -/
theorem yield_step (hs : system.step s a s') (h : s.fiber i = .yield c w)
    (h' : s'.Sleeps i c w) : s'.fiber i = .yield c w ∨ s.pc i = .outside := by
  rcases h' with h' | h'
  · exact Or.inl h'
  have hother : ∀ {j : FiberId} {pc : IoPc}, s'.fiber = Function.update s.fiber j pc →
      (i = j → pc ≠ .suspended c w) → s'.fiber i = .yield c w ∨ s.pc i = .outside := by
    intro j pc hfiber hne
    rw [hfiber] at h'
    by_cases hj : i = j
    · subst j
      rw [Function.update_self] at h'
      exact absurd h' (hne rfl)
    · rw [Function.update_of_ne hj] at h'
      cases h.symm.trans h'
  have hexec := hs.2
  cases stepped_of_step hs with
  | run j hrun =>
    cases hrun with
    | yield c' w' hpc =>
      by_cases hj : i = j
      · subst j
        have hfree := (Option.ite_none_right_eq_some.mp hexec).1
        exact Or.inr (of_decide_eq_true hfree)
      · exact hother rfl fun hij => absurd hij hj
    | _ => exact hother rfl (by simp)
  | io | close | timeout | threw => exact hother rfl (by simp)
  | again | resume => exact hother rfl (by simp)
  | direct | answer => exact hother (congrArg (Function.update · _ _) answered_fiber) (by simp)
  | _ => cases h.symm.trans h'

theorem queued_eraseIdx {task : ScheduleTask} {n : Nat} (hq : s.Queued i)
    (hn : s._queue[n]? = some task) (hne : task.fiber ≠ some i) :
    ∃ task ∈ s._queue.eraseIdx n, task.fiber = some i := by
  obtain ⟨x, hx, hfiber⟩ := hq
  obtain ⟨m, hm⟩ := List.getElem?_of_mem hx
  refine ⟨x, List.mem_eraseIdx_iff_getElem?.mpr ⟨m, ?_, hm⟩, hfiber⟩
  rintro rfl
  rw [hn] at hm
  cases hm
  exact hne hfiber

/-- A task for a sleeping fiber leaves the queue only when the fiber is resumed. -/
theorem queued_step (hs : system.step s a s') (hq : s.Queued i) (h : s.Sleeps i c w)
    (h' : s'.Sleeps i c w) : s'.Queued i := by
  have happend : ∀ {l : List ScheduleTask}, s'._queue = s._queue ++ l → s'.Queued i := by
    intro l hl
    obtain ⟨x, hx, hfiber⟩ := hq
    exact ⟨x, hl ▸ List.mem_append_left _ hx, hfiber⟩
  have hsame : s'._queue = s._queue → s'.Queued i := by
    intro hl
    exact happend (hl.trans (List.append_nil _).symm)
  have hexec := hs.2
  cases stepped_of_step hs with
  | take n =>
    simp only [exec] at hexec
    split at hexec
    · rename_i task htask
      obtain ⟨hall, _⟩ := Option.ite_none_right_eq_some.mp hexec
      refine queued_eraseIdx hq htask fun hfiber => ?_
      rw [hfiber] at hall
      have hout : s.fiber i = .outside := of_decide_eq_true hall
      rcases h with h | h <;> cases hout.symm.trans h
    · cases hexec
  | resume j n c' w' hpc =>
    change s.resume j n = _ at hexec
    unfold resume at hexec
    split at hexec
    · rename_i task _ htask
      obtain ⟨hfor, _⟩ := Option.ite_none_right_eq_some.mp hexec
      refine queued_eraseIdx hq htask fun hfiber => ?_
      rw [hfor] at hfiber
      cases hfiber
      rcases h' with h' | h' <;>
      · change Function.update s.fiber i _ i = _ at h'
        rw [Function.update_self] at h'
        cases h'
    · cases hexec
  | run j hrun =>
    cases hrun with
    | addEvent | cancelAll | timedOut => exact happend rfl
    | _ => exact hsame rfl
  | add_task | event | threw => exact happend rfl
  | direct | answer => exact hsame answered_frame.2
  | _ => exact hsame rfl

/-- What holds after the moves `tr` of a run. -/
structure Awaits (tr : List (Move IoFibers IoAct)) (s : IoFibers) : Prop where
  table : s.io.TableOk
  found : ∀ t c p, (s.pc t).found = some (c, p) →
    p < s.io.allocated ∧ (s.io.contexts p).m_fd = c.fd
  calling : ∀ i c w c', s.Sleeps i c w → (s.pc i).adding = some c' →
    s.fiber i = .yield c w ∧ c' = addCall i c
  awaited : ∀ i c w, s.Registered i c w → (∃ p, s.HoldsAt i c p) ∨ s.Queued i ∨ Forgotten tr i c w

theorem SameSlots.tableOk {io io' : IOManager} (h : SameSlots io io') (ht : io.TableOk) :
    io'.TableOk := by
  intro j o ho
  rw [h.table] at ho
  rw [h.contexts, h.allocated]
  exact ht j o ho

theorem SameSlots.holdsAt {p : ContextPtr} (h : SameSlots s.io s'.io) (hp : s.HoldsAt i c p) :
    s'.HoldsAt i c p := by
  obtain ⟨hfd, hlt, hset, hslot⟩ := hp
  exact ⟨by rw [h.contexts]; exact hfd, by rw [h.allocated]; exact hlt,
    by rw [h.contexts]; exact hset, by rw [h.contexts]; exact hslot⟩

theorem Forgotten.snoc {m : Move IoFibers IoAct} (h : Forgotten tr i c w)
    (hm : m.pre.Sleeps i c w) : Forgotten (tr ++ [m]) i c w := by
  obtain ⟨before, x, after, rfl, hx, hsleeps⟩ := h
  refine ⟨before, x, after ++ [m], by simp, hx, fun y hy => ?_⟩
  rw [← List.cons_append] at hy
  rcases List.mem_append.mp hy with hy | hy
  · exact hsleeps y hy
  · rw [List.mem_singleton.mp hy]
    exact hm

namespace Awaits

/-- A fiber that was registered before the step. -/
theorem kept (h : Awaits tr s) (hs : system.step s a s') (hreg : s.Registered i c w)
    (hsleeps : s'.Sleeps i c w) :
    (∃ p, s'.HoldsAt i c p) ∨ s'.Queued i ∨ Forgotten (tr ++ [⟨s, a, s'⟩]) i c w := by
  rcases h.awaited i c w hreg with ⟨p, hp⟩ | hq | hforgotten
  · cases threads_step hs with
    | same _ hslots => exact Or.inl ⟨p, hslots.holdsAt hp⟩
    | start _ _ _ hslots => exact Or.inl ⟨p, hslots.holdsAt hp⟩
    | step t sh pc ha _ hsteps hio _ hqueue =>
      obtain ⟨hfd, harmed⟩ := hp
      rcases hsteps.armed h.table harmed with (harmed' | htask) | hforgets
      · have hfd' := (hsteps.older h.table).2 p harmed.lt
        exact Or.inl ⟨p, by rw [hio]; exact hfd'.trans hfd, by rw [hio]; exact harmed'⟩
      · refine Or.inr (Or.inl ⟨.ofFiber (some i) (-1), ?_, rfl⟩)
        rw [hqueue]
        apply List.mem_append_right
        exact List.mem_map.mpr ⟨waiterOf i, List.mem_filter.mpr ⟨htask, rfl⟩, rfl⟩
      · refine Or.inr (Or.inr ⟨tr, _, [], rfl, ⟨t, p, ha, hforgets, hfd, harmed⟩, ?_⟩)
        intro x hx
        rw [List.mem_singleton.mp hx]
        exact hreg.1
  · exact Or.inr (Or.inl (queued_step hs hq hreg.1 hsleeps))
  · exact Or.inr (Or.inr (hforgotten.snoc hreg.1))

/-- The section of `addEvent` has just put the fiber into its slot. -/
theorem registered (h : Awaits tr s) {t : Tid} {sh : Shared} {pc : Pc}
    (hreturns : s.throws t = false) (hsteps : Steps s.toShared t (s.pc t) sh pc)
    (hio : s'.io = sh.io) (hsleeps : s.Sleeps t c w) {c' : AddCall}
    (hadding : (s.pc t).adding = some c') (hnone : pc.adding = none) :
    ∃ p, s'.HoldsAt t c p := by
  obtain ⟨hfiber, rfl⟩ := h.calling t c w c' hsleeps hadding
  obtain ⟨op, p, r, hpc, hl⟩ := hsteps.added hadding hnone
  obtain ⟨hlt, hfd⟩ := h.found t (addCall t c) p (by rw [hpc]; rfl)
  unfold throws at hreturns
  rw [hfiber, hpc] at hreturns
  rcases addEventLocked_ok_iff.mp hl with ⟨hm, _, _⟩ | ⟨_, _, _, _, _, hadded⟩
  · have hfree : (s.io.contexts p).m_events.has (addCall t c).event = false := hreturns
    cases hm.symm.trans hfree
  · refine ⟨p, ?_, ?_⟩
    · rw [hio]
      exact ((hsteps.older h.table).2 p hlt).trans hfd
    · rw [hio, hadded]
      exact armed_of_added hlt rfl

theorem step (h : Awaits tr s) (hs : system.step s a s') : Awaits (tr ++ [⟨s, a, s'⟩]) s' where
  table := by
    cases threads_step hs with
    | same _ hslots | start _ _ _ hslots => exact hslots.tableOk h.table
    | step t sh pc _ _ hsteps hio => exact hio ▸ hsteps.tableOk h.table
  found u c p hfound := by
    cases threads_step hs with
    | same hpc hslots =>
      rw [hpc] at hfound
      rw [hslots.contexts, hslots.allocated]
      exact h.found u c p hfound
    | start t pc hpc hslots hnone _ =>
      rw [hslots.contexts, hslots.allocated]
      rw [hpc] at hfound
      by_cases hu : u = t
      · subst u
        rw [Function.update_self, hnone] at hfound
        cases hfound
      · rw [Function.update_of_ne hu] at hfound
        exact h.found u c p hfound
    | step t sh pc _ _ hsteps hio hpc =>
      rw [hio]
      rw [hpc] at hfound
      by_cases hu : u = t
      · subst u
        rw [Function.update_self] at hfound
        exact hsteps.found h.table (fun q hq => h.found t c q hq) hfound
      · rw [Function.update_of_ne hu] at hfound
        obtain ⟨hlt, hfd⟩ := h.found u c p hfound
        obtain ⟨hgrows, hold⟩ := hsteps.older h.table
        exact ⟨hlt.trans_le hgrows, (hold p hlt).trans hfd⟩
  calling i c w c' hsleeps hadding := by
    rcases sleeps_step (stepped_of_step hs) hsleeps with hslept | ⟨hfiber, hpc⟩
    · -- the call of `addEvent` is the one that was under way
      have hkept : (s.pc i).adding = some c' → s'.fiber i = .yield c w ∧ c' = addCall i c := by
        intro hold
        obtain ⟨hyield, hcall⟩ := h.calling i c w c' hslept hold
        rcases yield_step hs hyield hsleeps with hyield' | hout
        · exact ⟨hyield', hcall⟩
        · rw [hout] at hold
          cases hold
      cases threads_step hs with
      | same hpc _ =>
        rw [hpc] at hadding
        exact hkept hadding
      | start t pc hpc _ _ hnot =>
        have hi : i ≠ t := by
          rintro rfl
          exact hnot c w hslept
        rw [hpc, Function.update_of_ne hi] at hadding
        exact hkept hadding
      | step t sh pc _ _ hsteps _ hpc =>
        rw [hpc] at hadding
        by_cases hi : i = t
        · subst i
          rw [Function.update_self] at hadding
          exact hkept (hsteps.adding hadding)
        · rw [Function.update_of_ne hi] at hadding
          exact hkept hadding
    · rw [hpc] at hadding
      cases hadding
      exact ⟨hfiber, rfl⟩
  awaited i c w hreg := by
    obtain ⟨hsleeps, hnone⟩ := hreg
    rcases sleeps_step (stepped_of_step hs) hsleeps with hslept | ⟨_, hpc⟩
    · cases hadding : (s.pc i).adding with
      | none => exact h.kept hs ⟨hslept, hadding⟩ hsleeps
      | some c' =>
        cases threads_step hs with
        | same hpc _ =>
          rw [hpc, hadding] at hnone
          cases hnone
        | start t pc hpc _ _ hnot =>
          have hi : i ≠ t := by
            rintro rfl
            exact hnot c w hslept
          rw [hpc, Function.update_of_ne hi, hadding] at hnone
          cases hnone
        | step t sh pc _ hreturns hsteps hio hpc =>
          rw [hpc] at hnone
          by_cases hi : i = t
          · subst i
            rw [Function.update_self] at hnone
            exact Or.inl (h.registered (hreturns c w hsleeps) hsteps hio hslept hadding hnone)
          · rw [Function.update_of_ne hi, hadding] at hnone
            cases hnone
    · rw [hpc] at hnone
      cases hnone

end Awaits

theorem initial_awaits (files : Files) : Awaits [] (initial files) where
  table := IOManager.initial_tableOk
  found t c p h := by cases h
  calling i c w c' h := by rcases h with h | h <;> cases h
  awaited i c w h := by rcases h.1 with h | h <;> cases h

/-- What a step is for the owners of the mutexes. -/
theorem owners_step (hs : system.step s a s') : s'.owner = s.owner ∧ s'.pc = s.pc ∨
    ∃ b th, s.toThreads.exec b = .ok th ∧ s'.owner = th.owner ∧ s'.pc = th.pc ∧
      ∀ t, b = .run t → a = .event b := by
  cases stepped_of_step hs with
  | event b th hth => exact Or.inr ⟨b, th, hth, rfl, rfl, fun _ _ => rfl⟩
  | threw i c w th hpc hth => exact Or.inr ⟨.run i, th, hth, rfl, rfl, fun _ _ => rfl⟩
  | run j hrun =>
    cases hrun with
    | addEvent c w th hpc hth => exact Or.inr ⟨_, th, hth, rfl, rfl, nofun⟩
    | cancelAll fd th hpc hth => exact Or.inr ⟨_, th, hth, rfl, rfl, nofun⟩
    | timedOut fd e th hpc hth => exact Or.inr ⟨_, th, hth, rfl, rfl, nofun⟩
    | _ => exact Or.inl ⟨rfl, rfl⟩
  | direct | answer =>
    exact Or.inl ⟨congrArg (fun th : Threads => th.owner) answered_frame.1,
      congrArg Threads.pc answered_frame.1⟩
  | _ => exact Or.inl ⟨rfl, rfl⟩

def KeepsMutex (s : IoFibers) (a : IoAct) : Prop :=
  ∀ b, a = .event b → s.toThreads.KeepsMutex b

theorem ownersOk_step (h : s.OwnersOk) (hk : s.KeepsMutex a) (hs : system.step s a s') :
    s'.OwnersOk := by
  unfold Threads.OwnersOk at h ⊢
  rcases owners_step hs with ⟨howner, hpc⟩ | ⟨b, th, hth, howner, hpc, hrun⟩
  · rw [howner, hpc]
    exact h
  · rw [howner, hpc]
    exact Threads.OwnersOk.exec h (fun t p more hb hp => hk b (hrun t hb) t p more hb hp) hth

/-- No hooked call loses its wake-up but so: in every run of any number of fibers in
which no dispatch frees a mutex that is held, the sections of a context do not overlap,
and each fiber that sleeps in `do_io` is the waiter of its event in a context of its
descriptor, or a task for it is in the queue, or a section of `delEvent` or the last
statement of a `triggerEvent` in `idle` has taken it out of its slot since it went to
sleep. -/
theorem suspended_awaited {files : Files} (hr : Run system (initial files) tr s)
    (hk : ∀ m ∈ tr, m.pre.KeepsMutex m.act) (hs : s.fiber i = .suspended c w) :
    s.Exclusive ∧ ((∃ p, s.HoldsAt i c p) ∨ s.Queued i ∨ Forgotten tr i c w) := by
  have howners := hr.invariant_of_guard (fun s : IoFibers => s.OwnersOk) KeepsMutex ownersOk_step
    Threads.initial_ownersOk hk
  refine ⟨howners.exclusive, ?_⟩
  have hawaits := hr.history Awaits (fun h hstep => h.step hstep) (initial_awaits files)
  have hsleeps : s.Sleeps i c w := Or.inr hs
  apply hawaits.awaited i c w ⟨hsleeps, ?_⟩
  cases hadding : (s.pc i).adding with
  | none => rfl
  | some c' =>
    have hyield := (hawaits.calling i c w c' hsleeps hadding).1
    cases hs.symm.trans hyield

/-- Fiber 1 waits on a socket, and fiber 2 calls `delEvent` on it. -/
def forgetting : List IoAct :=
  [.hooked 1 (.socket 2 1 0 5), .io 1 ⟨.read, 5⟩, .run 1, .result 1 (.error .EAGAIN), .run 1,
    .run 1] ++ List.replicate 5 (.event (.run 1)) ++
  [.run 1, .event (.remove 2 (.delEvent .READ) 5)] ++ List.replicate 4 (.event (.run 2))

theorem suspended_awaited_forgotten : ∃ tr s, Run system (initial fun _ => none) tr s ∧
    tr.map Move.act = forgetting ∧ s.fiber 1 = .suspended ⟨.read, 5⟩ ⟨-1, 0⟩ ∧
    Forgotten tr 1 ⟨.read, 5⟩ ⟨-1, 0⟩ := by
  have hrun : (traceAll next (initial fun _ => none) forgetting).map (fun r =>
      (r.2.fiber 1, r.2._queue, r.2.io.allocated,
        ((List.range 32).all fun p => !(r.2.io.contexts p).m_events.has .READ),
        r.1.all fun m => match m.act with
          | .event b => m.pre.toThreads.keepsMutex b
          | _ => true)) =
      some (.suspended ⟨.read, 5⟩ ⟨-1, 0⟩, [], 32, true, true) := by decide +kernel
  obtain ⟨tr, s, hr, hacts, hobs⟩ := Run.exists_of_traceAll next next_sound _ hrun
  obtain ⟨hsuspended : s.fiber 1 = _, hobs⟩ := Prod.mk.inj hobs
  obtain ⟨hqueue : s._queue = [], hobs⟩ := Prod.mk.inj hobs
  obtain ⟨hallocated : s.io.allocated = 32, hobs⟩ := Prod.mk.inj hobs
  obtain ⟨hunset, hkeeps⟩ := Prod.mk.inj hobs
  have hk : ∀ m ∈ tr, m.pre.KeepsMutex m.act := by
    intro m hm b hb
    have htest := List.all_eq_true.mp hkeeps m hm
    rw [hb] at htest
    exact Threads.keepsMutex_sound htest
  refine ⟨tr, s, hr, hacts, hsuspended, ?_⟩
  rcases (suspended_awaited hr hk hsuspended).2 with ⟨p, _, harmed⟩ | ⟨task, htask, _⟩ | hforgotten
  · have hp := List.mem_range.mpr (hallocated ▸ harmed.lt)
    have hclear := List.all_eq_true.mp hunset p hp
    have hset : (s.io.contexts p).m_events.has .READ = true := harmed.set
    rw [hset] at hclear
    cases hclear
  · rw [hqueue] at htask
    cases htask
  · exact hforgotten

end IoFibers

end FiberAsync
