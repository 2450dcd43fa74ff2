import FiberAsync.EventExclusion
import FiberAsync.Library.Counting
import FiberAsync.PoolFirings

/-!
# What stopping() sees

`stopping()` reads `m_pendingEventCount`, then the queue and the counter of
active threads under the mutex, then `m_timers.size()`. The answer is about the
moment of the last read only if what was read before is still so: nothing else
orders the reads, the last one does not wait for a thread in `refresh`, `reset` or
the loop of `listExpiredCb`, and no read looks at the vectors of expired timers and
callbacks.
-/

namespace FiberAsync

set_option autoImplicit false

open Runs Results Counting

namespace IOManager

/-- No event is registered, in any context. -/
def NoEvents (io : IOManager) : Prop := ∀ p e, (io.contexts p).m_events.has e = false

namespace NoEvents

variable {io io' : IOManager} {p : ContextPtr} {fd : Nat}

theorem setContext (h : io.NoEvents) {ctx : FdContext} (hctx : ∀ e, ctx.m_events.has e = false) :
    (io.setContext p ctx).NoEvents := by
  intro q e
  by_cases hq : q = p
  · subst q
    simp [IOManager.setContext, hctx]
  · simp [IOManager.setContext, hq, h q e]

theorem resetContext (h : io.NoEvents) (e : Event) : (io.resetContext p e).NoEvents :=
  h.setContext fun e' => by simp [h p e']

theorem newContext (h : io.NoEvents) (i : Nat) : (io.newContext i).NoEvents := by
  intro q e
  by_cases hq : q = io.allocated
  · subst q
    simp [IOManager.newContext]
  · simp [IOManager.newContext, hq, h q e]

theorem fillNull (h : io.NoEvents) (i : Nat) (l : List (Option ContextPtr)) :
    (io.fillNull i l).1.NoEvents := by
  induction l generalizing io i with
  | nil => exact h
  | cons o rest ih =>
    cases o with
    | some q => exact ih h (i + 1)
    | none => exact ih (h.newContext i) (i + 1)

theorem contextResize (h : io.NoEvents) (size : Nat) : (io.contextResize size).NoEvents :=
  h.fillNull 0 _

theorem growContext (h : io.NoEvents) (hg : io.growContext fd = .ok (p, io')) :
    io'.NoEvents ∧ io'.tasks = io.tasks := by
  obtain ⟨_, rfl⟩ := growContext_ok_iff.mp hg
  have hresize := h.contextResize (fd * 3 / 2)
  have hrest := (fillNull_filled io 0 (resized io.m_fdContexts (fd * 3 / 2))).rest
  exact ⟨hresize.setContext (hresize p), hrest.tasks⟩

theorem locked (h : io.NoEvents) {k : Removal} {r : Outcome}
    (hk : k.locked io p fd = .ok (r, io')) : io' = io := by
  have htrigger : ∀ {e io₁}, io.triggerEvent p e ≠ .ok io₁ := by
    intro e io₁ ht
    have hhas := (triggerEvent_ok_iff.mp ht).1
    rw [h p e] at hhas
    cases hhas
  cases k with
  | delEvent e =>
    rcases delEventLocked_ok_iff.mp hk with ⟨_, _, heq⟩ | ⟨hhas, _⟩
    · exact heq
    · rw [h p e] at hhas
      cases hhas
  | cancelEvent e =>
    rcases cancelEventLocked_ok_iff.mp hk with ⟨_, _, heq⟩ | ⟨io₁, ht, _⟩
    · exact heq
    · exact absurd ht htrigger
  | cancelAll =>
    rcases cancelAllLocked_ok_iff.mp hk with ⟨_, _, heq⟩ | ⟨hne, _⟩
    · exact heq
    · obtain ⟨e, hhas⟩ := (EventMask.ne_NONE_iff _).mp hne
      rw [h p e] at hhas
      cases hhas

end NoEvents

end IOManager

namespace Shared

variable {sh sh' : Shared} {t : Tid} {pc pc' : Pc}

/-- The section of `addEvent` that the thread is about to run registers its event. -/
def Registers (sh : Shared) (pc : Pc) : Prop :=
  ∃ c op p io, pc = .addLocked c op p ∧ sh.io.addEventLocked op p c = .ok (.zero, io)

theorem RemoveSteps.noEvents {k : Removal} {cause : Cause} {fd : Nat} {at_ : RemovePc}
    {o : Option RemovePc} (h : RemoveSteps sh t k cause fd at_ sh' o) (hno : sh.io.NoEvents) :
    sh'.io = sh.io := by
  cases h with
  | locked hk => exact hno.locked hk
  | _ => rfl

/-- While nothing is registered, a step of the event API adds no task. -/
theorem Steps.noEvents (h : Steps sh t pc sh' pc') (hno : sh.io.NoEvents)
    (hreg : ¬ sh.Registers pc) : sh'.io.NoEvents ∧ sh'.io.tasks = sh.io.tasks := by
  cases h with
  | addGrow hg => exact hno.growContext hg
  | @addLocked c op p r io hl =>
    rcases IOManager.addEventLocked_ok_iff.mp hl with ⟨_, _, heq⟩ | ⟨_, _, _, _, hzero, _⟩
    · exact ⟨heq ▸ hno, congrArg IOManager.tasks heq⟩
    · exact absurd ⟨c, op, p, io, rfl, hzero ▸ hl⟩ hreg
  | removeStep hr | removeReturn hr | deleteStep hr | deleteReturn hr =>
    have hio := hr.noEvents hno
    exact ⟨hio ▸ hno, congrArg IOManager.tasks hio⟩
  | @idleTrigger p e es more io ht =>
    have hhas := (IOManager.handOver_ok_iff.mp ht).1
    rw [hno p e] at hhas
    cases hhas
  | @idleReset p e _ _ => exact ⟨hno.resetContext e, rfl⟩
  | _ => exact ⟨hno, rfl⟩

end Shared

theorem Threads.noEvents_of_exec {s s' : Threads} {a : Act} (h : s.exec a = .ok s')
    (hno : s.io.NoEvents) (hreg : ∀ t, a = .run t → ¬ s.toShared.Registers (s.pc t)) :
    s'.io.NoEvents ∧ s'.io.tasks = s.io.tasks := by
  cases a with
  | run t =>
    obtain ⟨sh, pc, hsteps, rfl⟩ := steps_of_run h
    exact hsteps.noEvents hno (hreg t rfl)
  | addEvent | remove | report =>
    obtain ⟨_, rfl⟩ := start_ok_iff.mp h
    exact ⟨hno, rfl⟩

/-- The step of the event API that a step of the pool is. -/
def PoolAct.api : PoolAct → Option Act
  | .event a => some a
  | .epoll_wait t reports => some (.report t reports)
  | _ => none

namespace PoolPc

/-- The thread is counted in `_activeThreadCount`. -/
def busy : PoolPc → Bool
  | starting _ | executing _ | returned => true
  | _ => false

/-- The thread has neither expired timers to deliver nor callbacks to queue. -/
def Clear (pc : PoolPc) : Prop := pc.cbs = [] ∧ pc.expired = []

end PoolPc

namespace Pool

def KeepsMutex (s : Pool) (a : PoolAct) : Prop :=
  ∀ b, a = .event b → s.toThreads.KeepsMutex b

/-- Nothing is left to be done. -/
structure Drained (s : Pool) : Prop where
  events : s.io.NoEvents
  timers : s.timers.m_timers = []
  expired : ∀ t, (s.loop t).expired = []
  vectors : ∀ t, (s.loop t).cbs = []
  queue : s._queue = []
  tasks : ∀ t q, s.loop t ≠ .starting q ∧ s.loop t ≠ .executing q

/-- The last read of a call of `stopping()` that returns true. -/
def StoppingTrue (m : Move Pool PoolAct) : Prop :=
  ∃ t k, m.act = .loop t ∧ m.pre.loop t = .readTimers k ∧ m.pre.counted = []

/-- The thread is between the reads of `stopping()`. -/
def Asking (s : Pool) (t : Tid) : Prop := ∃ k, s.loop t = .readQueue k ∨ s.loop t = .readTimers k

/-- The timers that the step takes out of the set to deliver them. -/
def taken (s : Pool) : PoolAct → List TimerPtr
  | .listExpiredCb _ c => (s.timers.takeExpired c).1
  | _ => []

/-- Each read of `stopping()` finds what it looks for in order, and what it has
found stays so until the last read. -/
structure Steady (s : Pool) (a : PoolAct) : Prop where
  counter : ∀ t k, a = .loop t → s.loop t = .readEvents k → s.io.m_pendingEventCount = 0 →
    s.io.NoEvents
  vectors : ∀ t k, a = .loop t → s.loop t = .readQueue k → s.schedulerStopping = true →
    ∀ u, (s.loop u).Clear
  registers : ∀ t, a = .event (.run t) → s.toShared.Registers (s.pc t) → ∀ u, ¬ s.Asking u
  takes : s.taken a ≠ [] → ∀ u k, s.loop u ≠ .readTimers k
  adds : ∀ t task, a = .add_task t task → ∀ u k, s.loop u ≠ .readTimers k
  inserts : ∀ t k, a = .loop t → s.loop t = .readTimers k → s.counted = [] → s.lifted = none
  release : s.KeepsMutex a

/-- What the first two reads of a call have found. -/
structure Quiet (s : Pool) : Prop where
  events : s.io.NoEvents
  queue : s._queue = []
  active : s._activeThreadCount = 0
  vectors : ∀ t, (s.loop t).Clear

structure ReadsOk (s : Pool) : Prop where
  active : Tally PoolPc.busy s.loop s._activeThreadCount
  events : ∀ t, s.Asking t → s.io.NoEvents
  quiet : ∀ t k, s.loop t = .readTimers k → s.Quiet

variable {s s' : Pool} {a : PoolAct} {t u : Tid} {pc : PoolPc}

theorem initial_readsOk (start : Millis) : (initial start).ReadsOk where
  active := .zero fun _ => rfl
  events := fun _ h => by
    obtain ⟨_, h | h⟩ := h <;> cases h
  quiet := fun _ _ h => by cases h

namespace ReadsOk

theorem moved (h : s.ReadsOk) (hio : s'.io = s.io) (hqueue : s'._queue = s._queue)
    (hactive : s'._activeThreadCount = s._activeThreadCount)
    (hloop : s'.loop = Function.update s.loop t pc) (hbusy : pc.busy = (s.loop t).busy)
    (hcbs : (∃ u k, s.loop u = .readTimers k) → pc.Clear)
    (hevents : ∀ k, pc = .readQueue k → s.io.NoEvents)
    (hquiet : ∀ k, pc = .readTimers k → s.Quiet ∧ pc.Clear) : s'.ReadsOk := by
  have hkeep : s.Quiet → pc.Clear → s'.Quiet := by
    intro hq hpc
    refine ⟨hio ▸ hq.events, hqueue.trans hq.queue, hactive.trans hq.active, fun u => ?_⟩
    rw [hloop]
    by_cases hu : u = t
    · subst u
      rw [Function.update_self]
      exact hpc
    · rw [Function.update_of_ne hu]
      exact hq.vectors u
  refine ⟨?_, fun u hu => ?_, fun u k hu => ?_⟩
  · rw [hloop, hactive]
    exact h.active.update_same hbusy
  · rw [hio]
    obtain ⟨k, hk⟩ := hu
    rw [hloop] at hk
    by_cases hut : u = t
    · subst u
      rw [Function.update_self] at hk
      rcases hk with hk | hk
      · exact hevents k hk
      · exact (hquiet k hk).1.events
    · rw [Function.update_of_ne hut] at hk
      exact h.events u ⟨k, hk⟩
  · rw [hloop] at hu
    by_cases hut : u = t
    · subst u
      rw [Function.update_self] at hu
      exact hkeep (hquiet k hu).1 (hquiet k hu).2
    · rw [Function.update_of_ne hut] at hu
      exact hkeep (h.quiet u k hu) (hcbs ⟨u, k, hu⟩)

/-- A thread moves to where it has no callbacks and is not between the reads. -/
theorem passes (h : s.ReadsOk) (hio : s'.io = s.io) (hqueue : s'._queue = s._queue)
    (hactive : s'._activeThreadCount = s._activeThreadCount)
    (hloop : s'.loop = Function.update s.loop t pc) (hbusy : pc.busy = (s.loop t).busy)
    (hcbs : pc.Clear) (hread : ∀ k, pc ≠ .readQueue k ∧ pc ≠ .readTimers k) : s'.ReadsOk :=
  h.moved hio hqueue hactive hloop hbusy (fun _ => hcbs) (fun k heq => absurd heq (hread k).1)
    (fun k heq => absurd heq (hread k).2)

/-- The queue or the counter changes while no thread has got to the last read. -/
theorem disturbed (h : s.ReadsOk) (hnone : ∀ u k, s.loop u ≠ .readTimers k) (hio : s'.io = s.io)
    (hactive : Tally PoolPc.busy s'.loop s'._activeThreadCount)
    (hloop : s'.loop = Function.update s.loop t pc)
    (hread : ∀ k, pc ≠ .readQueue k ∧ pc ≠ .readTimers k) : s'.ReadsOk := by
  have hother : ∀ u k, s'.loop u = .readQueue k ∨ s'.loop u = .readTimers k →
      s.loop u = .readQueue k := by
    intro u k hu
    rw [hloop] at hu
    by_cases hut : u = t
    · subst u
      rw [Function.update_self] at hu
      exact (hu.elim (hread k).1 (hread k).2).elim
    · rw [Function.update_of_ne hut] at hu
      exact hu.resolve_right (hnone u k)
  refine ⟨hactive, fun u hu => ?_, fun u k hu => ?_⟩
  · obtain ⟨k, hk⟩ := hu
    rw [hio]
    exact h.events u ⟨k, Or.inl (hother u k hk)⟩
  · have hqueue := hother u k (Or.inr hu)
    rw [hloop] at hu
    by_cases hut : u = t
    · subst u
      rw [Function.update_self] at hu
      exact absurd hu (hread k).2
    · rw [Function.update_of_ne hut] at hu
      exact absurd hu (hnone u k)

theorem answer (h : s.ReadsOk) (k : Asker) (b : Bool) (hbusy : (s.loop t).busy = false) :
    (s.answer t k b).ReadsOk := by
  cases k <;> cases b <;> exact h.passes rfl rfl rfl rfl hbusy.symm ⟨rfl, rfl⟩ (by simp)

/-- A thread that is counted, or has something left, shows that no thread has got to the
last read. -/
theorem none_last (h : s.ReadsOk) (hor : (s.loop t).busy = true ∨ ¬ (s.loop t).Clear) (u : Tid)
    (k : Asker) : s.loop u ≠ .readTimers k := by
  intro hu
  have hq := h.quiet u k hu
  rcases hor with hbusy | hcbs
  · have hfalse := (hq.active ▸ h.active).eq_false t
    rw [hbusy] at hfalse
    cases hfalse
  · exact hcbs (hq.vectors t)

theorem loop (h : s.ReadsOk) (hsteady : s.Steady (.loop t)) (hs : LoopStep s t s') :
    s'.ReadsOk := by
  cases hs with
  | found skipped q rest hpc hqueue hskip =>
    have hnone : ∀ u k, s.loop u ≠ .readTimers k := by
      intro u k hu
      rw [(h.quiet u k hu).queue] at hqueue
      cases skipped <;> cases hqueue
    have hactive := h.active.update_enters (i := t) (c := .starting q) (by rw [hpc]; rfl) rfl
    exact h.disturbed hnone rfl hactive rfl (by simp)
  | count hpc =>
    have hnone := h.none_last (t := t) (Or.inl (by rw [hpc]; rfl))
    have hactive := h.active.update_leaves (i := t) (c := .scan) (by rw [hpc]; rfl) rfl
    exact h.disturbed hnone rfl hactive rfl (by simp)
  | enqueue cb f cbs hpc =>
    have hnone := h.none_last (t := t) (Or.inr (by rw [hpc]; simp [PoolPc.Clear, PoolPc.cbs]))
    have hactive := h.active.update_same (i := t) (c := .enqueueing cbs) (by rw [hpc]; rfl)
    exact h.disturbed hnone rfl hactive rfl (by simp)
  | noEvents k hpc hzero =>
    have hno := hsteady.counter t k rfl hpc hzero
    exact h.moved rfl rfl rfl rfl (by rw [hpc]; rfl) (fun _ => ⟨rfl, rfl⟩) (fun _ _ => hno)
      (fun _ heq => by cases heq)
  | drained k hpc hstop =>
    have hvectors := hsteady.vectors t k rfl hpc hstop
    simp only [schedulerStopping, Bool.and_eq_true, List.isEmpty_iff, beq_iff_eq] at hstop
    have hq : s.Quiet := ⟨h.events t ⟨k, Or.inl hpc⟩, hstop.1.2, hstop.2, hvectors⟩
    exact h.moved rfl rfl rfl rfl (by rw [hpc]; rfl) (fun _ => ⟨rfl, rfl⟩)
      (fun _ heq => by cases heq) (fun _ _ => ⟨hq, rfl, rfl⟩)
  | yes k hpc => exact h.answer k true (by rw [hpc]; rfl)
  | no k hor =>
    apply h.answer k false
    rcases hor with hpc | hpc | hpc <;> rw [hpc] <;> rfl
  | delivered cbs hpc =>
    -- with callbacks in the vector no thread has got to the last read
    refine h.moved rfl rfl rfl rfl (by rw [hpc]; rfl) (fun hx => ?_) (fun _ heq => by cases heq)
      (fun _ heq => by cases heq)
    obtain ⟨u, k, hu⟩ := hx
    have hclear := (h.quiet u k hu).vectors t
    rw [hpc] at hclear
    exact hclear
  | nothing hpc | start q hpc | back q hpc _ | leave hpc | ask hpc | stop hpc | enqueued hpc
  | yield hpc _ => exact h.passes rfl rfl rfl rfl (by rw [hpc]; rfl) ⟨rfl, rfl⟩ (by simp)

theorem event (h : s.ReadsOk) {a : Act} {th : Threads} (hsteady : s.Steady (.event a))
    (hexec : s.toThreads.exec a = .ok th) :
    (pushAll { s with toThreads := th } (handed (th.io.tasks.drop s.io.tasks.length))).ReadsOk := by
  obtain ⟨hth, _, hloop, _, hactive, _⟩ := pushAll_frame { s with toThreads := th }
    (handed (th.io.tasks.drop s.io.tasks.length))
  have hasking : (∃ u, s.Asking u) → th.io.NoEvents ∧ th.io.tasks = s.io.tasks := by
    intro hx
    obtain ⟨u, hu⟩ := hx
    apply Threads.noEvents_of_exec hexec (h.events u hu)
    intro t ht hreg
    exact hsteady.registers t (congrArg PoolAct.event ht) hreg u hu
  refine ⟨?_, fun u hu => ?_, fun u k hu => ?_⟩
  · rw [hloop, hactive]
    exact h.active
  · rw [hth]
    unfold Asking at hu
    rw [hloop] at hu
    exact (hasking ⟨u, hu⟩).1
  · rw [hloop] at hu
    obtain ⟨hno, htasks⟩ := hasking ⟨u, k, Or.inr hu⟩
    have hq := h.quiet u k hu
    rw [htasks, List.drop_length]
    exact ⟨hno, hq.queue, hq.active, hq.vectors⟩

/-- An addition to the queue while no thread has got to the last read. -/
theorem push (h : s.ReadsOk) (hnone : ∀ u k, s.loop u ≠ .readTimers k) (f : Option Firing)
    (task : ScheduleTask) : (s.push f task).ReadsOk :=
  ⟨h.active, h.events, fun u k hu => absurd hu (hnone u k)⟩

theorem listExpiredCb (h : s.ReadsOk) (c : ExpireCall) (hsteady : s.Steady (.listExpiredCb t c))
    (hpc : s.loop t = .expiring) (hio : s'.io = s.io) (hqueue : s'._queue = s._queue)
    (hactive : s'._activeThreadCount = s._activeThreadCount)
    (hloop : s'.loop = Function.update s.loop t (.delivering [] (s.timers.takeExpired c).1)) :
    s'.ReadsOk := by
  refine h.moved hio hqueue hactive hloop (by rw [hpc]; rfl) (fun hx => ?_)
    (fun _ heq => by cases heq) (fun _ heq => by cases heq)
  obtain ⟨u, k, hu⟩ := hx
  refine ⟨rfl, ?_⟩
  by_contra hne
  exact hsteady.takes hne u k hu

theorem step (h : s.ReadsOk) (hsteady : s.Steady a) (hs : system.step s a s') : s'.ReadsOk := by
  cases stepped hs with
  | event a th _ _ _ hexec => exact h.event hsteady hexec
  | timer | lift | fiber => exact ⟨h.active, h.events, fun u k hu =>
      let hq := h.quiet u k hu
      ⟨hq.events, hq.queue, hq.active, hq.vectors⟩⟩
  | add_task t task => exact h.push (hsteady.adds t task rfl) none task
  | loop t hl => exact h.loop hsteady hl
  | epoll_wait t reports th hpc hexec =>
    obtain ⟨_, rfl⟩ := Threads.start_ok_iff.mp hexec
    exact h.passes rfl rfl rfl rfl (by rw [hpc]; rfl) ⟨rfl, rfl⟩ (by simp)
  | listExpiredCb t c hpc => exact h.listExpiredCb c hsteady hpc rfl rfl rfl rfl
  | deliver t now cbs i rest hpc =>
    have hnone := h.none_last (t := t) (Or.inr (by rw [hpc]; simp [PoolPc.Clear, PoolPc.expired]))
    have hactive := h.active.update_same (i := t)
      (c := .delivering (cbs ++ [((s.timers.heap i).m_cb, ⟨i, s.fired⟩)]) rest) (by rw [hpc]; rfl)
    exact h.disturbed hnone rfl hactive rfl (by simp)
  | enter t hpc | stop t hpc | epoll_again t hpc | epoll_failed t hpc | sawEmpty t c hpc =>
    exact h.passes rfl rfl rfl rfl (by rw [hpc]; rfl) ⟨rfl, rfl⟩ (by simp)

end ReadsOk

/-- What a step does in the event API. -/
theorem threads_step (hs : system.step s a s') :
    a.api = none ∧ s'.toThreads = s.toThreads ∨
      ∃ b, a.api = some b ∧ s.toThreads.Allowed b ∧ s.toThreads.exec b = .ok s'.toThreads := by
  cases stepped hs with
  | event b th _ _ hallowed hexec =>
    refine Or.inr ⟨b, rfl, hallowed, ?_⟩
    rw [(pushAll_frame _ _).1]
    exact hexec
  | epoll_wait t reports th _ hexec => exact Or.inr ⟨.report t reports, rfl, hs.1, hexec⟩
  | loop t hl =>
    have hsame : s'.toThreads = s.toThreads := by
      cases hl with
      | yes k => cases k <;> rfl
      | no k => cases k <;> rfl
      | _ => rfl
    exact Or.inl ⟨rfl, hsame⟩
  | _ => exact Or.inl ⟨rfl, rfl⟩

theorem ownersOk_step (h : s.OwnersOk) (hk : s.KeepsMutex a) (hs : system.step s a s') :
    s'.OwnersOk := by
  rcases threads_step hs with ⟨_, hsame⟩ | ⟨b, hb, _, hexec⟩
  · exact hsame ▸ h
  · refine Threads.OwnersOk.exec h (fun t p more hrun hpc => ?_) hexec
    subst hrun
    cases a with
    | event b =>
      cases hb
      exact hk _ rfl t p more rfl hpc
    | epoll_wait => cases hb
    | _ => cases hb

/-- While no dispatch frees a mutex that is held, sections of one context do not overlap. -/
theorem exclusive_of_run {start : Millis} {tr : List (Move Pool PoolAct)}
    (hr : Run system (initial start) tr s) (hk : ∀ m ∈ tr, m.pre.KeepsMutex m.act) :
    s.Exclusive :=
  (hr.invariant_of_guard (fun s : Pool => s.OwnersOk) KeepsMutex ownersOk_step
    Threads.initial_ownersOk hk).exclusive

/-- A timer that no thread has erased for the moment is counted. -/
theorem counted_of_none (h : s.lifted = none) : s.counted = s.timers.m_timers := by
  simp [counted, h]

/-- In a run whose steps are all steady, `stopping()` returns true only when
nothing is left to be done. -/
theorem stopping_drained {start : Millis} {tr : List (Move Pool PoolAct)}
    (hr : Run system (initial start) tr s) (hsteady : ∀ m ∈ tr, m.pre.Steady m.act)
    {m : Move Pool PoolAct} (hm : m ∈ tr) (htrue : StoppingTrue m) :
    m.pre.Drained ∧ m.pre.Exclusive := by
  have keeps : ∀ {s a s'}, ReadsOk s → s.Steady a → system.step s a s' → s'.ReadsOk :=
    fun h hsteady hs => h.step hsteady hs
  have h := (hr.invariant_at_of_guard ReadsOk Steady keeps (initial_readsOk start) hsteady hm).1
  obtain ⟨t, k, hact, hloop, htimers⟩ := htrue
  have hq := h.quiet t k hloop
  have hlifted := (hsteady m hm).inserts t k hact hloop htimers
  rw [counted_of_none hlifted] at htimers
  obtain ⟨before, after, rfl⟩ := List.append_of_mem hm
  have hexclusive : m.pre.Exclusive :=
    exclusive_of_run hr.split_at.1 fun x hx => (hsteady x (by simp [hx])).release
  refine ⟨⟨hq.events, htimers, fun u => (hq.vectors u).2, fun u => (hq.vectors u).1, hq.queue,
    fun u q => ?_⟩, hexclusive⟩
  have hidle := (hq.active ▸ h.active).eq_false u
  constructor <;> intro hu <;> rw [hu] at hidle <;> cases hidle

/-- Thread 1 waits in `idle`; thread 0 adds a timer, which expires, and calls
`stop`; thread 2 enters and asks `stopping()` while the callback is in the vector
of thread 1. -/
def stopDuringExpiry : List PoolAct :=
  [.timer 0 (.add_timer ⟨16, 5, some 7, false, 100⟩), .enter 1, .loop 1, .loop 1, .loop 1, .loop 1,
    .epoll_wait 1 [], .stop 0, .loop 0, .loop 0, .loop 0,
    .listExpiredCb 1 ⟨[], 105, false, 32, 105, []⟩, .deliver 1 105, .loop 1, .enter 2, .loop 2,
    .loop 2, .loop 2, .loop 2, .loop 2]

/-- Thread 0 adds a timer, calls `stop`, and then `refresh`; thread 1 enters and asks
`stopping()` while the timer is out of the set. -/
def stopDuringRefresh : List PoolAct :=
  [.timer 0 (.add_timer ⟨16, 5, some 7, false, 100⟩), .stop 0, .loop 0, .loop 0, .loop 0, .enter 1,
    .loop 1, .loop 1, .loop 1, .loop 1, .lift 0 0, .loop 1, .timer 0 (.refresh 0 102)]

theorem stopping_not_drained :
    (∃ tr s, Run system (initial 0) tr s ∧ tr.map Move.act = stopDuringExpiry ∧
      ∃ m ∈ tr, StoppingTrue m ∧ ¬ m.pre.Drained) ∧
    ∃ tr s, Run system (initial 0) tr s ∧ tr.map Move.act = stopDuringRefresh ∧
      s.timers.m_timers = [0] ∧ ∃ m ∈ tr, StoppingTrue m ∧ ¬ m.pre.Drained := by
  constructor
  · have hrun : (traceAll next (initial 0) stopDuringExpiry).map (fun r =>
        r.1[19]?.map fun m => decide (m.pre.loop 2 = .readTimers .idle ∧
          m.pre.counted = [] ∧ (m.pre.loop 1).cbs ≠ [])) = some (some true) := by
      decide +kernel
    obtain ⟨tr, s, hr, hacts, hobs⟩ := Run.exists_of_traceAll next next_sound _ hrun
    obtain ⟨m, hm, hobs⟩ := Option.map_eq_some_iff.mp hobs
    obtain ⟨hloop, htimers, hcbs⟩ := of_decide_eq_true hobs
    have hact := Option.some.inj (act_of_getElem hm hacts)
    exact ⟨tr, s, hr, hacts, m, List.mem_of_getElem? hm, ⟨2, .idle, hact.symm, hloop, htimers⟩,
      fun hdrained => hcbs (hdrained.vectors 1)⟩
  · have hrun : (traceAll next (initial 0) stopDuringRefresh).map (fun r =>
        (r.2.timers.m_timers, r.1[11]?.map fun m => decide (m.pre.loop 1 = .readTimers .idle ∧
          m.pre.counted = [] ∧ m.pre.timers.m_timers = [0]))) = some ([0], some true) := by
      decide +kernel
    obtain ⟨tr, s, hr, hacts, hobs⟩ := Run.exists_of_traceAll next next_sound _ hrun
    obtain ⟨hset, hobs⟩ := Prod.mk.inj hobs
    obtain ⟨m, hm, hobs⟩ := Option.map_eq_some_iff.mp hobs
    obtain ⟨hloop, hcounted, htimers⟩ := of_decide_eq_true hobs
    have hact := Option.some.inj (act_of_getElem hm hacts)
    refine ⟨tr, s, hr, hacts, hset, m, List.mem_of_getElem? hm,
      ⟨1, .idle, hact.symm, hloop, hcounted⟩, fun hdrained => ?_⟩
    cases htimers.symm.trans hdrained.timers

/-- No event is registered, no thread has expired timers or callbacks, and no timer is
erased for the moment. -/
structure Calm (s : Pool) : Prop where
  events : s.io.NoEvents
  vectors : ∀ t, (s.loop t).Clear
  lifted : s.lifted = none

namespace Calm

theorem moved (h : s.Calm) (hio : s'.io = s.io) (hlifted : s'.lifted = s.lifted)
    (hloop : s'.loop = Function.update s.loop t pc) (hpc : pc.Clear) : s'.Calm := by
  refine ⟨hio ▸ h.events, fun u => ?_, hlifted.trans h.lifted⟩
  rw [hloop]
  by_cases hu : u = t
  · subst u
    rw [Function.update_self]
    exact hpc
  · rw [Function.update_of_ne hu]
    exact h.vectors u

theorem loop (h : s.Calm) (hs : system.step s (.loop t) s') : s'.Calm := by
  cases stepped hs with
  | loop _ hl =>
    cases hl with
    | enqueue cb f cbs hpc =>
      have hnil := (h.vectors t).1
      rw [hpc] at hnil
      cases hnil
    | delivered cbs hpc =>
      have hclear := h.vectors t
      rw [hpc] at hclear
      have hpc' : (PoolPc.enqueueing cbs).Clear := hclear
      exact h.moved rfl rfl rfl hpc'
    | yes k | no k => cases k <;> exact h.moved rfl rfl rfl ⟨rfl, rfl⟩
    | _ => exact h.moved rfl rfl rfl ⟨rfl, rfl⟩

theorem steady (h : s.Calm) (ha : a = .loop t ∨ a = .stop t ∨ a = .enter t) : s.Steady a := by
  refine ⟨fun _ _ _ _ _ => h.events, fun _ _ _ _ _ => h.vectors, fun u heq => ?_,
    fun htaken => ?_, fun u task heq => ?_, fun _ _ _ _ _ => h.lifted, fun b heq => ?_⟩
  · rcases ha with rfl | rfl | rfl <;> cases heq
  · rcases ha with rfl | rfl | rfl <;> exact absurd rfl htaken
  · rcases ha with rfl | rfl | rfl <;> cases heq
  · rcases ha with rfl | rfl | rfl <;> cases heq

theorem step (h : s.Calm) (ha : a = .loop t ∨ a = .stop t ∨ a = .enter t)
    (hs : system.step s a s') : s'.Calm := by
  rcases ha with rfl | rfl | rfl
  · exact h.loop hs
  · cases stepped hs with
    | stop => exact h.moved rfl rfl rfl ⟨rfl, rfl⟩
  · cases stepped hs with
    | enter => exact h.moved rfl rfl rfl ⟨rfl, rfl⟩

theorem run_steady {tr : List (Move Pool PoolAct)} (h : s.Calm) (hr : Run system s tr s')
    (hplain : ∀ x ∈ tr, ∃ t, x.act = .loop t ∨ x.act = .stop t ∨ x.act = .enter t) :
    ∀ x ∈ tr, x.pre.Steady x.act := by
  have keeps : ∀ {s a s'}, Calm s → (∃ t, a = .loop t ∨ a = .stop t ∨ a = .enter t) →
      system.step s a s' → s'.Calm := by
    intro s a s' h ha hs
    obtain ⟨t, ht⟩ := ha
    exact h.step ht hs
  intro x hx
  obtain ⟨t, ht⟩ := hplain x hx
  exact (hr.invariant_at_of_guard Calm _ keeps h hplain hx).1.steady ht

end Calm

theorem initial_calm (start : Millis) : (initial start).Calm where
  events := by
    have hempty : IOManager.NoEvents ⟨fun _ => { m_fd := 0 }, 0, [], 0, fun _ => none, []⟩ :=
      fun _ => EventMask.has_NONE
    exact hempty.contextResize 32
  vectors := fun _ => ⟨rfl, rfl⟩
  lifted := rfl

/-- Thread 0 adds a task and calls `stop`; thread 1 enters, executes the task
and asks `stopping()`. -/
def stopAfterTask : List PoolAct :=
  [.add_task 0 (.ofCb 7 (-1)), .stop 0, .loop 0, .loop 0, .loop 0, .enter 1] ++
    List.replicate 9 (.loop 1)

theorem stopping_drained_after_task : ∃ tr s, Run system (initial 0) tr s ∧
    tr.map Move.act = stopAfterTask ∧
    ∃ m ∈ tr, StoppingTrue m ∧ m.pre.Drained ∧ m.pre.Exclusive := by
  have hrun : (traceAll next (initial 0) stopAfterTask).map (fun r =>
      r.1[14]?.map fun m => decide (m.pre.loop 1 = .readTimers .idle ∧
        m.pre.counted = [])) = some (some true) := by
    decide +kernel
  obtain ⟨tr, s, hr, hacts, hobs⟩ := Run.exists_of_traceAll next next_sound _ hrun
  obtain ⟨m, hm, hobs⟩ := Option.map_eq_some_iff.mp hobs
  obtain ⟨hloop, htimers⟩ := of_decide_eq_true hobs
  have hact := Option.some.inj (act_of_getElem hm hacts)
  have htrue : StoppingTrue m := ⟨1, .idle, hact.symm, hloop, htimers⟩
  have hmem := List.mem_of_getElem? hm
  refine ⟨tr, s, hr, hacts, m, hmem, htrue, stopping_drained hr ?_ hmem htrue⟩
  -- the task is added before any thread has entered, and the other steps are calm
  cases hr with
  | nil => cases hacts
  | @cons _ s₁ _ a rest hstep hrest =>
    obtain ⟨rfl, hacts'⟩ := List.cons.inj hacts
    have hcalm : s₁.Calm := by
      cases stepped hstep with
      | add_task => exact ⟨(initial_calm 0).events, (initial_calm 0).vectors, rfl⟩
    have hplain : ∀ x ∈ rest, ∃ t, x.act = .loop t ∨ x.act = .stop t ∨ x.act = .enter t := by
      intro x hx
      have hmem := List.mem_map_of_mem (f := Move.act) hx
      rw [hacts'] at hmem
      simp only [List.append_eq, List.mem_append, List.mem_cons, List.mem_replicate,
        List.not_mem_nil, or_false] at hmem
      rcases hmem with (h | h | h | h | h) | ⟨_, h⟩
      · exact ⟨0, Or.inr (Or.inl h)⟩
      · exact ⟨0, Or.inl h⟩
      · exact ⟨0, Or.inl h⟩
      · exact ⟨0, Or.inl h⟩
      · exact ⟨1, Or.inr (Or.inr h)⟩
      · exact ⟨1, Or.inl h⟩
    have hfirst : (initial 0).Steady (.add_task 0 (.ofCb 7 (-1))) :=
      ⟨fun _ _ heq => (by cases heq), fun _ _ heq => (by cases heq), fun _ heq => (by cases heq),
        fun htaken => absurd rfl htaken, fun _ _ _ _ _ hu => (by cases hu),
        fun _ _ _ _ _ => rfl, fun _ heq => by cases heq⟩
    intro x hx
    rcases List.mem_cons.mp hx with rfl | hx
    · exact hfirst
    · exact hcalm.run_steady hrest hplain x hx

end Pool

end FiberAsync
