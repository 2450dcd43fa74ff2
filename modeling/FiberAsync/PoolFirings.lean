import FiberAsync.Library.Pipeline
import FiberAsync.Pool

/-!
# The way of a copied callback

A copy is made under the write lock, waits in the vector of the thread that made
it, then in the queue, then in the hands of the thread that took it, and is
started: the threads of the pool are the workers of a pipeline of copies.
-/

namespace FiberAsync

set_option autoImplicit false

open Runs Pipelines TimerManager

namespace PoolPc

/-- The task that has been taken and not yet called. -/
def hand : PoolPc → Option QueuedTask
  | starting q => some q
  | _ => none

def cbs : PoolPc → List Expired
  | enqueueing cbs | delivering cbs _ => cbs
  | _ => []

/-- The timers that have been taken out of the set and not yet delivered. -/
def expired : PoolPc → List TimerPtr
  | delivering _ rest => rest
  | _ => []

/-- The thread is in the loop of `listExpiredCb`. -/
def delivers : PoolPc → Bool
  | delivering _ _ => true
  | _ => false

end PoolPc

namespace Pool

/-- The copies of callbacks among the tasks. -/
def copies (firing : Nat → Option Firing) (tasks : List QueuedTask) : List Firing :=
  tasks.filterMap fun q => firing q.number

def pipeline (s : Pool) : Pipeline Tid Firing where
  hand t := (s.loop t).hand.bind fun q => s.firing q.number
  queue := copies s.firing s._queue
  vector t := (s.loop t).cbs.map Prod.snd

/-- The timers that the thread with the write lock has still to deliver. -/
def expired (s : Pool) : List TimerPtr :=
  match s.writer with
  | some t => (s.loop t).expired
  | none => []

/-- The copy that the step starts. -/
def starts (s : Pool) : PoolAct → Option Firing
  | .loop t =>
    match s.loop t with
    | .starting q => s.firing q.number
    | _ => none
  | _ => none

/-- The copies that the step makes. -/
def copied (s : Pool) : PoolAct → List Firing
  | .deliver t _ =>
    match s.loop t with
    | .delivering _ (i :: _) => [⟨i, s.fired⟩]
    | _ => []
  | _ => []

/-- The numbers of the tasks on their way are used, copies are not pinned, and what
has been taken is a fiber or a callback. -/
structure TasksOk (s : Pool) : Prop where
  queued : ∀ q ∈ s._queue, q.number < s.added
  taken : ∀ t q, (s.loop t).hand = some q → q.number < s.added
  present : ∀ t q, (s.loop t).hand = some q → q.task.fiber.isSome ∨ q.task.cb.isSome
  unpinned : ∀ q ∈ s._queue, (s.firing q.number).isSome → q.task.thread = -1

variable {s s' : Pool} {a : PoolAct} {t u : Tid} {pc : PoolPc}

section Frames

variable (s : Pool)

theorem setLoop_self : (s.setLoop t pc).loop t = pc := Function.update_self _ _ _

theorem setLoop_of_ne (h : u ≠ t) : (s.setLoop t pc).loop u = s.loop u :=
  Function.update_of_ne h _ _

theorem pushAll_induct (P : Pool → Prop) (hpush : ∀ s task, P s → P (s.push none task))
    (tasks : List ScheduleTask) (hs : P s) : P (s.pushAll tasks) := by
  induction tasks generalizing s with
  | nil => exact hs
  | cons task tasks ih => exact ih _ (hpush s task hs)

theorem pushAll_frame (tasks : List ScheduleTask) :
    (s.pushAll tasks).toThreads = s.toThreads ∧ (s.pushAll tasks).timers = s.timers ∧
    (s.pushAll tasks).loop = s.loop ∧ (s.pushAll tasks).fired = s.fired ∧
    (s.pushAll tasks)._activeThreadCount = s._activeThreadCount ∧
    (s.pushAll tasks)._stopping = s._stopping ∧ (s.pushAll tasks).writer = s.writer :=
  s.pushAll_induct (fun s' => s'.toThreads = s.toThreads ∧ s'.timers = s.timers ∧
    s'.loop = s.loop ∧ s'.fired = s.fired ∧ s'._activeThreadCount = s._activeThreadCount ∧
    s'._stopping = s._stopping ∧ s'.writer = s.writer) (fun _ _ hs => hs) tasks
    ⟨rfl, rfl, rfl, rfl, rfl, rfl, rfl⟩

@[simp] theorem pushAll_timers (tasks : List ScheduleTask) :
    (s.pushAll tasks).timers = s.timers := (s.pushAll_frame tasks).2.1

@[simp] theorem pushAll_loop (tasks : List ScheduleTask) :
    (s.pushAll tasks).loop = s.loop := (s.pushAll_frame tasks).2.2.1

@[simp] theorem pushAll_fired (tasks : List ScheduleTask) :
    (s.pushAll tasks).fired = s.fired := (s.pushAll_frame tasks).2.2.2.1

end Frames

theorem initial_tasksOk (start : Millis) : (initial start).TasksOk where
  queued := fun _ h => by cases h
  taken := fun _ _ h => by cases h
  present := fun _ _ h => by cases h
  unpinned := fun _ h => by cases h

theorem present_of_passes {task : ScheduleTask} {ready : FiberId → Bool}
    (h : task.passes ready = true) : task.fiber.isSome ∨ task.cb.isSome := by
  unfold ScheduleTask.passes at h
  split at h
  case h_1 f hf =>
    rw [hf]
    exact Or.inl rfl
  case h_2 => exact Or.inr h

namespace TasksOk

theorem moved (h : s.TasksOk) (hq : s'._queue = s._queue) (ha : s'.added = s.added)
    (hf : s'.firing = s.firing) (hloop : s'.loop = Function.update s.loop t pc)
    (hpc : pc.hand = none) : s'.TasksOk := by
  have hhand : ∀ u q, (s'.loop u).hand = some q → (s.loop u).hand = some q := by
    intro u q hq
    rw [hloop] at hq
    by_cases hut : u = t
    · subst u
      rw [Function.update_self, hpc] at hq
      cases hq
    · rwa [Function.update_of_ne hut] at hq
  refine ⟨?_, ?_, fun u q hq => h.present u q (hhand u q hq), ?_⟩
  · rw [hq, ha]
    exact h.queued
  · intro u q hq
    rw [ha]
    exact h.taken u q (hhand u q hq)
  · rw [hq, hf]
    exact h.unpinned

theorem push (h : s.TasksOk) {f : Option Firing} {task : ScheduleTask}
    (hf : f.isSome → task.thread = -1) : (s.push f task).TasksOk := by
  refine ⟨fun q hq => ?_, fun u q hq => Nat.lt_succ_of_lt (h.taken u q hq), h.present,
    fun q hq hsome => ?_⟩
  · rcases List.mem_append.mp hq with hq | hq
    · exact Nat.lt_succ_of_lt (h.queued q hq)
    · rw [List.mem_singleton.mp hq]
      exact Nat.lt_succ_self _
  · change (Function.update s.firing s.added f q.number).isSome at hsome
    rcases List.mem_append.mp hq with hq | hq
    · rw [Function.update_of_ne (Nat.ne_of_lt (h.queued q hq))] at hsome
      exact h.unpinned q hq hsome
    · rw [List.mem_singleton.mp hq] at hsome ⊢
      rw [Function.update_self] at hsome
      exact hf hsome

theorem pushAll (h : s.TasksOk) (tasks : List ScheduleTask) : (s.pushAll tasks).TasksOk :=
  s.pushAll_induct TasksOk (fun _ _ hs => hs.push (by simp)) tasks h

theorem scan (h : s.TasksOk) {skipped rest : List QueuedTask} {q : QueuedTask}
    (hq : s._queue = skipped ++ q :: rest) (hpasses : q.task.passes s.readyFiber = true) :
    TasksOk { s.setLoop t (.starting q) with
      _queue := skipped ++ rest, _activeThreadCount := s._activeThreadCount + 1 } := by
  have hsub : ∀ x ∈ skipped ++ rest, x ∈ s._queue := by
    intro x hx
    rw [hq]
    exact (List.sublist_cons_self q rest).append_left skipped |>.mem hx
  have hhand : ∀ u x, ((s.setLoop t (.starting q)).loop u).hand = some x →
      x = q ∨ (s.loop u).hand = some x := by
    intro u x hx
    by_cases hut : u = t
    · subst u
      rw [setLoop_self] at hx
      cases hx
      exact Or.inl rfl
    · rw [setLoop_of_ne s hut] at hx
      exact Or.inr hx
  refine ⟨fun x hx => h.queued x (hsub x hx), fun u x hx => ?_, fun u x hx => ?_,
    fun x hx => h.unpinned x (hsub x hx)⟩
  · rcases hhand u x hx with rfl | hx
    · exact h.queued x (by simp [hq])
    · exact h.taken u x hx
  · rcases hhand u x hx with rfl | hx
    · exact present_of_passes hpasses
    · exact h.present u x hx

theorem answer (h : s.TasksOk) (k : Asker) (b : Bool) : (s.answer t k b).TasksOk := by
  cases k <;> cases b <;> exact h.moved rfl rfl rfl rfl rfl

theorem loop (h : s.TasksOk) (hs : LoopStep s t s') : s'.TasksOk := by
  cases hs with
  | found skipped q rest _ hqueue _ hpasses => exact h.scan hqueue hpasses
  | yes k | no k => exact h.answer k _
  | enqueue cb f cbs =>
    have hmoved : (s.setLoop t (.enqueueing cbs)).TasksOk := h.moved rfl rfl rfl rfl rfl
    exact hmoved.push (fun _ => rfl)
  | _ => exact h.moved rfl rfl rfl rfl rfl

theorem step (h : s.TasksOk) (hs : system.step s a s') : s'.TasksOk := by
  cases stepped hs with
  | event a th =>
    have hth : TasksOk { s with toThreads := th } := ⟨h.queued, h.taken, h.present, h.unpinned⟩
    exact hth.pushAll _
  | timer t op m | lift t i | fiber t f ready => exact ⟨h.queued, h.taken, h.present, h.unpinned⟩
  | add_task t task => exact h.push (by simp)
  | loop t hl => exact h.loop hl
  | epoll_failed t => exact h.answer .idle true
  | _ => exact h.moved rfl rfl rfl rfl rfl

end TasksOk

theorem copies_update {f : Option Firing} {n : Nat} {l : List QueuedTask}
    (h : ∀ q ∈ l, q.number < n) : copies (Function.update s.firing n f) l = copies s.firing l := by
  apply List.filterMap_congr
  exact fun q hq => Function.update_of_ne (Nat.ne_of_lt (h q hq)) _ _

theorem pipeline_push (h : s.TasksOk) (f : Option Firing) (task : ScheduleTask) :
    (s.push f task).pipeline =
      { s.pipeline with queue := s.pipeline.queue ++ f.toList } := by
  have hhand : (s.push f task).pipeline.hand = s.pipeline.hand := by
    funext u
    apply Option.bind_congr
    exact fun q hq => Function.update_of_ne (Nat.ne_of_lt (h.taken u q hq)) _ _
  have hqueue : (s.push f task).pipeline.queue = s.pipeline.queue ++ f.toList := by
    change copies (Function.update s.firing s.added f) (s._queue ++ [⟨s.added, task⟩]) = _
    have hlast : copies (Function.update s.firing s.added f) [⟨s.added, task⟩] = f.toList := by
      unfold copies
      rw [List.filterMap_cons, Function.update_self]
      cases f <;> rfl
    rw [copies, List.filterMap_append, ← copies, ← copies, copies_update h.queued, hlast]
    rfl
  change Pipeline.mk _ (s.push f task).pipeline.queue s.pipeline.vector = _
  rw [hqueue]
  exact congrArg (Pipeline.mk · _ _) hhand

theorem pipeline_pushAll (h : s.TasksOk) (tasks : List ScheduleTask) :
    (s.pushAll tasks).pipeline = s.pipeline := by
  have hall := s.pushAll_induct (fun s' => s'.TasksOk ∧ s'.pipeline = s.pipeline)
    (fun s' task hs => by
      refine ⟨hs.1.push (by simp), ?_⟩
      rw [pipeline_push hs.1, ← hs.2]
      exact congrArg (Pipeline.mk _ · _) (List.append_nil _)) tasks ⟨h, rfl⟩
  exact hall.2

theorem pipeline_update (pc : PoolPc) (hf : s'.firing = s.firing)
    (hloop : s'.loop = Function.update s.loop t pc) :
    s'.pipeline = ⟨Function.update s.pipeline.hand t (pc.hand.bind fun q => s.firing q.number),
      copies s.firing s'._queue, Function.update s.pipeline.vector t (pc.cbs.map Prod.snd)⟩ := by
  have hpoint : ∀ {β : Type} (g : PoolPc → β), (fun u => g (s'.loop u)) =
      Function.update (fun u => g (s.loop u)) t (g pc) := by
    intro β g
    funext u
    rw [hloop]
    by_cases hut : u = t
    · subst u
      rw [Function.update_self, Function.update_self]
    · rw [Function.update_of_ne hut, Function.update_of_ne hut]
  unfold pipeline
  rw [hf]
  congr 1
  · exact hpoint fun pc => pc.hand.bind fun q => s.firing q.number
  · exact hpoint fun pc => pc.cbs.map Prod.snd

theorem pipeline_moved (pc : PoolPc) (hq : s'._queue = s._queue) (hf : s'.firing = s.firing)
    (hloop : s'.loop = Function.update s.loop t pc) (hhand : pc.hand = (s.loop t).hand)
    (hcbs : pc.cbs = (s.loop t).cbs) : s'.pipeline = s.pipeline := by
  rw [pipeline_update pc hf hloop, hq, hhand, hcbs]
  exact congrArg₂ (Pipeline.mk · _ ·) (Function.update_eq_self t _) (Function.update_eq_self t _)

theorem pipeline_give (pc : PoolPc) (hf : s'.firing = s.firing)
    (hloop : s'.loop = Function.update s.loop t pc) (hcbs : pc.cbs = (s.loop t).cbs) : s'.pipeline =
      s.pipeline.give t (pc.hand.bind fun q => s.firing q.number)
        (copies s.firing s'._queue) := by
  rw [pipeline_update pc hf hloop, hcbs]
  exact congrArg (Pipeline.mk _ _) (Function.update_eq_self t _)

theorem pipeline_fill (pc : PoolPc) (hf : s'.firing = s.firing)
    (hloop : s'.loop = Function.update s.loop t pc) (hhand : pc.hand = (s.loop t).hand) :
    s'.pipeline = s.pipeline.fill t (pc.cbs.map Prod.snd) (copies s.firing s'._queue) := by
  rw [pipeline_update pc hf hloop, hhand]
  exact congrArg (Pipeline.mk · _ _) (Function.update_eq_self t _)

theorem starts_of_ne (hpc : s.loop t = pc) (hne : ∀ q, pc ≠ .starting q) :
    s.starts (.loop t) = none := by
  unfold starts
  dsimp only
  split
  · rename_i q heq
    exact absurd (hpc.symm.trans heq) (hne q)
  · rfl

/-- The copies that a scan skips: there are none, because it skips pinned tasks. -/
theorem copies_skipped (h : s.TasksOk) {skipped rest : List QueuedTask} {q : QueuedTask}
    (hq : s._queue = skipped ++ q :: rest) (hskip : ∀ x ∈ skipped, x.eligible t = false) :
    copies s.firing skipped = [] := by
  apply List.filterMap_eq_nil_iff.mpr
  intro x hx
  rw [← Option.not_isSome_iff_eq_none]
  intro hsome
  have hpin := h.unpinned x (by simp [hq, hx]) hsome
  have hnot := hskip x hx
  simp [QueuedTask.eligible, hpin] at hnot

theorem stay_of_moved (pc : PoolPc) (hloop : s'.loop = Function.update s.loop t pc)
    (hq : s'._queue = s._queue) (hf : s'.firing = s.firing) (hhand : pc.hand = (s.loop t).hand)
    (hcbs : pc.cbs = (s.loop t).cbs) : Step u s.pipeline none [] s'.pipeline := by
  rw [pipeline_moved pc hq hf hloop hhand hcbs]
  exact .stay

theorem stay_of_answer (k : Asker) (b : Bool) (hhand : (s.loop t).hand = none)
    (hcbs : (s.loop t).cbs = []) : Step u s.pipeline none [] (s.answer t k b).pipeline := by
  cases k <;> cases b
  · exact stay_of_moved .waiting rfl rfl rfl hhand.symm hcbs.symm
  · exact stay_of_moved .scan rfl rfl rfl hhand.symm hcbs.symm
  · exact stay_of_moved .stopping rfl rfl rfl hhand.symm hcbs.symm
  · exact stay_of_moved .outside rfl rfl rfl hhand.symm hcbs.symm

theorem pipeline_loop (h : s.TasksOk) (hs : LoopStep s t s') :
    Step t s.pipeline (s.starts (.loop t)) [] s'.pipeline := by
  cases hs with
  | found skipped q rest hpc hqueue hskip _ =>
    have hcopies : s.pipeline.queue =
        (s.firing q.number).toList ++ copies s.firing (skipped ++ rest) := by
      have hnone := copies_skipped h hqueue hskip
      change copies s.firing s._queue = _
      unfold copies at hnone ⊢
      rw [hqueue, List.filterMap_append, List.filterMap_append, hnone, List.filterMap_cons]
      cases s.firing q.number <;> rfl
    have hhand : s.pipeline.hand t = none := by
      change (s.loop t).hand.bind _ = none
      rw [hpc]
      rfl
    rw [starts_of_ne hpc (by simp)]
    exact Step.of_eq (.take hhand hcopies) (pipeline_give (.starting q) rfl rfl (by rw [hpc]; rfl))
  | start q hpc =>
    have hhand : s.pipeline.hand t = s.starts (.loop t) := by
      change (s.loop t).hand.bind _ = _
      simp only [starts, hpc]
      rfl
    exact Step.of_eq (.start hhand) (pipeline_give (.executing q) rfl rfl (by rw [hpc]; rfl))
  | enqueue cb f cbs hpc =>
    have hmoved : (s.setLoop t (.enqueueing cbs)).TasksOk := h.moved rfl rfl rfl rfl rfl
    have hvector : s.pipeline.vector t = f :: cbs.map Prod.snd := by
      change (s.loop t).cbs.map Prod.snd = _
      rw [hpc]
      rfl
    have hfill : (s.setLoop t (.enqueueing cbs)).pipeline =
        s.pipeline.fill t (cbs.map Prod.snd) s.pipeline.queue :=
      pipeline_fill (.enqueueing cbs) rfl rfl (by rw [hpc]; rfl)
    rw [starts_of_ne hpc (by simp), pipeline_push hmoved, hfill]
    exact .enqueue hvector
  | yes k hpc =>
    rw [starts_of_ne hpc (by simp)]
    exact stay_of_answer k true (by rw [hpc]; rfl) (by rw [hpc]; rfl)
  | no k hor =>
    have hnone : s.starts (.loop t) = none ∧ (s.loop t).hand = none ∧ (s.loop t).cbs = [] := by
      rcases hor with hpc | hpc | hpc <;>
        exact ⟨starts_of_ne hpc (by simp), by rw [hpc]; rfl, by rw [hpc]; rfl⟩
    rw [hnone.1]
    exact stay_of_answer k false hnone.2.1 hnone.2.2
  | nothing hpc | back q hpc | count hpc | leave hpc | ask hpc | noEvents k hpc | drained k hpc
  | stop hpc | delivered cbs hpc | enqueued hpc | yield hpc =>
    rw [starts_of_ne hpc (by simp)]
    exact stay_of_moved _ rfl rfl rfl (by rw [hpc]; rfl) (by rw [hpc]; rfl)

theorem copied_deliver {now : Millis} {cbs : List Expired} {i : TimerPtr} {rest : List TimerPtr}
    (hpc : s.loop t = .delivering cbs (i :: rest)) :
    s.copied (.deliver t now) = [⟨i, s.fired⟩] := by
  simp only [copied, hpc]

theorem pipeline_step (h : s.TasksOk) (hs : system.step s a s') :
    Step a.tid s.pipeline (s.starts a) (s.copied a) s'.pipeline := by
  cases stepped hs with
  | event a th =>
    have hth : TasksOk { s with toThreads := th } := ⟨h.queued, h.taken, h.present, h.unpinned⟩
    rw [pipeline_pushAll hth]
    exact .stay
  | timer t op m | lift t i | fiber t f ready => exact .stay
  | add_task t task =>
    have hsame : (s.push none task).pipeline = s.pipeline := by
      rw [pipeline_push h]
      exact congrArg (Pipeline.mk _ · _) (List.append_nil _)
    rw [hsame]
    exact .stay
  | loop t hl => exact pipeline_loop h hl
  | deliver t now cbs i rest hpc =>
    have hvector : (cbs ++ [((s.timers.heap i).m_cb, (⟨i, s.fired⟩ : Firing))]).map Prod.snd =
        s.pipeline.vector t ++ [(⟨i, s.fired⟩ : Firing)] := by
      change _ = (s.loop t).cbs.map Prod.snd ++ _
      rw [hpc, List.map_append]
      rfl
    rw [copied_deliver hpc]
    refine Step.of_eq .make ?_
    change _ = s.pipeline.fill t (s.pipeline.vector t ++ _) s.pipeline.queue
    rw [← hvector]
    exact pipeline_fill (.delivering _ rest) rfl rfl (by rw [hpc]; rfl)
  | enter t hpc | stop t hpc | epoll_wait t reports th hpc | epoll_again t hpc
  | epoll_failed t hpc | sawEmpty t c hpc | listExpiredCb t c hpc =>
    exact stay_of_moved _ rfl rfl rfl (by rw [hpc]; rfl) (by rw [hpc]; rfl)

end Pool

end FiberAsync
