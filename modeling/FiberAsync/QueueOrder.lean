import FiberAsync.SchedulerDrain

/-!
# The order in which tasks leave the queue

The queue of `Scheduler` by itself, with any threads adding tasks and scanning
it. Whether a scan may take a task depends only on the thread it is pinned to,
so the tasks pinned to one thread leave in the order in which they came, and so
do the unpinned ones.
-/

namespace FiberAsync

set_option autoImplicit false

open Runs

/-- Pinned to the thread, or unpinned if that is -1. -/
def QueuedTask.pinnedTo (thread : Int) (q : QueuedTask) : Bool := q.task.thread = thread

theorem QueuedTask.eligible_of_pinnedTo {thread tid : Int} {q : QueuedTask}
    (h : q.pinnedTo thread = true) : q.eligible tid = decide (thread = -1 ∨ thread = tid) := by
  unfold eligible
  rw [of_decide_eq_true h]

structure TaskQueue where
  _queue : List QueuedTask
  added : Nat
  deriving DecidableEq

namespace TaskQueue

inductive Act where
  | add_task (task : ScheduleTask)
  /-- the section of `run` under the mutex, on the thread `tid`; `ready` are the
  fibers whose state is `READY` then -/
  | dequeue (tid : Int) (ready : FiberId → Bool)

def initial : TaskQueue := ⟨[], 0⟩

/-- A failed assertion ends the process. -/
def next (s : TaskQueue) : Act → Option TaskQueue
  | .add_task task => some ⟨(add_task_nolock s._queue ⟨s.added, task⟩).2, s.added + 1⟩
  | .dequeue tid ready =>
    let r := scan tid s._queue
    if r.task.all (fun q => q.task.passes ready) then some { s with _queue := r.queue } else none

def system : System TaskQueue Act where
  init s := s = initial
  step s a s' := s.next a = some s'

/-- The task that a step takes out of the queue. -/
def dequeued (m : Move TaskQueue Act) : Option QueuedTask :=
  match m.act with
  | .dequeue tid _ => (scan tid m.pre._queue).task
  | .add_task _ => none

/-- The task that a step puts into the queue. -/
def queued (m : Move TaskQueue Act) : Option QueuedTask :=
  match m.act with
  | .dequeue _ _ => none
  | .add_task task => some ⟨m.pre.added, task⟩

variable {s s' : TaskQueue} {tid : Int} {tr : List (Move TaskQueue Act)}

inductive Stepped (s : TaskQueue) : Act → TaskQueue → Prop where
  | add_task (task : ScheduleTask) :
      Stepped s (.add_task task) ⟨s._queue ++ [⟨s.added, task⟩], s.added + 1⟩
  | found (tid : Int) (ready : FiberId → Bool) (skipped : List QueuedTask) (q : QueuedTask)
      (rest : List QueuedTask) : s._queue = skipped ++ q :: rest →
      (∀ x ∈ skipped, x.eligible tid = false) → q.eligible tid = true →
      scan tid s._queue = ⟨some q, skipped ++ rest, !(skipped ++ rest).isEmpty⟩ →
      Stepped s (.dequeue tid ready) { s with _queue := skipped ++ rest }
  | nothing (tid : Int) (ready : FiberId → Bool) : (∀ x ∈ s._queue, x.eligible tid = false) →
      scan tid s._queue = ⟨none, s._queue, !s._queue.isEmpty⟩ →
      Stepped s (.dequeue tid ready) s

theorem stepped {a : Act} (h : s.next a = some s') : Stepped s a s' := by
  cases a with
  | add_task task =>
    cases h
    exact .add_task task
  | dequeue tid ready =>
    obtain ⟨_, heq⟩ := Option.ite_none_right_eq_some.mp h
    cases heq
    have hscan := scanned tid s._queue
    generalize hr : scan tid s._queue = r at hscan
    cases hscan with
    | found skipped q rest hqueue hskip hq =>
      exact .found tid ready skipped q rest hqueue hskip hq hr
    | nothing hskip => exact .nothing tid ready hskip hr

/-- The queue is in the order of the `add_task` calls. -/
structure Numbered (s : TaskQueue) : Prop where
  sorted : s._queue.Pairwise fun q q' => q.number < q'.number
  below : ∀ q ∈ s._queue, q.number < s.added

theorem Numbered.step {a : Act} (hs : s.Numbered) (h : s.next a = some s') : s'.Numbered := by
  cases stepped h with
  | add_task task =>
    constructor
    · refine List.pairwise_append.mpr ⟨hs.sorted, List.pairwise_singleton _ _, ?_⟩
      intro q hq q' hq'
      rw [List.mem_singleton.mp hq']
      exact hs.below q hq
    · intro q hq
      rcases List.mem_append.mp hq with hq | hq
      · exact Nat.lt_succ_of_lt (hs.below q hq)
      · rw [List.mem_singleton.mp hq]
        exact Nat.lt_succ_self _
  | found tid ready skipped q rest hqueue _ _ _ =>
    have hsub : (skipped ++ rest).Sublist s._queue := by
      rw [hqueue]
      exact (List.sublist_cons_self q rest).append_left skipped
    exact ⟨hs.sorted.sublist hsub, fun x hx => hs.below x (hsub.subset hx)⟩
  | nothing => exact hs

/-- What a scan by the thread `tid` does: it takes the oldest task that is
unpinned or pinned to the thread, leaves the others as they are, and asks for a
tickle exactly when it leaves any. -/
structure DequeueOk (tid : Int) (m : Move TaskQueue Act) : Prop where
  pinned : ∀ q, dequeued m = some q → q.task.thread ≠ -1 → q.task.thread = tid
  oldest : ∀ q, dequeued m = some q → q.eligible tid = true ∧
    ∀ x ∈ m.pre._queue, x.eligible tid = true → q.number ≤ x.number
  rest : ∀ q, dequeued m = some q → ∃ before after, m.pre._queue = before ++ q :: after ∧
    m.post._queue = before ++ after
  nothing : dequeued m = none → m.post._queue = m.pre._queue ∧
    ∀ x ∈ m.pre._queue, x.eligible tid = false
  tickles : (scan tid m.pre._queue).tickle_me = true ↔ m.post._queue ≠ []

theorem tickles_iff (l : List QueuedTask) : (!l.isEmpty) = true ↔ l ≠ [] := by simp

theorem Numbered.dequeueOk {ready : FiberId → Bool} (hs : s.Numbered)
    (h : s.next (.dequeue tid ready) = some s') : DequeueOk tid ⟨s, .dequeue tid ready, s'⟩ := by
  cases stepped h with
  | found _ _ skipped q rest hqueue hskip hq hscan =>
    have htaken : dequeued ⟨s, .dequeue tid ready, { s with _queue := skipped ++ rest }⟩ =
        some q := congrArg Scan.task hscan
    have hself : ∀ x, dequeued ⟨s, .dequeue tid ready, { s with _queue := skipped ++ rest }⟩ =
        some x → x = q := fun x hx => Option.some.inj (hx.symm.trans htaken)
    constructor
    · intro x hx hpin
      obtain rfl := hself x hx
      exact (of_decide_eq_true hq).resolve_left hpin
    · intro x hx
      obtain rfl := hself x hx
      refine ⟨hq, fun y hy hey => ?_⟩
      have hsorted := hs.sorted
      rw [hqueue] at hy hsorted
      rcases List.mem_append.mp hy with hy | hy
      · rw [hskip y hy] at hey
        cases hey
      · rcases List.mem_cons.mp hy with rfl | hy
        · exact le_rfl
        · have hafter := (List.pairwise_cons.mp (List.pairwise_append.mp hsorted).2.1).1
          exact (hafter y hy).le
    · intro x hx
      obtain rfl := hself x hx
      exact ⟨skipped, rest, hqueue, rfl⟩
    · intro hnone
      rw [htaken] at hnone
      cases hnone
    · rw [hscan]
      exact tickles_iff _
  | nothing _ _ hskip hscan =>
    have htaken : dequeued ⟨s, .dequeue tid ready, s⟩ = none := congrArg Scan.task hscan
    have hself : ∀ x, dequeued ⟨s, .dequeue tid ready, s⟩ ≠ some x := by simp [htaken]
    constructor
    · exact fun x hx => absurd hx (hself x)
    · exact fun x hx => absurd hx (hself x)
    · exact fun x hx => absurd hx (hself x)
    · exact fun _ => ⟨rfl, hskip⟩
    · rw [hscan]
      exact tickles_iff _

/-- One step moves the tasks pinned to a thread through the queue first in, first out. -/
theorem step_fifo {a : Act} (h : s.next a = some s') (thread : Int) :
    s._queue.filter (QueuedTask.pinnedTo thread) ++
        (queued ⟨s, a, s'⟩).toList.filter (QueuedTask.pinnedTo thread) =
      (dequeued ⟨s, a, s'⟩).toList.filter (QueuedTask.pinnedTo thread) ++
        s'._queue.filter (QueuedTask.pinnedTo thread) := by
  cases stepped h with
  | add_task task =>
    simp only [queued, dequeued, Option.toList_some, Option.toList_none, List.filter_nil,
      List.nil_append, List.filter_append]
  | found tid ready skipped q rest hqueue hskip hq hscan =>
    have htaken : dequeued ⟨s, .dequeue tid ready, { s with _queue := skipped ++ rest }⟩ =
        some q := congrArg Scan.task hscan
    simp only [htaken, queued, Option.toList_some, Option.toList_none, List.filter_nil,
      List.append_nil, hqueue, List.filter_append, List.filter_cons]
    cases hpin : q.pinnedTo thread with
    | false => simp
    | true =>
      -- the tasks before it are pinned to other threads
      have hbefore : skipped.filter (QueuedTask.pinnedTo thread) = [] := by
        apply List.filter_eq_nil_iff.mpr
        intro x hx hpinx
        have helig := hskip x hx
        rw [QueuedTask.eligible_of_pinnedTo hpinx,
          ← QueuedTask.eligible_of_pinnedTo hpin, hq] at helig
        cases helig
      simp [hbefore]
  | nothing tid ready hskip hscan =>
    have htaken : dequeued ⟨s, .dequeue tid ready, s⟩ = none := congrArg Scan.task hscan
    simp [htaken, queued]

theorem run_fifo (h : Run system s tr s') (thread : Int) :
    s._queue.filter (QueuedTask.pinnedTo thread) ++
        (tr.filterMap queued).filter (QueuedTask.pinnedTo thread) =
      (tr.filterMap dequeued).filter (QueuedTask.pinnedTo thread) ++
        s'._queue.filter (QueuedTask.pinnedTo thread) := by
  induction h with
  | nil => simp
  | @cons s t u a tr hstep _ ih =>
    have hsplit : ∀ f : Move TaskQueue Act → Option QueuedTask,
        (List.filterMap f (⟨s, a, t⟩ :: tr)) = (f ⟨s, a, t⟩).toList ++ tr.filterMap f := by
      intro f
      rw [List.filterMap_cons]
      cases f ⟨s, a, t⟩ <;> rfl
    rw [hsplit, hsplit, List.filter_append, List.filter_append, ← List.append_assoc,
      step_fifo hstep thread, List.append_assoc, List.append_assoc, ih]

/-- Every scan of a run takes the oldest task it may take, and of the tasks that
are unpinned, or pinned to one thread, those taken so far, followed by those
still queued, are those added so far in the order of the calls. -/
theorem dequeue_order (h : Run system initial tr s) :
    (∀ m ∈ tr, ∀ tid ready, m.act = .dequeue tid ready → DequeueOk tid m) ∧
    ∀ thread, (tr.filterMap dequeued).filter (QueuedTask.pinnedTo thread) ++
        s._queue.filter (QueuedTask.pinnedTo thread) =
      (tr.filterMap queued).filter (QueuedTask.pinnedTo thread) := by
  have hstart : initial.Numbered := ⟨.nil, fun _ hq => by cases hq⟩
  constructor
  · intro m hm tid ready hact
    have hpre := (h.invariant_at Numbered (fun hs hstep => hs.step hstep) hstart hm).1
    obtain ⟨pre, act, post⟩ := m
    cases hact
    exact hpre.dequeueOk (h.step_of_mem hm)
  · intro thread
    exact (run_fifo h thread).symm

/-- Tasks for two threads and for any, and scans by both threads. -/
def mixed : List Act :=
  [.add_task (.ofCb 0 7), .add_task (.ofCb 1 (-1)), .add_task (.ofFiber (some 4) 7),
    .dequeue 8 (fun _ => true), .add_task (.ofCb 2 (-1)), .dequeue 7 (fun f => f = 4),
    .dequeue 7 (fun f => f = 4), .dequeue 9 (fun _ => false), .dequeue 8 (fun _ => true)]

theorem dequeue_order_mixed : ∃ tr s, Run system initial tr s ∧
    (tr.filterMap dequeued).map QueuedTask.number = [1, 0, 2, 3] ∧
    (∀ m ∈ tr, ∀ tid ready, m.act = .dequeue tid ready → DequeueOk tid m) ∧
    ∀ thread, (tr.filterMap dequeued).filter (QueuedTask.pinnedTo thread) ++
        s._queue.filter (QueuedTask.pinnedTo thread) =
      (tr.filterMap queued).filter (QueuedTask.pinnedTo thread) := by
  have hrun : (traceAll next initial mixed).map
      (fun r => (r.1.filterMap dequeued).map QueuedTask.number) = some [1, 0, 2, 3] := by
    decide +kernel
  obtain ⟨tr, s, hr, _, hobs⟩ := Run.exists_of_traceAll next (S := system) (fun h => h) _ hrun
  exact ⟨tr, s, hr, hobs, dequeue_order hr⟩

end TaskQueue

namespace Scheduler

variable {τ : Type} [DecidableEq τ] {tid : τ → Int} {s s' : Scheduler τ}

def taskQueue (s : Scheduler τ) : TaskQueue := ⟨s._queue, s.added⟩

/-- Only callbacks are queued. -/
def CallbacksOnly (s : Scheduler τ) : Prop :=
  ∀ q ∈ s._queue, q.task.fiber = none ∧ q.task.cb.isSome = true

theorem queue_step {a : Act τ} (hs : s.CallbacksOnly) (h : s.next tid a = some s') :
    s'.CallbacksOnly ∧ (s'.taskQueue = s.taskQueue ∨
      ∃ b, s.taskQueue.next b = some s'.taskQueue) := by
  have hadd : ∀ cb thread, (s.add_task cb thread).CallbacksOnly ∧
      s.taskQueue.next (.add_task (.ofCb cb thread)) = some (s.add_task cb thread).taskQueue := by
    intro cb thread
    refine ⟨fun q hq => ?_, rfl⟩
    rcases List.mem_append.mp hq with hq | hq
    · exact hs q hq
    · rw [List.mem_singleton.mp hq]
      exact ⟨rfl, rfl⟩
  cases a with
  | add_task cb thread =>
    obtain ⟨_, heq⟩ := Option.ite_none_left_eq_some.mp h
    cases heq
    exact ⟨(hadd cb thread).1, Or.inr ⟨_, (hadd cb thread).2⟩⟩
  | stop =>
    cases h
    exact ⟨hs, Or.inl rfl⟩
  | spawn l cb thread =>
    simp only [next] at h
    split at h
    case h_1 q hpc =>
      cases h
      exact ⟨(hadd cb thread).1, Or.inr ⟨_, (hadd cb thread).2⟩⟩
    case h_2 => cases h
  | run l =>
    have hscan := scanned (tid l) s._queue
    by_cases hpc : (s.loop l).pc = .scan
    · simp only [next, runLoop, hpc] at h
      cases h
      unfold scanQueue
      have hnext : s.taskQueue.next (.dequeue (tid l) fun _ => true) =
          if (scan (tid l) s._queue).task.all (fun q => q.task.passes fun _ => true) then
            some ⟨(scan (tid l) s._queue).queue, s.added⟩ else none := rfl
      generalize scan (tid l) s._queue = r at hscan hnext ⊢
      cases hscan with
      | found skipped q rest hqueue _ _ =>
        have hq := hs q (by rw [hqueue]; simp)
        refine ⟨fun x hx => hs x ?_, Or.inr ⟨_, hnext.trans (if_pos ?_)⟩⟩
        · rw [hqueue]
          rcases List.mem_append.mp hx with hx | hx
          · exact List.mem_append_left _ hx
          · exact List.mem_append_right _ (List.mem_cons_of_mem _ hx)
        · simp [ScheduleTask.passes, hq.1, hq.2]
      | nothing => exact ⟨hs, Or.inl rfl⟩
    · have hsame : s'._queue = s._queue ∧ s'.added = s.added := by
        cases loopStep_of_run h with
        | found _ _ _ hscan => exact absurd hscan hpc
        | nothing hscan => exact absurd hscan hpc
        | begin | execute | returned | exit | enter | idle => exact ⟨rfl, rfl⟩
      refine ⟨fun q hq => hs q (hsame.1 ▸ hq), Or.inl ?_⟩
      unfold taskQueue
      rw [hsame.1, hsame.2]

theorem queue_run {tr : List (Move (Scheduler τ) (Act τ))}
    (h : Run (system tid) s tr s') (hs : s.CallbacksOnly) :
    ∃ tr', Run TaskQueue.system s.taskQueue tr' s'.taskQueue := by
  induction h with
  | nil s => exact ⟨[], .nil _⟩
  | cons hstep _ ih =>
    obtain ⟨hs', hqueue⟩ := queue_step hs hstep
    obtain ⟨tr', hr⟩ := ih hs'
    rcases hqueue with heq | ⟨b, hb⟩
    · exact ⟨tr', heq ▸ hr⟩
    · exact ⟨_, .cons hb hr⟩

end Scheduler

end FiberAsync
