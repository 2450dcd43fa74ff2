import FiberAsync.Library.Queues
import FiberAsync.PoolFirings

/-!
# No task waits for later ones

The threads of an IOManager as takers from one queue. A task is taken at the latest
when a thread that may run it has scanned the queue once more than there are tasks
ahead that this thread may run, and a task for any thread when all threads together
have scanned once more than there are tasks ahead. What is added later, and what the
other threads do, does not matter.
-/

namespace FiberAsync

set_option autoImplicit false

open Runs Queues

namespace Pool

variable {s s' : Pool} {a : PoolAct} {t : Tid} {tr : List (Move Pool PoolAct)}

/-- The thread that scans the queue in the step. -/
def scanner (s : Pool) : PoolAct → Option Tid
  | .loop t => if s.loop t = .scan then some t else none
  | _ => none

/-- The task that a scan takes. -/
def scanned (s : Pool) (a : PoolAct) : Option QueuedTask :=
  (s.scanner a).bind fun t => (FiberAsync.scan t s._queue).task

/-- The thread may run the task. -/
def may (t : Tid) (q : QueuedTask) : Bool := q.eligible t

theorem pushAll_queue (s : Pool) (tasks : List ScheduleTask) :
    ∃ added, (s.pushAll tasks)._queue = s._queue ++ added :=
  s.pushAll_induct (fun s' => ∃ added, s'._queue = s._queue ++ added)
    (fun s' task hs => by
      obtain ⟨added, heq⟩ := hs
      refine ⟨added ++ [⟨s'.added, task⟩], ?_⟩
      rw [← List.append_assoc, ← heq]
      rfl) tasks ⟨[], (List.append_nil _).symm⟩

theorem scan_change (s : Pool) (t : Tid) : Change may s._queue (some t)
    (FiberAsync.scan t s._queue).task (FiberAsync.scan t s._queue).queue := by
  have hscan := FiberAsync.scanned t s._queue
  generalize FiberAsync.scan t s._queue = r at hscan
  cases hscan with
  | found skipped q rest hqueue hskip hq => exact .take t skipped q rest hqueue hskip hq
  | nothing hskip => exact .miss t hskip

theorem scanQueue_queue (h : s.scanQueue t = some s') :
    s'._queue = (FiberAsync.scan t s._queue).queue := by
  unfold scanQueue at h
  dsimp only at h
  split at h
  case h_1 q _ =>
    obtain ⟨_, heq⟩ := Option.ite_none_right_eq_some.mp h
    cases heq
    rfl
  case h_2 =>
    cases h
    rfl

theorem queue_changes (hs : system.step s a s') :
    Change may s._queue (s.scanner a) (s.scanned a) s'._queue := by
  have hadds : ∀ {a : PoolAct} {queue added : List QueuedTask}, s.scanner a = none →
      queue = s._queue ++ added → Change may s._queue (s.scanner a) (s.scanned a) queue := by
    intro a queue added hnone hqueue
    rw [scanned, hnone, hqueue]
    exact .add added
  have hsame : ∀ {a : PoolAct}, s.scanner a = none →
      Change may s._queue (s.scanner a) (s.scanned a) s._queue :=
    fun hnone => hadds hnone (List.append_nil _).symm
  by_cases hscan : ∃ t, a = .loop t ∧ s.loop t = .scan
  · obtain ⟨t, rfl, hpc⟩ := hscan
    have hexec := hs.2
    simp only [exec, loopStep, hpc] at hexec
    have htaker : s.scanner (.loop t) = some t := if_pos hpc
    rw [scanned, htaker, scanQueue_queue hexec]
    exact s.scan_change t
  · have hnone : s.scanner a = none := by
      cases a with
      | loop t => exact if_neg fun hpc => hscan ⟨t, rfl, hpc⟩
      | _ => rfl
    cases stepped hs with
    | event b th =>
      obtain ⟨added, heq⟩ := pushAll_queue { s with toThreads := th }
        (handed (th.io.tasks.drop s.io.tasks.length))
      exact hadds hnone heq
    | add_task t task => exact hadds hnone rfl
    | loop t hl =>
      cases hl with
      | found _ _ _ hpc => exact absurd ⟨t, rfl, hpc⟩ hscan
      | enqueue cb f cbs hpc => exact hadds hnone rfl
      | yes k | no k => cases k <;> exact hsame hnone
      | _ => exact hsame hnone
    | _ => exact hsame hnone

/-- The scans that the thread makes in a run. -/
def scansOf (t : Tid) (tr : List (Move Pool PoolAct)) : Nat := turns scanner (· == t) tr

/-- The scans that all threads make in a run. -/
def scans (tr : List (Move Pool PoolAct)) : Nat := turns scanner (fun _ => true) tr

/-- The task is taken in the run, by a thread that may run it. -/
def Taken (tr : List (Move Pool PoolAct)) (q : QueuedTask) : Prop :=
  ∃ m ∈ tr, ∃ t, m.act = .loop t ∧ m.post.loop t = .starting q ∧ q.eligible t = true

theorem taken_of_scanned (hs : system.step s a s') {q : QueuedTask} (hq : s.scanned a = some q) :
    ∃ t, a = .loop t ∧ s'.loop t = .starting q ∧ q.eligible t = true := by
  obtain ⟨t, ht, htask⟩ := Option.bind_eq_some_iff.mp hq
  obtain ⟨hact, hpc⟩ : a = .loop t ∧ s.loop t = .scan := by
    cases a with
    | loop u =>
      obtain ⟨hpc, heq⟩ := Option.ite_none_right_eq_some.mp ht
      cases heq
      exact ⟨rfl, hpc⟩
    | _ => cases ht
  subst a
  have hexec := hs.2
  simp only [exec, loopStep, hpc, scanQueue, htask] at hexec
  obtain ⟨_, heq⟩ := Option.ite_none_right_eq_some.mp hexec
  cases heq
  refine ⟨t, rfl, ?_, ?_⟩
  · exact setLoop_self s
  · have hscan := FiberAsync.scanned t s._queue
    generalize FiberAsync.scan t s._queue = r at hscan htask
    cases hscan with
    | found _ _ _ _ _ helig =>
      cases htask
      exact helig
    | nothing => cases htask

/-- From any state and in every run: a task in the queue has been taken once a thread
that may run it has scanned more often than there are tasks ahead that it may run, and
a task for any thread once all threads together have scanned more often than there are
tasks ahead. -/
theorem taken_in_turn (hr : Run system s tr s') {ahead behind : List QueuedTask} {q : QueuedTask}
    (hqueue : s._queue = ahead ++ q :: behind) :
    (∀ t : Tid, q.eligible t = true →
        ahead.countP (QueuedTask.eligible t) < scansOf t tr → Taken tr q) ∧
      (q.task.thread = -1 → ahead.length < scans tr → Taken tr q) := by
  have htaken : (∃ m ∈ tr, m.pre.scanned m.act = some q) → Taken tr q := by
    intro hx
    obtain ⟨m, hm, hq⟩ := hx
    exact ⟨m, hm, taken_of_scanned (hr.step_of_mem hm) hq⟩
  constructor
  · intro t ht hturns
    have hwaits : Waits (QueuedTask.eligible t) q (ahead.countP (QueuedTask.eligible t)) s._queue :=
      ⟨ahead, behind, hqueue, Nat.le_refl _⟩
    refine htaken (Run.taken_of_turns _ scanner scanned (· == t) queue_changes ?_ hr hwaits hturns)
    intro u hu
    obtain rfl := eq_of_beq hu
    exact ⟨ht, fun _ h => h⟩
  · intro hpin hturns
    have hwaits : Waits (fun _ => true) q ahead.length s._queue :=
      ⟨ahead, behind, hqueue, List.countP_le_length⟩
    refine htaken (Run.taken_of_turns _ scanner scanned (fun _ => true) queue_changes ?_ hr hwaits
      hturns)
    intro u _
    exact ⟨by simp [may, QueuedTask.eligible, hpin], fun _ _ => rfl⟩

/-- Thread 1 scans twice, while tasks for thread 2 and for any thread are ahead of one
that is pinned to it and another is added. -/
def turnsOfOne : List PoolAct :=
  [.add_task 0 (.ofCb 5 2), .add_task 0 (.ofCb 6 (-1)), .add_task 0 (.ofCb 7 1), .enter 1,
    .loop 1, .add_task 0 (.ofCb 8 (-1)), .loop 1, .loop 1, .loop 1, .loop 1]

theorem taken_in_turn_pinned : ∃ tr s s', Run system s tr s' ∧
    s._queue = [⟨0, .ofCb 5 2⟩, ⟨1, .ofCb 6 (-1)⟩] ++ ⟨2, .ofCb 7 1⟩ :: [] ∧ scansOf 1 tr = 2 ∧
    Taken tr ⟨2, .ofCb 7 1⟩ := by
  have hrun : (traceAll next (initial 0) turnsOfOne).map (fun r =>
      (r.1[3]?.map fun m => m.pre._queue, scansOf 1 (r.1.drop 3))) =
      some (some [⟨0, .ofCb 5 2⟩, ⟨1, .ofCb 6 (-1)⟩, ⟨2, .ofCb 7 1⟩], 2) := by decide +kernel
  obtain ⟨tr, s', hr, _, hobs⟩ := Run.exists_of_traceAll next next_sound _ hrun
  obtain ⟨hqueue, hscans⟩ := Prod.mk.inj hobs
  obtain ⟨m, hm, hqueue⟩ := Option.map_eq_some_iff.mp hqueue
  obtain ⟨_, hafter⟩ := hr.split_of_getElem hm
  have hscans : scansOf 1 (tr.drop 3) = 2 := hscans
  have hqueue : m.pre._queue = [⟨0, .ofCb 5 2⟩, ⟨1, .ofCb 6 (-1)⟩] ++ ⟨2, .ofCb 7 1⟩ :: [] := hqueue
  refine ⟨_, _, s', hafter, hqueue, hscans, (taken_in_turn hafter hqueue).1 1 (by decide) ?_⟩
  rw [hscans]
  decide

end Pool

end FiberAsync
