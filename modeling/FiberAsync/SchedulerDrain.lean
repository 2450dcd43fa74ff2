import FiberAsync.Scheduler
import FiberAsync.Library.Counting
import Mathlib.Data.Fintype.Basic

/-!
# The base scheduler drains before it ends

A task leaves the queue and `_activeThreadCount` goes up in one section under
the mutex, so the counter is the number of the loops that hold a task, and only
they can add tasks once `_stopping` is set. When `stopping()` is true there are
none, and nothing that a loop can still do changes that.
-/

namespace FiberAsync

set_option autoImplicit false

open Runs Counting

namespace RunLoop

def counted (c : RunLoop) : Nat :=
  match c.pc with
  | .execute _ | .returned => 1
  | _ => 0

def runs (n : Nat) (c : RunLoop) : Nat :=
  match c.pc with
  | .execute q => if q.number = n then 1 else 0
  | _ => 0

end RunLoop

namespace Scheduler

variable {τ : Type} [DecidableEq τ] {tid : τ → Int} {s s' : Scheduler τ} {l : τ}

inductive LoopStep (s : Scheduler τ) (l : τ) : Scheduler τ → Prop where
  | begin : (s.loop l).pc = .begin → LoopStep s l (s.setPc l .scan)
  | found (skipped : List QueuedTask) (q : QueuedTask) (rest : List QueuedTask) :
      (s.loop l).pc = .scan → s._queue = skipped ++ q :: rest →
      LoopStep s l { s.setPc l (.execute q) with
        _queue := skipped ++ rest, _activeThreadCount := s._activeThreadCount + 1 }
  | nothing : (s.loop l).pc = .scan → LoopStep s l (s.setPc l .nothing)
  | execute (q : QueuedTask) : (s.loop l).pc = .execute q →
      LoopStep s l { s.setPc l .returned with executed := s.executed ++ [q.number] }
  | returned : (s.loop l).pc = .returned →
      LoopStep s l { s.setPc l .scan with _activeThreadCount := s._activeThreadCount - 1 }
  | exit : (s.loop l).pc = .nothing → (s.loop l).idleTerm = true →
      LoopStep s l (s.setPc l .exited)
  | enter : (s.loop l).pc = .nothing →
      LoopStep s l { s.setPc l .idle with _idleThreadCount := s._idleThreadCount + 1 }
  | idle : (s.loop l).pc = .idle →
      LoopStep s l { s with
        loop := Function.update s.loop l ⟨.scan, s.stopping⟩
        _idleThreadCount := s._idleThreadCount - 1 }

theorem loopStep_of_run (h : s.runLoop tid l = some s') : LoopStep s l s' := by
  unfold runLoop at h
  split at h
  case h_1 hpc =>
    cases h
    exact .begin hpc
  case h_2 hpc =>
    cases h
    unfold scanQueue
    have hscan := scanned (tid l) s._queue
    generalize scan (tid l) s._queue = r at hscan
    cases hscan with
    | found skipped q rest hqueue _ _ => exact .found skipped q rest hpc hqueue
    | nothing _ => exact .nothing hpc
  case h_3 q hpc =>
    cases h
    exact .execute q hpc
  case h_4 hpc =>
    cases h
    exact .returned hpc
  case h_5 hpc =>
    split at h <;> cases h
    case isTrue hterm => exact .exit hpc hterm
    case isFalse => exact .enter hpc
  case h_6 hpc =>
    cases h
    exact .idle hpc
  case h_7 => cases h

inductive Stepped (s : Scheduler τ) : Act τ → Scheduler τ → Prop where
  | add_task (cb : Callback) (thread : Int) : ¬ s._stopping = true →
      Stepped s (.add_task cb thread) (s.add_task cb thread)
  | stop : Stepped s .stop { s with _stopping := true }
  | spawn (l : τ) (cb : Callback) (thread : Int) (q : QueuedTask) :
      (s.loop l).pc = .execute q → Stepped s (.spawn l cb thread) (s.add_task cb thread)
  | run (l : τ) {s' : Scheduler τ} : LoopStep s l s' → Stepped s (.run l) s'

theorem stepped {a : Act τ} (h : s.next tid a = some s') : Stepped s a s' := by
  cases a with
  | add_task cb thread =>
    obtain ⟨hstop, heq⟩ := Option.ite_none_left_eq_some.mp h
    cases heq
    exact .add_task cb thread hstop
  | stop =>
    cases h
    exact .stop
  | spawn l cb thread =>
    simp only [next] at h
    split at h
    case h_1 q hpc =>
      cases h
      exact .spawn l cb thread q hpc
    case h_2 => cases h
  | run l => exact .run l (loopStep_of_run h)

/-- What `stopping()` tests. -/
structure Final (s : Scheduler τ) : Prop where
  stop : s._stopping = true
  queue : s._queue = []
  active : s._activeThreadCount = 0

omit [DecidableEq τ] in
theorem stopping_iff : s.stopping = true ↔ s.Final := by
  unfold stopping
  simp only [Bool.and_eq_true, List.isEmpty_iff, beq_iff_eq]
  exact ⟨fun h => ⟨h.1.1, h.1.2, h.2⟩, fun h => ⟨⟨h.stop, h.queue⟩, h.active⟩⟩

/-- An idle fiber has terminated, or a loop has left, only in a final state. -/
structure EndsOk (s : Scheduler τ) : Prop where
  term : ∀ l, (s.loop l).idleTerm = true → s.Final
  exit : ∀ l, (s.loop l).pc = .exited → (s.loop l).idleTerm = true

variable [Fintype τ]

/-- The counter counts the loops that hold a task. -/
def ActiveOk (s : Scheduler τ) : Prop :=
  s._activeThreadCount = total Finset.univ RunLoop.counted s.loop

/-- How often the task is queued, being run, or has been run. -/
def copies (s : Scheduler τ) (n : Nat) : Nat :=
  (s._queue.map QueuedTask.number).count n + total Finset.univ (RunLoop.runs n) s.loop +
    s.executed.count n

def TasksOk (s : Scheduler τ) : Prop := ∀ n, s.copies n = if n < s.added then 1 else 0

structure DrainInv (s : Scheduler τ) : Prop where
  active : s.ActiveOk
  tasks : s.TasksOk
  ends : s.EndsOk

/-- What a step of a loop does to its cell, to the counter and to the tasks. -/
structure LoopEffect (s : Scheduler τ) (l : τ) (c : RunLoop) (s' : Scheduler τ) : Prop where
  loop : s'.loop = Function.update s.loop l c
  active : s'._activeThreadCount =
    s._activeThreadCount + c.counted - (s.loop l).counted
  tasks : ∀ n, (s'._queue.map QueuedTask.number).count n + c.runs n + s'.executed.count n =
    (s._queue.map QueuedTask.number).count n + (s.loop l).runs n + s.executed.count n
  added : s'.added = s.added
  stop : s'._stopping = s._stopping

omit [Fintype τ] in
theorem LoopStep.effect (h : LoopStep s l s') : ∃ c, LoopEffect s l c s' := by
  cases h with
  | begin hpc | nothing hpc | exit hpc | enter hpc =>
    refine ⟨_, rfl, ?_, fun n => ?_, rfl, rfl⟩ <;> simp [setPc, RunLoop.counted, RunLoop.runs, hpc]
  | idle hpc =>
    refine ⟨_, rfl, ?_, fun n => ?_, rfl, rfl⟩ <;> simp [RunLoop.counted, RunLoop.runs, hpc]
  | found skipped q rest hpc hqueue =>
    refine ⟨_, rfl, ?_, fun n => ?_, rfl, rfl⟩
    · simp [RunLoop.counted, hpc]
    · simp only [RunLoop.runs, hpc, hqueue, List.map_append, List.map_cons, List.count_append,
        List.count_cons, beq_iff_eq]
      change _ + _ + s.executed.count n = _
      omega
  | execute q hpc =>
    refine ⟨_, rfl, ?_, fun n => ?_, rfl, rfl⟩
    · simp [setPc, RunLoop.counted, hpc]
    · simp only [RunLoop.runs, hpc, List.count_append, List.count_singleton, beq_iff_eq]
      change (s._queue.map QueuedTask.number).count n + _ + _ = _
      omega
  | returned hpc =>
    refine ⟨_, rfl, ?_, fun n => ?_, rfl, rfl⟩ <;> simp [setPc, RunLoop.counted, RunLoop.runs, hpc]

namespace LoopEffect

variable {c : RunLoop} (h : LoopEffect s l c s')
include h

theorem total_eq (weight : RunLoop → Nat) :
    total Finset.univ weight s'.loop + weight (s.loop l) =
      total Finset.univ weight s.loop + weight c := by
  rw [h.loop]
  exact total_update weight s.loop (Finset.mem_univ l) c

theorem activeOk (hs : s.ActiveOk) : s'.ActiveOk := by
  have htotal := h.total_eq RunLoop.counted
  unfold ActiveOk at hs ⊢
  rw [h.active, hs]
  omega

theorem tasksOk (hs : s.TasksOk) : s'.TasksOk := by
  intro n
  have htotal := h.total_eq (RunLoop.runs n)
  have htasks := h.tasks n
  have hn := hs n
  unfold copies at hn ⊢
  rw [h.added]
  omega

end LoopEffect

omit [DecidableEq τ] in
theorem ActiveOk.pos (hs : s.ActiveOk) (hl : (s.loop l).counted = 1) :
    0 < s._activeThreadCount := by
  have hle := weight_le_total RunLoop.counted s.loop (Finset.mem_univ l)
  unfold ActiveOk at hs
  omega

omit [Fintype τ] in
theorem Final.loopStep (hf : s.Final) (h : LoopStep s l s') : s'.Final := by
  obtain ⟨hstop, hqueue, hactive⟩ := hf
  cases h with
  | begin | nothing | execute | exit | enter | idle => exact ⟨hstop, hqueue, hactive⟩
  | found skipped q rest hpc hq =>
    rw [hqueue] at hq
    cases skipped <;> cases hq
  | returned =>
    refine ⟨hstop, hqueue, ?_⟩
    change s._activeThreadCount - 1 = 0
    rw [hactive]

omit [Fintype τ] in
theorem EndsOk.loopStep (hs : s.EndsOk) (h : LoopStep s l s') : s'.EndsOk := by
  have hfinal : ∀ l, (s.loop l).idleTerm = true → s'.Final := fun l hl => (hs.term l hl).loopStep h
  have other : ∀ {c : RunLoop}, s'.loop = Function.update s.loop l c →
      (c.idleTerm = true → s'.Final) → (c.pc = .exited → c.idleTerm = true) → s'.EndsOk := by
    intro c hloop hterm hexit
    constructor <;> intro l' hl' <;> rw [hloop] at * <;> by_cases hl : l' = l
    · subst l'
      rw [Function.update_self] at hl'
      exact hterm hl'
    · rw [Function.update_of_ne hl] at hl'
      exact hfinal l' hl'
    · subst l'
      rw [Function.update_self] at hl' ⊢
      exact hexit hl'
    · rw [Function.update_of_ne hl] at hl' ⊢
      exact hs.exit l' hl'
  cases h with
  | begin | found | nothing | execute | returned | enter =>
    exact other rfl (hfinal l) (fun hpc => by cases hpc)
  | exit hpc hterm => exact other rfl (hfinal l) (fun _ => hterm)
  | idle hpc =>
    apply other rfl _ (fun hpc => by cases hpc)
    intro hstopping
    obtain ⟨hstop, hqueue, hactive⟩ := stopping_iff.mp hstopping
    exact ⟨hstop, hqueue, hactive⟩

omit [DecidableEq τ] in
theorem DrainInv.add_task (hs : s.DrainInv) (hf : ¬ s.Final) (cb : Callback) (thread : Int) :
    (s.add_task cb thread).DrainInv := by
  refine ⟨hs.active, fun n => ?_, fun l hl => absurd (hs.ends.term l hl) hf, hs.ends.exit⟩
  have hn := hs.tasks n
  have hcopies : (s.add_task cb thread).copies n = s.copies n + if s.added = n then 1 else 0 := by
    simp only [copies, Scheduler.add_task, add_task_nolock, List.map_append, List.map_cons,
      List.map_nil, List.count_append, List.count_singleton, beq_iff_eq]
    omega
  rw [hcopies, hn]
  change _ = if n < s.added + 1 then 1 else 0
  split_ifs <;> omega

omit [DecidableEq τ] in
theorem initial_drainInv : (initial : Scheduler τ).DrainInv := by
  have hends : (initial : Scheduler τ).EndsOk :=
    ⟨fun _ hl => Bool.noConfusion hl, fun _ hl => LoopPc.noConfusion hl⟩
  refine ⟨?_, fun n => ?_, hends⟩
  · exact ((total_eq_zero_iff _ _).mpr fun _ _ => rfl).symm
  · have hruns : total Finset.univ (RunLoop.runs n) (initial : Scheduler τ).loop = 0 :=
      (total_eq_zero_iff _ _).mpr fun _ _ => rfl
    unfold copies
    rw [hruns]
    rfl

omit [DecidableEq τ] in
theorem DrainInv.not_final (hs : s.DrainInv) {q : QueuedTask} (hpc : (s.loop l).pc = .execute q) :
    ¬ s.Final := by
  intro hf
  have hpos := hs.active.pos (l := l) (by rw [RunLoop.counted, hpc])
  exact absurd hf.active (Nat.pos_iff_ne_zero.mp hpos)

theorem DrainInv.step {a : Act τ} (hs : s.DrainInv) (h : s.next tid a = some s') :
    s'.DrainInv := by
  cases stepped h with
  | add_task cb thread hstop => exact hs.add_task (fun hf => hstop hf.stop) cb thread
  | stop =>
    refine ⟨hs.active, hs.tasks, fun l hl => ?_, hs.ends.exit⟩
    exact ⟨rfl, (hs.ends.term l hl).queue, (hs.ends.term l hl).active⟩
  | spawn l cb thread q hpc => exact hs.add_task (hs.not_final hpc) cb thread
  | run l hstep =>
    obtain ⟨c, heff⟩ := hstep.effect
    exact ⟨heff.activeOk hs.active, heff.tasksOk hs.tasks, hs.ends.loopStep hstep⟩

theorem Final.step {a : Act τ} (hs : s.DrainInv) (hf : s.Final) (h : s.next tid a = some s') :
    s'.Final ∧ s'.added = s.added := by
  cases stepped h with
  | add_task cb thread hstop => exact absurd hf.stop hstop
  | stop => exact ⟨⟨rfl, hf.queue, hf.active⟩, rfl⟩
  | spawn l cb thread q hpc => exact absurd hf (hs.not_final hpc)
  | run l hstep =>
    obtain ⟨c, heff⟩ := hstep.effect
    exact ⟨hf.loopStep hstep, heff.added⟩

theorem Final.run {tr : List (Move (Scheduler τ) (Act τ))} (hs : s.DrainInv) (hf : s.Final)
    (h : Run (system tid) s tr s') : s'.Final ∧ s'.added = s.added := by
  have hinv := h.invariant (fun u => u.DrainInv ∧ u.Final ∧ u.added = s.added)
    (fun hu hstep => ?_) ⟨hs, hf, rfl⟩
  · exact hinv.2
  · obtain ⟨hdrain, hfinal, hadded⟩ := hu
    obtain ⟨hfinal', hadded'⟩ := hfinal.step hdrain hstep
    exact ⟨hdrain.step hstep, hfinal', hadded'.trans hadded⟩

/-- While `stopping()` is true no task is queued or held by a loop, no task is
queued in any state reached from there, and when all loops have left, every task
ever added has been executed exactly once. -/
theorem drains [Nonempty τ] {tr : List (Move (Scheduler τ) (Act τ))}
    (h : Run (system tid) initial tr s) :
    (s.stopping = true → s._queue = [] ∧ ∀ l q, (s.loop l).pc ≠ .execute q) ∧
    (s.stopping = true → ∀ tr' s', Run (system tid) s tr' s' →
      s'._queue = [] ∧ s'.added = s.added) ∧
    ((∀ l, (s.loop l).pc = .exited) → s._queue = [] ∧ s._activeThreadCount = 0 ∧
      ∀ n, s.executed.count n = if n < s.added then 1 else 0) := by
  have hs := h.invariant DrainInv (fun hs hstep => hs.step hstep) initial_drainInv
  refine ⟨fun hstopping => ?_, fun hstopping tr' s' h' => ?_, fun hexit => ?_⟩
  · have hf := stopping_iff.mp hstopping
    exact ⟨hf.queue, fun l q hpc => hs.not_final hpc hf⟩
  · obtain ⟨hf, hadded⟩ := (stopping_iff.mp hstopping).run hs h'
    exact ⟨hf.queue, hadded⟩
  · obtain ⟨l⟩ := ‹Nonempty τ›
    have hf := hs.ends.term l (hs.ends.exit l (hexit l))
    refine ⟨hf.queue, hf.active, fun n => ?_⟩
    have hruns : total Finset.univ (RunLoop.runs n) s.loop = 0 := by
      apply (total_eq_zero_iff _ _).mpr
      intro l _
      rw [RunLoop.runs, hexit l]
    have hn := hs.tasks n
    unfold copies at hn
    rw [hf.queue, hruns] at hn
    simpa using hn

/-- A task adds one for the other loop while it runs and the scheduler is being stopped. -/
def spawning : List (Act Bool) :=
  [.add_task 7 (-1), .run false, .run false, .spawn false 8 2, .stop, .run true] ++
    List.replicate 2 (.run false) ++ List.replicate 3 (.run true) ++
    List.replicate 5 (.run false) ++ List.replicate 5 (.run true)

theorem drains_spawning : ∃ tr s, Run (system fun l : Bool => if l then 2 else 1) initial tr s ∧
    tr.map Move.act = spawning ∧ (∀ l, (s.loop l).pc = .exited) ∧ s.added = 2 ∧
    s._queue = [] ∧ s._activeThreadCount = 0 ∧
    ∀ n, s.executed.count n = if n < s.added then 1 else 0 := by
  have hrun : (traceAll (next fun l : Bool => if l then 2 else 1) initial spawning).map
      (fun r => (((r.2.loop false).pc, (r.2.loop true).pc), r.2.added)) =
      some ((.exited, .exited), 2) := by decide +kernel
  obtain ⟨tr, s, hr, hacts, hobs⟩ := Run.exists_of_traceAll _ (next_sound _) _ hrun
  simp only [Prod.mk.injEq] at hobs
  obtain ⟨⟨hfalse, htrue⟩, hadded⟩ := hobs
  have hexit : ∀ l, (s.loop l).pc = .exited := Bool.forall_bool.mpr ⟨hfalse, htrue⟩
  exact ⟨tr, s, hr, hacts, hexit, hadded, (drains hr).2.2 hexit⟩

end Scheduler

end FiberAsync
