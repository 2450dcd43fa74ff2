import FiberAsync.Scheduler
import FiberAsync.Library.Counting
import Mathlib.Data.Fintype.Basic

/-!
# Waking the workers of an IOManager

A worker scans the queue under the scheduler's mutex, and only after it has left
that section counts itself in `_idleThreadCount` and blocks in `epoll_wait`. A
call of `add_task` pushes under the mutex, and only then looks at that counter
and writes a byte to the tickle pipe. The workers here are not being stopped;
tasks, timers and events end or report at any time.
-/

namespace FiberAsync

set_option autoImplicit false

open Runs Counting

/-- Where a call of `IOManager::tickle` is. -/
inductive TicklePc where
  /-- before `hasIdleThreads()` -/
  | check
  /-- before the `write` to `m_tickleFds[1]` -/
  | write
  deriving DecidableEq, Repr

inductive WorkerPc where
  | scan
  /-- in `tickle()` after a scan -/
  | tickle (found : Option QueuedTask) (at_ : TicklePc)
  | execute (q : QueuedTask)
  /-- the scan found nothing, `++_idleThreadCount` is next -/
  | hungry
  /-- in `idle()`, before `epoll_wait` -/
  | entering
  /-- in `epoll_wait` -/
  | blocked
  /-- `epoll_wait` has reported the tickle pipe -/
  | draining
  /-- in `idle()`, about to yield -/
  | leaving
  deriving DecidableEq, Repr

namespace WorkerPc

def withTask : Option QueuedTask → WorkerPc
  | some q => execute q
  | none => hungry

def afterScan (r : Scan) : WorkerPc := if r.tickle_me then tickle r.task .check else withTask r.task

/-- Counted in `_idleThreadCount`. -/
def counted : WorkerPc → Nat
  | entering | blocked | draining | leaving => 1
  | _ => 0

/-- Between a scan that found nothing and `++_idleThreadCount`. -/
def Starved : WorkerPc → Prop
  | tickle none _ | hungry => True
  | _ => False

/-- Asleep, or on the way from a scan that found nothing to sleep. -/
def Drowsy : WorkerPc → Prop
  | tickle none _ | hungry | entering | blocked => True
  | _ => False

instance (pc : WorkerPc) : Decidable pc.Starved := by
  unfold Starved
  split <;> infer_instance

instance (pc : WorkerPc) : Decidable pc.Drowsy := by
  unfold Drowsy
  split <;> infer_instance

/-- In `tickle()` with a task in hand, about to read `_idleThreadCount`. -/
def Checks : WorkerPc → Prop
  | tickle (some _) .check => True
  | _ => False

instance (pc : WorkerPc) : Decidable pc.Checks := by
  unfold Checks
  split <;> infer_instance

/-- A later step, without a wait, is a scan of the queue or a byte for the pipe. -/
def Rousing : WorkerPc → Prop
  | scan | tickle (some _) _ | tickle none .write | draining | leaving => True
  | _ => False

/-- Not waiting, not running a task, and not on the way from a scan to sleep. -/
def Pending : WorkerPc → Prop
  | scan | tickle _ _ | draining | leaving => True
  | _ => False

end WorkerPc

structure Workers (τ π : Type) where
  _queue : List QueuedTask
  _idleThreadCount : Nat
  /-- the unread bytes of the tickle pipe -/
  pipe : Nat
  worker : τ → WorkerPc
  /-- the threads in `add_task`, after their push -/
  producer : π → Option TicklePc
  added : Nat

namespace Workers

inductive Act (τ π : Type) where
  /-- the section of `add_task` under the mutex -/
  | add_task (p : π) (task : ScheduleTask)
  /-- a step of `tickle()` in `add_task` -/
  | tickle (p : π)
  | run (l : τ)
  /-- `epoll_wait` returns because of the tickle pipe -/
  | wake (l : τ)
  /-- `epoll_wait` returns for another reason -/
  | timeout (l : τ)
  deriving DecidableEq, Repr

variable {τ π : Type}

def Act.PushesUnpinned : Act τ π → Prop
  | .add_task _ task => task.thread = -1
  | _ => False

def initial : Workers τ π where
  _queue := []
  _idleThreadCount := 0
  pipe := 0
  worker := fun _ => .scan
  producer := fun _ => none
  added := 0

def hasIdleThreads (s : Workers τ π) : Bool := s._idleThreadCount > 0

def tickle (s : Workers τ π) : TicklePc → Workers τ π × Option TicklePc
  | .check => (s, if s.hasIdleThreads then some .write else none)
  | .write => ({ s with pipe := s.pipe + 1 }, none)

section Model

variable [DecidableEq τ] [DecidableEq π] (tid : τ → Int) (s : Workers τ π)

def add_task (s : Workers τ π) (p : π) (task : ScheduleTask) : Workers τ π :=
  let (need_tickle, _queue) := add_task_nolock s._queue ⟨s.added, task⟩
  { s with
    _queue := _queue
    producer := Function.update s.producer p (if need_tickle then some .check else none)
    added := s.added + 1 }

def setPc (l : τ) (pc : WorkerPc) : Workers τ π :=
  { s with worker := Function.update s.worker l pc }

def runWorker (l : τ) : Option (Workers τ π) :=
  match s.worker l with
  | .scan =>
    let r := FiberAsync.scan (tid l) s._queue
    some { s.setPc l (.afterScan r) with _queue := r.queue }
  | .tickle found at_ =>
    match s.tickle at_ with
    | (s, some at_) => some (s.setPc l (.tickle found at_))
    | (s, none) => some (s.setPc l (.withTask found))
  | .execute _ => some (s.setPc l .scan)
  | .hungry => some { s.setPc l .entering with _idleThreadCount := s._idleThreadCount + 1 }
  | .entering => some (s.setPc l .blocked)
  | .blocked => none
  | .draining => some { s.setPc l .leaving with pipe := 0 }
  | .leaving => some { s.setPc l .scan with _idleThreadCount := s._idleThreadCount - 1 }

def next : Act τ π → Option (Workers τ π)
  | .add_task p task => if s.producer p = none then some (s.add_task p task) else none
  | .tickle p =>
    match s.producer p with
    | some at_ =>
      let (s, rest) := s.tickle at_
      some { s with producer := Function.update s.producer p rest }
    | none => none
  | .run l => s.runWorker tid l
  | .wake l => if s.worker l = .blocked ∧ s.pipe > 0 then some (s.setPc l .draining) else none
  | .timeout l => if s.worker l = .blocked then some (s.setPc l .leaving) else none

def system : System (Workers τ π) (Act τ π) where
  init s := s = initial
  step s a s' := s.next tid a = some s'

theorem next_sound {s s' : Workers τ π} {a : Act τ π} (h : s.next tid a = some s') :
    (system tid).step s a s' := h

end Model

variable (s : Workers τ π)

def Unpinned : Prop := ∃ q ∈ s._queue, q.task.thread = -1

/-- An unpinned task is queued, a worker sleeps, and no step is due that would
lead to a scan of the queue. -/
structure Stuck : Prop where
  task : s.Unpinned
  asleep : ∃ l, s.worker l = .blocked
  pipe : s.pipe = 0
  producers : ∀ p, s.producer p = none
  workers : ∀ l, ¬ (s.worker l).Pending

def Checks (s : Workers τ π) : Act τ π → Prop
  | .tickle p => s.producer p = some .check
  | .run l => (s.worker l).Checks
  | _ => False

/-- The counter is read as zero while an unpinned task is queued and a worker is
between a scan that found nothing and counting itself; or an unpinned task is
pushed behind pinned tasks only, while a worker is asleep or on the way there. -/
def Misses (s : Workers τ π) (a : Act τ π) : Prop :=
  (s.Checks a ∧ s.Unpinned ∧ s._idleThreadCount = 0 ∧ ∃ l, (s.worker l).Starved) ∨
    a.PushesUnpinned ∧ s._queue ≠ [] ∧ ¬ s.Unpinned ∧ ∃ l, (s.worker l).Drowsy

variable {s} {s' : Workers τ π} {tid : τ → Int} {l : τ}

/-- A step is due that leads to a scan of the queue. -/
def Alert (s : Workers τ π) : Prop :=
  0 < s.pipe ∨ (∃ p, s.producer p ≠ none) ∨ ∃ l, (s.worker l).Rousing

/-- While an unpinned task is queued, a step is due that leads to a scan, or no
worker is asleep or on the way there. -/
def WakeOk (s : Workers τ π) : Prop :=
  s.Unpinned → s.Alert ∨ ∀ l, ¬ (s.worker l).Drowsy

theorem wakeOk_of_rousing (h : (s.worker l).Rousing) : s.WakeOk :=
  fun _ => Or.inl (Or.inr (Or.inr ⟨l, h⟩))

theorem tickle_check : s.tickle .check = (s, some .write) ∨
    s._idleThreadCount = 0 ∧ s.tickle .check = (s, none) := by
  unfold tickle hasIdleThreads
  rcases Nat.eq_zero_or_pos s._idleThreadCount with h | h
  · exact Or.inr ⟨h, by simp [h]⟩
  · exact Or.inl (by simp [h])

section Counter

variable [Fintype τ]

structure WakeInv (s : Workers τ π) : Prop where
  /-- the counter counts the workers in `idle()` -/
  count : s._idleThreadCount = total Finset.univ WorkerPc.counted s.worker
  wake : s.WakeOk

theorem initial_wakeInv : (initial : Workers τ π).WakeInv where
  count := ((total_eq_zero_iff _ _).mpr fun _ _ => rfl).symm
  wake := fun ⟨_, hq, _⟩ => by cases hq

/-- A `tickle` that reads the counter as zero misses nobody unless a worker is starved. -/
theorem not_drowsy_of_idle (hidle : s._idleThreadCount = 0)
    (hcount : s._idleThreadCount = total Finset.univ WorkerPc.counted s.worker)
    (hstarved : ¬ ∃ l, (s.worker l).Starved) (l : τ) : ¬ (s.worker l).Drowsy := by
  have hzero := (total_eq_zero_iff _ _).mp (hcount.symm.trans hidle) l (Finset.mem_univ l)
  intro hdrowsy
  apply hstarved
  refine ⟨l, ?_⟩
  generalize s.worker l = pc at *
  cases pc with
  | tickle found at_ => cases found <;> exact hdrowsy
  | hungry => trivial
  | entering | blocked => cases hzero
  | scan | execute | draining | leaving => exact hdrowsy

theorem WakeInv.not_stuck (hs : s.WakeInv) : ¬ s.Stuck := by
  intro hx
  obtain ⟨hu, ⟨l, hl⟩, hpipe, hproducers, hworkers⟩ := hx
  rcases hs.wake hu with (hpos | ⟨p, hp⟩ | ⟨l', hl'⟩) | hnone
  · omega
  · exact hp (hproducers p)
  · apply hworkers l'
    generalize s.worker l' = pc at hl'
    cases pc with
    | tickle found at_ => trivial
    | scan | draining | leaving => trivial
    | execute | hungry | entering | blocked => exact hl'
  · apply hnone l
    rw [hl]
    trivial

end Counter

section Producers

variable [Fintype τ] [DecidableEq π]

/-- A push misses nobody, unless it is of an unpinned task behind pinned ones only. -/
theorem WakeInv.add_task (hs : s.WakeInv) {p : π} {task : ScheduleTask}
    (hm : ¬ s.Misses (.add_task p task)) (hp : s.producer p = none) :
    (s.add_task p task).WakeInv := by
  refine ⟨hs.count, fun hu => ?_⟩
  by_cases hempty : s._queue = []
  · have hpending : (s.add_task p task).producer p ≠ none := by
      simp [Workers.add_task, add_task_nolock, hempty]
    exact Or.inl (Or.inr (Or.inl ⟨p, hpending⟩))
  · have hproducer : (s.add_task p task).producer = s.producer := by
      have hfalse : s._queue.isEmpty = false := by simpa using hempty
      simp only [Workers.add_task, add_task_nolock, hfalse]
      rw [if_neg Bool.false_ne_true, ← hp, Function.update_eq_self]
    have hkeep : s.Alert → (s.add_task p task).Alert := by
      unfold Alert
      rw [hproducer]
      exact id
    by_cases hold : s.Unpinned
    · exact (hs.wake hold).imp_left hkeep
    · obtain ⟨q, hq, hthread⟩ := hu
      have hq : q ∈ s._queue ++ [⟨s.added, task⟩] := hq
      rcases List.mem_append.mp hq with hq | hq
      · exact absurd ⟨q, hq, hthread⟩ hold
      · cases List.mem_singleton.mp hq
        right
        intro l hdrowsy
        exact hm (Or.inr ⟨hthread, hempty, hold, l, hdrowsy⟩)

/-- A step of `tickle()` in `add_task` misses nobody, unless it reads the counter
as zero while a worker is starved. -/
theorem WakeInv.tickle (hs : s.WakeInv) {p : π} {at_ : TicklePc} (hm : ¬ s.Misses (.tickle p))
    (hp : s.producer p = some at_) :
    WakeInv { (s.tickle at_).1 with
      producer := Function.update (s.tickle at_).1.producer p (s.tickle at_).2 } := by
  cases at_ with
  | check =>
    rcases tickle_check (s := s) with hcheck | ⟨hidle, hcheck⟩
    · rw [hcheck]
      have hpending : Function.update s.producer p (some TicklePc.write) p ≠ none := by simp
      exact ⟨hs.count, fun _ => Or.inl (Or.inr (Or.inl ⟨p, hpending⟩))⟩
    · rw [hcheck]
      refine ⟨hs.count, fun hu => Or.inr (not_drowsy_of_idle hidle hs.count fun hstarved => ?_)⟩
      exact hm (Or.inl ⟨hp, hu, hidle, hstarved⟩)
  | write => exact ⟨hs.count, fun _ => Or.inl (Or.inl (Nat.succ_pos _))⟩

end Producers

section Workers

variable [DecidableEq τ]

theorem setPc_self (s : Workers τ π) (l : τ) (pc : WorkerPc) : (s.setPc l pc).worker l = pc :=
  Function.update_self _ _ _

theorem setPc_of_ne {l' : τ} (h : l' ≠ l) (pc : WorkerPc) :
    (s.setPc l pc).worker l' = s.worker l' := Function.update_of_ne h _ _

inductive WorkerStep (tid : τ → Int) (s : Workers τ π) (l : τ) : Workers τ π → Prop where
  | scan (r : Scan) : s.worker l = .scan → Scanned (tid l) s._queue r →
      WorkerStep tid s l { s.setPc l (.afterScan r) with _queue := r.queue }
  | check (found : Option QueuedTask) : s.worker l = .tickle found .check →
      WorkerStep tid s l (s.setPc l (.tickle found .write))
  | skip (found : Option QueuedTask) : s.worker l = .tickle found .check →
      s._idleThreadCount = 0 → WorkerStep tid s l (s.setPc l (.withTask found))
  | write (found : Option QueuedTask) : s.worker l = .tickle found .write →
      WorkerStep tid s l { s.setPc l (.withTask found) with pipe := s.pipe + 1 }
  | execute (q : QueuedTask) : s.worker l = .execute q → WorkerStep tid s l (s.setPc l .scan)
  | hungry : s.worker l = .hungry →
      WorkerStep tid s l { s.setPc l .entering with _idleThreadCount := s._idleThreadCount + 1 }
  | entering : s.worker l = .entering → WorkerStep tid s l (s.setPc l .blocked)
  | draining : s.worker l = .draining → WorkerStep tid s l { s.setPc l .leaving with pipe := 0 }
  | leaving : s.worker l = .leaving →
      WorkerStep tid s l { s.setPc l .scan with _idleThreadCount := s._idleThreadCount - 1 }

theorem workerStep_of_run (h : s.runWorker tid l = some s') : WorkerStep tid s l s' := by
  unfold runWorker at h
  split at h
  case h_1 hpc =>
    cases h
    exact .scan _ hpc (scanned _ _)
  case h_2 found at_ hpc =>
    cases at_ with
    | check =>
      rcases tickle_check (s := s) with hcheck | ⟨hidle, hcheck⟩
      · rw [hcheck] at h
        cases h
        exact .check found hpc
      · rw [hcheck] at h
        cases h
        exact .skip found hpc hidle
    | write =>
      cases h
      exact .write found hpc
  case h_3 q hpc =>
    cases h
    exact .execute q hpc
  case h_4 hpc =>
    cases h
    exact .hungry hpc
  case h_5 hpc =>
    cases h
    exact .entering hpc
  case h_6 => cases h
  case h_7 hpc =>
    cases h
    exact .draining hpc
  case h_8 hpc =>
    cases h
    exact .leaving hpc

theorem rousing_setPc (s : Workers τ π) (l : τ) (pc : WorkerPc) (h : pc.Rousing) :
    ((s.setPc l pc).worker l).Rousing := by
  rw [setPc_self]
  exact h

theorem WakeOk.stay (hs : s.WakeOk) (hold : (s.worker l).Drowsy) (hquiet : ¬ (s.worker l).Rousing)
    (pc : WorkerPc) : (s.setPc l pc).WakeOk := by
  intro hu
  rcases hs hu with halert | hnone
  · left
    rcases halert with hpipe | hproducer | ⟨l', hl'⟩
    · exact Or.inl hpipe
    · exact Or.inr (Or.inl hproducer)
    · have hne : l' ≠ l := fun heq => hquiet (heq ▸ hl')
      exact Or.inr (Or.inr ⟨l', by rw [setPc_of_ne hne]; exact hl'⟩)
  · exact absurd hold (hnone l)

theorem wakeOk_scan {r : Scan} (hscan : Scanned (tid l) s._queue r) :
    WakeOk { s.setPc l (.afterScan r) with _queue := r.queue } := by
  intro hu
  obtain ⟨q, hq, hthread⟩ := hu
  cases hscan with
  | found skipped q' rest _ _ _ =>
    have hne : (skipped ++ rest).isEmpty = false :=
      List.isEmpty_eq_false_iff_exists_mem.mpr ⟨q, hq⟩
    rw [hne]
    have hrousing := rousing_setPc s l (.tickle (some q') .check) trivial
    exact Or.inl (Or.inr (Or.inr ⟨l, hrousing⟩))
  | nothing hskip =>
    have heligible : q.eligible (tid l) = true := by simp [QueuedTask.eligible, hthread]
    rw [hskip q hq] at heligible
    cases heligible

theorem counted_afterScan (r : Scan) : (WorkerPc.afterScan r).counted = 0 := by
  unfold WorkerPc.afterScan
  split
  · rfl
  · cases r.task <;> rfl

theorem counted_withTask (found : Option QueuedTask) : (WorkerPc.withTask found).counted = 0 := by
  cases found <;> rfl

theorem WorkerStep.effect (h : WorkerStep tid s l s') :
    ∃ pc, s'.worker = Function.update s.worker l pc ∧
      s'._idleThreadCount = s._idleThreadCount + pc.counted - (s.worker l).counted := by
  cases h with
  | scan r hpc _ => exact ⟨_, rfl, by rw [hpc, counted_afterScan]; rfl⟩
  | check found hpc => exact ⟨_, rfl, by rw [hpc]; rfl⟩
  | skip found hpc _ | write found hpc => exact ⟨_, rfl, by rw [hpc, counted_withTask]; rfl⟩
  | execute q hpc | hungry hpc | entering hpc | draining hpc | leaving hpc =>
    exact ⟨_, rfl, by rw [hpc]; rfl⟩

variable [Fintype τ]

theorem WakeInv.count_step (hs : s.WakeInv) (h : WorkerStep tid s l s') :
    s'._idleThreadCount = total Finset.univ WorkerPc.counted s'.worker := by
  obtain ⟨pc, hworker, hidle⟩ := h.effect
  have htotal := total_update WorkerPc.counted s.worker (Finset.mem_univ l) pc
  rw [hworker, hidle, hs.count]
  omega

/-- A step of a worker misses nobody, unless it reads the counter as zero while
another worker is starved. -/
theorem WakeInv.wake_step (hs : s.WakeInv) (hm : ¬ s.Misses (.run l))
    (h : WorkerStep tid s l s') : s'.WakeOk := by
  cases h with
  | scan r hpc hscan => exact wakeOk_scan hscan
  | check found hpc =>
    cases found with
    | some q | none => exact wakeOk_of_rousing (rousing_setPc s l _ trivial)
  | skip found hpc hidle =>
    cases found with
    | none =>
      apply hs.wake.stay <;> rw [hpc]
      · trivial
      · exact fun hrousing => hrousing
    | some q =>
      intro hu
      right
      have hstarved : ¬ ∃ l, (s.worker l).Starved := fun hstarved =>
        hm (Or.inl ⟨(congrArg WorkerPc.Checks hpc).mpr trivial, hu, hidle, hstarved⟩)
      have hnone := not_drowsy_of_idle hidle hs.count hstarved
      intro l'
      by_cases hl : l' = l
      · subst l'
        rw [setPc_self]
        exact fun hdrowsy => hdrowsy
      · rw [setPc_of_ne hl]
        exact hnone l'
  | write found hpc => exact fun _ => Or.inl (Or.inl (Nat.succ_pos _))
  | execute q hpc => exact wakeOk_of_rousing (rousing_setPc s l _ trivial)
  | hungry hpc | entering hpc =>
    apply hs.wake.stay <;> rw [hpc]
    · trivial
    · exact fun hrousing => hrousing
  | draining hpc => exact wakeOk_of_rousing (rousing_setPc s l .leaving trivial)
  | leaving hpc => exact wakeOk_of_rousing (rousing_setPc s l .scan trivial)

theorem WakeInv.return_ (hs : s.WakeInv) {pc : WorkerPc} (hpc : s.worker l = .blocked)
    (hrousing : pc.Rousing) (hcounted : pc.counted = 1) : (s.setPc l pc).WakeInv := by
  refine ⟨?_, wakeOk_of_rousing (rousing_setPc s l _ hrousing)⟩
  have hsame := total_update_same (s := Finset.univ) WorkerPc.counted s.worker l (c := pc)
    (by rw [hpc]; exact hcounted)
  exact hs.count.trans hsame.symm

end Workers

variable [Fintype τ] [DecidableEq τ] [DecidableEq π]

theorem WakeInv.step {a : Act τ π} (hs : s.WakeInv) (hm : ¬ s.Misses a)
    (h : s.next tid a = some s') : s'.WakeInv := by
  cases a with
  | add_task p task =>
    obtain ⟨hp, heq⟩ := Option.ite_none_right_eq_some.mp h
    cases heq
    exact hs.add_task hm hp
  | tickle p =>
    simp only [next] at h
    split at h
    case h_1 at_ hp =>
      cases h
      exact hs.tickle hm hp
    case h_2 => cases h
  | run l =>
    have hstep := workerStep_of_run h
    exact ⟨hs.count_step hstep, hs.wake_step hm hstep⟩
  | wake l =>
    obtain ⟨⟨hpc, _⟩, heq⟩ := Option.ite_none_right_eq_some.mp h
    cases heq
    exact hs.return_ hpc trivial rfl
  | timeout l =>
    obtain ⟨hpc, heq⟩ := Option.ite_none_right_eq_some.mp h
    cases heq
    exact hs.return_ hpc trivial rfl

/-- With any number of workers and of threads in `add_task`: no run in which no
step misses a wake-up ends in a stuck state. -/
theorem wake_ups_kept {tr : List (Move (Workers τ π) (Act τ π))}
    (h : Run (system tid) initial tr s) (hm : ∀ m ∈ tr, ¬ m.pre.Misses m.act) : ¬ s.Stuck := by
  have hs := h.invariant_of_guard WakeInv (fun s a => ¬ s.Misses a)
    (fun hs hm hstep => hs.step hm hstep) initial_wakeInv hm
  exact hs.not_stuck

instance (a : Act τ π) : Decidable a.PushesUnpinned := by
  unfold Act.PushesUnpinned
  split <;> infer_instance

instance (s : Workers τ π) (a : Act τ π) : Decidable (s.Checks a) := by
  unfold Checks
  split <;> infer_instance

instance (s : Workers τ π) : Decidable s.Unpinned :=
  inferInstanceAs (Decidable (∃ q ∈ s._queue, q.task.thread = -1))

instance (s : Workers τ π) (a : Act τ π) : Decidable (s.Misses a) := by
  unfold Misses
  infer_instance

/-- Both workers sleep. A task is pushed and wakes one of them, and while it executes
the task another one is pushed and wakes the other. -/
def woken : List (Act Bool Unit) :=
  List.replicate 3 (.run false) ++ List.replicate 3 (.run true) ++
    [.add_task () (.ofCb 0 (-1)), .tickle (), .tickle (), .wake true] ++
    List.replicate 3 (.run true) ++
    [.add_task () (.ofCb 1 (-1)), .tickle (), .tickle (), .wake false, .run false]

theorem wake_ups_kept_woken : ∃ tr s,
    Run (system fun l : Bool => if l then 2 else 1) initial tr s ∧ tr.map Move.act = woken ∧
    s.worker true = .execute ⟨0, .ofCb 0 (-1)⟩ ∧ s.worker false = .leaving ∧ s.Unpinned ∧
    ¬ s.Stuck := by
  have hrun : (traceAll (next fun l : Bool => if l then 2 else 1) initial woken).map (fun r =>
      ((r.1.all fun m => !decide (m.pre.Misses m.act)), r.2.worker true, r.2.worker false,
        decide r.2.Unpinned)) =
      some (true, .execute ⟨0, .ofCb 0 (-1)⟩, .leaving, true) := by decide +kernel
  obtain ⟨tr, s, hr, hacts, hobs⟩ := Run.exists_of_traceAll _ (next_sound _) _ hrun
  simp only [Prod.mk.injEq] at hobs
  obtain ⟨hall, htrue, hfalse, hu⟩ := hobs
  refine ⟨tr, s, hr, hacts, htrue, hfalse, of_decide_eq_true hu, wake_ups_kept hr fun m hm => ?_⟩
  simpa using List.all_eq_true.mp hall m hm

/-- The worker finds the queue empty, a task is pushed and the counter read, and
only then does the worker count itself and block. -/
def raced : List (Act Unit Unit) :=
  [.run (), .add_task () (.ofCb 0 (-1)), .tickle (), .run (), .run ()]

/-- The first worker takes a task pinned to it, the second goes to sleep, a task
pinned to the first is queued and tickled for, the second wakes for nothing and
goes to sleep again; the push of an unpinned task does not tickle. -/
def hidden : List (Act Bool Unit) :=
  [.add_task () (.ofCb 0 1), .tickle (), .run false] ++ List.replicate 3 (.run true) ++
    [.add_task () (.ofCb 1 1), .tickle (), .tickle (), .wake true] ++
    List.replicate 6 (.run true) ++ [.add_task () (.ofCb 2 (-1))]

theorem wake_up_lost :
    (∃ tr s, Run (system fun _ : Unit => 7) initial tr s ∧ tr.map Move.act = raced ∧ s.Stuck) ∧
    ∃ tr s, Run (system fun l : Bool => if l then 2 else 1) initial tr s ∧
      tr.map Move.act = hidden ∧ s.Stuck := by
  constructor
  · have hrun : (traceAll (next fun _ : Unit => 7) initial raced).map (fun r =>
        ((decide r.2.Unpinned, r.2.pipe), r.2.producer (), r.2.worker ())) =
        some ((true, 0), none, .blocked) := by decide +kernel
    obtain ⟨tr, s, hr, hacts, hobs⟩ := Run.exists_of_traceAll _ (next_sound _) _ hrun
    simp only [Prod.mk.injEq] at hobs
    obtain ⟨⟨hu, hpipe⟩, hproducer, hworker⟩ := hobs
    have hworkers : ∀ l, ¬ (s.worker l).Pending := by
      intro _
      rw [hworker]
      exact id
    exact ⟨tr, s, hr, hacts, of_decide_eq_true hu, ⟨(), hworker⟩, hpipe, fun _ => hproducer,
      hworkers⟩
  · have hrun : (traceAll (next fun l : Bool => if l then 2 else 1) initial hidden).map (fun r =>
        ((decide r.2.Unpinned, r.2.pipe), r.2.producer (), r.2.worker false, r.2.worker true)) =
        some ((true, 0), none, .execute ⟨0, .ofCb 0 1⟩, .blocked) := by decide +kernel
    obtain ⟨tr, s, hr, hacts, hobs⟩ := Run.exists_of_traceAll _ (next_sound _) _ hrun
    simp only [Prod.mk.injEq] at hobs
    obtain ⟨⟨hu, hpipe⟩, hproducer, hfalse, htrue⟩ := hobs
    have hworkers : ∀ l, ¬ (s.worker l).Pending := by
      intro l
      cases l
      · rw [hfalse]
        exact id
      · rw [htrue]
        exact id
    exact ⟨tr, s, hr, hacts, of_decide_eq_true hu, ⟨true, htrue⟩, hpipe, fun _ => hproducer,
      hworkers⟩

end Workers

end FiberAsync
