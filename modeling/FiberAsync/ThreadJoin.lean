import FiberAsync.Library.Runs
import Mathlib.Logic.Function.Basic

/-!
# Threads and those who join them

Any number of `Thread` objects, the pthreads that they make, and the calls of
`join`, also those of `stop`. `join` never looks at `m_tid`: it takes `m_pid`,
which the new thread stores and the constructor leaves as it was, for a handle. A
thread that the library did not make is an object that nobody joins. A handle here is
any number. glibc's are addresses, so `m_pid` is the handle of no thread there, and
where `pthread_join` fails below and `join` throws, glibc follows the number into
memory that is not its own.
-/

namespace FiberAsync

set_option autoImplicit false

open Runs

/-- The members of a `Thread` that `join` could use. -/
structure Thread where
  m_pid : BitVec 32
  m_tid : BitVec 64
  deriving DecidableEq, Repr

/-- The `pthread_t` that an argument `m_pid` is converted to. -/
def Thread.handle (t : Thread) : BitVec 64 := t.m_pid.signExtend 64

/-- How far a thread is in `ThreadFunc`. -/
inductive ThreadPhase where
  | absent
  /-- `m_pid` has not been stored -/
  | started
  /-- in `cb()`, or before it -/
  | running
  /-- `cb()` has returned -/
  | returned
  deriving DecidableEq, Repr

inductive JoinPc where
  | outside
  /-- `m_pid` was not 0, `pthread_join` is next -/
  | calling
  /-- in `pthread_join`, for a thread that has the handle -/
  | waiting (j : Nat)
  | returned
  | threw
  deriving DecidableEq, Repr

inductive StopPc where
  | outside
  /-- before `threads.swap(_threads)` -/
  | entered
  | joining (threads : List Nat)
  | inJoin (i : Nat) (threads : List Nat)
  | returned
  /-- a `join` has thrown, which nothing catches -/
  | threw
  deriving DecidableEq, Repr

namespace StopPc

/-- The threads of `stop` that have not been joined. -/
def threads : StopPc → List Nat
  | joining l => l
  | inJoin i l => i :: l
  | _ => []

def swapped : StopPc → Bool
  | joining _ | inJoin _ _ | returned => true
  | _ => false

end StopPc

structure ThreadPool where
  object : Nat → Thread
  phase : Nat → ThreadPhase
  created : List Nat
  /-- neither joined nor detached -/
  joinable : Nat → Bool
  join : Nat → JoinPc
  _threads : List Nat
  _stopping : Bool
  stop : StopPc
  /-- the workers that `start()` has made -/
  workers : List Nat

namespace ThreadPool

inductive Act where
  /-- the constructor; `pthread_create` gives out a handle, `m_pid` is what was in its place -/
  | create (i : Nat) (handle : BitVec 64) (m_pid : BitVec 32)
  /-- the same in the loop of `start()` -/
  | start (i : Nat) (handle : BitVec 64) (m_pid : BitVec 32)
  /-- `thr->m_pid = syscall(SYS_gettid);` -/
  | gettid (i : Nat) (tid : BitVec 32)
  /-- the callback of the thread returns -/
  | finish (i : Nat)
  /-- `join()` begins with `if (m_pid)` -/
  | join (i : Nat)
  | pthread_join (i : Nat)
  /-- `pthread_join` has waited -/
  | joined (i : Nat)
  | destroy (i : Nat)
  /-- `stop()` begins; `quiet` if no task is left or being executed -/
  | stop (quiet : Bool)
  /-- the next statement of `stop()` -/
  | next
  deriving DecidableEq, Repr

def initial : ThreadPool where
  object _ := ⟨0, 0⟩
  phase _ := .absent
  created := []
  joinable _ := false
  join _ := .outside
  _threads := []
  _stopping := false
  stop := .outside
  workers := []

section Functions

variable (s : ThreadPool)

/-- The thread that `pthread_join` and `pthread_detach` take a handle for. -/
def find (handle : BitVec 64) : Option Nat :=
  s.created.find? fun j => s.joinable j && (s.object j).m_tid == handle

/-- Nobody is in a call of `join` on the object. -/
def idle (i : Nat) : Bool := s.join i = .outside ∨ s.join i = .returned ∨ s.join i = .threw

def setJoin (i : Nat) (pc : JoinPc) : ThreadPool := { s with join := Function.update s.join i pc }

def create (i : Nat) (handle : BitVec 64) (m_pid : BitVec 32) : Option ThreadPool :=
  if s.phase i = .absent ∧ s.find handle = none then
    some { s with
      object := Function.update s.object i ⟨m_pid, handle⟩
      phase := Function.update s.phase i .started
      created := i :: s.created
      joinable := Function.update s.joinable i true }
  else none

/-- The test of `join()`. -/
def joinTest (i : Nat) : Option ThreadPool :=
  if s.phase i ≠ .absent ∧ s.idle i then
    some (s.setJoin i (if (s.object i).m_pid = 0 then .returned else .calling))
  else none

/-- `pthread_join(m_pid, nullptr)`; a handle that no thread has is an error. -/
def pthreadJoin (i : Nat) : Option ThreadPool :=
  if s.join i = .calling then
    match s.find (s.object i).handle with
    | some j => some (s.setJoin i (.waiting j))
    | none => some (s.setJoin i .threw)
  else none

/-- `m_pid = 0;` -/
def joined (i : Nat) : Option ThreadPool :=
  match s.join i with
  | .waiting j =>
    if s.phase j = .returned then
      some { s.setJoin i .returned with
        object := Function.update s.object i { s.object i with m_pid := 0 }
        joinable := Function.update s.joinable j false }
    else none
  | _ => none

/-- `~Thread()` -/
def destroy (i : Nat) : Option ThreadPool :=
  if s.idle i then
    if (s.object i).m_pid = 0 then some s
    else
      match s.find (s.object i).handle with
      | some j => some { s with joinable := Function.update s.joinable j false }
      | none => some s
  else none

def stopCall (quiet : Bool) : Option ThreadPool :=
  if s.stop = .outside ∨ s.stop = .returned then
    if s._stopping ∧ quiet then some { s with stop := .returned }
    else some { s with _stopping := true, stop := .entered }
  else none

def stopNext : Option ThreadPool :=
  match s.stop with
  | .entered => some { s with _threads := [], stop := .joining s._threads }
  | .joining [] => some { s with stop := .returned }
  | .joining (i :: threads) => (s.joinTest i).map fun s => { s with stop := .inJoin i threads }
  | .inJoin i threads =>
    match s.join i with
    | .returned => some { s with stop := .joining threads }
    | .threw => some { s with stop := .threw }
    | _ => none
  | _ => none

def exec : Act → Option ThreadPool
  | .create i handle m_pid => s.create i handle m_pid
  | .start i handle m_pid =>
    if s._stopping then none
    else (s.create i handle m_pid).map fun s =>
      { s with _threads := s._threads ++ [i], workers := s.workers ++ [i] }
  | .gettid i tid =>
    if s.phase i = .started ∧ tid ≠ 0 then
      some { s with
        object := Function.update s.object i { s.object i with m_pid := tid }
        phase := Function.update s.phase i .running }
    else none
  | .finish i =>
    if s.phase i = .running then
      some { s with phase := Function.update s.phase i .returned }
    else none
  | .join i => s.joinTest i
  | .pthread_join i => s.pthreadJoin i
  | .joined i => s.joined i
  | .destroy i => s.destroy i
  | .stop quiet => s.stopCall quiet
  | .next => s.stopNext

def system : System ThreadPool Act where
  init s := s = initial
  step s a s' := s.exec a = some s'

/-- `join()` has returned, in the call that was made last, only if the callback has. -/
def JoinWaits : Prop := ∀ i, s.join i = .returned → s.phase i = .returned

/-- `stop()` has returned only if every worker has left `run()`. -/
def StopWaits : Prop := s.stop = .returned → ∀ i ∈ s.workers, s.phase i = .returned

/-- The object whose `m_pid` a step tests. -/
def tests : Act → Option Nat
  | .join i => some i
  | .next => match s.stop with
    | .joining (i :: _) => some i
    | _ => none
  | _ => none

/-- The object whose `m_pid` a step passes to `pthread_join`. -/
def passes : Act → Option Nat
  | .pthread_join i => some i
  | _ => none

/-- A test of `m_pid` finds it set, unless a `join` of the object has returned before,
and `pthread_join` is called with the handle of no other thread. -/
def Identifies (a : Act) : Prop :=
  (∀ i ∈ s.tests a, (s.object i).m_pid ≠ 0 ∨ s.join i = .returned) ∧
  ∀ i ∈ passes a, ∀ j ∈ s.find (s.object i).handle, j = i

instance (a : Act) : Decidable (s.Identifies a) := inferInstanceAs (Decidable
  ((∀ i ∈ s.tests a, (s.object i).m_pid ≠ 0 ∨ s.join i = .returned) ∧
    ∀ i ∈ passes a, ∀ j ∈ s.find (s.object i).handle, j = i))

end Functions

/-- What keeps `join` and `stop` waiting. -/
structure Joins (s : ThreadPool) : Prop where
  waiting : ∀ i j, s.join i = .waiting j → j = i
  joined : s.JoinWaits
  workers : s.stop ≠ .threw →
    ∀ i ∈ s.workers, i ∈ s._threads ∨ i ∈ s.stop.threads ∨ s.phase i = .returned
  swapped : s.stop.swapped = true → s._threads = []
  stopping : s._stopping = true ↔ s.stop ≠ .outside

namespace Joins

variable {s s' : ThreadPool} {i : Nat} {pc : JoinPc}

theorem stopWaits (h : Joins s) : s.StopWaits := by
  intro hstop i hi
  have hthreads := h.swapped (by rw [hstop]; rfl)
  rcases h.workers (by rw [hstop]; simp) i hi with hi | hi | hi
  · rw [hthreads] at hi
    cases hi
  · rw [hstop] at hi
    cases hi
  · exact hi

/-- A step that is not about `join` and `stop`, and lets no thread out of `ThreadFunc` again. -/
theorem of_same (h : Joins s) (hjoin : s'.join = s.join)
    (hphase : ∀ k, s.phase k = .returned → s'.phase k = .returned)
    (hthreads : s'._threads = s._threads) (hstop : s'.stop = s.stop)
    (hworkers : s'.workers = s.workers) (hstopping : s'._stopping = s._stopping) : Joins s' where
  waiting i j hi := h.waiting i j (by rw [← hjoin, hi])
  joined i hi := hphase i (h.joined i (by rw [← hjoin, hi]))
  workers hne k hk := by
    rw [hstop] at hne
    rw [hworkers] at hk
    rw [hthreads, hstop]
    exact (h.workers hne k hk).imp_right (Or.imp_right (hphase k))
  swapped hs := by
    rw [hstop] at hs
    rw [hthreads, h.swapped hs]
  stopping := by
    rw [hstopping, hstop]
    exact h.stopping

theorem returned_of_update {k : Nat} {p : ThreadPhase} (hi : s.phase i ≠ .returned)
    (hk : s.phase k = .returned) : Function.update s.phase i p k = .returned := by
  rw [Function.update_of_ne]
  · exact hk
  · rintro rfl
    exact hi hk

theorem setJoin (h : Joins s) (hwaiting : ∀ j, pc = .waiting j → j = i)
    (hreturned : pc = .returned → s.phase i = .returned) : Joins (s.setJoin i pc) where
  waiting k j hk := by
    by_cases hki : k = i
    · subst k
      exact hwaiting j ((Function.update_self ..).symm.trans hk)
    · exact h.waiting k j ((Function.update_of_ne hki ..).symm.trans hk)
  joined k hk := by
    by_cases hki : k = i
    · subst k
      exact hreturned ((Function.update_self ..).symm.trans hk)
    · exact h.joined k ((Function.update_of_ne hki ..).symm.trans hk)
  workers := h.workers
  swapped := h.swapped
  stopping := h.stopping

theorem create (h : Joins s) {handle : BitVec 64} {m_pid : BitVec 32}
    (hs : s.create i handle m_pid = some s') :
    Joins s' ∧ s'.stop = s.stop ∧ s'._threads = s._threads ∧ s'.workers = s.workers := by
  obtain ⟨⟨habsent, _⟩, hs⟩ := Option.ite_none_right_eq_some.mp hs
  cases hs
  have hne : s.phase i ≠ .returned := by
    rw [habsent]
    simp
  exact ⟨h.of_same rfl (fun k hk => returned_of_update hne hk) rfl rfl rfl rfl, rfl, rfl, rfl⟩

theorem joinTest (h : Joins s) (hset : (s.object i).m_pid ≠ 0 ∨ s.join i = .returned)
    (hs : s.joinTest i = some s') : Joins s' := by
  obtain ⟨_, hs⟩ := Option.ite_none_right_eq_some.mp hs
  cases hs
  refine h.setJoin (fun j hj => ?_) (fun hreturned => ?_)
  · split at hj <;> cases hj
  · split at hreturned
    · rename_i hzero
      exact h.joined i (hset.resolve_left (fun hne => hne hzero))
    · cases hreturned

theorem pthreadJoin (h : Joins s)
    (hown : ∀ j, s.find (s.object i).handle = some j → j = i)
    (hs : s.pthreadJoin i = some s') : Joins s' := by
  obtain ⟨_, hs⟩ := Option.ite_none_right_eq_some.mp hs
  cases hfind : s.find (s.object i).handle with
  | none =>
    rw [hfind] at hs
    cases hs
    exact h.setJoin (by simp) (by simp)
  | some j =>
    rw [hfind] at hs
    cases hs
    refine h.setJoin (fun k hk => ?_) (by simp)
    cases hk
    exact hown j hfind

theorem joinedStep (h : Joins s) (hs : s.joined i = some s') : Joins s' := by
  cases hi : s.join i with
  | waiting j =>
    have hji := h.waiting i j hi
    subst j
    have hs' : (if s.phase i = .returned then some { s.setJoin i .returned with
        object := Function.update s.object i { s.object i with m_pid := 0 }
        joinable := Function.update s.joinable i false } else none) = some s' := by
      rw [← hs, ThreadPool.joined, hi]
    obtain ⟨hreturned, heq⟩ := Option.ite_none_right_eq_some.mp hs'
    cases heq
    have hset : Joins (s.setJoin i .returned) := h.setJoin (by simp) (fun _ => hreturned)
    exact hset.of_same rfl (fun _ hk => hk) rfl rfl rfl rfl
  | _ =>
    rw [ThreadPool.joined, hi] at hs
    cases hs

theorem destroy (h : Joins s) (hs : s.destroy i = some s') : Joins s' := by
  have hsame : ∀ joinable, Joins { s with joinable } := fun _ =>
    h.of_same rfl (fun _ hk => hk) rfl rfl rfl rfl
  obtain ⟨_, hs⟩ := Option.ite_none_right_eq_some.mp hs
  split at hs
  · cases hs
    exact h
  · cases hfind : s.find (s.object i).handle <;> rw [hfind] at hs <;> cases hs
    · exact h
    · exact hsame _

theorem setStop (h : Joins s) {stop : StopPc} (hstop : s.stop ≠ .outside ∧ stop ≠ .outside)
    (hworkers : stop ≠ .threw → ∀ k ∈ s.workers,
      k ∈ s._threads ∨ k ∈ stop.threads ∨ s.phase k = .returned)
    (hswapped : stop.swapped = true → s._threads = []) : Joins { s with stop } :=
  ⟨h.waiting, h.joined, hworkers, hswapped, iff_of_true (h.stopping.mpr hstop.1) hstop.2⟩

theorem stopCall (h : Joins s) {quiet : Bool} (hs : s.stopCall quiet = some s') : Joins s' := by
  obtain ⟨hpc, hs⟩ := Option.ite_none_right_eq_some.mp hs
  split at hs
  · rename_i hquiet
    cases hs
    have hstop : s.stop = .returned := hpc.resolve_left (h.stopping.mp hquiet.1)
    exact h.of_same rfl (fun _ hk => hk) rfl hstop.symm rfl rfl
  · cases hs
    have hthreads : s.stop.threads = [] := by
      rcases hpc with hpc | hpc <;> rw [hpc] <;> rfl
    have hne : s.stop ≠ .threw := by
      rcases hpc with hpc | hpc <;> rw [hpc] <;> simp
    refine ⟨h.waiting, h.joined, fun _ k hk => ?_, fun hswapped => ?_, by simp⟩
    · rcases h.workers hne k hk with hk | hk | hk
      · exact Or.inl hk
      · rw [hthreads] at hk
        cases hk
      · exact Or.inr (Or.inr hk)
    · cases hswapped

/-- `threads.swap(_threads);` -/
theorem swap (h : Joins s) (hstop : s.stop = .entered) :
    Joins { s with _threads := [], stop := .joining s._threads } := by
  have hout : s._stopping = true := h.stopping.mpr (by simp [hstop])
  refine ⟨h.waiting, h.joined, fun _ k hk => ?_, fun _ => rfl, by simp [hout]⟩
  rcases h.workers (by simp [hstop]) k hk with hk | hk | hk
  · exact Or.inr (Or.inl hk)
  · rw [hstop] at hk
    cases hk
  · exact Or.inr (Or.inr hk)

theorem stopNext (h : Joins s) (hs : s.stopNext = some s')
    (hset : ∀ i ∈ s.tests .next, (s.object i).m_pid ≠ 0 ∨ s.join i = .returned) :
    Joins s' := by
  cases hstop : s.stop with
  | entered =>
    rw [ThreadPool.stopNext, hstop] at hs
    cases hs
    exact h.swap hstop
  | joining threads =>
    have hthreads := h.swapped (by rw [hstop]; rfl)
    have hworkers := h.workers (by simp [hstop])
    rw [hstop] at hworkers
    cases threads with
    | nil =>
      rw [ThreadPool.stopNext, hstop] at hs
      cases hs
      exact h.setStop (by simp [hstop]) (fun _ => hworkers) (fun _ => hthreads)
    | cons i threads =>
      rw [ThreadPool.stopNext, hstop] at hs
      obtain ⟨t, htest, heq⟩ := Option.map_eq_some_iff.mp hs
      cases heq
      have ht := h.joinTest (hset i (by rw [ThreadPool.tests, hstop]; rfl)) htest
      obtain ⟨_, htest⟩ := Option.ite_none_right_eq_some.mp htest
      cases htest
      exact ht.setStop (by simp [ThreadPool.setJoin, hstop]) (fun _ => hworkers) (fun _ => hthreads)
  | inJoin i threads =>
    have hthreads := h.swapped (by rw [hstop]; rfl)
    have hworkers := h.workers (by simp [hstop])
    rw [hstop] at hworkers
    rw [ThreadPool.stopNext, hstop] at hs
    cases hjoin : s.join i with
    | returned =>
      simp only [hjoin] at hs
      cases hs
      refine h.setStop (by simp [hstop]) (fun _ k hk => ?_) (fun _ => hthreads)
      rcases hworkers k hk with hk | hk | hk
      · exact Or.inl hk
      · rcases List.mem_cons.mp hk with rfl | hk
        · exact Or.inr (Or.inr (h.joined k hjoin))
        · exact Or.inr (Or.inl hk)
      · exact Or.inr (Or.inr hk)
    | threw =>
      simp only [hjoin] at hs
      cases hs
      exact h.setStop (by simp [hstop]) (fun hne => absurd rfl hne)
        (fun hswapped => by cases hswapped)
    | outside | calling | waiting =>
      simp only [hjoin] at hs
      cases hs
  | outside | returned | threw =>
    rw [ThreadPool.stopNext, hstop] at hs
    cases hs

/-- The loop of `start()`, which a scheduler does not execute any more once it stops. -/
theorem start (h : Joins s) {handle : BitVec 64} {m_pid : BitVec 32} {t : ThreadPool}
    (hstopping : s._stopping = false) (hs : s.create i handle m_pid = some t) :
    Joins { t with _threads := t._threads ++ [i], workers := t.workers ++ [i] } := by
  obtain ⟨ht, hstop, hthreads, hworkers⟩ := h.create hs
  have hout : t.stop = .outside := by
    by_contra hne
    have htrue := h.stopping.mpr (hstop ▸ hne)
    rw [hstopping] at htrue
    cases htrue
  refine ⟨ht.waiting, ht.joined, fun _ k hk => ?_, fun hswapped => ?_, ht.stopping⟩
  · rcases List.mem_append.mp hk with hk | hk
    · refine (ht.workers (by simp [hout]) k hk).imp_left fun hmem => ?_
      exact List.mem_append_left _ hmem
    · exact Or.inl (List.mem_append_right _ hk)
  · rw [show t.stop = .outside from hout] at hswapped
    cases hswapped

theorem step {a : Act} (h : Joins s) (ha : s.Identifies a) (hs : s.exec a = some s') :
    Joins s' := by
  cases a with
  | create i handle m_pid => exact (h.create hs).1
  | start i handle m_pid =>
    cases hstopping : s._stopping with
    | true =>
      rw [ThreadPool.exec, hstopping] at hs
      cases hs
    | false =>
      rw [ThreadPool.exec, hstopping] at hs
      obtain ⟨t, hcreate, heq⟩ := Option.map_eq_some_iff.mp hs
      cases heq
      exact h.start hstopping hcreate
  | gettid i tid =>
    obtain ⟨⟨hstarted, _⟩, hs⟩ := Option.ite_none_right_eq_some.mp hs
    cases hs
    have hne : s.phase i ≠ .returned := by
      rw [hstarted]
      simp
    exact h.of_same rfl (fun k hk => returned_of_update hne hk) rfl rfl rfl rfl
  | finish i =>
    obtain ⟨hrunning, hs⟩ := Option.ite_none_right_eq_some.mp hs
    cases hs
    have hne : s.phase i ≠ .returned := by
      rw [hrunning]
      simp
    exact h.of_same rfl (fun k hk => returned_of_update hne hk) rfl rfl rfl rfl
  | join i => exact h.joinTest (ha.1 i rfl) hs
  | pthread_join i => exact h.pthreadJoin (ha.2 i rfl) hs
  | joined i => exact h.joinedStep hs
  | destroy i => exact h.destroy hs
  | stop quiet => exact h.stopCall hs
  | next => exact h.stopNext hs ha.1

end Joins

theorem initial_joins : Joins initial := by
  refine ⟨?_, ?_, ?_, ?_, ?_⟩
  · intro i j h
    cases h
  · intro i h
    cases h
  · intro _ i h
    cases h
  · intro h
    cases h
  · simp [initial]

/-- While `m_pid` identifies the thread whenever `join` uses it, `join` and `stop`
return only after the threads they wait for. -/
theorem join_waits_run {tr : List (Move ThreadPool Act)} {s : ThreadPool}
    (h : Run system initial tr s) (hg : ∀ m ∈ tr, m.pre.Identifies m.act) :
    ∀ m ∈ tr, m.post.JoinWaits ∧ m.post.StopWaits := by
  intro m hm
  have hpost := (h.invariant_at_of_guard Joins Identifies
    (fun hj hi hs => hj.step hi hs) initial_joins hg hm).2
  exact ⟨hpost.joined, hpost.stopWaits⟩

/-- A worker whose kernel thread and handle have the same number, as glibc never makes
them, is stopped. -/
def waits : List Act :=
  [.start 0 5 77, .gettid 0 5, .stop false, .next, .next, .pthread_join 0, .finish 0, .joined 0,
    .next, .next]

theorem join_waits_run_worker : ∃ tr s, Run system initial tr s ∧ tr.map Move.act = waits ∧
    s.stop = .returned ∧ s.workers = [0] ∧ ∀ m ∈ tr, m.post.JoinWaits ∧ m.post.StopWaits := by
  have hrun : (traceAll exec initial waits).map (fun r => (r.2.stop, r.2.workers,
      r.1.all fun m => decide (m.pre.Identifies m.act))) = some (.returned, [0], true) := by
    decide +kernel
  obtain ⟨tr, s, hr, hacts, hobs⟩ := Run.exists_of_traceAll exec (S := system) id _ hrun
  simp only [Prod.mk.injEq] at hobs
  obtain ⟨hstop, hworkers, hall⟩ := hobs
  exact ⟨tr, s, hr, hacts, hstop, hworkers, join_waits_run hr fun m hm =>
    of_decide_eq_true (List.all_eq_true.mp hall m hm)⟩

/-- `stop()` tests `m_pid` before the worker has stored it, in memory that was zero. -/
def stopsEarly : List Act := [.start 0 0x7f0000001640#64 0, .stop false, .next, .next, .next, .next]

theorem stop_returns_early : ∃ tr s, Run system initial tr s ∧ tr.map Move.act = stopsEarly ∧
    s.join 0 = .returned ∧ s.stop = .returned ∧ s.phase 0 = .started ∧
    ¬ s.JoinWaits ∧ ¬ s.StopWaits := by
  have hrun : (traceAll exec initial stopsEarly).map
      (fun r => (r.2.join 0, r.2.stop, r.2.phase 0, r.2.workers)) =
      some (.returned, .returned, .started, [0]) := by decide +kernel
  obtain ⟨tr, s, hr, hacts, hobs⟩ := Run.exists_of_traceAll exec (S := system) id _ hrun
  simp only [Prod.mk.injEq] at hobs
  obtain ⟨hjoin, hstop, hphase, hworkers⟩ := hobs
  refine ⟨tr, s, hr, hacts, hjoin, hstop, hphase, fun hwaits => ?_, fun hwaits => ?_⟩
  · have hreturned := hwaits 0 hjoin
    rw [hphase] at hreturned
    cases hreturned
  · have hreturned := hwaits hstop 0 (by simp [hworkers])
    rw [hphase] at hreturned
    cases hreturned

end ThreadPool

end FiberAsync
