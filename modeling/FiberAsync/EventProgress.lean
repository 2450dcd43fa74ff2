import FiberAsync.EventExclusion
import FiberAsync.Library.Counting

/-!
# The mutexes of the contexts do not deadlock

Whoever owns the mutex of a context is in the section it guards, from which no
other context's mutex is locked: the mutexes are never nested. Each call takes a
bounded number of steps. What a section waits for otherwise, the lock of the task
queue and the write to the pipe of `tickle`, is left out.
-/

namespace FiberAsync

set_option autoImplicit false

open Runs Results Locks Counting

namespace RemovePc

/-- How many more steps the call takes at most. -/
def remaining : RemovePc → Nat
  | find => 4
  | lock _ => 3
  | locked _ => 2
  | unlock _ => 1

def waits : RemovePc → Option ContextPtr
  | lock p => some p
  | _ => none

end RemovePc

namespace Pc

/-- How many more steps the call takes at most: 20 for a report with two events. -/
def remaining : Pc → Nat
  | outside => 0
  | addFind _ => 6
  | addGrow _ => 5
  | addOp _ _ => 4
  | addLock _ _ _ => 3
  | addLocked _ _ _ => 2
  | addUnlock _ => 1
  | remove _ _ at_ => at_.remaining
  | idleLock _ _ more => 20 * more.length + 20
  | idleLocked _ _ more => 20 * more.length + 19
  | idleContinue _ more => 20 * more.length + 1
  | idleUnlock _ real more => 20 * more.length + 8 * real.length + 2
  | idleTrigger _ _ es more => 20 * more.length + 8 * es.length + 9
  | idleReset _ _ es more => 20 * more.length + 8 * es.length + 8
  | idleDel _ _ es more => 20 * more.length + 8 * es.length + 7
  | idleDeleting _ _ es more _ at_ => 20 * more.length + 8 * es.length + at_.remaining + 2
  | idleDecrement _ es more => 20 * more.length + 8 * es.length + 2
  | idleEnd _ more => 20 * more.length + 1

/-- The mutex that the next step of the thread locks. -/
def waits : Pc → Option ContextPtr
  | addLock _ _ p | idleLock p _ _ => some p
  | remove _ _ at_ | idleDeleting _ _ _ _ _ at_ => at_.waits
  | _ => none

theorem remaining_nextReport (more : List Report) :
    (nextReport more).remaining = 20 * more.length := by
  cases more with
  | nil => rfl
  | cons r more => exact (Nat.mul_succ 20 _).symm

theorem remaining_process (p : ContextPtr) (more : List Report) (es : List Event) :
    (process p more es).remaining = 20 * more.length + 8 * es.length + 1 := by
  cases es with
  | nil => rfl
  | cons e es =>
    simp only [process, remaining, List.length_cons]
    omega

theorem realList_length (real : EventMask) : (realList real).length ≤ 2 :=
  List.length_filter_le _ _

theorem waits_of_region {pc : Pc} {p : ContextPtr} (h : pc.region = some p) : pc.waits = none := by
  cases pc with
  | remove k fd at_ | idleDeleting q e es more fd at_ => cases at_ <;> first | rfl | cases h
  | addLock | idleLock => cases h
  | _ => rfl

end Pc

namespace Shared

variable {sh sh' : Shared} {t : Tid} {p : ContextPtr} {pc pc' : Pc}

theorem RemoveSteps.remaining_lt {k : Removal} {cause : Cause} {fd : Nat} {at_ : RemovePc}
    {o : Option RemovePc} (h : RemoveSteps sh t k cause fd at_ sh' o) :
    (o.map RemovePc.remaining).getD 0 < at_.remaining := by
  cases h <;> simp [RemovePc.remaining]

theorem Steps.remaining_lt (h : Steps sh t pc sh' pc') : pc'.remaining < pc.remaining := by
  cases h with
  | removeStep h | removeReturn h => exact h.remaining_lt
  | deleteStep h | deleteReturn h =>
    have hlt := h.remaining_lt
    simp only [Option.map_some, Option.map_none, Option.getD_some, Option.getD_none] at hlt
    simp only [Pc.remaining]
    omega
  | @idleDispatch p events _ _ =>
    have hlen := Pc.realList_length (IOManager.realEvents (sh.io.contexts p) events)
    simp only [Pc.remaining]
    omega
  | idleContinue | idleEnd =>
    rw [Pc.remaining_nextReport]
    simp only [Pc.remaining]
    omega
  | idleUnlock | idleDecrement =>
    rw [Pc.remaining_process]
    simp only [Pc.remaining]
    omega
  | _ =>
    simp only [Pc.remaining, RemovePc.remaining]
    omega

theorem orStop_ne_blocked {α : Type} (x : Except Fault α) : orStop x ≠ .error .blocked := by
  cases x <;> simp [orStop]

theorem calls_lock_blocked : sh.calls t p Guard.new.2 = .error .blocked ↔ sh.owner p ≠ none := by
  simp only [Guard.new, calls, call]
  split
  · rename_i hfree
    simp [hfree, bind, Except.bind]
  · rename_i hheld
    simp [hheld, bind, Except.bind]

theorem calls_unlock_ne_blocked : sh.calls t p [.unlock] ≠ .error .blocked := by
  simp [calls, call, bind, Except.bind]

theorem removeStep_blocked {k : Removal} {cause : Cause} {fd : Nat} {at_ : RemovePc}
    (h : sh.removeStep t k cause fd at_ = .error .blocked) :
    ∃ p, at_.waits = some p ∧ sh.owner p ≠ none := by
  cases at_ with
  | find =>
    rcases bind_eq_error.mp h with h | ⟨_ | p, _, h⟩
    · exact absurd h (orStop_ne_blocked _)
    · cases h
    · cases h
  | lock p =>
    rcases bind_eq_error.mp h with h | ⟨_, _, h⟩
    · exact ⟨p, rfl, calls_lock_blocked.mp h⟩
    · cases h
  | locked p =>
    rcases bind_eq_error.mp h with h | ⟨_, _, h⟩
    · exact absurd h (orStop_ne_blocked _)
    · cases h
  | unlock p =>
    rcases bind_eq_error.mp h with h | ⟨_, _, h⟩
    · exact absurd h calls_unlock_ne_blocked
    · cases h

/-- A thread inside a call waits for a mutex that is taken, or it can go on. -/
theorem step_blocked (h : sh.step t pc = .error .blocked) :
    pc = .outside ∨ ∃ p, pc.waits = some p ∧ sh.owner p ≠ none := by
  cases pc with
  | outside => exact Or.inl rfl
  | addOp c p => cases h
  | idleReset p e es more => cases h
  | idleDel p e es more => cases h
  | idleDecrement p es more => cases h
  | addFind c =>
    rcases bind_eq_error.mp h with h | ⟨_ | p, _, h⟩
    · exact absurd h (orStop_ne_blocked _)
    · cases h
    · cases h
  | addGrow c | addLocked c op p | idleTrigger p e es more =>
    rcases bind_eq_error.mp h with h | ⟨_, _, h⟩
    · exact absurd h (orStop_ne_blocked _)
    · cases h
  | addLock c op p | idleLock p events more =>
    rcases bind_eq_error.mp h with h | ⟨_, _, h⟩
    · exact Or.inr ⟨p, rfl, calls_lock_blocked.mp h⟩
    · cases h
  | addUnlock p | idleContinue p more | idleUnlock p real more | idleEnd p more =>
    rcases bind_eq_error.mp h with h | ⟨_, _, h⟩
    · exact absurd h calls_unlock_ne_blocked
    · cases h
  | idleLocked p events more =>
    simp only [step] at h
    split at h <;> cases h
  | remove k fd at_ =>
    rcases bind_eq_error.mp h with h | ⟨⟨_, _ | _⟩, _, h⟩
    · exact Or.inr (removeStep_blocked h)
    · cases h
    · cases h
  | idleDeleting p e es more fd at_ =>
    rcases bind_eq_error.mp h with h | ⟨⟨_, _ | _⟩, _, h⟩
    · exact Or.inr (removeStep_blocked h)
    · cases h
    · cases h

end Shared

/-- The steps that a call takes at most, with 20 for each report that `idle` processes. -/
def Act.cost : Act → Nat
  | .addEvent _ _ => 6
  | .remove _ _ _ => 4
  | .report _ reports => 20 * reports.length
  | .run _ => 0

/-- The act is a step of a call, and not its beginning. -/
def Act.spent : Act → Nat
  | .run _ => 1
  | _ => 0

namespace Threads

variable {s s' : Threads} {t : Tid} {a : Act} {tr : List (Move Threads Act)}

def HeldOk (s : Threads) : Prop := Held s.owner (Pc.region ∘ s.pc)

theorem HeldOk.start {pc : Pc} (hs : s.HeldOk) (hpc : pc.region = none)
    (h : s.start t pc = .ok s') : s'.HeldOk := by
  obtain ⟨hout, rfl⟩ := start_ok_iff.mp h
  unfold HeldOk
  rw [Function.comp_update]
  apply Held.stay hs
  rw [hpc, Function.comp_apply, hout]
  rfl

theorem HeldOk.exec (hs : s.HeldOk) (h : s.exec a = .ok s') : s'.HeldOk := by
  cases a with
  | addEvent t c => exact hs.start rfl h
  | remove t k fd => exact hs.start rfl h
  | report t reports => exact hs.start (Pc.region_nextReport reports) h
  | run t =>
    obtain ⟨sh, pc, hstep, rfl⟩ := steps_of_run h
    unfold HeldOk
    rw [Function.comp_update]
    rcases hstep.lockEffect with ⟨_, ho, hr⟩ | ⟨p, _, _, hout, hr, ho⟩ |
      ⟨p, _, hin, hr, ho⟩ | ⟨p, _, hout, hr, ho⟩
    · rw [ho]
      exact Held.stay hs hr
    · rw [ho, hr]
      exact Held.acquire hs hout
    · rw [ho, hr]
      exact Held.release hs hin
    · rw [ho, hr]
      exact Held.stay (Held.free hs p) hout.symm

theorem heldOk_of_run (hr : Run system initial tr s) : s.HeldOk :=
  hr.invariant HeldOk (fun hs (hstep : system.step _ _ _) => HeldOk.exec hs hstep.2)
    fun t p h => (by cases h)

/-- Whoever is waited for waits for no mutex of a context. -/
theorem HeldOk.blocked (hs : s.HeldOk) (hin : s.pc t ≠ .outside)
    (h : s.exec (.run t) = .error .blocked) :
    ∃ p u, (s.pc t).waits = some p ∧ s.owner p = some u ∧ (s.pc u).region = some p ∧
      (s.pc u).waits = none := by
  have hblocked : s.toShared.step t (s.pc t) = .error .blocked := by
    rcases bind_eq_error.mp h with h | ⟨_, _, h⟩
    · exact h
    · cases h
  rcases Shared.step_blocked hblocked with hout | ⟨p, hwaits, howner⟩
  · exact absurd hout hin
  · obtain ⟨u, hu⟩ := Option.ne_none_iff_exists'.mp howner
    have hregion : (s.pc u).region = some p := hs u p hu
    exact ⟨p, u, hwaits, hu, hregion, Pc.waits_of_region hregion⟩

theorem exec_pays {b : Finset Tid} (ha : a.tid ∈ b) (h : s.exec a = .ok s') :
    total b Pc.remaining s'.pc + a.spent ≤ total b Pc.remaining s.pc + a.cost := by
  have hstart : ∀ {t pc}, t ∈ b → s.start t pc = .ok s' →
      total b Pc.remaining s'.pc ≤ total b Pc.remaining s.pc + pc.remaining := by
    intro t pc ht h
    obtain ⟨hout, rfl⟩ := start_ok_iff.mp h
    have htotal := total_update Pc.remaining s.pc ht pc
    change total b Pc.remaining (Function.update s.pc t pc) ≤ _
    omega
  cases a with
  | addEvent t c => exact hstart ha h
  | remove t k fd => exact hstart ha h
  | report t reports =>
    have hle := hstart ha h
    rw [Pc.remaining_nextReport] at hle
    exact hle
  | run t =>
    obtain ⟨sh, pc, hstep, rfl⟩ := steps_of_run h
    have ht : t ∈ b := ha
    have htotal := total_update Pc.remaining s.pc ht pc
    have hlt := hstep.remaining_lt
    simp only [Act.spent, Act.cost]
    omega

/-- The calls of any number of threads end, in whatever order the threads take their
steps: all together they take at most six steps for each `addEvent`, four for each
removal and twenty for each report, and where a thread waits for a context's mutex the thread
that holds it waits for none. -/
theorem calls_end (hr : Run system initial tr s) :
    (tr.map fun m => m.act.spent).sum ≤ (tr.map fun m => m.act.cost).sum ∧
      ∀ t, s.pc t ≠ .outside → s.exec (.run t) = .error .blocked →
        ∃ p u, (s.pc t).waits = some p ∧ s.owner p = some u ∧ (s.pc u).region = some p ∧
          (s.pc u).waits = none := by
  refine ⟨?_, fun t => (heldOk_of_run hr).blocked⟩
  have hpays := hr.amortized (total (tr.map fun m => m.act.tid).toFinset Pc.remaining ·.pc)
    Act.spent Act.cost fun m hm hstep =>
      exec_pays (List.mem_toFinset.mpr (List.mem_map_of_mem (f := fun m => m.act.tid) hm)) hstep.2
  have hzero : total (tr.map fun m => m.act.tid).toFinset Pc.remaining initial.pc = 0 :=
    (total_eq_zero_iff _ _).mpr fun _ _ => rfl
  omega

/-- Thread 0 is in the section of the context of 5, and thread 1 waits for its mutex. -/
def contending : List Act :=
  [.addEvent 0 ⟨5, .READ, some 0, ⟨some 0, 0, true⟩⟩, .run 0, .run 0, .run 0,
    .remove 1 .cancelAll 5, .run 1]

theorem calls_end_contending : ∃ tr s, Run system initial tr s ∧ tr.map Move.act = contending ∧
    (tr.map fun m => m.act.spent).sum ≤ (tr.map fun m => m.act.cost).sum ∧
    s.exec (.run 1) = .error .blocked ∧
    ∃ p u, (s.pc 1).waits = some p ∧ s.owner p = some u ∧ (s.pc u).region = some p ∧
      (s.pc u).waits = none := by
  have hrun : (traceAll next initial contending).map (fun r =>
      decide (r.2.pc 1 ≠ .outside) && errorOf (r.2.exec (.run 1)) == some .blocked) =
      some true := by decide +kernel
  obtain ⟨tr, s, hr, hacts, hobs⟩ := Run.exists_of_traceAll next next_sound _ hrun
  obtain ⟨hin, hblocked⟩ := Bool.and_eq_true_iff.mp hobs
  have hwaits := errorOf_eq_some.mp (eq_of_beq hblocked)
  obtain ⟨hcost, hnext⟩ := calls_end hr
  exact ⟨tr, s, hr, hacts, hcost, hwaits, hnext 1 (of_decide_eq_true hin) hwaits⟩

end Threads

end FiberAsync
