import FiberAsync.ClosedDescriptors
import FiberAsync.Library.Retries

/-!
# Hooked calls as blocking calls

What a fiber sees of `do_io`, whatever the other fibers, the threads in `idle` and
the timers do meanwhile: a call makes underlying calls of its own function on its
own descriptor, `EINTR` and `EAGAIN` lead to another one, and it returns the result
of the last. Only `EBADF`, before the first, and `ETIMEDOUT`, after one of the two,
are made up by `do_io` itself, and only after one of the two the call can end with
the exception of `addEvent`.
-/

namespace FiberAsync

set_option autoImplicit false

open Runs

/-- Which results of underlying calls `do_io` keeps to itself, and which it makes up. -/
def blocking : Retries.Policy (Returned Nat) where
  transient r := r = .error .EINTR ∨ r = .error .EAGAIN
  refusal r := r = .error .EBADF
  expiry r := r = .error .ETIMEDOUT

/-- A value, or an error that `do_io` does not know. -/
def Returned.settled : Returned Nat → Bool
  | .ok _ | .error (.other _) => true
  | .error _ => false

theorem settled_final {r : Returned Nat} (h : r.settled = true) : blocking.Final r := by
  rcases r with (_ | _ | _ | _ | code) | n
  case error.other | ok => exact ⟨nofun, nofun, nofun⟩
  all_goals cases h

namespace IoPc

/-- Where the call of a fiber at `pc` is, for the fiber. -/
def Shows (pc : IoPc) (p : Retries.Phase IoCall (Returned Nat)) : Prop :=
  match pc with
  | .outside | .closing _ _ | .timedOut _ _ => p = .idle
  | .entry c | .direct c => p = .called c
  | .attempt c _ => p = .called c ∨ p = .retrying c
  | .arm c _ | .addEvent c _ | .yield c _ | .threw c _ | .suspended c _ | .resumed c _ =>
    p = .retrying c
  | .returned c r => p = .done c r

/-- What a fiber sees when it goes on from one position to another. -/
def sees : IoPc → IoPc → Option (Retries.Act IoCall (Returned Nat))
  | .returned c r, _ => some (.back c r)
  | .entry c, .returned _ r => some (.refuse c r)
  | .resumed c _, .returned _ r => some (.giveUp c r)
  | .threw c _, _ => some (.throw c)
  | _, _ => none

end IoPc

namespace IoFibers

/-- What the fiber sees of a step. -/
def seen (i : FiberId) (m : Move IoFibers IoAct) : Option (Retries.Act IoCall (Returned Nat)) :=
  match m.act with
  | .io j c => if j = i then some (.call c) else none
  | .result j r => if j = i then (m.pre.fiber i).calls.map (.attempt · r) else none
  | .run j => if j = i then (m.pre.fiber i).sees (m.post.fiber i) else none
  | _ => none

/-- What the fiber has seen leads from `p` to its position `pc`. -/
def Leads (o : Option (Retries.Act IoCall (Returned Nat)))
    (p : Retries.Phase IoCall (Returned Nat)) (pc : IoPc) : Prop :=
  o = none ∧ pc.Shows p ∨ ∃ b q, o = some b ∧ Retries.Step blocking p b q ∧ pc.Shows q

variable {s s' : IoFibers} {a : IoAct} {i j : FiberId} {r : Returned Nat} {pc pc' : IoPc}
  {o : Option (Retries.Act IoCall (Returned Nat))} {p : Retries.Phase IoCall (Returned Nat)}
  {tr : List (Move IoFibers IoAct)}

/-- A step that leaves all fibers where they are. -/
theorem leads_same (hp : (s.fiber i).Shows p) (hfiber : s'.fiber = s.fiber)
    (hseen : seen i ⟨s, a, s'⟩ = none) : Leads (seen i ⟨s, a, s'⟩) p (s'.fiber i) :=
  Or.inl ⟨hseen, by rw [hfiber]; exact hp⟩

/-- A step of the fiber itself is checked at its positions, and one of another fiber shows
nothing. -/
theorem leads_update (hp : (s.fiber i).Shows p) (hpc : s.fiber j = pc)
    (hfiber : s'.fiber = Function.update s.fiber j pc')
    (hseen : seen i ⟨s, a, s'⟩ = if j = i then o else none)
    (hself : pc.Shows p → Leads o p pc') : Leads (seen i ⟨s, a, s'⟩) p (s'.fiber i) := by
  rw [hseen, hfiber]
  by_cases hj : j = i
  · subst j
    rw [if_pos rfl, Function.update_self]
    exact hself (hpc ▸ hp)
  · rw [if_neg hj, Function.update_of_ne (Ne.symm hj)]
    exact Or.inl ⟨rfl, hp⟩

theorem leads_run (hp : (s.fiber i).Shows p) (hpc : s.fiber j = pc)
    (hfiber : s'.fiber = Function.update s.fiber j pc')
    (hself : pc.Shows p → Leads (pc.sees pc') p pc') :
    Leads (seen i ⟨s, .run j, s'⟩) p (s'.fiber i) := by
  refine leads_update hp hpc hfiber ?_ hself
  by_cases hj : j = i
  · subst j
    simp only [seen, if_true, hpc, hfiber, Function.update_self]
  · simp only [seen, if_neg hj]

theorem RunStep.leads (htimeouts : s.OnlyTimeouts) (hp : (s.fiber i).Shows p)
    (h : RunStep s j s') : Leads (seen i ⟨s, .run j, s'⟩) p (s'.fiber i) := by
  cases h with
  | direct c hpc => exact leads_run hp hpc rfl fun h => Or.inl ⟨rfl, h⟩
  | wait c timeout hpc => exact leads_run hp hpc rfl fun h => Or.inl ⟨rfl, Or.inl h⟩
  | again c w hpc => exact leads_run hp hpc rfl fun h => Or.inl ⟨rfl, Or.inr h⟩
  | arm c w condTimers hpc | addEvent c w th hpc | yield c w hpc =>
    exact leads_run hp hpc rfl fun h => Or.inl ⟨rfl, h⟩
  | get fd at_ hpc | cancelAll fd th hpc | del fd fdMgr hpc | close_f fd hpc
  | timedOut fd e th hpc => exact leads_run hp hpc rfl fun h => Or.inl ⟨rfl, h⟩
  | closed c hpc =>
    refine leads_run hp hpc rfl fun h => ?_
    cases h
    exact Or.inr ⟨_, _, rfl, .refuse c _ rfl, rfl⟩
  | expired c w e hpc hinfo =>
    have he : blocking.expiry (.error e) := congrArg _ (htimeouts w.tinfo e hinfo)
    refine leads_run hp hpc rfl fun h => ?_
    cases h
    exact Or.inr ⟨_, _, rfl, .giveUp c _ he, rfl⟩
  | threw c w hpc =>
    refine leads_run hp hpc rfl fun h => ?_
    cases h
    exact Or.inr ⟨_, _, rfl, .throw c, rfl⟩
  | created c fd o p hpc | back c r hpc =>
    refine leads_run hp hpc rfl fun h => ?_
    cases h
    exact Or.inr ⟨_, _, rfl, .back c _, rfl⟩

theorem seen_result (hpc : s.fiber j = pc) :
    seen i ⟨s, .result j r, s'⟩ = if j = i then pc.calls.map (.attempt · r) else none := by
  by_cases hj : j = i
  · subst j
    simp only [seen, if_true, hpc]
  · simp only [seen, if_neg hj]

theorem result_leads (hp : (s.fiber i).Shows p) (h : s.result j r = some s') :
    Leads (seen i ⟨s, .result j r, s'⟩) p (s'.fiber i) := by
  unfold result at h
  split at h
  case h_1 c hpc =>
    cases h
    refine leads_update hp hpc (congrArg (Function.update · j _) answered_fiber) (seen_result hpc)
      fun h => ?_
    cases h
    exact Or.inr ⟨_, _, rfl, .answer c r, rfl⟩
  case h_2 c w hpc =>
    -- the result of an attempt is kept by `do_io` or returned
    rcases r with (_ | _ | _ | _ | code) | n <;> cases h
    case error.EINTR =>
      have hfiber : s.fiber = Function.update s.fiber j (.attempt c w) := by
        rw [← hpc, Function.update_eq_self]
      exact leads_update hp hpc hfiber (seen_result hpc) fun h =>
        Or.inr ⟨_, _, rfl, .attempt_transient h (Or.inl rfl), Or.inr rfl⟩
    case error.EAGAIN =>
      exact leads_update hp hpc rfl (seen_result hpc) fun h =>
        Or.inr ⟨_, _, rfl, .attempt_transient h (Or.inr rfl), rfl⟩
    all_goals
      refine leads_update hp hpc (congrArg (Function.update · j _) answered_fiber)
        (seen_result hpc) fun h => Or.inr ⟨_, _, rfl, .attempt_lasting h ?_, rfl⟩
      exact nofun
  case h_3 => cases h

theorem leads_step (htimeouts : s.OnlyTimeouts) (hp : (s.fiber i).Shows p)
    (hs : system.step s a s') : Leads (seen i ⟨s, a, s'⟩) p (s'.fiber i) := by
  cases stepped_of_step hs with
  | io j c hpc =>
    refine leads_update hp hpc rfl rfl fun h => ?_
    cases h
    exact Or.inr ⟨_, _, rfl, .call c, rfl⟩
  | run j hrun => exact hrun.leads htimeouts hp
  | direct | answer | retry | again => exact result_leads hp hs.2
  | close j fd hpc | timeout j k t hpc =>
    exact leads_update hp hpc rfl (ite_self none).symm fun h => Or.inl ⟨rfl, h⟩
  | resume j n c w hpc | threw j c w th hpc =>
    exact leads_update hp hpc rfl (ite_self none).symm fun h => Or.inl ⟨rfl, h⟩
  | hooked | take | add_task | event | skipped => exact leads_same hp rfl rfl

/-- For each fiber its hooked calls are blocking calls, and every result of an underlying call
but `EINTR`, `EAGAIN`, `EBADF` and `ETIMEDOUT` is returned once, by the call that has it. -/
theorem io_blocking (hr : Run system s tr s') (hinit : system.init s) (i : FiberId) :
    ∃ tr' p, Run (Retries.system blocking) .idle tr' p ∧
      tr'.map Move.act = tr.filterMap (seen i) ∧ (s'.fiber i).Shows p ∧
      (tr.filterMap (seen i)).filterMap (Retries.Act.attempted Returned.settled) =
        (tr.filterMap (seen i)).filterMap (Retries.Act.returned Returned.settled) ++
          (p.pending Returned.settled).toList := by
  have hstart : s.OnlyTimeouts ∧ (s.fiber i).Shows .idle := by
    refine ⟨initial_onlyTimeouts hinit, ?_⟩
    obtain ⟨files, rfl⟩ := hinit
    exact rfl
  have step_sim : ∀ {s a s' p}, s.OnlyTimeouts ∧ (s.fiber i).Shows p → system.step s a s' →
      seen i ⟨s, a, s'⟩ = none ∧ s'.OnlyTimeouts ∧ (s'.fiber i).Shows p ∨
      ∃ b q, seen i ⟨s, a, s'⟩ = some b ∧ Retries.Step blocking p b q ∧
        s'.OnlyTimeouts ∧ (s'.fiber i).Shows q := by
    intro s a s' p h hs
    obtain ⟨htimeouts, hp⟩ := h
    have hkept := htimeouts.step (stepped_of_step hs)
    rcases leads_step htimeouts hp hs with ⟨hnone, hp'⟩ | ⟨b, q, hsome, hstep, hq⟩
    · exact Or.inl ⟨hnone, hkept, hp'⟩
    · exact Or.inr ⟨b, q, hsome, hstep, hkept, hq⟩
  obtain ⟨tr', p, hrun, hacts, _, hp⟩ := Run.observe (T := Retries.system blocking) (seen i)
    (fun s p => s.OnlyTimeouts ∧ (s.fiber i).Shows p) step_sim hr hstart
  refine ⟨tr', p, hrun, hacts, hp, ?_⟩
  rw [← hacts]
  exact Retries.attempted_eq_returned (fun _ => settled_final) hrun

/-- Fiber 1 reads from a socket: it sleeps until the descriptor is ready, is interrupted once
and then gets its bytes. -/
def retried : List IoAct :=
  [.hooked 1 (.socket 2 1 0 5), .io 1 ⟨.read, 5⟩, .run 1, .result 1 (.error .EAGAIN), .run 1,
    .run 1] ++ List.replicate 5 (.event (.run 1)) ++
  [.run 1, .event (.report 2 [(5, EPOLLIN)])] ++ List.replicate 11 (.event (.run 2)) ++
  [.resume 1 0, .run 1, .result 1 (.error .EINTR), .result 1 (.ok 7), .run 1]

theorem io_blocking_retried : ∃ tr s, Run system (initial fun _ => none) tr s ∧
    tr.map Move.act = retried ∧
    tr.filterMap (seen 1) = [.call ⟨.read, 5⟩, .attempt ⟨.read, 5⟩ (.error .EAGAIN),
      .attempt ⟨.read, 5⟩ (.error .EINTR), .attempt ⟨.read, 5⟩ (.ok 7), .back ⟨.read, 5⟩ (.ok 7)] ∧
    ∃ tr' p, Run (Retries.system blocking) .idle tr' p ∧
      tr'.map Move.act = tr.filterMap (seen 1) ∧ (s.fiber 1).Shows p ∧
      (tr.filterMap (seen 1)).filterMap (Retries.Act.attempted Returned.settled) =
        (tr.filterMap (seen 1)).filterMap (Retries.Act.returned Returned.settled) ++
          (p.pending Returned.settled).toList := by
  have hrun : (traceAll next (initial fun _ => none) retried).map
      (fun r => r.1.filterMap (seen 1)) =
      some [.call ⟨.read, 5⟩, .attempt ⟨.read, 5⟩ (.error .EAGAIN),
        .attempt ⟨.read, 5⟩ (.error .EINTR), .attempt ⟨.read, 5⟩ (.ok 7),
        .back ⟨.read, 5⟩ (.ok 7)] := by decide +kernel
  obtain ⟨tr, s, hr, hacts, hobs⟩ := Run.exists_of_traceAll next next_sound
    (fun r => r.1.filterMap (seen 1)) hrun
  exact ⟨tr, s, hr, hacts, hobs, io_blocking hr ⟨_, rfl⟩ 1⟩

end IoFibers

end FiberAsync
