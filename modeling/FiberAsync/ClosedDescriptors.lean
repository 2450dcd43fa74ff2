import FiberAsync.HookFrames
import FiberAsync.HookedIo

/-!
# Fibers that wait on a closed descriptor

`close` wakes the fibers that wait on a descriptor and closes it before any of
them runs again. `do_io` tells only a timeout from the other wake-ups, so a woken
fiber calls the underlying function on the number once more: it can only get
`EBADF` from that call, which comes after the descriptor has been closed.
-/

namespace FiberAsync

set_option autoImplicit false

open Runs Results

/-- The call for which the fiber is in the loop of `do_io`. -/
def IoPc.waiting : IoPc → Option IoCall
  | attempt c _ | arm c _ | addEvent c _ | yield c _ | suspended c _ | resumed c _ => some c
  | _ => none

namespace IoFibers

section Moves

variable (i : FiberId) (fd : Nat) (m : Move IoFibers IoAct)

/-- `close_f(fd)` is called. -/
def Closes : Prop := ∃ j, m.act = .run j ∧ m.pre.fiber j = .closing fd .close_f

/-- The fiber makes an underlying call on the number. -/
def Calls : Prop := ∃ c r, m.act = .result i r ∧ (m.pre.fiber i).calls = some c ∧ c.fd = fd

def Returns (r : Returned Nat) : Prop := ∃ c, m.post.fiber i = .returned c r

/-- The fiber's call of `do_io` returns or throws. -/
def Ends : Prop := (∃ r, Returns i m r) ∨ ∃ c w, m.post.fiber i = .threw c w

end Moves

/-- The fiber makes an underlying call on the number after `close_f(fd)`. -/
def Late (i : FiberId) (fd : Nat) (tr : List (Move IoFibers IoAct)) : Prop :=
  ∃ l y l', tr = l ++ y :: l' ∧ Closes fd y ∧ ∃ x ∈ l', Calls i fd x

/-- The fiber's call ends with -1 and `EBADF`, and until then the fiber makes no
underlying call on the number after `close_f(fd)`. -/
def Honoured (i : FiberId) (fd : Nat) (tr : List (Move IoFibers IoAct)) : Prop :=
  ∃ l x l', tr = l ++ x :: l' ∧ (∀ y ∈ l, ¬ Ends i y) ∧ Returns i x (.error .EBADF) ∧
    ¬ Late i fd (l ++ [x])

/-- `tinfo->cnacelled` is zero or `ETIMEDOUT`. -/
def OnlyTimeouts (s : IoFibers) : Prop := ∀ k e, s.infos k = some ⟨some e⟩ → e = .ETIMEDOUT

/-- How a fiber goes on in the loop of `do_io`. -/
inductive GoesOn (s : IoFibers) (a : IoAct) (i : FiberId) (c : IoCall) : IoPc → Prop where
  | waiting (pc : IoPc) : pc.waiting = some c → GoesOn s a i c pc
  | threw (w : IoWait) : GoesOn s a i c (.threw c w)
  | expired (k : Nat) (e : Errno) : a = .run i → s.infos k = some ⟨some e⟩ →
      GoesOn s a i c (.returned c (.error e))
  | result (r : Returned Nat) : a = .result i r → (s.fiber i).calls = some c → s.Answer c r →
      GoesOn s a i c (.returned c r)

variable {s s' : IoFibers} {a : IoAct} {i j : FiberId} {c : IoCall} {fd n : Nat} {r : Returned Nat}

theorem answered_fiber : (s.answered c r).fiber = s.fiber := by
  unfold answered
  split <;> rfl

theorem answered_infos : (s.answered c r).infos = s.infos := by
  unfold answered
  split <;> rfl

theorem Answer.ne_EBADF (h : s.Answer c r) (hsocket : s.kernel.IsSocket c.fd) :
    r ≠ .error .EBADF := by
  rintro rfl
  obtain ⟨f, hf, hsock⟩ := (Option.any_eq_true _ _).mp hsocket
  unfold Answer at h
  rw [hf] at h
  exact h hsock rfl

/-- A step of the fiber itself goes on from `pc` to `pc'`, and a step of another one leaves it
where it is. -/
theorem GoesOn.of_update {pc pc' : IoPc} (hc : (s.fiber i).waiting = some c)
    (hfiber : s'.fiber = Function.update s.fiber j pc') (hpc : s.fiber j = pc)
    (hself : pc.waiting = some c → j = i → GoesOn s a i c pc') : GoesOn s a i c (s'.fiber i) := by
  rw [hfiber]
  by_cases hj : i = j
  · subst j
    rw [Function.update_self]
    exact hself (hpc ▸ hc) rfl
  · rw [Function.update_of_ne hj]
    exact .waiting _ hc

theorem RunStep.goesOn (h : RunStep s j s') (hc : (s.fiber i).waiting = some c) :
    GoesOn s (.run j) i c (s'.fiber i) := by
  cases h with
  | direct c hpc | closed c hpc | wait c timeout hpc => exact .of_update hc rfl hpc nofun
  | arm c w condTimers hpc | yield c w hpc | again c w hpc =>
    exact .of_update hc rfl hpc fun hw _ => .waiting _ hw
  | addEvent c w th hpc => exact .of_update hc rfl hpc fun hw _ => .waiting _ hw
  | expired c w e hpc hinfo =>
    refine .of_update hc rfl hpc fun hw hj => ?_
    cases hw
    exact .expired w.tinfo e (hj ▸ rfl) hinfo
  | created c fd o p hpc | back c r hpc | threw c w hpc => exact .of_update hc rfl hpc nofun
  | get fd at_ hpc | cancelAll fd th hpc | del fd fdMgr hpc | close_f fd hpc =>
    exact .of_update hc rfl hpc nofun
  | timedOut fd e th hpc => exact .of_update hc rfl hpc nofun

theorem Stepped.goesOn (h : Stepped s a s') (hc : (s.fiber i).waiting = some c) :
    GoesOn s a i c (s'.fiber i) := by
  cases h with
  | io j c hpc => exact .of_update hc rfl hpc nofun
  | close j fd hpc => exact .of_update hc rfl hpc nofun
  | timeout j k t hpc => exact .of_update hc rfl hpc nofun
  | run j hrun => exact hrun.goesOn hc
  | direct j c r hpc =>
    exact .of_update hc (congrArg (Function.update · j _) answered_fiber) hpc nofun
  | answer j c w r hpc hanswer =>
    refine .of_update hc (congrArg (Function.update · j _) answered_fiber) hpc fun hw hj => ?_
    cases hw
    subst hj
    exact .result r rfl (hpc ▸ rfl) hanswer
  | again j c w hpc | resume j n c w hpc =>
    exact .of_update hc rfl hpc fun hw _ => .waiting _ hw
  | threw j c w th hpc =>
    refine .of_update hc rfl hpc fun hw _ => ?_
    cases hw
    exact .threw w
  | hooked | retry | take | add_task | event | skipped => exact .waiting _ hc

theorem OnlyTimeouts.update (h : s.OnlyTimeouts) {k : Nat} {o : Option TimerInfo}
    (hinfos : s'.infos = Function.update s.infos k o)
    (ho : ∀ e, o = some ⟨some e⟩ → e = .ETIMEDOUT) : s'.OnlyTimeouts := by
  intro k' e he
  rw [hinfos] at he
  by_cases hk : k' = k
  · subst k'
    rw [Function.update_self] at he
    exact ho e he
  · rw [Function.update_of_ne hk] at he
    exact h k' e he

theorem OnlyTimeouts.answered (h : s.OnlyTimeouts) : (s.answered c r).OnlyTimeouts :=
  fun k e he => h k e (answered_infos ▸ he)

theorem OnlyTimeouts.step (h : s.OnlyTimeouts) (hs : Stepped s a s') : s'.OnlyTimeouts := by
  cases hs with
  | run j hrun =>
    cases hrun with
    | wait => exact h.update rfl (by simp)
    | expired | threw => exact h.update rfl nofun
    | _ => exact h
  | direct => exact h.answered
  | answer => exact h.answered.update rfl nofun
  | timeout => exact h.update rfl (by simp)
  | _ => exact h

theorem proc_isSocket {p : Process Files} {call : Call} (hsingle : call.single = true)
    (h : s.proc.exec call = .ok p) (hsocket : s.kernel.IsSocket n) : p.kernel.IsSocket n := by
  have hresult : ∀ {α : Type} {x : Except Fault (α × Process Files)}, x.map Prod.snd = .ok p →
      ∃ r, x = .ok (r, p) := by
    intro α x hx
    cases x with
    | error e => cases hx
    | ok y =>
      cases hx
      exact ⟨y.1, rfl⟩
  cases call with
  | accept | close => cases hsingle
  | socket domain type protocol next =>
    obtain ⟨r, hr⟩ := hresult h
    exact (Files.linux_keeps next n).socket hr hsocket
  | setfl fd arg =>
    obtain ⟨r, hr⟩ := hresult h
    exact (Files.linux_keeps 0 n).fcntlSETFL hr hsocket
  | getfl fd =>
    obtain ⟨r, hr⟩ := hresult h
    exact (Files.linux_keeps 0 n).fcntlGETFL hr hsocket
  | fionbio fd value =>
    obtain ⟨r, hr⟩ := hresult h
    exact Syscalls.Keeps.ioctlFIONBIO (Files.linux_keeps 0 n) hr hsocket
  | setsockopt fd opt =>
    obtain ⟨r, hr⟩ := hresult h
    exact (Files.linux_keeps 0 n).setsockopt hr hsocket

theorem answered_isSocket (hsocket : s.kernel.IsSocket n) : (s.answered c r).kernel.IsSocket n := by
  unfold answered
  split
  · exact hsocket.accept_f _ _
  · exact hsocket

theorem Stepped.isSocket (h : Stepped s a s') (hsocket : s.kernel.IsSocket n) :
    s'.kernel.IsSocket n ∨ Closes n ⟨s, a, s'⟩ := by
  cases h with
  | hooked i call p _ hsingle hp => exact Or.inl (proc_isSocket hsingle hp hsocket)
  | run j hrun =>
    cases hrun with
    | created c fd o p _ hp => exact Or.inl ((Files.linux_keeps 0 n).getCreate hp hsocket)
    | close_f fd hpc =>
      by_cases hn : n = fd
      · subst fd
        exact Or.inr ⟨j, rfl, hpc⟩
      · exact Or.inl (hsocket.close_f hn 0)
    | _ => exact Or.inl hsocket
  | direct | answer => exact Or.inl (answered_isSocket hsocket)
  | _ => exact Or.inl hsocket

/-- What holds after the moves `tr`, made since the fiber waited for a call on an open socket. -/
structure Waited (i : FiberId) (c : IoCall) (tr : List (Move IoFibers IoAct)) (s : IoFibers) :
    Prop where
  timeouts : s.OnlyTimeouts
  waiting : (∀ m ∈ tr, ¬ Ends i m) → (s.fiber i).waiting = some c
  socket : s.kernel.IsSocket c.fd ∨ ∃ m ∈ tr, Closes c.fd m

theorem Waited.step {tr : List (Move IoFibers IoAct)} (h : Waited i c tr s)
    (hs : Stepped s a s') : Waited i c (tr ++ [⟨s, a, s'⟩]) s' where
  timeouts := h.timeouts.step hs
  waiting := fun hnone => by
    obtain ⟨hbefore, hlast⟩ := List.forall_mem_append.mp hnone
    have hgoes := hs.goesOn (h.waiting hbefore)
    have hpost : ¬ Ends i ⟨s, a, s'⟩ := hlast _ (List.mem_singleton.mpr rfl)
    generalize hpc : s'.fiber i = pc at hgoes
    cases hgoes with
    | waiting _ hw => exact hw
    | threw w => exact absurd (Or.inr ⟨c, w, hpc⟩) hpost
    | expired k e => exact absurd (Or.inl ⟨_, c, hpc⟩) hpost
    | result r => exact absurd (Or.inl ⟨r, c, hpc⟩) hpost
  socket := by
    rcases h.socket with hsocket | ⟨m, hm, hcloses⟩
    · rcases hs.isSocket hsocket with hsocket | hcloses
      · exact Or.inl hsocket
      · exact Or.inr ⟨_, List.mem_append_right _ (List.mem_singleton.mpr rfl), hcloses⟩
    · exact Or.inr ⟨m, List.mem_append_left _ hm, hcloses⟩

/-- A fiber that has waited returns `ETIMEDOUT`, or the result of a call of its
own that is not `EBADF` unless the descriptor has been closed before. -/
theorem Waited.returned {tr : List (Move IoFibers IoAct)} (h : Waited i c tr s)
    (hnone : ∀ m ∈ tr, ¬ Ends i m) (hs : Stepped s a s')
    (hreturn : Returns i ⟨s, a, s'⟩ r) : r = .error .ETIMEDOUT ∨
      Calls i c.fd ⟨s, a, s'⟩ ∧ (r = .error .EBADF → ∃ m ∈ tr, Closes c.fd m) := by
  obtain ⟨c', hpost⟩ := hreturn
  change s'.fiber i = .returned c' r at hpost
  have hgoes := hs.goesOn (h.waiting hnone)
  rw [hpost] at hgoes
  cases hgoes with
  | waiting _ hw => cases hw
  | expired k e _ hinfo =>
    rw [h.timeouts k e hinfo]
    exact Or.inl rfl
  | result _ ha hcalls hanswer =>
    refine Or.inr ⟨⟨c, r, ha, hcalls, rfl⟩, fun hr => ?_⟩
    exact h.socket.resolve_left fun hsocket => hanswer.ne_EBADF hsocket hr

theorem initial_onlyTimeouts (h : system.init s) : s.OnlyTimeouts := by
  obtain ⟨files, rfl⟩ := h
  exact nofun

/-- No fiber that is in the loop of `do_io` on a socket when `close` is called on
it returns `EBADF` without an underlying call on the number after `close_f`. -/
theorem close_not_honoured {before after : List (Move IoFibers IoAct)} {m : Move IoFibers IoAct}
    {w : IoWait} (hr : Run system s (before ++ m :: after) s') (hinit : system.init s)
    (hsuspended : m.pre.fiber i = .suspended c w) (hsocket : m.pre.kernel.IsSocket c.fd)
    (hclose : m.act = .close j c.fd) : ¬ Honoured i c.fd after := by
  intro hhonoured
  obtain ⟨l, x, l', rfl, hnone, hreturn, hlate⟩ := hhonoured
  obtain ⟨hbefore, hm, hafter⟩ := hr.split_at
  obtain ⟨hl, hx, _⟩ := hafter.split_at
  have keeps : ∀ {s a s'}, OnlyTimeouts s → system.step s a s' → OnlyTimeouts s' :=
    fun h hs => h.step (stepped_of_step hs)
  have htimeouts := hbefore.invariant OnlyTimeouts keeps (initial_onlyTimeouts hinit)
  have hpost : Waited i c [] m.post := by
    obtain ⟨s₀, a, s₁⟩ := m
    subst hclose
    have hstepped : Stepped s₀ (.close j c.fd) s₁ := stepped_of_step hm
    cases hstepped with
    | close _ _ hpc =>
      refine ⟨htimeouts, fun _ => ?_, Or.inl hsocket⟩
      have hne : i ≠ j := fun hij => by
        rw [← hij, hsuspended] at hpc
        cases hpc
      change (Function.update s₀.fiber j _ i).waiting = some c
      rw [Function.update_of_ne hne, hsuspended]
      rfl
  have hwaited : Waited i c l x.pre :=
    hl.history (Waited i c) (fun h hs => h.step (stepped_of_step hs)) hpost
  rcases hwaited.returned hnone (stepped_of_step hx) hreturn with htimeout | ⟨hcalls, hclosed⟩
  · cases htimeout
  · obtain ⟨y, hy, hcloses⟩ := hclosed rfl
    obtain ⟨l₁, l₂, rfl⟩ := List.append_of_mem hy
    refine hlate ⟨l₁, y, l₂ ++ [x], by simp, hcloses, x, by simp, hcalls⟩

/-- Fiber 1 waits on a socket, fiber 2 closes it and gets the number for a new
socket, and fiber 1 reads from that one. -/
def reuse : List IoAct :=
  [.hooked 1 (.socket 2 1 0 5), .io 1 ⟨.read, 5⟩, .run 1, .result 1 (.error .EAGAIN), .run 1,
    .run 1] ++ List.replicate 5 (.event (.run 1)) ++ [.run 1, .close 2 5, .run 2, .run 2] ++
  List.replicate 4 (.event (.run 2)) ++
  [.run 2, .run 2, .hooked 2 (.socket 2 1 0 5), .resume 1 0, .run 1, .result 1 (.ok 7)]

theorem reuse_trace : (traceAll next (initial fun _ => none) reuse).map (fun r =>
    (r.1[12]?.map fun m => (m.pre.fiber 1, decide (m.pre.kernel.IsSocket 5)),
      r.1[20]?.map fun m => m.pre.fiber 2, r.1[24]?.map fun m => (m.pre.fiber 1).calls,
      r.2.fiber 1)) =
    some (some (.suspended ⟨.read, 5⟩ ⟨-1, 0⟩, true), some (.closing 5 .close_f),
      some (some ⟨.read, 5⟩), .returned ⟨.read, 5⟩ (.ok 7)) := by decide +kernel

theorem read_after_close : ∃ before m after s,
    Run system (initial fun _ => none) (before ++ m :: after) s ∧ m.act = .close 2 5 ∧
    m.pre.fiber 1 = .suspended ⟨.read, 5⟩ ⟨-1, 0⟩ ∧ m.pre.kernel.IsSocket 5 ∧
    Late 1 5 after ∧ s.fiber 1 = .returned ⟨.read, 5⟩ (.ok 7) := by
  obtain ⟨tr, s, hr, hacts, hobs⟩ := Run.exists_of_traceAll next next_sound _ reuse_trace
  obtain ⟨hwaits, hcloses, hcalls, hreturned⟩ : _ ∧ _ ∧ _ ∧ _ := by
    simpa only [Prod.mk.injEq] using hobs
  obtain ⟨m, hm, hobs⟩ := Option.map_eq_some_iff.mp hwaits
  obtain ⟨hsuspended, hsocket⟩ := Prod.mk.inj hobs
  obtain ⟨y, hy, hcloses⟩ := Option.map_eq_some_iff.mp hcloses
  obtain ⟨x, hx, hcalls⟩ := Option.map_eq_some_iff.mp hcalls
  have hclose : m.act = .close 2 5 := (Option.some.inj (act_of_getElem hm hacts)).symm
  have hrun : y.act = .run 2 := (Option.some.inj (act_of_getElem hy hacts)).symm
  have hresult : x.act = .result 1 (.ok 7) := (Option.some.inj (act_of_getElem hx hacts)).symm
  have hlate : Late 1 5 (tr.drop 13) := by
    have hy' : (tr.drop 13)[7]? = some y := by rw [List.getElem?_drop]; exact hy
    have hx' : ((tr.drop 13).drop 8)[3]? = some x := by
      rw [List.getElem?_drop, List.getElem?_drop]
      exact hx
    exact ⟨_, y, _, eq_take_append_drop hy', ⟨2, hrun, hcloses⟩, x, List.mem_of_getElem? hx',
      _, _, hresult, hcalls, rfl⟩
  exact ⟨tr.take 12, m, tr.drop 13, s, eq_take_append_drop hm ▸ hr, hclose, hsuspended,
    of_decide_eq_true hsocket, hlate, hreturned⟩

theorem close_not_honoured_reuse : ∃ before m after s,
    Run system (initial fun _ => none) (before ++ m :: after) s ∧ m.act = .close 2 5 ∧
    ¬ Honoured 1 5 after := by
  obtain ⟨tr, s, hr, hacts, hobs⟩ := Run.exists_of_traceAll next next_sound _ reuse_trace
  change tr.map Move.act = reuse at hacts
  obtain ⟨m, hm, hobs⟩ : ∃ m, tr[12]? = some m ∧ _ :=
    Option.map_eq_some_iff.mp (Prod.mk.inj hobs).1
  obtain ⟨hsuspended, hsocket⟩ := Prod.mk.inj hobs
  have hclose : m.act = .close 2 5 := (Option.some.inj (act_of_getElem hm hacts)).symm
  have hr' := eq_take_append_drop hm ▸ hr
  exact ⟨_, m, _, s, hr', hclose, close_not_honoured hr' ⟨_, rfl⟩ hsuspended
    (of_decide_eq_true hsocket) hclose⟩

end IoFibers

end FiberAsync
