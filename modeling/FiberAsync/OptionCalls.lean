import FiberAsync.StatusFlags

/-!
# Option calls that fail

`fcntl(F_SETFL)`, `ioctl(FIONBIO)` and `setsockopt` with a timeout write to the
context of the descriptor and then make the underlying call, whose result they
return. They do not take the write back when that result is an error.
-/

namespace FiberAsync

set_option autoImplicit false

open Results

/-- A call that sets an option which the contexts record. -/
inductive OptionCall where
  | setfl (fd : Int) (arg : BitVec 32)
  | fionbio (d : Int) (value : BitVec 32)
  | timeout (sockfd : Int) (type : TimeoutType) (v : Timeval)
  deriving DecidableEq, Repr

namespace OptionCall

variable {κ : Type} (calls : Syscalls κ)

/-- The hooked function. -/
def exec (s : Process κ) : OptionCall → Except Fault (Returned Unit × Process κ)
  | setfl fd arg => s.fcntlSETFL calls fd arg
  | fionbio d value => s.ioctlFIONBIO calls d value
  | timeout sockfd type v => s.setsockopt calls sockfd (.timeout type v)

/-- The context that the call writes to, if it writes to one. -/
def target (s : Process κ) : OptionCall → Option FdCtxPtr
  | setfl fd _ | fionbio fd _ => (s.tracked fd).toOption.join
  | timeout sockfd _ _ => if s.t_hook_enable then (s.fdMgr.get sockfd).toOption.join else none

/-- The context with what the call asks for. -/
def written (ctx : FdCtx) : OptionCall → FdCtx
  | setfl _ arg => { ctx with m_userNonblock := arg &&& O_NONBLOCK ≠ 0#32 }
  | fionbio _ value => { ctx with m_userNonblock := value ≠ 0#32 }
  | timeout _ type v => ctx.setTimeout type (v.tv_sec * 1000 + v.tv_usec.sdiv 1000)

/-- The context with the field concerned from another one. -/
def withField (ctx ctx' : FdCtx) : OptionCall → FdCtx
  | setfl _ _ | fionbio _ _ => { ctx with m_userNonblock := ctx'.m_userNonblock }
  | timeout _ type _ => ctx.setTimeout type (ctx'.getTimeout type)

/-- The `arg` of the underlying `F_SETFL`. -/
def passed (s : Process κ) (p : Option FdCtxPtr) (arg : BitVec 32) : BitVec 32 :=
  p.elim arg fun p =>
    if (s.fdMgr.ctxs p).m_sysNonblock then arg ||| O_NONBLOCK else arg &&& ~~~O_NONBLOCK

/-- The underlying call. -/
def underlying (s : Process κ) (c : OptionCall) : κ → Returned Unit × κ :=
  match c with
  | setfl fd arg => calls.setfl_f fd (passed s (c.target s) arg)
  | fionbio d value => calls.fionbio_f d value
  | timeout sockfd type v => calls.setsockopt_f sockfd (.timeout type v)

def Fails (s : Process κ) (c : OptionCall) : Prop :=
  ∃ e, (c.underlying calls s s.kernel).1 = .error e

/-- It writes something else than what the context has. -/
def Changes (s : Process κ) (c : OptionCall) : Prop :=
  ∃ p ∈ c.target s, c.written (s.fdMgr.ctxs p) ≠ s.fdMgr.ctxs p

/-- Nothing but the field concerned of the descriptor's context has changed. -/
structure OnlyField (c : OptionCall) (s s' : Process κ) : Prop where
  table : s'.fdMgr.m_datas = s.fdMgr.m_datas ∧ s'.fdMgr.allocated = s.fdMgr.allocated
  others : ∀ p, p ∉ c.target s → s'.fdMgr.ctxs p = s.fdMgr.ctxs p
  field : ∀ p, s'.fdMgr.ctxs p = c.withField (s.fdMgr.ctxs p) (s'.fdMgr.ctxs p)

/-- A failing call leaves every context as it was, and a call that succeeds
changes the field concerned only. -/
structure Atomic (s : Process κ) (c : OptionCall) : Prop where
  failed : ∀ e s', c.exec calls s = .ok (.error e, s') → s'.fdMgr = s.fdMgr
  succeeded : ∀ s', c.exec calls s = .ok (.ok (), s') → c.OnlyField s s'

variable {calls} {s s' : Process κ} {c : OptionCall} {r : Returned Unit}

/-- The process after the write, before the underlying call. -/
def recorded (s : Process κ) (c : OptionCall) : Process κ :=
  (c.target s).elim s fun p => s.setCtx p (c.written (s.fdMgr.ctxs p))

theorem exec_ok (h : c.exec calls s = .ok (r, s')) :
    (r, s') = (c.recorded s).sys (c.underlying calls s) := by
  cases c with
  | setfl fd arg =>
    obtain ⟨o, ho, h⟩ := bind_eq_ok.mp h
    have htarget : (setfl fd arg).target s = o := by rw [target, ho]; rfl
    unfold recorded underlying
    rw [htarget]
    cases o <;> exact ok_eq_ok_iff.mp h
  | fionbio d value =>
    obtain ⟨o, ho, h⟩ := bind_eq_ok.mp h
    have htarget : (fionbio d value).target s = o := by rw [target, ho]; rfl
    unfold recorded underlying
    rw [htarget]
    cases o <;> exact ok_eq_ok_iff.mp h
  | timeout sockfd type v =>
    change s.setsockopt calls sockfd (.timeout type v) = _ at h
    unfold Process.setsockopt at h
    dsimp only at h
    cases hon : s.t_hook_enable with
    | false =>
      rw [hon, if_neg Bool.false_ne_true] at h
      have htarget : (timeout sockfd type v).target s = none := by simp [target, hon]
      unfold recorded underlying
      rw [htarget]
      exact ok_eq_ok_iff.mp h
    | true =>
      rw [hon, if_pos rfl] at h
      obtain ⟨o, ho, h⟩ := bind_eq_ok.mp h
      have htarget : (timeout sockfd type v).target s = o := by rw [target, if_pos hon, ho]; rfl
      unfold recorded underlying
      rw [htarget]
      cases o <;> exact ok_eq_ok_iff.mp h

section Write

variable (h : c.exec calls s = .ok (r, s'))
include h

theorem exec_result : (c.underlying calls s s.kernel).1 = r := by
  have hsys := congrArg Prod.fst (exec_ok h)
  have hkernel : (c.recorded s).kernel = s.kernel := by
    unfold recorded
    cases c.target s <;> rfl
  rw [← hkernel]
  exact hsys.symm

theorem exec_fdMgr : s'.fdMgr = (c.recorded s).fdMgr := by
  have hsys : s' = ((c.recorded s).sys (c.underlying calls s)).2 := congrArg Prod.snd (exec_ok h)
  rw [hsys]
  rfl

end Write

theorem withField_self (ctx : FdCtx) : c.withField ctx ctx = ctx := by
  cases c with
  | setfl | fionbio => rfl
  | timeout _ type _ => cases type <;> rfl

theorem withField_written (ctx : FdCtx) : c.withField ctx (c.written ctx) = c.written ctx := by
  cases c with
  | setfl | fionbio => rfl
  | timeout _ type _ => cases type <;> rfl

theorem recorded_of_none (ht : c.target s = none) : c.recorded s = s := by
  unfold recorded
  rw [ht]
  rfl

theorem recorded_of_some {p : FdCtxPtr} (ht : c.target s = some p) :
    c.recorded s = s.setCtx p (c.written (s.fdMgr.ctxs p)) := by
  unfold recorded
  rw [ht]
  rfl

theorem recorded_onlyField : c.OnlyField s (c.recorded s) := by
  cases ht : c.target s with
  | none =>
    rw [recorded_of_none ht]
    exact ⟨⟨rfl, rfl⟩, fun _ _ => rfl, fun p => (withField_self _).symm⟩
  | some p =>
    rw [recorded_of_some ht]
    refine ⟨⟨rfl, rfl⟩, fun q hq => ?_, fun q => ?_⟩
    · have hne : q ≠ p := fun heq => hq (heq ▸ ht)
      exact Function.update_of_ne hne _ _
    · change Function.update s.fdMgr.ctxs p _ q = c.withField _ (Function.update s.fdMgr.ctxs p _ q)
      by_cases hqp : q = p
      · subst q
        rw [Function.update_self, withField_written]
      · rw [Function.update_of_ne hqp, withField_self]

/-- The write leaves the contexts as they are exactly if it writes what is there. -/
theorem recorded_fdMgr_iff : (c.recorded s).fdMgr = s.fdMgr ↔ ¬ c.Changes s := by
  cases ht : c.target s with
  | none =>
    rw [recorded_of_none ht]
    refine iff_of_true rfl fun hchanges => ?_
    obtain ⟨p, hp, _⟩ := hchanges
    rw [ht] at hp
    cases hp
  | some p =>
    rw [recorded_of_some ht]
    constructor
    · intro heq hchanges
      obtain ⟨q, hq, hne⟩ := hchanges
      rw [ht] at hq
      cases hq
      have hctx := congrArg (fun m => m.ctxs p) heq
      change Function.update s.fdMgr.ctxs p _ p = _ at hctx
      rw [Function.update_self] at hctx
      exact hne hctx
    · intro hsame
      have hctx : c.written (s.fdMgr.ctxs p) = s.fdMgr.ctxs p :=
        by_contra fun hne => hsame ⟨p, ht, hne⟩
      unfold Process.setCtx FdManager.setCtx
      rw [hctx, Function.update_eq_self]

variable (calls) in
/-- A call that finds a context to write to returns. -/
theorem exec_of_target {p : FdCtxPtr} (ht : c.target s = some p) :
    ∃ r s', c.exec calls s = .ok (r, s') := by
  have hlookup : ∀ {x : Except Fault (Option FdCtxPtr)}, x.toOption.join = some p →
      x = .ok (some p) := fun hx => toOption_eq_some.mp (Option.join_eq_some_iff.mp hx)
  cases c with
  | setfl fd arg | fionbio d value =>
    exact ⟨_, _, bind_eq_ok.mpr ⟨_, hlookup ht, rfl⟩⟩
  | timeout sockfd type v =>
    obtain ⟨hon, hget⟩ := Option.ite_none_right_eq_some.mp ht
    have hcall : (timeout sockfd type v).exec calls s = s.fdMgr.get sockfd >>= _ := if_pos hon
    rw [hcall]
    exact ⟨_, _, bind_eq_ok.mpr ⟨_, hlookup hget, rfl⟩⟩

/-- For every context, every call, every argument and all underlying functions. -/
theorem atomic_iff (calls : Syscalls κ) (s : Process κ) (c : OptionCall) :
    c.Atomic calls s ↔ (c.Fails calls s → ¬ c.Changes s) := by
  constructor
  · intro hatomic hfails hchanges
    obtain ⟨e, hfails⟩ := hfails
    obtain ⟨p, ht, hne⟩ := hchanges
    obtain ⟨r, s', hexec⟩ := exec_of_target calls ht
    rw [exec_result hexec] at hfails
    subst r
    have hsame := hatomic.failed e s' hexec
    rw [exec_fdMgr hexec] at hsame
    exact recorded_fdMgr_iff.mp hsame ⟨p, ht, hne⟩
  · intro hok
    constructor
    · intro e s' hexec
      rw [exec_fdMgr hexec]
      exact recorded_fdMgr_iff.mpr (hok ⟨e, exec_result hexec⟩)
    · intro s' hexec
      obtain ⟨htable, hothers, hfield⟩ := recorded_onlyField (c := c) (s := s)
      constructor <;> rw [exec_fdMgr hexec]
      · exact htable
      · exact hothers
      · exact hfield

/-- Linux, with the check of `tv_usec` that `setsockopt` makes. -/
def checkedLinux (next : Nat) : Syscalls Files :=
  { Files.linux next with
    setsockopt_f := fun fd opt files =>
      match opt with
      | .timeout _ v => if v.tv_usec < 1000000 then files.ask fd fun _ => ()
        else (.error (.other 33), files)
      | .other _ _ => files.ask fd fun _ => () }

/-- A process with the socket 5. -/
def withSocket : Except Fault (Process Files) :=
  ((Process.initial (fun _ => none) none).socket (checkedLinux 5) 2 1 0).map Prod.snd

/-- A timeout with two million microseconds is refused with `EDOM`, and the
context has it. -/
theorem refused_timeout_recorded : ∃ s s', withSocket = .ok s ∧
    (OptionCall.timeout 5 .SO_RCVTIMEO ⟨0, 2000000⟩).exec (checkedLinux 5) s =
      .ok (.error (.other 33), s') ∧
    (s.fdMgr.ctxs 0).m_recvTimeout = -1 ∧ (s'.fdMgr.ctxs 0).m_recvTimeout = 2000 ∧
    ¬ (OptionCall.timeout 5 .SO_RCVTIMEO ⟨0, 2000000⟩).Atomic (checkedLinux 5) s := by
  have hrun : (withSocket.toOption.bind fun s =>
      ((timeout 5 .SO_RCVTIMEO ⟨0, 2000000⟩).exec (checkedLinux 5) s).toOption.map fun x =>
        (errorOf x.1, (s.fdMgr.ctxs 0).m_recvTimeout, (x.2.fdMgr.ctxs 0).m_recvTimeout)) =
      some (some (.other 33), -1, 2000) := by decide +kernel
  obtain ⟨s, hs, hrun⟩ := Option.bind_eq_some_iff.mp hrun
  obtain ⟨⟨r, s'⟩, hexec, hobs⟩ := Option.map_eq_some_iff.mp hrun
  simp only [Prod.mk.injEq] at hobs
  obtain ⟨hr, hbefore, hafter⟩ := hobs
  have hexec := toOption_eq_some.mp hexec
  rw [errorOf_eq_some.mp hr] at hexec
  refine ⟨s, s', toOption_eq_some.mp hs, hexec, hbefore, hafter, fun hatomic => ?_⟩
  rw [hatomic.failed _ s' hexec, hbefore] at hafter
  exact absurd hafter (by decide)

end OptionCall

end FiberAsync
