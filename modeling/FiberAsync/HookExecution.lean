import FiberAsync.HookPrograms

/-!
# The programs executed

A thread answers the questions of the programs of the overrides from its process,
with a kernel that performs the underlying calls. What the programs then do is
what the functions of `Process` do.
-/

namespace FiberAsync

set_option autoImplicit false

open Programs Results

/-- What is around the hook layer of a process. -/
structure HookEnv (κ : Type) where
  perform (c : Sys) : κ → Returned c.Ret × κ
  fstat (fd : Int) : κ → Returned Bool × κ
  timespec (req : Ptr) : κ → Timespec
  outside (o : Outside) : Process κ → Except Fault ((HookReq.outside o).Ans × Process κ)
  cnacelled : κ → Option Errno

namespace HookEnv

variable {κ : Type} (E : HookEnv κ)

def answer (s : Process κ) : (r : HookReq) → Except Fault (r.Ans × Process κ)
  -- a thread alone always gets the lock
  | .rdlock | .wrlock => .ok (0, s)
  | .unlock _ => .ok ((), s)
  | .lookup fd =>
    if IOManager.toInt s.fdMgr.m_datas.length ≤ fd then .ok (none, s)
    else s.fdMgr.slot fd >>= fun o => .ok (some o, s)
  | .store fd ctx => s.fdMgr.store fd ctx >>= fun x => .ok (x.1, { s with fdMgr := x.2 })
  | .reset fd =>
    let m_datas := s.fdMgr.m_datas.set fd.toNat none
    .ok ((), { s with fdMgr := { s.fdMgr with m_datas } })
  | .read p => .ok (s.fdMgr.ctxs p, s)
  | .setUserNonblock p v => .ok ((), s.setCtx p { s.fdMgr.ctxs p with m_userNonblock := v })
  | .setTimeout p type v => .ok ((), s.setCtx p ((s.fdMgr.ctxs p).setTimeout type v))
  | .hookEnable => .ok (s.t_hook_enable, s)
  | .sys c => .ok (s.sys (E.perform c))
  | .fstat fd => .ok (s.sys (E.fstat fd))
  | .timespec req => .ok (E.timespec req s.kernel, s)
  | .hasIOManager => .ok (s.iom.isSome, s)
  | .outside o => E.outside o s
  | .cnacelled => .ok (E.cnacelled s.kernel, s)

/-- The underlying functions, with the arguments that `Process` leaves out. -/
def syscalls (args : List (BitVec 64)) (optval : Ptr) (optlen : BitVec 32) : Syscalls κ where
  socket_f domain type protocol := E.perform (.socket domain type protocol)
  accept_f fd := E.perform (.io .accept fd args)
  close_f fd := E.perform (.close fd)
  getfl_f fd := E.perform (.fcntl fd .getfl)
  setfl_f fd arg := E.perform (.fcntl fd (.setfl arg))
  fionbio_f fd value := E.perform (.ioctl fd (.fionbio value))
  setsockopt_f fd opt := E.perform (.setsockopt fd opt optval optlen)
  fstat := E.fstat

section Agreement

variable (args : List (BitVec 64)) (optval : Ptr) (optlen : BitVec 32) (s : Process κ) (fd : Int)

theorem exec_get : (Hooked.get fd).exec E.answer s = s.fdMgr.get fd >>= fun o => .ok (o, s) := by
  unfold Hooked.get FdManager.get
  split
  · rfl
  · change (E.answer s (.lookup fd) >>= fun x => .ok (x.1.join, x.2)) = _
    unfold answer
    dsimp only
    split
    · rfl
    · cases s.fdMgr.slot fd <;> rfl

theorem exec_del : (Hooked.del fd).exec E.answer s =
    s.fdMgr.del fd >>= fun fdMgr => .ok ((), { s with fdMgr }) := by
  change (E.answer s (.lookup fd) >>= _) = _
  unfold FdManager.del answer
  dsimp only
  split
  · rfl
  · cases s.fdMgr.slot fd <;> rfl

theorem exec_tracked : (Hooked.tracked fd).exec E.answer s =
    s.tracked fd >>= fun o => .ok (o, s) := by
  unfold Hooked.tracked Process.tracked
  rw [Prog.exec_bind, exec_get]
  cases s.fdMgr.get fd with
  | error f => rfl
  | ok o =>
    cases o with
    | none => rfl
    | some p =>
      change Except.ok (ite _ _ _, s) = Except.ok (Option.filter _ (some p), s)
      rw [Option.filter_some]
      cases (s.fdMgr.ctxs p).m_isClosed <;> cases (s.fdMgr.ctxs p).m_isSocket <;> rfl

theorem exec_setfl (arg : BitVec 32) : (Hooked.fcntl fd (.setfl arg)).exec E.answer s =
    s.fcntlSETFL (E.syscalls args optval optlen) fd arg := by
  unfold Hooked.fcntl Process.fcntlSETFL
  rw [Prog.exec_bind, exec_tracked]
  rcases s.tracked fd with f | _ | p
  · rfl
  · rfl
  · have hread : ∀ ctx, ((s.setCtx p ctx).fdMgr.ctxs p).m_sysNonblock = ctx.m_sysNonblock := by
      intro ctx
      simp [Process.setCtx, FdManager.setCtx]
    exact congrArg (fun b => Except.ok ((s.setCtx p _).sys (E.perform
      (.fcntl fd (.setfl (if b = true then arg ||| O_NONBLOCK else arg &&& ~~~O_NONBLOCK))))))
      (hread { s.fdMgr.ctxs p with m_userNonblock := arg &&& O_NONBLOCK ≠ 0#32 })

theorem exec_getfl : (Hooked.fcntl fd .getfl).exec E.answer s =
    s.fcntlGETFL (E.syscalls args optval optlen) fd := by
  change (Hooked.tracked fd >>= _).exec E.answer (s.sys (E.perform (.fcntl fd .getfl))).2 = _
  unfold Process.fcntlGETFL
  rw [Prog.exec_bind, exec_tracked]
  dsimp only [syscalls]
  rcases (s.sys (E.perform (.fcntl fd .getfl))).2.tracked fd with f | _ | p
  · rfl
  · rfl
  · change Except.ok _ = ite _ _ _
    split <;> rfl

theorem exec_ioctl (value : BitVec 32) : (Hooked.ioctl fd (.fionbio value)).exec E.answer s =
    s.ioctlFIONBIO (E.syscalls args optval optlen) fd value := by
  unfold Hooked.ioctl Process.ioctlFIONBIO
  rw [Prog.exec_bind, exec_tracked]
  rcases s.tracked fd with f | _ | p <;> rfl

/-- The context that `init()` makes for a socket. -/
def made (ctx : FdCtx) : FdCtx :=
  { ctx with
    m_isInit := true, m_isSocket := true, m_recvTimeout := -1, m_sendTimeout := -1
    m_sysNonblock := true, m_userNonblock := false, m_isClosed := false }

theorem exec_init (ctx : FdCtx) : (Hooked.init ctx).exec E.answer s =
    s.init (E.syscalls args optval optlen) ctx := by
  rw [Hooked.init_eq]
  unfold Process.init
  change (ite _ _ _ : HookProg FdCtx).exec E.answer (s.sys (E.fstat ctx.m_fd)).2 = _
  dsimp only [syscalls]
  generalize s.sys (E.fstat ctx.m_fd) = x
  obtain ⟨_ | _ | _, t⟩ := x
  · rfl
  · rfl
  · change (Hooked.fcntl ctx.m_fd .getfl >>= _).exec E.answer t =
      t.fcntlGETFL (E.syscalls args optval optlen) ctx.m_fd >>= _
    rw [Prog.exec_bind, exec_getfl E args optval optlen]
    rcases t.fcntlGETFL (E.syscalls args optval optlen) ctx.m_fd with f | ⟨flags, u⟩
    · rfl
    · have hset : (if Hooked.toInt flags &&& O_NONBLOCK = 0#32 then
            Hooked.fcntl ctx.m_fd (.setfl (Hooked.toInt flags ||| O_NONBLOCK)) >>= fun _ =>
              .ret (made ctx)
          else .ret (made ctx) : HookProg FdCtx).exec E.answer u =
          (if Hooked.toInt flags &&& O_NONBLOCK = 0#32 then
            u.fcntlSETFL (E.syscalls args optval optlen) ctx.m_fd
              (Hooked.toInt flags ||| O_NONBLOCK) >>= fun x => .ok x.2
          else .ok u) >>= fun v => .ok (made ctx, v) := by
        split
        · rw [Prog.exec_bind, exec_setfl E args optval optlen]
          cases u.fcntlSETFL (E.syscalls args optval optlen) ctx.m_fd
            (Hooked.toInt flags ||| O_NONBLOCK) <;> rfl
        · rfl
      cases flags <;> exact hset

theorem exec_getCreate : (Hooked.getCreate fd).exec E.answer s =
    s.getCreate (E.syscalls args optval optlen) fd := by
  by_cases hfd : fd = -1
  · subst fd
    rfl
  · have hmake : (Hooked.init (.new fd) >>= fun ctx => .ask (.store fd ctx) fun p =>
        .ask (.unlock 0) fun _ => .ret (some p)).exec E.answer s =
        s.init (E.syscalls args optval optlen) (.new fd) >>= fun x =>
        x.2.fdMgr.store fd x.1 >>= fun y => .ok (some y.1, { x.2 with fdMgr := y.2 }) := by
      rw [Prog.exec_bind, exec_init E args optval optlen]
      rcases s.init (E.syscalls args optval optlen) (.new fd) with f | ⟨ctx, t⟩
      · rfl
      · change (t.fdMgr.store fd ctx >>= _) >>= _ = t.fdMgr.store fd ctx >>= _
        cases t.fdMgr.store fd ctx <;> rfl
    rw [Hooked.getCreate_eq hfd]
    unfold Process.getCreate FdManager.get
    rw [if_neg hfd, if_neg hfd]
    change (E.answer s (.lookup fd) >>= _) = _
    unfold answer
    dsimp only
    split
    · exact hmake
    · rcases s.fdMgr.slot fd with f | _ | p
      · rfl
      · exact hmake
      · rfl

theorem exec_socket (domain : Int) (type : BitVec 32) (protocol : Int) :
    (Hooked.socket domain type protocol).exec E.answer s =
      s.socket (E.syscalls args optval optlen) domain type protocol := by
  unfold Process.socket
  dsimp only [syscalls]
  have hsame : (s.sys (E.perform (.socket domain type protocol))).2.t_hook_enable =
    s.t_hook_enable := rfl
  rw [hsame]
  change (ite (s.t_hook_enable = true) _ _ : HookProg (Returned Int)).exec E.answer
    (s.sys (E.perform (.socket domain type protocol))).2 = _
  generalize s.sys (E.perform (.socket domain type protocol)) = x
  obtain ⟨r, t⟩ := x
  cases s.t_hook_enable with
  | false => rfl
  | true =>
    cases r with
    | error e => rfl
    | ok fd =>
      change (Hooked.getCreate fd >>= _).exec E.answer t = _
      rw [Prog.exec_bind, exec_getCreate E args optval optlen]
      rfl

theorem exec_setsockopt (opt : SockOpt) :
    (Hooked.setsockopt fd opt optval optlen).exec E.answer s =
      s.setsockopt (E.syscalls args optval optlen) fd opt := by
  unfold Hooked.setsockopt Process.setsockopt
  rw [Prog.exec_bind]
  change Prog.exec E.answer _ s = _
  cases opt with
  | other =>
    cases s.t_hook_enable <;> rfl
  | timeout type v =>
    cases s.t_hook_enable with
    | false => rfl
    | true =>
      change (Hooked.get fd >>= _).exec E.answer s = s.fdMgr.get fd >>= _
      rw [Prog.exec_bind, exec_get]
      rcases s.fdMgr.get fd with f | _ | p <;> rfl

theorem exec_close (hcancel : ∀ fd s, E.outside (.cancelAll fd) s =
    s.cancelAll fd >>= fun s => .ok ((), s)) :
    (Hooked.close fd).exec E.answer s = s.close (E.syscalls args optval optlen) fd := by
  unfold Hooked.close Process.close
  rw [Prog.exec_bind]
  change Prog.exec E.answer (ite (s.t_hook_enable = true) _ _) s = _
  cases s.t_hook_enable with
  | false => rfl
  | true =>
    change (Hooked.get fd >>= _).exec E.answer s = s.fdMgr.get fd >>= _
    rw [Prog.exec_bind, exec_get]
    rcases s.fdMgr.get fd with f | _ | p
    · rfl
    · rfl
    · have hdel : ∀ t : Process κ, (Hooked.del fd >>= fun _ =>
          HookReq.ask (.sys (.close fd))).exec E.answer t =
          t.fdMgr.del fd >>= fun fdMgr =>
            .ok (({ t with fdMgr } : Process κ).sys (E.perform (.close fd))) := by
        intro t
        rw [Prog.exec_bind, exec_del]
        cases t.fdMgr.del fd <;> rfl
      change Prog.exec E.answer (ite (s.iom.isSome = true) _ _) s = _
      cases hiom : s.iom with
      | none =>
        have hcancelAll : s.cancelAll fd = .ok s := by
          unfold Process.cancelAll
          rw [hiom]
        change (Hooked.del fd >>= _).exec E.answer s = s.cancelAll fd >>= _
        rw [hcancelAll]
        exact hdel s
      | some io =>
        change E.outside (.cancelAll fd) s >>= _ = s.cancelAll fd >>= _
        rw [hcancel]
        cases s.cancelAll fd with
        | error f => rfl
        | ok t => exact hdel t

/-- `do_io` after the tests of the context. -/
def entered (fn : IoFun) (attempts : Nat) : IoEntry → HookProg (Option (Returned Int))
  | .direct => Hooked.direct fn fd args
  | .closed => pure (some (.error .EBADF))
  | .wait timeout => Hooked.retry fn fd args timeout attempts

theorem exec_do_io (fn : IoFun) (attempts : Nat) :
    (Hooked.do_io fn fd args attempts).exec E.answer s =
      s.ioEntry fd fn.timeout_so >>= fun e => (entered args fd fn attempts e).exec E.answer s := by
  unfold Hooked.do_io Process.ioEntry
  rw [Prog.exec_bind]
  change Prog.exec E.answer (ite (s.t_hook_enable = true) _ _) s = _
  cases s.t_hook_enable with
  | false => rfl
  | true =>
    change (Hooked.get fd >>= _).exec E.answer s = s.fdMgr.get fd >>= _ >>= _
    rw [Prog.exec_bind, exec_get]
    rcases s.fdMgr.get fd with f | _ | p
    · rfl
    · rfl
    · change Prog.exec E.answer (ite _ _ _) s = ite _ _ _ >>= _
      split
      · rfl
      · split <;> rfl

end Agreement

end HookEnv

end FiberAsync
