import FiberAsync.Hook
import FiberAsync.ScopedLock
import FiberAsync.Library.Programs

/-!
# The overrides as programs

Every function that `hook.cc` overrides, as a program that asks for what is
outside of it: the lock of the table, the table and its contexts, the underlying
calls, and the functions of timers, fibers and the IOManager. A guard object of
the lock is known by the number that its `rdlock` or `wrlock` answers. Where
`do_io` loops, the program has so many attempts, and returns `none` after them.
-/

namespace FiberAsync

set_option autoImplicit false

open Programs

abbrev Ptr := Nat

/-- `struct timespec` -/
structure Timespec where
  tv_sec : BitVec 64
  tv_nsec : BitVec 64
  deriving DecidableEq, Repr

inductive FcntlIntCmd where
  | F_DUPFD
  | F_DUPFD_CLOEXEC
  | F_SETFD
  | F_SETOWN
  | F_SETSIG
  | F_SETLEASE
  | F_NOTIFY
  | F_SETPIPE_SZ
  deriving DecidableEq, Repr

inductive FcntlVoidCmd where
  | F_GETFD
  | F_GETOWN
  | F_GETSIG
  | F_GETLEASE
  | F_GETPIPE_SZ
  deriving DecidableEq, Repr

inductive FcntlLockCmd where
  | F_SETLK
  | F_SETLKW
  | F_GETLK
  deriving DecidableEq, Repr

inductive FcntlOwnerCmd where
  | F_GETOWN_EX
  | F_SETOWN_EX
  deriving DecidableEq, Repr

/-- A third argument of `fcntl`, if there is one. -/
inductive FcntlArg where
  | absent
  | int (arg : BitVec 32)
  | ptr (arg : Ptr)
  deriving DecidableEq, Repr

/-- A command with the argument that belongs to it. -/
inductive FcntlCall where
  | setfl (arg : BitVec 32)
  | getfl
  | int (cmd : FcntlIntCmd) (arg : BitVec 32)
  | void (cmd : FcntlVoidCmd)
  | lock (cmd : FcntlLockCmd) (arg : Ptr)
  | owner (cmd : FcntlOwnerCmd) (arg : Ptr)
  /-- a command that the `switch` of `fcntl` does not list -/
  | other (cmd : Int) (arg : FcntlArg)
  deriving DecidableEq, Repr

abbrev FcntlCall.Ret : FcntlCall → Type
  | setfl _ => Unit
  | getfl => BitVec 32
  | _ => Int

/-- A request with what its argument points to or is. -/
inductive IoctlCall where
  | fionbio (value : BitVec 32)
  | other (request : BitVec 64) (arg : BitVec 64)
  deriving DecidableEq, Repr

/-- A call of one of the functions that `hook.cc` overrides. -/
inductive Sys where
  | sleep (seconds : BitVec 32)
  | usleep (usec : BitVec 32)
  | nanosleep (req rem : Ptr)
  | socket (domain : Int) (type : BitVec 32) (protocol : Int)
  /-- with the arguments after the descriptor -/
  | io (fn : IoFun) (fd : Int) (args : List (BitVec 64))
  | close (fd : Int)
  | fcntl (fd : Int) (c : FcntlCall)
  | ioctl (d : Int) (c : IoctlCall)
  | getsockopt (sockfd level optname : Int) (optval optlen : Ptr)
  | setsockopt (sockfd : Int) (opt : SockOpt) (optval : Ptr) (optlen : BitVec 32)
  deriving DecidableEq, Repr

abbrev Sys.Ret : Sys → Type
  | fcntl _ c => c.Ret
  | close _ | setsockopt _ _ _ _ | ioctl _ (.fionbio _) => Unit
  | _ => Int

/-- The functions outside of the hook layer that it calls. -/
inductive Outside where
  | add_timer (ms : BitVec 64)
  | addConditionTimer (ms : BitVec 64)
  /-- `timer->cancel()` -/
  | cancelTimer
  | addEvent (fd : Int) (event : Event)
  | cancelAll (fd : Int)
  | yield
  deriving DecidableEq, Repr

/-- What the hook layer asks for. -/
inductive HookReq where
  | rdlock
  | wrlock
  | unlock (g : Nat)
  /-- `m_datas[fd]`, or `none` from `(int)m_datas.size()` on -/
  | lookup (fd : Int)
  /-- the end of `get(fd, true)`: `m_datas` is resized and gets the new context -/
  | store (fd : Int) (ctx : FdCtx)
  /-- `m_datas[fd].reset()` -/
  | reset (fd : Int)
  | read (p : FdCtxPtr)
  | setUserNonblock (p : FdCtxPtr) (v : Bool)
  | setTimeout (p : FdCtxPtr) (type : TimeoutType) (v : BitVec 64)
  /-- `t_hook_enable` -/
  | hookEnable
  /-- the underlying function of that name -/
  | sys (c : Sys)
  /-- the `S_ISSOCK` of what `fstat` finds -/
  | fstat (fd : Int)
  /-- `*req` in `nanosleep` -/
  | timespec (req : Ptr)
  /-- `IOManager::GetThis()` is not null -/
  | hasIOManager
  | outside (o : Outside)
  /-- `tinfo->cnacelled` -/
  | cnacelled
  deriving DecidableEq

abbrev HookReq.Ans : HookReq → Type
  | rdlock | wrlock => Nat
  | lookup _ => Option (Option FdCtxPtr)
  | store _ _ => FdCtxPtr
  | read _ => FdCtx
  | hookEnable | hasIOManager => Bool
  | sys c => Returned c.Ret
  | fstat _ => Returned Bool
  | timespec _ => Timespec
  -- `addEvent` returns something else than 0 with that `errno`
  | outside (.addEvent _ _) => Option Errno
  | cnacelled => Option Errno
  | _ => Unit

abbrev HookProg : Type → Type := Prog HookReq HookReq.Ans

abbrev HookReq.ask (r : HookReq) : HookProg r.Ans := .request r

open HookReq (ask)

/-- A guard object of the lock of the table. -/
structure TableGuard extends Guard where
  id : Nat

namespace TableGuard

/-- `RWMutexType::ReadLock lock(m_mutex);` -/
def ReadLock : HookProg TableGuard := ask .rdlock >>= fun id => pure ⟨Guard.new.1, id⟩

/-- `RWMutexType::WriteLock lock(m_mutex);` -/
def WriteLock : HookProg TableGuard := ask .wrlock >>= fun id => pure ⟨Guard.new.1, id⟩

/-- A member function of the guard that may unlock the mutex. -/
def perform (lock : TableGuard) (r : Guard × List LockCall) : HookProg TableGuard :=
  if .unlock ∈ r.2 then ask (.unlock lock.id) >>= fun _ => pure { lock with toGuard := r.1 }
  else pure { lock with toGuard := r.1 }

def unlock (lock : TableGuard) : HookProg TableGuard := lock.perform lock.toGuard.unlock

def destroy (lock : TableGuard) : HookProg Unit :=
  lock.perform (ReadScopedLockImpl.destroy lock.toGuard) >>= fun _ => pure ()

end TableGuard

namespace Hooked

open TableGuard

/-- `get(fd)` -/
def get (fd : Int) : HookProg (Option FdCtxPtr) :=
  if fd = -1 then pure none
  else do
    let lock ← ReadLock
    let o : Option (Option FdCtxPtr) ← ask (.lookup fd)
    lock.destroy
    return o.join

def del (fd : Int) : HookProg Unit := do
  let lock ← WriteLock
  let o : Option (Option FdCtxPtr) ← ask (.lookup fd)
  if o.isSome then ask (.reset fd)
  lock.destroy

/-- The context for which `!ctx || ctx->isClose() || !ctx->isSocket()` is false. -/
def tracked (fd : Int) : HookProg (Option FdCtxPtr) :=
  get fd >>= fun
  | none => pure none
  | some p => do
    let ctx : FdCtx ← ask (.read p)
    return if ctx.m_isClosed ∨ ¬ ctx.m_isSocket then none else some p

def fcntl (fd : Int) : (c : FcntlCall) → HookProg (Returned c.Ret)
  | .setfl arg => tracked fd >>= fun
    | none => ask (.sys (.fcntl fd (.setfl arg)))
    | some p => do
      ask (.setUserNonblock p (arg &&& O_NONBLOCK ≠ 0#32))
      let ctx : FdCtx ← ask (.read p)
      let arg := if ctx.m_sysNonblock then arg ||| O_NONBLOCK else arg &&& ~~~O_NONBLOCK
      ask (.sys (.fcntl fd (.setfl arg)))
  | .getfl => do
    let arg : Returned (BitVec 32) ← ask (.sys (.fcntl fd .getfl))
    tracked fd >>= fun
    | none => pure arg
    | some p => do
      let ctx : FdCtx ← ask (.read p)
      return if ctx.m_userNonblock then arg.map (· ||| O_NONBLOCK) else Process.withoutNonblock arg
  | .int cmd arg => ask (.sys (.fcntl fd (.int cmd arg)))
  | .void cmd => ask (.sys (.fcntl fd (.void cmd)))
  | .lock cmd arg => ask (.sys (.fcntl fd (.lock cmd arg)))
  | .owner cmd arg => ask (.sys (.fcntl fd (.owner cmd arg)))
  -- `default:` drops the argument
  | .other cmd _ => ask (.sys (.fcntl fd (.other cmd .absent)))

/-- The members that `FdCtx::init()` sets from the result of `fstat`. -/
def statted (ctx : FdCtx) : Returned Bool → FdCtx
  | .error _ => { ctx with
      m_isInit := false, m_isSocket := false, m_recvTimeout := -1, m_sendTimeout := -1 }
  | .ok isSock => { ctx with
      m_isInit := true, m_isSocket := isSock, m_recvTimeout := -1, m_sendTimeout := -1 }

/-- The `int` that a call returned. -/
def toInt : Returned (BitVec 32) → BitVec 32
  | .ok v => v
  | .error _ => -1

/-- `FdCtx::init()`, called in the constructor: its `fcntl` is the hooked one. -/
def init (ctx : FdCtx) : HookProg FdCtx := do
  let r : Returned Bool ← ask (.fstat ctx.m_fd)
  let ctx := statted ctx r
  if ctx.m_isSocket then do
    let flags ← fcntl ctx.m_fd .getfl
    if toInt flags &&& O_NONBLOCK = 0#32 then
      let _ ← fcntl ctx.m_fd (.setfl (toInt flags ||| O_NONBLOCK))
    return { ctx with m_sysNonblock := true, m_userNonblock := false, m_isClosed := false }
  else return { ctx with m_sysNonblock := false, m_userNonblock := false, m_isClosed := false }

/-- `get(fd, true)` -/
def getCreate (fd : Int) : HookProg (Option FdCtxPtr) :=
  if fd = -1 then pure none
  else do
    let lock ← ReadLock
    let o : Option (Option FdCtxPtr) ← ask (.lookup fd)
    match o.join with
    | some p => do
      lock.destroy
      return some p
    | none => do
      let lock ← lock.unlock
      let lock2 ← WriteLock
      let ctx ← init (.new fd)
      let p : FdCtxPtr ← ask (.store fd ctx)
      lock2.destroy
      lock.destroy
      return some p

/-- The fiber is woken by a timer. -/
def sleepFor (ms : BitVec 64) : HookProg (Returned Int) := do
  ask (.outside (.add_timer ms))
  ask (.outside .yield)
  return .ok 0

def sleep (seconds : BitVec 32) : HookProg (Returned Int) := do
  let t_hook_enable : Bool ← ask .hookEnable
  if t_hook_enable then sleepFor ((seconds * 1000).setWidth 64)
  else ask (.sys (.sleep seconds))

/-- Without hooks the result of `usleep_f` is not looked at. -/
def usleep (usec : BitVec 32) : HookProg (Returned Int) := do
  let t_hook_enable : Bool ← ask .hookEnable
  if t_hook_enable then sleepFor ((usec / 1000).setWidth 64)
  else
    let _ ← ask (.sys (.usleep usec))
    return .ok 0

def nanosleep (req rem : Ptr) : HookProg (Returned Int) := do
  let t_hook_enable : Bool ← ask .hookEnable
  if t_hook_enable then
    let t : Timespec ← ask (.timespec req)
    let timeout_s := (t.tv_sec * 1000 + (t.tv_nsec.sdiv 1000).sdiv 1000).setWidth 32
    sleepFor (timeout_s.signExtend 64)
  else ask (.sys (.nanosleep req rem))

def socket (domain : Int) (type : BitVec 32) (protocol : Int) : HookProg (Returned Int) := do
  let t_hook_enable : Bool ← ask .hookEnable
  let r : Returned Int ← ask (.sys (.socket domain type protocol))
  if t_hook_enable then
    match r with
    | .error e => return .error e
    | .ok fd =>
      let _ ← getCreate fd
      return .ok fd
  else return r

section Io

/-- `if (to != (uint64_t)-1)` -/
def addConditionTimer (timeout : BitVec 64) : HookProg Unit :=
  if timeout ≠ -1 then ask (.outside (.addConditionTimer timeout)) else pure ()

/-- `if (timer)` -/
def cancelTimer (timeout : BitVec 64) : HookProg Unit :=
  if timeout ≠ -1 then ask (.outside .cancelTimer) else pure ()

variable (fn : IoFun) (fd : Int) (args : List (BitVec 64))

/-- `do_io` from `EAGAIN` on: the `errno` that it returns with, or `goto retry;`. -/
def wait (timeout : BitVec 64) : HookProg (Option Errno) := do
  addConditionTimer timeout
  let rt : Option Errno ← ask (.outside (.addEvent fd fn.event))
  match rt with
  | some e => do
    cancelTimer timeout
    return some e
  | none => do
    ask (.outside .yield)
    cancelTimer timeout
    ask .cnacelled

/-- `do_io` from `retry` on. -/
def retry (timeout : BitVec 64) : Nat → HookProg (Option (Returned Int))
  | 0 => pure none
  | attempts + 1 => do
    let n : Returned Int ← ask (.sys (.io fn fd args))
    match n with
    | .error .EINTR => retry timeout attempts
    | .error .EAGAIN => wait fn fd timeout >>= fun
      | some e => pure (some (.error e))
      | none => retry timeout attempts
    | n => return some n

def direct : HookProg (Option (Returned Int)) := do
  let n : Returned Int ← ask (.sys (.io fn fd args))
  return some n

def do_io (attempts : Nat) : HookProg (Option (Returned Int)) := do
  let t_hook_enable : Bool ← ask .hookEnable
  if t_hook_enable then
    get fd >>= fun
    | none => direct fn fd args
    | some p => do
      let ctx : FdCtx ← ask (.read p)
      if ctx.m_isClosed then return some (.error .EBADF)
      else if ¬ ctx.m_isSocket ∨ ctx.m_userNonblock then direct fn fd args
      else retry fn fd args (ctx.getTimeout fn.timeout_so) attempts
  else direct fn fd args

end Io

/-- `accept` after `do_io`. -/
def accepted : Option (Returned Int) → HookProg (Option (Returned Int))
  | some (.ok fd) =>
    if fd ≥ 0 then getCreate fd >>= fun _ => pure (some (.ok fd))
    else pure (some (.ok fd))
  | r => pure r

def accept (s : Int) (args : List (BitVec 64)) (attempts : Nat) :
    HookProg (Option (Returned Int)) :=
  do_io .accept s args attempts >>= accepted

def close (fd : Int) : HookProg (Returned Unit) := do
  let t_hook_enable : Bool ← ask .hookEnable
  if t_hook_enable then
    get fd >>= fun
    | none => ask (.sys (.close fd))
    | some _ => do
      let iom : Bool ← ask .hasIOManager
      if iom then ask (.outside (.cancelAll fd))
      del fd
      ask (.sys (.close fd))
  else ask (.sys (.close fd))

def ioctl (d : Int) : (c : IoctlCall) → HookProg (Returned (Sys.ioctl d c).Ret)
  | .fionbio value => tracked d >>= fun
    | none => ask (.sys (.ioctl d (.fionbio value)))
    | some p => do
      ask (.setUserNonblock p (value ≠ 0#32))
      ask (.sys (.ioctl d (.fionbio value)))
  | .other req arg => ask (.sys (.ioctl d (.other req arg)))

def setsockopt (sockfd : Int) (opt : SockOpt) (optval : Ptr) (optlen : BitVec 32) :
    HookProg (Returned Unit) := do
  let t_hook_enable : Bool ← ask .hookEnable
  match t_hook_enable, opt with
  | true, .timeout type v => do
    get sockfd >>= fun
    | none => ask (.sys (.setsockopt sockfd opt optval optlen))
    | some p => do
      ask (.setTimeout p type (v.tv_sec * 1000 + v.tv_usec.sdiv 1000))
      ask (.sys (.setsockopt sockfd opt optval optlen))
  | _, _ => ask (.sys (.setsockopt sockfd opt optval optlen))

section Forms

open Prog

variable {fd : Int}

theorem get_eq (hfd : fd ≠ -1) : get fd =
    .ask .rdlock fun g => .ask (.lookup fd) fun o => .ask (.unlock g) fun _ => .ret o.join := by
  unfold get
  rw [if_neg hfd]
  rfl

theorem del_eq : del fd = .ask .wrlock fun g => .ask (.lookup fd) fun o =>
    if o.isSome then .ask (.reset fd) fun _ => .ask (.unlock g) fun _ => .ret ()
    else .ask (.unlock g) fun _ => .ret () := by
  unfold del
  rfl

theorem getCreate_eq (hfd : fd ≠ -1) :
    getCreate fd = .ask .rdlock fun g => .ask (.lookup fd) fun o => o.join.elim
      (.ask (.unlock g) fun _ => .ask .wrlock fun g₂ => init (.new fd) >>= fun ctx =>
        .ask (.store fd ctx) fun p => .ask (.unlock g₂) fun _ => .ret (some p))
      (fun p => .ask (.unlock g) fun _ => .ret (some p)) := by
  unfold getCreate
  rw [if_neg hfd]
  refine congrArg (Prog.ask HookReq.rdlock) (funext fun g => ?_)
  refine congrArg (Prog.ask (HookReq.lookup fd)) (funext fun o => ?_)
  rcases o with _ | _ | p <;> rfl

theorem statted_fd (ctx : FdCtx) (r : Returned Bool) : (statted ctx r).m_fd = ctx.m_fd := by
  cases r <;> rfl

theorem init_eq (ctx : FdCtx) : init ctx = .ask (.fstat ctx.m_fd) fun r =>
    let ctx := statted ctx r
    if ctx.m_isSocket then fcntl ctx.m_fd .getfl >>= fun flags =>
      if toInt flags &&& O_NONBLOCK = 0#32 then
        fcntl ctx.m_fd (.setfl (toInt flags ||| O_NONBLOCK)) >>= fun _ => .ret
          { ctx with m_sysNonblock := true, m_userNonblock := false, m_isClosed := false }
      else .ret { ctx with m_sysNonblock := true, m_userNonblock := false, m_isClosed := false }
    else
      .ret { ctx with m_sysNonblock := false, m_userNonblock := false, m_isClosed := false } := by
  unfold init
  rfl

end Forms

end Hooked

/-- The override that a call goes to. -/
def hooked (attempts : Nat) : (c : Sys) → HookProg (Option (Returned c.Ret))
  | .sleep seconds => some <$> Hooked.sleep seconds
  | .usleep usec => some <$> Hooked.usleep usec
  | .nanosleep req rem => some <$> Hooked.nanosleep req rem
  | .socket domain type protocol => some <$> Hooked.socket domain type protocol
  | .io .accept fd args => Hooked.accept fd args attempts
  | .io fn fd args => Hooked.do_io fn fd args attempts
  | .close fd => some <$> Hooked.close fd
  | .fcntl fd c => some <$> Hooked.fcntl fd c
  | .ioctl d c => some <$> Hooked.ioctl d c
  | .getsockopt sockfd level optname optval optlen =>
    some <$> ask (.sys (.getsockopt sockfd level optname optval optlen))
  | .setsockopt sockfd opt optval optlen => some <$> Hooked.setsockopt sockfd opt optval optlen

end FiberAsync
