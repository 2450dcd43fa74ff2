import FiberAsync.FdManager
import FiberAsync.IOManager

/-!
# The hooked calls

The functions that override a system call, over the underlying functions as
parameters: `hook_init` finds them with `dlsym`. Every function is one call of
one thread, up to the first underlying call for those that do I/O. The `fcntl`
in `FdCtx::init` is the hooked one, and the new context is not in the table yet
when it is called. The lock of `FdManager` is left out here; `LockedTable` has it.
-/

namespace FiberAsync

set_option autoImplicit false

open Results

inductive Errno where
  | EINTR
  | EAGAIN
  | EBADF
  | ETIMEDOUT
  | other (code : Nat)
  deriving DecidableEq, Repr

/-- What a call returns: its value, or -1 and `errno`. -/
abbrev Returned (α : Type) := Except Errno α

def O_NONBLOCK : BitVec 32 := 0x800#32

structure Timeval where
  tv_sec : BitVec 64
  tv_usec : BitVec 64
  deriving DecidableEq, Repr

theorem sdiv_thousand_toNat {x : BitVec 64} (hx : x.toNat < 2 ^ 63) :
    (x.sdiv 1000).toNat = x.toNat / 1000 := by
  have hmsb : x.msb = false := BitVec.msb_eq_false_iff_two_mul_lt.mpr (by omega)
  rw [BitVec.sdiv_eq, hmsb]
  rfl

inductive SockOpt where
  /-- `SO_RCVTIMEO` or `SO_SNDTIMEO` at level `SOL_SOCKET` -/
  | timeout (type : TimeoutType) (v : Timeval)
  | other (level optname : Int)
  deriving DecidableEq, Repr

/-- The underlying functions that are called through `do_io`. -/
inductive IoFun where
  | accept
  | read
  | readv
  | recv
  | recvfrom
  | recvmsg
  | write
  | writev
  | send
  | sendto
  | sendmsg
  deriving DecidableEq, Repr

namespace IoFun

def event : IoFun → Event
  | accept | read | readv | recv | recvfrom | recvmsg => .READ
  | write | writev | send | sendto | sendmsg => .WRITE

def timeout_so : IoFun → TimeoutType
  | accept | read | readv | recv | recvfrom | recvmsg => .SO_RCVTIMEO
  | write | writev | send | sendto | sendmsg => .SO_SNDTIMEO

end IoFun

/-- The underlying functions; `fcntl_f` and `ioctl_f` for the commands that set
and get status flags, and the `S_ISSOCK` of what `fstat` finds. -/
structure Syscalls (κ : Type) where
  socket_f (domain : Int) (type : BitVec 32) (protocol : Int) : κ → Returned Int × κ
  accept_f (fd : Int) : κ → Returned Int × κ
  close_f (fd : Int) : κ → Returned Unit × κ
  getfl_f (fd : Int) : κ → Returned (BitVec 32) × κ
  setfl_f (fd : Int) (arg : BitVec 32) : κ → Returned Unit × κ
  fionbio_f (fd : Int) (value : BitVec 32) : κ → Returned Unit × κ
  setsockopt_f (fd : Int) (opt : SockOpt) : κ → Returned Unit × κ
  fstat (fd : Int) : κ → Returned Bool × κ

/-- What the hooked functions of a thread read and write. -/
structure Process (κ : Type) where
  kernel : κ
  fdMgr : FdManager
  /-- `IOManager::GetThis()` -/
  iom : Option IOManager
  t_hook_enable : Bool

/-- How `do_io` goes on from its tests of the context. -/
inductive IoEntry where
  /-- the underlying call and its result, whatever it is -/
  | direct
  /-- `errno = EBADF; return -1;` -/
  | closed
  /-- the retry loop, with the timeout of the context -/
  | wait (timeout : BitVec 64)
  deriving DecidableEq, Repr

/-- What `do_io` does with the result of an underlying call. -/
inductive IoStep (α : Type) where
  | returns (r : Returned α)
  | retry
  | suspend (timeout : BitVec 64)

namespace Process

variable {κ α : Type} (calls : Syscalls κ) (s : Process κ)

/-- An underlying call. -/
def sys (f : κ → Returned α × κ) : Returned α × Process κ :=
  ((f s.kernel).1, { s with kernel := (f s.kernel).2 })

def setCtx (p : FdCtxPtr) (ctx : FdCtx) : Process κ := { s with fdMgr := s.fdMgr.setCtx p ctx }

/-- The context for which `!ctx || ctx->isClose() || !ctx->isSocket()` is false. -/
def tracked (fd : Int) : Except Fault (Option FdCtxPtr) :=
  s.fdMgr.get fd >>= fun o =>
    .ok (o.filter fun p => !(s.fdMgr.ctxs p).m_isClosed && (s.fdMgr.ctxs p).m_isSocket)

/-- `fcntl(fd, F_SETFL, arg)` -/
def fcntlSETFL (fd : Int) (arg : BitVec 32) : Except Fault (Returned Unit × Process κ) :=
  s.tracked fd >>= fun
  | none => .ok (s.sys (calls.setfl_f fd arg))
  | some p =>
    let ctx := { s.fdMgr.ctxs p with m_userNonblock := arg &&& O_NONBLOCK ≠ 0#32 }
    let arg := if ctx.m_sysNonblock then arg ||| O_NONBLOCK else arg &&& ~~~O_NONBLOCK
    .ok ((s.setCtx p ctx).sys (calls.setfl_f fd arg))

/-- `arg & ~O_NONBLOCK` for the `arg` that `fcntl_f` returned: of -1 it is another number. -/
def withoutNonblock : Returned (BitVec 32) → Returned (BitVec 32)
  | .ok arg => .ok (arg &&& ~~~O_NONBLOCK)
  | .error _ => .ok (-1 &&& ~~~O_NONBLOCK)

/-- `fcntl(fd, F_GETFL)` -/
def fcntlGETFL (fd : Int) : Except Fault (Returned (BitVec 32) × Process κ) :=
  let (arg, s) := s.sys (calls.getfl_f fd)
  s.tracked fd >>= fun
  | none => .ok (arg, s)
  | some p =>
    if (s.fdMgr.ctxs p).m_userNonblock then .ok (arg.map (· ||| O_NONBLOCK), s)
    else .ok (withoutNonblock arg, s)

/-- `ioctl(d, FIONBIO, &value)` -/
def ioctlFIONBIO (d : Int) (value : BitVec 32) : Except Fault (Returned Unit × Process κ) :=
  s.tracked d >>= fun
  | none => .ok (s.sys (calls.fionbio_f d value))
  | some p =>
    let ctx := { s.fdMgr.ctxs p with m_userNonblock := value ≠ 0#32 }
    .ok ((s.setCtx p ctx).sys (calls.fionbio_f d value))

/-- `FdCtx::init()`, called in the constructor. -/
def init (ctx : FdCtx) : Except Fault (FdCtx × Process κ) :=
  let (r, s) := s.sys (calls.fstat ctx.m_fd)
  let ctx := match r with
    | .error _ => { ctx with m_isInit := false, m_isSocket := false }
    | .ok isSock => { ctx with m_isInit := true, m_isSocket := isSock }
  let ctx := { ctx with m_recvTimeout := -1, m_sendTimeout := -1 }
  if ctx.m_isSocket then
    s.fcntlGETFL calls ctx.m_fd >>= fun (r, s) =>
    let flags := match r with
      | .ok flags => flags
      | .error _ => -1
    (if flags &&& O_NONBLOCK = 0#32 then
      s.fcntlSETFL calls ctx.m_fd (flags ||| O_NONBLOCK) >>= fun (_, s) => .ok s
    else .ok s) >>= fun s =>
      .ok ({ ctx with m_sysNonblock := true, m_userNonblock := false, m_isClosed := false }, s)
  else
    .ok ({ ctx with m_sysNonblock := false, m_userNonblock := false, m_isClosed := false }, s)

/-- `FdManager::get(fd, true)` -/
def getCreate (fd : Int) : Except Fault (Option FdCtxPtr × Process κ) :=
  if fd = -1 then .ok (none, s)
  else s.fdMgr.get fd >>= fun
  | some p => .ok (some p, s)
  | none =>
    s.init calls (.new fd) >>= fun (ctx, s) =>
    s.fdMgr.store fd ctx >>= fun (p, fdMgr) => .ok (some p, { s with fdMgr })

def socket (domain : Int) (type : BitVec 32) (protocol : Int) :
    Except Fault (Returned Int × Process κ) :=
  let (r, s) := s.sys (calls.socket_f domain type protocol)
  if s.t_hook_enable then
    match r with
    | .error e => .ok (.error e, s)
    | .ok fd => s.getCreate calls fd >>= fun (_, s) => .ok (.ok fd, s)
  else .ok (r, s)

/-- `do_io` up to its first underlying call. -/
def ioEntry (fd : Int) (timeout_so : TimeoutType) : Except Fault IoEntry :=
  if s.t_hook_enable then
    s.fdMgr.get fd >>= fun
    | none => .ok .direct
    | some p =>
      let ctx := s.fdMgr.ctxs p
      if ctx.m_isClosed then .ok .closed
      else if ¬ ctx.m_isSocket ∨ ctx.m_userNonblock then .ok .direct
      else .ok (.wait (ctx.getTimeout timeout_so))
  else .ok .direct

end Process

/-- What `do_io` does with the result of its underlying call. -/
def IoEntry.after {α : Type} (e : IoEntry) (r : Returned α) : IoStep α :=
  match e, r with
  | .wait _, .error .EINTR => .retry
  | .wait timeout, .error .EAGAIN => .suspend timeout
  | .closed, _ => .returns (.error .EBADF)
  | _, r => .returns r

namespace Process

variable {κ α : Type} (calls : Syscalls κ) (s : Process κ)

/-- `do_io` until it returns, calls again or puts the fiber to sleep. -/
def do_io (fd : Int) (f : κ → Returned α × κ) (timeout_so : TimeoutType) :
    Except Fault (IoStep α × Process κ) :=
  s.ioEntry fd timeout_so >>= fun e =>
    if e = .closed then .ok (.returns (.error .EBADF), s)
    else .ok (e.after (s.sys f).1, (s.sys f).2)

def accept (fd : Int) : Except Fault (IoStep Int × Process κ) :=
  s.do_io fd (calls.accept_f fd) .SO_RCVTIMEO >>= fun
  | (.returns (.ok fd), s) =>
    if fd ≥ 0 then s.getCreate calls fd >>= fun (_, s) => .ok (.returns (.ok fd), s)
    else .ok (.returns (.ok fd), s)
  | (r, s) => .ok (r, s)

def setsockopt (sockfd : Int) (opt : SockOpt) : Except Fault (Returned Unit × Process κ) :=
  match opt with
  | .timeout type v =>
    if s.t_hook_enable then
      s.fdMgr.get sockfd >>= fun
      | none => .ok (s.sys (calls.setsockopt_f sockfd opt))
      | some p =>
        let ms := v.tv_sec * 1000 + v.tv_usec.sdiv 1000
        let s := s.setCtx p ((s.fdMgr.ctxs p).setTimeout type ms)
        .ok (s.sys (calls.setsockopt_f sockfd opt))
    else .ok (s.sys (calls.setsockopt_f sockfd opt))
  | .other _ _ => .ok (s.sys (calls.setsockopt_f sockfd opt))

/-- `iom->cancelAll(fd)`, if the thread has an IOManager. -/
def cancelAll (fd : Int) : Except Fault (Process κ) :=
  match s.iom with
  | none => .ok s
  | some io => io.cancelAll fd.toNat >>= fun (_, io) => .ok { s with iom := some io }

def close (fd : Int) : Except Fault (Returned Unit × Process κ) :=
  if s.t_hook_enable then
    s.fdMgr.get fd >>= fun
    | none => .ok (s.sys (calls.close_f fd))
    | some _ =>
      s.cancelAll fd >>= fun s =>
      s.fdMgr.del fd >>= fun fdMgr => .ok (({ s with fdMgr } : Process κ).sys (calls.close_f fd))
  else .ok (s.sys (calls.close_f fd))

end Process

end FiberAsync
