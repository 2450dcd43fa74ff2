import FiberAsync.Hook
import FiberAsync.Library.Runs

/-!
# Status flags with and without hooks

What Linux keeps for an open descriptor, and the calls that create descriptors
and read and write their status flags: once through the hooked functions, on a
thread with hooks enabled, and once as a process without hooks makes them.
Descriptors that are open from the start are not sockets. A call is one step
here, and the lock of the table is left out.
-/

namespace FiberAsync

set_option autoImplicit false

open Runs Results

def O_RDWR : BitVec 32 := 0x2#32
def SOCK_NONBLOCK : BitVec 32 := 0x800#32

/-- `O_APPEND`, `O_NONBLOCK`, `O_ASYNC`, `O_DIRECT` and `O_NOATIME`, the flags that
`F_SETFL` can change. -/
def SETFL_MASK : BitVec 32 := 0x46C00#32

structure File where
  isSock : Bool
  flags : BitVec 32
  deriving DecidableEq, Repr

/-- The open descriptors. -/
abbrev Files := Nat → Option File

namespace Files

variable (files : Files)

def lookup : Int → Option File
  | .ofNat n => files n
  | .negSucc _ => none

/-- `O_APPEND` and the others from `arg`, the rest as it was. -/
def setFlags (arg flags : BitVec 32) : BitVec 32 :=
  (arg &&& SETFL_MASK) ||| (flags &&& ~~~SETFL_MASK)

def setNonblock (value flags : BitVec 32) : BitVec 32 :=
  if value = 0#32 then flags &&& ~~~O_NONBLOCK else flags ||| O_NONBLOCK

/-- The flags of an open descriptor are changed. -/
def change (fd : Int) (f : BitVec 32 → BitVec 32) : Returned Unit × Files :=
  match files.lookup fd with
  | some file => (.ok (), Function.update files fd.toNat (some { file with flags := f file.flags }))
  | none => (.error .EBADF, files)

/-- A new socket. -/
def opened (next : Nat) (flags : BitVec 32) : Returned Int × Files :=
  (.ok next, Function.update files next (some ⟨true, flags⟩))

/-- A call that only fails on a descriptor that is not open. -/
def ask {α : Type} (fd : Int) (f : File → α) : Returned α × Files :=
  match files.lookup fd with
  | some file => (.ok (f file), files)
  | none => (.error .EBADF, files)

/-- The system calls of Linux, where a new descriptor is `next`. -/
def linux (next : Nat) : Syscalls Files where
  socket_f _ type _ files := files.opened next (O_RDWR ||| (type &&& SOCK_NONBLOCK))
  accept_f fd files :=
    match files.lookup fd with
    | some _ => files.opened next O_RDWR
    | none => (.error .EBADF, files)
  close_f fd files :=
    match files.lookup fd with
    | some _ => (.ok (), Function.update files fd.toNat none)
    | none => (.error .EBADF, files)
  getfl_f fd files := files.ask fd File.flags
  setfl_f fd arg files := files.change fd (setFlags arg)
  fionbio_f fd value files := files.change fd (setNonblock value)
  setsockopt_f fd _ files := files.ask fd fun _ => ()
  fstat fd files := files.ask fd File.isSock

end Files

/-- A call of the user, with the descriptor that the kernel gives out. -/
inductive Call where
  | socket (domain : Int) (type : BitVec 32) (protocol : Int) (next : Nat)
  | accept (fd next : Nat)
  | setfl (fd : Nat) (arg : BitVec 32)
  | getfl (fd : Nat)
  | fionbio (fd : Nat) (value : BitVec 32)
  | setsockopt (fd : Nat) (opt : SockOpt)
  | close (fd : Nat)
  deriving DecidableEq, Repr

namespace Call

/-- The descriptor that the call creates or is made on. -/
def target : Call → Nat
  | socket _ _ _ next | accept _ next => next
  | setfl fd _ | getfl fd | fionbio fd _ | setsockopt fd _ | close fd => fd

def creates : Call → Bool
  | socket _ _ _ _ | accept _ _ => true
  | _ => false

/-- `fd * 1.5` fits in an `int` for the descriptor that the call creates. -/
def Small (c : Call) : Prop := c.creates = true → c.target * 3 / 2 ≤ INT_MAX

instance (c : Call) : Decidable c.Small :=
  inferInstanceAs (Decidable (c.creates = true → c.target * 3 / 2 ≤ INT_MAX))

/-- The underlying calls succeed: a new descriptor was not open, another one is. -/
def Succeeds (c : Call) (files : Files) : Prop :=
  match c with
  | socket _ _ _ next => files next = none ∧ next ≤ INT_MAX
  | accept fd next => (files fd).any File.isSock = true ∧ files next = none ∧ next ≤ INT_MAX
  | setfl fd _ | getfl fd | fionbio fd _ | setsockopt fd _ | close fd => (files fd).isSome = true

instance (c : Call) (files : Files) : Decidable (c.Succeeds files) :=
  match c with
  | socket _ _ _ next => inferInstanceAs (Decidable (files next = none ∧ next ≤ INT_MAX))
  | accept fd next => inferInstanceAs
    (Decidable ((files fd).any File.isSock = true ∧ files next = none ∧ next ≤ INT_MAX))
  | setfl fd _ | getfl fd | fionbio fd _ | setsockopt fd _ | close fd =>
    inferInstanceAs (Decidable ((files fd).isSome = true))

variable {c : Call} {files : Files}

theorem Succeeds.fresh (h : c.Succeeds files) (hc : c.creates = true) : files c.target = none := by
  cases c with
  | socket => exact h.1
  | accept => exact h.2.1
  | _ => cases hc

theorem Succeeds.isOpen (h : c.Succeeds files) (hc : c.creates = false) :
    ∃ f, files c.target = some f := by
  cases c with
  | socket | accept => cases hc
  | _ => exact Option.isSome_iff_exists.mp h

end Call

namespace Files

/-- The call in a process without hooks. -/
def exec (files : Files) : Call → Files
  | .socket domain type protocol next => ((linux next).socket_f domain type protocol files).2
  | .accept fd next => ((linux next).accept_f fd files).2
  | .setfl fd arg => ((linux 0).setfl_f fd arg files).2
  | .getfl fd => ((linux 0).getfl_f fd files).2
  | .fionbio fd value => ((linux 0).fionbio_f fd value files).2
  | .setsockopt fd opt => ((linux 0).setsockopt_f fd opt files).2
  | .close fd => ((linux 0).close_f fd files).2

end Files

namespace Process

/-- The hooked call. -/
def exec (s : Process Files) : Call → Except Fault (Process Files)
  | .socket domain type protocol next =>
    (s.socket (Files.linux next) domain type protocol).map Prod.snd
  | .accept fd next => (s.accept (Files.linux next) fd).map Prod.snd
  | .setfl fd arg => (s.fcntlSETFL (Files.linux 0) fd arg).map Prod.snd
  | .getfl fd => (s.fcntlGETFL (Files.linux 0) fd).map Prod.snd
  | .fionbio fd value => (s.ioctlFIONBIO (Files.linux 0) fd value).map Prod.snd
  | .setsockopt fd opt => (s.setsockopt (Files.linux 0) fd opt).map Prod.snd
  | .close fd => (s.close (Files.linux 0) fd).map Prod.snd

def initial (files : Files) (iom : Option IOManager) : Process Files where
  kernel := files
  fdMgr := .initial
  iom := iom
  t_hook_enable := true

/-- Runs of a thread with hooks whose underlying calls succeed. -/
def system : System (Process Files) Call where
  init s := ∃ files iom, s = initial files iom ∧ ∀ n f, files n = some f → f.isSock = false
  step s c s' := c.Succeeds s.kernel ∧ s.exec c = .ok s'

/-- The step function of `system`, for runs on given calls. -/
def next (s : Process Files) (c : Call) : Option (Process Files) :=
  if c.Succeeds s.kernel then (s.exec c).toOption else none

theorem next_sound {s s' : Process Files} {c : Call} (h : s.next c = some s') :
    system.step s c s' := by
  obtain ⟨hsucceeds, h⟩ := Option.ite_none_right_eq_some.mp h
  exact ⟨hsucceeds, toOption_eq_some.mp h⟩

end Process

end FiberAsync
