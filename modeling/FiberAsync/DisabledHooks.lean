import FiberAsync.HookExecution
import FiberAsync.HookedFlags

/-!
# Threads without hooks

On a thread whose `t_hook_enable` is false an override should do what the system
call does, and nothing else. Which calls do, in which states of the process.
-/

namespace FiberAsync

set_option autoImplicit false

open Programs Programs.Prog Results

/-- A request that is a system call. -/
def HookReq.issues : HookReq → Bool
  | .sys _ | .fstat _ => true
  | _ => false

section

variable {κ : Type} (E : HookEnv κ) (attempts : Nat) (c : Sys) (s : Process κ)

end

section Logs

variable {κ : Type} {E : HookEnv κ} {attempts : Nat} {s : Process κ} {fd : Int}

/-- An event that is not a system call. -/
def Silent (x : List (Asked HookReq HookReq.Ans)) : Prop := ∃ e, e.req.issues = false ∧ x = [e]

end Logs

section Masks

variable {arg : BitVec 32}

end Masks

section Calls

variable {κ : Type} {E : HookEnv κ} {attempts : Nat} {s : Process κ} {fd : Int}

theorem answer_lookup (hfd : fd ≠ -1) :
    (∃ o, E.answer s (.lookup fd) = .ok (o, s) ∧ s.fdMgr.get fd = .ok o.join) ∨
      ∃ f, E.answer s (.lookup fd) = .error f ∧ s.fdMgr.get fd = .error f := by
  unfold HookEnv.answer FdManager.get
  rw [if_neg hfd]
  dsimp only
  split
  · exact Or.inl ⟨none, rfl, rfl⟩
  · cases s.fdMgr.slot fd with
    | error f => exact Or.inr ⟨f, rfl, rfl⟩
    | ok o => exact Or.inl ⟨some o, rfl, rfl⟩

end Calls

namespace Files

/-- Linux as the environment of the hook layer: what is not about status flags succeeds
on an open descriptor. -/
def env (next : Nat) : HookEnv Files where
  perform
    | .socket domain type protocol => (linux next).socket_f domain type protocol
    | .io .accept fd _ => (linux next).accept_f fd
    | .io _ fd _ => fun files => files.ask fd fun _ => 0
    | .close fd => (linux next).close_f fd
    | .fcntl fd (.setfl arg) => (linux next).setfl_f fd arg
    | .fcntl fd .getfl => (linux next).getfl_f fd
    | .fcntl fd (.int _ _) | .fcntl fd (.void _) => fun files => files.ask fd fun _ => 0
    | .fcntl fd (.lock _ _) | .fcntl fd (.owner _ _) => fun files => files.ask fd fun _ => 0
    | .fcntl fd (.other _ _) => fun files => files.ask fd fun _ => 0
    | .ioctl d (.fionbio value) => (linux next).fionbio_f d value
    | .ioctl d (.other _ _) => fun files => files.ask d fun _ => 0
    | .getsockopt fd _ _ _ _ => fun files => files.ask fd fun _ => 0
    | .setsockopt fd opt _ _ => (linux next).setsockopt_f fd opt
    | .sleep _ | .usleep _ | .nanosleep _ _ => fun files => (.ok 0, files)
  fstat := (linux next).fstat
  timespec _ _ := ⟨0, 0⟩
  outside
    | .cancelAll fd, s => s.cancelAll fd >>= fun s => .ok ((), s)
    | .addEvent _ _, s => .ok (none, s)
    | .add_timer _, s | .addConditionTimer _, s | .cancelTimer, s | .yield, s => .ok ((), s)
  cnacelled _ := none

end Files

end FiberAsync
