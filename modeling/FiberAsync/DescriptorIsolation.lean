import FiberAsync.DisabledHooks
import FiberAsync.Library.Contracts
import FiberAsync.Library.Runs
import FiberAsync.LockDiscipline

/-!
# Descriptors do not disturb each other

A hooked call looks up, creates, changes and deletes only the context of the
descriptor it is called with, or of the one that its own `socket_f` or `accept_f`
has returned, and makes underlying calls and registers events on no other one. So
whatever threads call at the same time, what is recorded of a descriptor changes
only in calls that name it. The lock of the table is left out here: more orders of
the steps are possible than with it. A lookup, a resize with its store and a
reset of the table are one step each.
-/

namespace FiberAsync

set_option autoImplicit false

open Programs Programs.Prog Runs Results

/-- The descriptor argument of a call. -/
def Sys.fd : Sys → Option Int
  | io _ fd _ | close fd | fcntl fd _ | ioctl fd _ | getsockopt fd _ _ _ _ => some fd
  | setsockopt fd _ _ _ => some fd
  | sleep _ | usleep _ | nanosleep _ _ | socket _ _ _ => none

/-- The descriptor that an underlying call has made. -/
def HookEvent.opened : HookEvent → Option Int
  | ⟨.sys (.socket _ _ _), .ok fd⟩ => some fd
  | ⟨.sys (.io .accept _ _), .ok fd⟩ => some fd
  | _ => none

/-- A lookup has answered the pointer. -/
def HookEvent.Found (l : List HookEvent) (p : FdCtxPtr) : Prop :=
  ∃ fd, (⟨.lookup fd, some (some p)⟩ : HookEvent) ∈ l

namespace Sys

variable (c : Sys) (l : List HookEvent)

/-- The descriptors of a call that has asked `l`. -/
def names : List Int := c.fd.toList ++ l.filterMap HookEvent.opened

/-- What a call may ask next. -/
def Owns : HookReq → Prop
  | .lookup fd | .fstat fd | .outside (.addEvent fd _) | .outside (.cancelAll fd) =>
    fd ∈ c.names l
  | .store fd ctx => fd ∈ c.names l ∧ ctx.m_fd = fd
  | .reset fd => ∃ o : Option FdCtxPtr, (⟨.lookup fd, some o⟩ : HookEvent) ∈ l
  | .read p | .setUserNonblock p _ | .setTimeout p _ _ => HookEvent.Found l p
  | .sys c' => ∀ fd, c'.fd = some fd → fd ∈ c.names l
  | _ => True

variable {c l} {l' : List HookEvent} {fd : Int}

theorem names_mono (h : l <+: l') (hfd : fd ∈ c.names l) : fd ∈ c.names l' := by
  obtain ⟨x, rfl⟩ := h
  unfold names at hfd ⊢
  rw [List.filterMap_append, ← List.append_assoc]
  exact List.mem_append_left _ hfd

theorem mem_names_of_opened {e : HookEvent} (he : e.opened = some fd) :
    fd ∈ c.names (l ++ [e]) := by
  unfold names
  rw [List.filterMap_append]
  exact List.mem_append_right _ (List.mem_append_right _ (by simp [he]))

end Sys

namespace HookEvent

variable {l l' : List HookEvent} {p : FdCtxPtr}

theorem Found.mono (h : l <+: l') (hp : Found l p) : Found l' p := by
  obtain ⟨fd, hfd⟩ := hp
  exact ⟨fd, h.subset hfd⟩

end HookEvent

namespace Hooked

open HookEvent

section Contracts

variable {c : Sys} {l : List HookEvent} {fd : Int}

theorem get_keeps (hfd : fd ∈ c.names l) :
    Keeps c.Owns (get fd) l fun o l' => ∀ p, o = some p → Found l' p := by
  by_cases hneg : fd = -1
  · subst fd
    exact .ret nofun
  · rw [get_eq hneg]
    refine .ask trivial fun g => .ask (Sys.names_mono (List.prefix_append _ _) hfd) fun o =>
      .ask trivial fun _ => .ret fun p hp => ?_
    rw [Option.join_eq_some_iff.mp hp]
    exact ⟨fd, by simp⟩

theorem del_keeps (hfd : fd ∈ c.names l) : Keeps c.Owns (del fd) l fun _ _ => True := by
  rw [del_eq]
  refine .ask trivial fun g => .ask (Sys.names_mono (List.prefix_append _ _) hfd) fun o => ?_
  split
  · rename_i hsome
    obtain ⟨x, rfl⟩ := Option.isSome_iff_exists.mp hsome
    exact .ask ⟨x, by simp⟩ fun _ => .ask trivial fun _ => .ret trivial
  · exact .ask trivial fun _ => .ret trivial

theorem tracked_keeps (hfd : fd ∈ c.names l) :
    Keeps c.Owns (tracked fd) l fun o l' => ∀ p, o = some p → Found l' p := by
  refine .bind (get_keeps hfd) fun o l' _ ho => ?_
  cases o with
  | none => exact .ret nofun
  | some p =>
    have hp := ho p rfl
    refine .ask hp fun ctx => .ret fun q hq => ?_
    split at hq
    · cases hq
    · cases hq
      exact hp.mono (List.prefix_append _ _)

/-- An underlying call on a descriptor that the call names. -/
theorem sys_keeps {c' : Sys} (hc' : c'.fd = some fd) (hfd : fd ∈ c.names l) :
    Keeps c.Owns (HookReq.ask (.sys c')) l fun _ _ => True := by
  refine .request (fun fd' h => ?_) fun _ => trivial
  rw [hc'] at h
  cases h
  exact hfd

theorem fcntl_keeps (hfd : fd ∈ c.names l) (cmd : FcntlCall) :
    Keeps c.Owns (fcntl fd cmd) l fun _ _ => True := by
  cases cmd with
  | setfl arg =>
    refine .bind (tracked_keeps hfd) fun o l' hl ho => ?_
    cases o with
    | none => exact sys_keeps rfl (Sys.names_mono hl hfd)
    | some p =>
      have hp := ho p rfl
      refine .ask hp fun _ => .ask (hp.mono (List.prefix_append _ _)) fun ctx => sys_keeps rfl ?_
      exact Sys.names_mono ((hl.trans (List.prefix_append _ _)).trans (List.prefix_append _ _)) hfd
  | getfl =>
    refine .bind (sys_keeps rfl hfd) fun arg l' hl _ => ?_
    refine .bind (tracked_keeps (Sys.names_mono hl hfd)) fun o l'' _ ho => ?_
    cases o with
    | none => exact .ret trivial
    | some p => exact .ask (ho p rfl) fun ctx => .ret trivial
  | int | void | lock | owner | other => exact sys_keeps rfl hfd

theorem init_keeps {ctx : FdCtx} (hctx : ctx.m_fd ∈ c.names l) :
    Keeps c.Owns (init ctx) l fun ctx' _ => ctx'.m_fd = ctx.m_fd := by
  rw [init_eq]
  refine .ask hctx fun r => ?_
  have hfd := statted_fd ctx r
  have hnames : ∀ {l'}, l ++ [⟨.fstat ctx.m_fd, r⟩] <+: l' → (statted ctx r).m_fd ∈ c.names l' := by
    intro l' hl
    rw [hfd]
    exact Sys.names_mono ((List.prefix_append _ _).trans hl) hctx
  dsimp only
  split
  · refine .bind (fcntl_keeps (hnames (List.prefix_refl _)) _) fun flags l' hl _ => ?_
    split
    · exact .bind (fcntl_keeps (hnames hl) _) fun _ _ _ _ => .ret hfd
    · exact .ret hfd
  · exact .ret hfd

theorem getCreate_keeps (hfd : fd ∈ c.names l) :
    Keeps c.Owns (getCreate fd) l fun _ _ => True := by
  by_cases hneg : fd = -1
  · subst fd
    exact .ret trivial
  · rw [getCreate_eq hneg]
    refine .ask trivial fun g => .ask (Sys.names_mono (List.prefix_append _ _) hfd) fun o => ?_
    cases o.join with
    | some p => exact .ask trivial fun _ => .ret trivial
    | none =>
      refine .ask trivial fun _ => .ask trivial fun g₂ => ?_
      have hnames : ∀ {l'}, l <+: l' → fd ∈ c.names l' := fun hl => Sys.names_mono hl hfd
      refine .bind (init_keeps ?_) fun ctx l' hl hctx => ?_
      · exact hnames (by simp)
      · exact .ask ⟨hnames (List.IsPrefix.trans (by simp) hl), hctx⟩ fun _ =>
          .ask trivial fun _ => .ret trivial

theorem sleepFor_keeps (ms : BitVec 64) : Keeps c.Owns (sleepFor ms) l fun _ _ => True :=
  .ask trivial fun _ => .ask trivial fun _ => .ret trivial

theorem cancelTimer_keeps (timeout : BitVec 64) :
    Keeps c.Owns (cancelTimer timeout) l fun _ _ => True := by
  unfold cancelTimer
  split
  · exact .request trivial fun _ => trivial
  · exact .ret trivial

theorem wait_keeps (fn : IoFun) (timeout : BitVec 64) (hfd : fd ∈ c.names l) :
    Keeps c.Owns (wait fn fd timeout) l fun _ _ => True := by
  have hadd : Keeps c.Owns (addConditionTimer timeout) l fun _ _ => True := by
    unfold addConditionTimer
    split
    · exact .request trivial fun _ => trivial
    · exact .ret trivial
  refine .bind hadd fun _ l' hl _ => .ask (Sys.names_mono hl hfd) fun rt => ?_
  cases rt with
  | some e =>
    change Keeps c.Owns (cancelTimer timeout >>= _) _ _
    exact .bind (cancelTimer_keeps timeout) fun _ _ _ _ => .ret trivial
  | none =>
    refine .ask trivial fun _ => ?_
    change Keeps c.Owns (cancelTimer timeout >>= _) _ _
    exact .bind (cancelTimer_keeps timeout) fun _ _ _ _ => .request trivial fun _ => trivial

/-- A descriptor that `accept` returns is one that `accept_f` has made. -/
def Accepts (c : Sys) (fn : IoFun) (r : Option (Returned Int)) (l : List HookEvent) : Prop :=
  fn = .accept → ∀ new, r = some (.ok new) → new ∈ c.names l

variable (fn : IoFun) (args : List (BitVec 64))

theorem accepts_answer (n : Returned Int) :
    Accepts c fn (some n) (l ++ [⟨.sys (.io fn fd args), n⟩]) := by
  rintro rfl new hnew
  cases hnew
  exact Sys.mem_names_of_opened rfl

theorem direct_keeps (hfd : fd ∈ c.names l) :
    Keeps c.Owns (direct fn fd args) l (Accepts c fn) := by
  refine .ask (fun fd' h => ?_) fun n => .ret (accepts_answer fn args n)
  cases h
  exact hfd

theorem retry_keeps (timeout : BitVec 64) (attempts : Nat) (hfd : fd ∈ c.names l) :
    Keeps c.Owns (retry fn fd args timeout attempts) l (Accepts c fn) := by
  induction attempts generalizing l with
  | zero => exact .ret nofun
  | succ attempts ih =>
    refine .ask (fun fd' h => ?_) fun n => ?_
    · cases h
      exact hfd
    · have hfd' := Sys.names_mono (List.prefix_append l [⟨.sys (.io fn fd args), n⟩]) hfd
      have hanswer : Accepts c fn (some n) (l ++ [⟨.sys (.io fn fd args), n⟩]) :=
        accepts_answer fn args n
      rcases n with (_ | _ | _ | _ | code) | v
      case error.EINTR => exact ih hfd'
      case error.EAGAIN =>
        change Keeps c.Owns (wait fn fd timeout >>= _) _ _
        refine .bind (wait_keeps fn timeout hfd') fun o l' hl _ => ?_
        cases o with
        | some e => exact .ret nofun
        | none => exact ih (Sys.names_mono hl hfd')
      all_goals exact .ret hanswer

theorem do_io_keeps (attempts : Nat) (hfd : fd ∈ c.names l) :
    Keeps c.Owns (do_io fn fd args attempts) l (Accepts c fn) := by
  refine .ask trivial fun t_hook_enable => ?_
  have hnames := Sys.names_mono (List.prefix_append l [⟨.hookEnable, t_hook_enable⟩]) hfd
  cases t_hook_enable with
  | false => exact direct_keeps fn args hnames
  | true =>
    change Keeps c.Owns (get fd >>= _) _ _
    refine .bind (get_keeps hnames) fun o l' hl ho => ?_
    have hnames' := Sys.names_mono hl hnames
    cases o with
    | none => exact direct_keeps fn args hnames'
    | some p =>
      refine .ask (ho p rfl) fun ctx => ?_
      have hnames'' := Sys.names_mono (List.prefix_append l' [⟨.read p, ctx⟩]) hnames'
      dsimp only [Prog.bind]
      split
      · exact .ret nofun
      · split
        · exact direct_keeps fn args hnames''
        · exact retry_keeps fn args _ _ hnames''

theorem accept_keeps (attempts : Nat) (hfd : fd ∈ c.names l) :
    Keeps c.Owns (accept fd args attempts) l fun _ _ => True := by
  refine .bind (do_io_keeps .accept args attempts hfd) fun r l' _ hr => ?_
  rcases r with _ | e | new
  · exact .ret trivial
  · exact .ret trivial
  · change Keeps c.Owns (if new ≥ 0 then _ else _) l' _
    split
    · exact .bind (getCreate_keeps (hr rfl new rfl)) fun _ _ _ _ => .ret trivial
    · exact .ret trivial

theorem socket_keeps (domain : Int) (type : BitVec 32) (protocol : Int) :
    Keeps c.Owns (socket domain type protocol) l fun _ _ => True := by
  refine .ask trivial fun t_hook_enable => .ask nofun fun r => ?_
  cases t_hook_enable with
  | false => exact .ret trivial
  | true =>
    cases r with
    | error e => exact .ret trivial
    | ok fd =>
      change Keeps c.Owns (getCreate fd >>= _) _ _
      exact .bind (getCreate_keeps (Sys.mem_names_of_opened rfl)) fun _ _ _ _ => .ret trivial

theorem close_keeps (hfd : fd ∈ c.names l) : Keeps c.Owns (close fd) l fun _ _ => True := by
  refine .ask trivial fun t_hook_enable => ?_
  have hnames := Sys.names_mono (List.prefix_append l [⟨.hookEnable, t_hook_enable⟩]) hfd
  cases t_hook_enable with
  | false => exact sys_keeps rfl hnames
  | true =>
    change Keeps c.Owns (get fd >>= _) _ _
    refine .bind (get_keeps hnames) fun o l' hl _ => ?_
    have hnames' := Sys.names_mono hl hnames
    cases o with
    | none => exact sys_keeps rfl hnames'
    | some p =>
      have hdel : ∀ {l''}, l' <+: l'' →
          Keeps c.Owns (del fd >>= fun _ => HookReq.ask (.sys (.close fd))) l'' fun _ _ => True :=
        fun h => .bind (del_keeps (Sys.names_mono h hnames')) fun _ _ h' _ =>
          sys_keeps rfl (Sys.names_mono (h.trans h') hnames')
      refine .ask trivial fun iom => ?_
      cases iom with
      | false => exact hdel (List.prefix_append _ _)
      | true =>
        refine .ask (Sys.names_mono (List.prefix_append _ _) hnames') fun _ => hdel ?_
        exact (List.prefix_append _ _).trans (List.prefix_append _ _)

theorem setsockopt_keeps (opt : SockOpt) (optval : Ptr) (optlen : BitVec 32)
    (hfd : fd ∈ c.names l) :
    Keeps c.Owns (setsockopt fd opt optval optlen) l fun _ _ => True := by
  refine .ask trivial fun t_hook_enable => ?_
  have hnames := Sys.names_mono (List.prefix_append l [⟨.hookEnable, t_hook_enable⟩]) hfd
  cases t_hook_enable with
  | false => cases opt <;> exact sys_keeps rfl hnames
  | true =>
    cases opt with
    | other => exact sys_keeps rfl hnames
    | timeout type v =>
      change Keeps c.Owns (get fd >>= _) _ _
      refine .bind (get_keeps hnames) fun o l' hl ho => ?_
      have hnames' := Sys.names_mono hl hnames
      cases o with
      | none => exact sys_keeps rfl hnames'
      | some p =>
        refine .ask (ho p rfl) fun _ => sys_keeps rfl ?_
        exact Sys.names_mono (List.prefix_append _ _) hnames'

theorem ioctl_keeps (cmd : IoctlCall) (hfd : fd ∈ c.names l) :
    Keeps c.Owns (ioctl fd cmd) l fun _ _ => True := by
  cases cmd with
  | other => exact sys_keeps rfl hfd
  | fionbio value =>
    refine .bind (tracked_keeps hfd) fun o l' hl ho => ?_
    have hnames := Sys.names_mono hl hfd
    cases o with
    | none => exact sys_keeps rfl hnames
    | some p =>
      exact .ask (ho p rfl) fun _ => sys_keeps rfl (Sys.names_mono (List.prefix_append _ _) hnames)

/-- Every hooked call asks only for what is its own. -/
theorem hooked_keeps (attempts : Nat) (c : Sys) :
    Keeps c.Owns (hooked attempts c) [] fun _ _ => True := by
  have hsome : ∀ {β : Type} {p : HookProg β}, Keeps c.Owns p [] (fun _ _ => True) →
      Keeps c.Owns (some <$> p) [] fun _ _ => True := fun hp => .bind hp fun _ _ _ _ => .ret trivial
  have hfd : ∀ {fd}, c.fd = some fd → fd ∈ c.names [] := by
    intro fd h
    simp [Sys.names, h]
  cases c with
  | sleep seconds =>
    refine hsome (.ask trivial fun t_hook_enable => ?_)
    cases t_hook_enable with
    | false => exact .request nofun fun _ => trivial
    | true => exact sleepFor_keeps _
  | usleep usec =>
    refine hsome (.ask trivial fun t_hook_enable => ?_)
    cases t_hook_enable with
    | false => exact .ask nofun fun _ => .ret trivial
    | true => exact sleepFor_keeps _
  | nanosleep req rem =>
    refine hsome (.ask trivial fun t_hook_enable => ?_)
    cases t_hook_enable with
    | false => exact .request nofun fun _ => trivial
    | true => exact .ask trivial fun _ => sleepFor_keeps _
  | socket domain type protocol => exact hsome (socket_keeps domain type protocol)
  | io fn fd args =>
    have hnames : fd ∈ (Sys.io fn fd args).names [] := hfd rfl
    have hdo_io := do_io_keeps fn args attempts hnames
    cases fn
    case accept => exact accept_keeps args attempts hnames
    all_goals exact hdo_io.imp fun _ _ _ _ => trivial
  | close fd => exact hsome (close_keeps (hfd rfl))
  | fcntl fd cmd => exact hsome (fcntl_keeps (hfd rfl) cmd)
  | ioctl d cmd => exact hsome (ioctl_keeps cmd (hfd rfl))
  | getsockopt sockfd level optname optval optlen =>
    have hnames : sockfd ∈ (Sys.getsockopt sockfd level optname optval optlen).names [] := hfd rfl
    exact hsome (sys_keeps rfl hnames)
  | setsockopt sockfd opt optval optlen =>
    exact hsome (setsockopt_keeps opt optval optlen (hfd rfl))

end Contracts

end Hooked

namespace FdManager

variable {m m' : FdManager} {names : List Int} {n : Nat} {p : FdCtxPtr} {ctx : FdCtx} {fd : Int}

/-- What is recorded of a descriptor. -/
def recorded (m : FdManager) (n : Nat) : Option FdCtx := (m.entry n).map m.ctxs

/-- Only what is recorded of the descriptors changes, and a context stays that of its
descriptor. -/
structure Confined (m : FdManager) (names : List Int) (m' : FdManager) : Prop where
  ok : m'.Ok
  grows : m.allocated ≤ m'.allocated
  fds : ∀ p < m.allocated, (m'.ctxs p).m_fd = (m.ctxs p).m_fd
  others : ∀ n : Nat, (n : Int) ∉ names → m'.recorded n = m.recorded n

theorem Confined.refl (h : m.Ok) : Confined m names m :=
  ⟨h, Nat.le_refl _, fun _ _ => rfl, fun _ _ => rfl⟩

theorem Confined.store (h : m.Ok) (hctx : ctx.m_fd = fd) (hfd : fd ∈ names)
    (hfits : fd * 3 / 2 ≤ INT_MAX) (hs : m.store fd ctx = .ok (p, m')) : Confined m names m' := by
  have hnonneg : 0 ≤ fd := by
    by_contra hneg
    rw [FdManager.store, if_neg fun h => hneg h.1] at hs
    cases hs
  obtain ⟨n, rfl⟩ := Int.eq_ofNat_of_zero_le hnonneg
  obtain ⟨m'', hm, hstored⟩ := store_ok h hctx (by omega)
  cases hm.symm.trans hs
  refine ⟨hstored.ok, ?_, fun p hp => ?_, fun k hk => ?_⟩
  · simp only [FdManager.store] at hs
    split at hs <;> cases hs
    exact Nat.le_succ _
  · rw [hstored.ctxs, Function.update_of_ne (Nat.ne_of_lt hp)]
  · have hne : k ≠ n := by
      rintro rfl
      exact hk hfd
    unfold recorded
    rw [hstored.entry, hstored.ctxs, Function.update_of_ne hne]
    refine Option.map_congr fun q hq => ?_
    rw [Function.update_of_ne (Nat.ne_of_lt (h.entries k q hq).1)]

theorem Ok.reset (h : m.Ok) (n : Nat) : Deleted m n { m with m_datas := m.m_datas.set n none } := by
  obtain ⟨m', hm', hdeleted⟩ := m.del_ok h n
  unfold del at hm'
  rw [h.toInt_length] at hm'
  split at hm'
  · cases hm'
    rw [List.set_eq_of_length_le (by omega)]
    exact hdeleted
  · rw [slot_of_lt (by omega)] at hm'
    cases hm'
    exact hdeleted

theorem Confined.reset (h : m.Ok) (hn : (n : Int) ∈ names) :
    Confined m names { m with m_datas := m.m_datas.set n none } := by
  have hdeleted := h.reset n
  refine ⟨hdeleted.ok, Nat.le_refl _, fun _ _ => rfl, fun k hk => ?_⟩
  have hne : k ≠ n := by
    rintro rfl
    exact hk hn
  unfold recorded
  rw [hdeleted.entry, Function.update_of_ne hne]

theorem Confined.setCtx (h : m.Ok) (hp : (m.ctxs p).m_fd ∈ names)
    (hctx : ctx.m_fd = (m.ctxs p).m_fd) : Confined m names (m.setCtx p ctx) := by
  refine ⟨h.setCtx hctx, Nat.le_refl _, fun q _ => ?_, fun k hk => ?_⟩
  · by_cases hq : q = p
    · subst q
      simp [FdManager.setCtx, hctx]
    · simp [FdManager.setCtx, hq]
  · change (m.entry k).map (Function.update m.ctxs p ctx) = (m.entry k).map m.ctxs
    refine Option.map_congr fun q hq => ?_
    have hne : q ≠ p := by
      rintro rfl
      rw [(h.entries k q hq).2] at hp
      exact hk hp
    rw [Function.update_of_ne hne]

end FdManager

/-- A hooked call under way: what it has asked so far, and what is left of it. -/
structure HookCall where
  call : Sys
  asked : List HookEvent
  rest : HookProg Unit

/-- Threads that make hooked calls. -/
structure HookThreads (κ : Type) where
  proc : Process κ
  thread : Tid → Option HookCall

inductive HookAct where
  /-- a thread calls a hooked function, with so many attempts if it is one with a loop -/
  | call (t : Tid) (c : Sys) (attempts : Nat)
  /-- what the call of a thread asks next is answered -/
  | step (t : Tid)
  | back (t : Tid)
  /-- another thread, with its own `t_hook_enable`, goes on -/
  | set_hook_enable (flag : Bool)

def HookAct.thread : HookAct → Option Tid
  | call t _ _ | step t | back t => some t
  | set_hook_enable _ => none

namespace HookThreads

variable {κ : Type} (E : HookEnv κ)

def initial (kernel : κ) (iom : Option IOManager) : HookThreads κ where
  proc := { kernel, fdMgr := .initial, iom, t_hook_enable := false }
  thread _ := none

def setThread (s : HookThreads κ) (t : Tid) (x : Option HookCall) : HookThreads κ :=
  { s with thread := Function.update s.thread t x }

def exec (s : HookThreads κ) : HookAct → Option (HookThreads κ)
  | .call t c attempts =>
    if (s.thread t).isNone then
      some (s.setThread t (some ⟨c, [], hooked attempts c >>= fun _ => pure ()⟩))
    else none
  | .step t =>
    match s.thread t with
    | some ⟨c, l, .ask r k⟩ => (E.answer s.proc r).toOption.map fun x =>
      { s.setThread t (some ⟨c, l ++ [⟨r, x.1⟩], k x.1⟩) with proc := x.2 }
    | _ => none
  | .back t =>
    match s.thread t with
    | some ⟨_, _, .ret _⟩ => some (s.setThread t none)
    | _ => none
  | .set_hook_enable flag => some { s with proc := { s.proc with t_hook_enable := flag } }

def system : System (HookThreads κ) HookAct where
  init s := ∃ kernel iom, s = initial kernel iom
  step s a s' := s.exec E a = some s'

end HookThreads

/-- The table is the hook layer's own. -/
def HookEnv.KeepsTable {κ : Type} (E : HookEnv κ) : Prop :=
  ∀ o s x s', E.outside o s = .ok (x, s') → s'.fdMgr = s.fdMgr

/-- What the lookups of a call have answered is still so. -/
def Looked (m : FdManager) (c : Sys) (l : List HookEvent) : Prop :=
  ∀ fd (o : Option FdCtxPtr), (⟨.lookup fd, some o⟩ : HookEvent) ∈ l → 0 ≤ fd ∧ fd ∈ c.names l ∧
    ∀ p, o = some p → p < m.allocated ∧ (m.ctxs p).m_fd = fd

section Answers

open FdManager

variable {κ : Type} {E : HookEnv κ} {s s' : Process κ} {m m' : FdManager} {c : Sys}
  {l : List HookEvent} {r : HookReq} {names : List Int}

theorem Looked.mono (h : Looked m c l) (hm : Confined m names m') : Looked m' c l := by
  intro fd o hmem
  obtain ⟨hnonneg, hfd, hp⟩ := h fd o hmem
  refine ⟨hnonneg, hfd, fun p ho => ?_⟩
  obtain ⟨hlt, heq⟩ := hp p ho
  exact ⟨hlt.trans_le hm.grows, (hm.fds p hlt).trans heq⟩

/-- A new answer that is not that of a lookup in the table. -/
theorem Looked.snoc (h : Looked m c l) {e : HookEvent}
    (he : ∀ fd (o : Option FdCtxPtr), e = ⟨.lookup fd, some o⟩ → 0 ≤ fd ∧ fd ∈ c.names l ∧
      ∀ p, o = some p → p < m.allocated ∧ (m.ctxs p).m_fd = fd) : Looked m c (l ++ [e]) := by
  intro fd o hmem
  have hold : 0 ≤ fd ∧ fd ∈ c.names l ∧
      ∀ p, o = some p → p < m.allocated ∧ (m.ctxs p).m_fd = fd := by
    rcases List.mem_append.mp hmem with hmem | hmem
    · exact h fd o hmem
    · exact he fd o (List.mem_singleton.mp hmem).symm
  exact ⟨hold.1, Sys.names_mono (List.prefix_append _ _) hold.2.1, hold.2.2⟩

theorem Looked.found (h : Looked m c l) {p : FdCtxPtr} (hp : HookEvent.Found l p) :
    (m.ctxs p).m_fd ∈ c.names l := by
  obtain ⟨fd, hfd⟩ := hp
  obtain ⟨_, hmem, hctx⟩ := h fd (some p) hfd
  rw [(hctx p rfl).2]
  exact hmem

theorem answer_confined (h : s.fdMgr.Ok) (hE : E.KeepsTable) (hl : Looked s.fdMgr c l)
    (hown : c.Owns l r) (hfits : ∀ fd ∈ c.names l, fd * 3 / 2 ≤ INT_MAX) {x : r.Ans}
    (ha : E.answer s r = .ok (x, s')) : Confined s.fdMgr (c.names l) s'.fdMgr := by
  cases r with
  | lookup fd =>
    simp only [HookEnv.answer] at ha
    split at ha
    · cases ha
      exact .refl h
    · obtain ⟨o, _, ha⟩ := bind_eq_ok.mp ha
      cases ha
      exact .refl h
  | store fd ctx =>
    obtain ⟨y, hy, ha⟩ := bind_eq_ok.mp ha
    cases ha
    exact .store h hown.2 hown.1 (hfits fd hown.1) hy
  | reset fd =>
    obtain ⟨o, ho⟩ := hown
    obtain ⟨hnonneg, hfd, _⟩ := hl fd o ho
    obtain ⟨n, rfl⟩ := Int.eq_ofNat_of_zero_le hnonneg
    cases ha
    exact .reset h hfd
  | setUserNonblock p v =>
    cases ha
    exact .setCtx h (hl.found hown) rfl
  | setTimeout p type v =>
    cases ha
    refine .setCtx h (hl.found hown) ?_
    cases type <;> rfl
  | outside o =>
    rw [hE o s x s' ha]
    exact .refl h
  | _ =>
    cases ha
    exact .refl h

/-- A lookup answers with the context of its descriptor. -/
theorem answer_looked (h : s.fdMgr.Ok) {fd : Int} {o : Option FdCtxPtr} {s' : Process κ}
    (ha : E.answer s (.lookup fd) = .ok (some o, s')) :
    0 ≤ fd ∧ ∀ p, o = some p → p < s.fdMgr.allocated ∧ (s.fdMgr.ctxs p).m_fd = fd := by
  simp only [HookEnv.answer] at ha
  split at ha
  · cases ha
  · rename_i hlt
    obtain ⟨o', hslot, ha⟩ := bind_eq_ok.mp ha
    cases ha
    cases fd with
    | negSucc n => cases hslot
    | ofNat n =>
      rw [h.toInt_length] at hlt
      change ¬ (s.fdMgr.m_datas.length : Int) ≤ (n : Int) at hlt
      cases (slot_of_lt (m := s.fdMgr) (n := n) (by omega)).symm.trans hslot
      exact ⟨Int.natCast_nonneg n, fun p hp => h.entries n p hp⟩

end Answers

namespace HookThreads

variable {κ : Type} {E : HookEnv κ} {s s' : HookThreads κ} {a : HookAct} {t : Tid}
  {tr : List (Move (HookThreads κ) HookAct)}

/-- One and a half times every descriptor that a call names fits an `int`. -/
def Small (s : HookThreads κ) : Prop :=
  ∀ t x, s.thread t = some x → ∀ fd ∈ x.call.names x.asked, fd * 3 / 2 ≤ INT_MAX

/-- Every call under way asks for its own, and has been answered so. -/
structure Ok (s : HookThreads κ) : Prop where
  table : s.proc.fdMgr.Ok
  keeps : ∀ t x, s.thread t = some x → Keeps x.call.Owns x.rest x.asked fun _ _ => True
  looked : ∀ t x, s.thread t = some x → Looked s.proc.fdMgr x.call x.asked

/-- What the step of a thread changes. -/
def Isolated (m : Move (HookThreads κ) HookAct) : Prop :=
  (∀ t x r k, m.act = .step t → m.pre.thread t = some x → x.rest = .ask r k →
    x.call.Owns x.asked r) ∧
  ∀ n, m.post.proc.fdMgr.recorded n ≠ m.pre.proc.fdMgr.recorded n →
    ∃ t x, m.act = .step t ∧ m.pre.thread t = some x ∧ (n : Int) ∈ x.call.names x.asked

theorem forall_setThread {P : HookCall → Prop} {o : Option HookCall}
    (hold : ∀ u x, s.thread u = some x → P x) (hnew : ∀ x, o = some x → P x) :
    ∀ u x, (s.setThread t o).thread u = some x → P x := by
  intro u x hx
  by_cases hu : u = t
  · subst u
    exact hnew x (by simpa [setThread] using hx)
  · exact hold u x (by simpa [setThread, hu] using hx)

theorem Ok.setThread (h : s.Ok) {o : Option HookCall}
    (hnew : ∀ x, o = some x → Keeps x.call.Owns x.rest x.asked (fun _ _ => True) ∧ x.asked = []) :
    (s.setThread t o).Ok where
  table := h.table
  keeps := forall_setThread h.keeps fun x hx => (hnew x hx).1
  looked := forall_setThread h.looked fun x hx => by
    rw [(hnew x hx).2]
    intro fd o hmem
    cases hmem

/-- A step that answers nothing is isolated. -/
theorem isolated_of_same (hact : ∀ t, a ≠ .step t) (htable : s'.proc.fdMgr = s.proc.fdMgr) :
    Isolated ⟨s, a, s'⟩ := by
  refine ⟨fun t x r k ha => absurd ha (hact t), fun n hn => absurd ?_ hn⟩
  change s'.proc.fdMgr.recorded n = s.proc.fdMgr.recorded n
  rw [htable]

theorem step_isolated (h : s.Ok) (hE : E.KeepsTable) (hsmall : s.Small)
    (hs : (system E).step s a s') : s'.Ok ∧ Isolated ⟨s, a, s'⟩ := by
  change s.exec E a = some s' at hs
  cases a with
  | call t c attempts =>
    obtain ⟨_, heq⟩ := Option.ite_none_right_eq_some.mp hs
    cases heq
    refine ⟨h.setThread fun x hx => ?_, isolated_of_same nofun rfl⟩
    cases hx
    exact ⟨.bind (Hooked.hooked_keeps attempts c) fun _ _ _ _ => .ret trivial, rfl⟩
  | step t =>
    simp only [exec] at hs
    split at hs
    case h_1 c l r k ht =>
      obtain ⟨⟨x, proc⟩, hx, rfl⟩ := Option.map_eq_some_iff.mp hs
      have ha : E.answer s.proc r = .ok (x, proc) := toOption_eq_some.mp hx
      obtain ⟨hown, hrest⟩ := h.keeps t _ ht
      have hl := h.looked t _ ht
      have hconfined := answer_confined h.table hE hl hown (hsmall t _ ht) ha
      have hkept : ∀ u y, s.thread u = some y → Looked proc.fdMgr y.call y.asked :=
        fun u y hy => (h.looked u y hy).mono hconfined
      refine ⟨⟨hconfined.ok, ?_, ?_⟩, fun t' y r' k' ht' hy hrest' => ?_, fun n hn => ?_⟩
      · refine forall_setThread h.keeps fun y hy => ?_
        cases hy
        exact hrest x
      · let P (y : HookCall) : Prop := Looked proc.fdMgr y.call y.asked
        refine forall_setThread (P := P) hkept fun y hy => ?_
        cases hy
        refine (hkept t _ ht).snoc fun fd o he => ?_
        cases he
        obtain ⟨hnonneg, hctx⟩ := answer_looked h.table ha
        refine ⟨hnonneg, hown, fun p hp => ?_⟩
        obtain ⟨hlt, hfd⟩ := hctx p hp
        exact ⟨hlt.trans_le hconfined.grows, (hconfined.fds p hlt).trans hfd⟩
      · cases ht'
        cases hy.symm.trans ht
        cases hrest'
        exact hown
      · refine ⟨t, _, rfl, ht, ?_⟩
        by_contra hnot
        exact hn (hconfined.others n hnot)
    case h_2 => cases hs
  | back t =>
    simp only [exec] at hs
    split at hs <;> cases hs
    exact ⟨h.setThread nofun, isolated_of_same nofun rfl⟩
  | set_hook_enable flag =>
    cases hs
    exact ⟨⟨h.table, h.keeps, h.looked⟩, isolated_of_same nofun rfl⟩

theorem initial_ok (h : (system E).init s) : s.Ok := by
  obtain ⟨kernel, iom, rfl⟩ := h
  exact ⟨FdManager.initial_ok, nofun, nofun⟩

/-- In every run of any number of threads, what a call looks up, changes, watches or calls the
underlying functions with are descriptors that it names, and what is recorded of a descriptor
changes only in a step of a call that names it. -/
theorem calls_isolated (hE : E.KeepsTable) (hr : Run (system E) s tr s')
    (hinit : (system E).init s) (hsmall : ∀ m ∈ tr, m.pre.Small) : ∀ m ∈ tr, Isolated m := by
  intro m hm
  have keeps : ∀ {s a s'}, Ok s → s.Small → (system E).step s a s' → s'.Ok :=
    fun h hsmall hs => (step_isolated h hE hsmall hs).1
  have ⟨hok, _⟩ :=
    hr.invariant_at_of_guard Ok (fun s _ => s.Small) keeps (initial_ok hinit) hsmall hm
  exact (step_isolated hok hE (hsmall m hm) (hr.step_of_mem hm)).2

/-- A thread that does not act stays as it is. -/
theorem thread_of_ne {u : Tid} (hs : (system E).step s a s') (ha : a.thread ≠ some u) :
    s'.thread u = s.thread u := by
  have hset : ∀ {t : Tid} {o : Option HookCall}, a.thread = some t →
      (s.setThread t o).thread u = s.thread u := by
    intro t o ht
    have hu : u ≠ t := by
      rintro rfl
      exact ha ht
    exact Function.update_of_ne hu _ _
  change s.exec E a = some s' at hs
  cases a with
  | call t c attempts =>
    obtain ⟨_, heq⟩ := Option.ite_none_right_eq_some.mp hs
    cases heq
    exact hset rfl
  | step t =>
    simp only [exec] at hs
    split at hs
    · obtain ⟨x, _, rfl⟩ := Option.map_eq_some_iff.mp hs
      exact hset rfl
    · cases hs
  | back t =>
    simp only [exec] at hs
    split at hs <;> cases hs
    exact hset rfl
  | set_hook_enable flag =>
    cases hs
    rfl

/-- `Small`, where only some threads are in a call. -/
def smallAt (s : HookThreads κ) (ts : List Tid) : Bool :=
  ts.all fun t => (s.thread t).all fun x =>
    (x.call.names x.asked).all fun fd => fd * 3 / 2 ≤ INT_MAX

theorem Small.of_smallAt {ts : List Tid} (hts : ∀ u, u ∉ ts → s.thread u = none)
    (h : s.smallAt ts = true) : s.Small := by
  intro t x hx fd hfd
  have ht : t ∈ ts := by
    by_contra hnot
    rw [hts t hnot] at hx
    cases hx
  have hall := List.all_eq_true.mp h t ht
  rw [hx] at hall
  exact of_decide_eq_true (List.all_eq_true.mp hall fd hfd)

/-- Linux with two descriptors to give out: 5, and 6 while 5 is open. -/
def lowest : HookEnv Files :=
  { Files.env 5 with
    perform := fun c files => (Files.env (if files 5 = none then 5 else 6)).perform c files }

theorem lowest_keepsTable : lowest.KeepsTable := by
  intro o s x s' h
  cases o with
  | cancelAll fd =>
    obtain ⟨y, hy, h⟩ := bind_eq_ok.mp h
    cases h
    unfold Process.cancelAll at hy
    split at hy
    · cases hy
      rfl
    · obtain ⟨z, _, hy⟩ := bind_eq_ok.mp hy
      cases hy
      rfl
  | _ =>
    cases h
    rfl

/-- Threads 1 and 2 make a socket each at the same time, and then one sets a timeout of its
own while the other closes its own. -/
def crossing : List HookAct :=
  [.set_hook_enable true, .call 1 (.socket 2 1 0) 0, .call 2 (.socket 2 1 0) 0] ++
  (List.replicate 17 [.step 1, .step 2]).flatten ++
  [.back 1, .back 2, .call 1 (.setsockopt 5 (.timeout .SO_RCVTIMEO ⟨1, 0⟩) 0 0) 0,
    .call 2 (.close 6) 0] ++
  (List.replicate 6 [.step 1, .step 2]).flatten ++ List.replicate 4 (.step 2)

theorem calls_isolated_crossing : ∃ tr s,
    Run (system lowest) (initial (fun _ => none) none) tr s ∧ tr.map Move.act = crossing ∧
    (s.proc.fdMgr.recorded 5).map FdCtx.m_recvTimeout = some 1000 ∧
    s.proc.fdMgr.recorded 6 = none ∧ ∀ m ∈ tr, Isolated m := by
  have hrun : (traceAll (exec lowest) (initial (fun _ => none) none) crossing).map (fun r =>
      (r.1.all fun m => m.pre.smallAt [1, 2],
        (r.2.proc.fdMgr.recorded 5).map FdCtx.m_recvTimeout, r.2.proc.fdMgr.recorded 6)) =
      some (true, some 1000, none) := by decide +kernel
  obtain ⟨tr, s, hr, hacts, hobs⟩ :=
    Run.exists_of_traceAll (S := system lowest) (exec lowest) id _ hrun
  obtain ⟨hsmall, hobs⟩ := Prod.mk.inj hobs
  obtain ⟨htimeout, hclosed⟩ := Prod.mk.inj hobs
  have hthreads : ∀ a ∈ crossing, ∀ u, u ∉ [1, 2] → a.thread ≠ some u := by
    intro a ha u hu
    have hall : crossing.all fun a => a.thread.all fun t => t ∈ [1, 2] := by decide
    have hmem := List.all_eq_true.mp hall a ha
    intro ht
    rw [ht] at hmem
    exact hu (of_decide_eq_true hmem)
  refine ⟨tr, s, hr, hacts, htimeout, hclosed, ?_⟩
  refine calls_isolated lowest_keepsTable hr ⟨_, _, rfl⟩ fun m hm => ?_
  have keeps : ∀ {s a s'}, (∀ u, u ∉ [1, 2] → s.thread u = none) →
      (∀ u, u ∉ [1, 2] → a.thread ≠ some u) → (system lowest).step s a s' →
      ∀ u, u ∉ [1, 2] → s'.thread u = none :=
    fun hi hg hs u hu => (thread_of_ne hs (hg u hu)).trans (hi u hu)
  refine .of_smallAt ?_ (List.all_eq_true.mp hsmall m hm)
  exact (hr.invariant_at_of_guard _ (fun _ a => ∀ u, u ∉ [1, 2] → a.thread ≠ some u) keeps
    (fun _ _ => rfl) (fun m hm => hthreads _ (hacts ▸ List.mem_map_of_mem hm)) hm).1

end HookThreads

end FiberAsync
