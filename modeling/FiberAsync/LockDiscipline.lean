import FiberAsync.HookPrograms

/-!
# The lock of the table

What the guards of a thread do to `FdManager::m_mutex` in the hooked calls. The
constructor of a context runs under the write lock, and for a socket its `fcntl`
comes back to the table.
-/

namespace FiberAsync

set_option autoImplicit false

open Programs Programs.Prog

inductive LockMode where
  | read
  | write
  deriving DecidableEq, Repr

abbrev HookEvent := Asked HookReq HookReq.Ans

namespace HookEvent

/-- One event, from the guard that has acquired the lock: nobody of the thread
acquires it again, that guard releases it, and the table is written under the
write lock. -/
def holds (held : Option (Nat × LockMode)) : HookEvent → Option (Option (Nat × LockMode))
  | ⟨.rdlock, g⟩ => if held = none then some (some (g, .read)) else none
  | ⟨.wrlock, g⟩ => if held = none then some (some (g, .write)) else none
  | ⟨.unlock g, _⟩ => if held.map Prod.fst = some g then some none else none
  | ⟨.store _ _, _⟩ | ⟨.reset _, _⟩ =>
    if held.map Prod.snd = some .write then some held else none
  | _ => some held

/-- What the thread owns of the lock itself: a `rdlock` or `wrlock` of the owner fails
with `EDEADLK`, which nobody looks at, and an `unlock` is one whoever calls it. -/
def owns (owned : Option LockMode) : HookEvent → Option LockMode
  | ⟨.rdlock, _⟩ => owned.or (some .read)
  | ⟨.wrlock, _⟩ => owned.or (some .write)
  | ⟨.unlock _, _⟩ => none
  | _ => owned

/-- `m_datas` is written. -/
def writes : HookEvent → Bool
  | ⟨.store _ _, _⟩ | ⟨.reset _, _⟩ => true
  | _ => false

/-- `fstat` in the constructor of a context finds a socket. -/
def socketFound : HookEvent → Bool
  | ⟨.fstat _, .ok true⟩ => true
  | _ => false

/-- The thread leaves the hook layer, where the fiber may give up the thread. -/
def leaves : HookEvent → Bool
  | ⟨.outside _, _⟩ => true
  | _ => false

end HookEvent

/-- A question of the hook layer that is neither about the lock nor the table. -/
def HookReq.plain : HookReq → Bool
  | .read _ | .setUserNonblock _ _ | .setTimeout _ _ _ | .hookEnable | .sys _ => true
  | .timespec _ | .hasIOManager | .cnacelled => true
  | _ => false

open HookEvent

def Disciplined (l : List HookEvent) : Prop := (l.foldlM holds none).isSome = true

instance (l : List HookEvent) : Decidable (Disciplined l) :=
  inferInstanceAs (Decidable ((l.foldlM holds none).isSome = true))

section Owned

variable {held held' : Option (Nat × LockMode)} {e : HookEvent} {before after : List HookEvent}

theorem owns_of_holds (h : holds held e = some held') :
    owns (held.map Prod.snd) e = held'.map Prod.snd := by
  obtain ⟨r, x⟩ := e
  cases r with
  | rdlock | wrlock =>
    obtain ⟨rfl, h⟩ := Option.ite_none_right_eq_some.mp h
    cases h
    rfl
  | unlock g =>
    obtain ⟨_, h⟩ := Option.ite_none_right_eq_some.mp h
    cases h
    rfl
  | store | reset =>
    obtain ⟨_, h⟩ := Option.ite_none_right_eq_some.mp h
    cases h
    rfl
  | _ =>
    cases h
    rfl

theorem foldl_owns_of_foldlM_holds {l : List HookEvent} (h : l.foldlM holds held = some held') :
    l.foldl owns (held.map Prod.snd) = held'.map Prod.snd := by
  induction l generalizing held with
  | nil =>
    cases h
    rfl
  | cons e l ih =>
    obtain ⟨next, he, h⟩ := Option.bind_eq_some_iff.mp h
    rw [List.foldl_cons, owns_of_holds he]
    exact ih h

theorem Disciplined.owned (h : Disciplined (before ++ e :: after)) (he : writes e = true) :
    before.foldl owns none = some .write := by
  obtain ⟨last, h⟩ := Option.isSome_iff_exists.mp h
  rw [List.foldlM_append] at h
  obtain ⟨held, hbefore, h⟩ := Option.bind_eq_some_iff.mp h
  obtain ⟨next, hnext, _⟩ := Option.bind_eq_some_iff.mp h
  rw [show none = (none : Option (Nat × LockMode)).map Prod.snd from rfl,
    foldl_owns_of_foldlM_holds hbefore]
  obtain ⟨r, x⟩ := e
  cases r with
  | store | reset => exact (Option.ite_none_right_eq_some.mp hnext).1
  | _ => cases he

end Owned

/-- What a thread does in hooked calls. A call that has left the hook layer may
go on later, after parts of other calls, and on another thread. -/
def ThreadLog (l : List HookEvent) : Prop :=
  ∃ parts : List (List HookEvent), l = parts.flatten ∧
    ∀ x ∈ parts, ∃ attempts c path r, Path (hooked attempts c) path r ∧ Part leaves path x

/-- From outside the lock back to there, unless a socket is found. -/
def Balanced (x : List HookEvent) : Prop :=
  x.foldlM holds none = if x.any socketFound then none else some none

/-- An event that is not the lock's, or a whole section. -/
def LockPiece (x : List HookEvent) : Prop :=
  Balanced x ∧ ∀ e ∈ x, leaves e = true → x = [e]

namespace Hooked

open TableGuard HookReq

variable {fd : Int} {α : Type}

section Sections

variable {held : Nat × LockMode} {ctx : FdCtx}

theorem get_rejected (hfd : fd ≠ -1) : Rejected holds (some held) (get fd) := by
  rw [get_eq hfd]
  exact .here fun _ => rfl

theorem getfl_rejected (hfd : fd ≠ -1) : Rejected holds (some held) (fcntl fd .getfl) := by
  have htracked : Rejected holds (some held) (tracked fd) := (get_rejected hfd).bind
  exact .later (fun _ => rfl) fun _ => htracked.bind

theorem get_balanced {l : List HookEvent} {o : Option FdCtxPtr} (h : Path (get fd) l o) :
    Balanced l := by
  by_cases hfd : fd = -1
  · subst fd
    cases h
    rfl
  · have hj : Judged holds socketFound none (get fd) fun _ => none := by
      rw [get_eq hfd]
      refine .ask_good (fun _ => rfl) (fun _ => rfl) fun g => ?_
      refine .ask_good (fun _ => rfl) (fun _ => rfl) fun o => ?_
      refine .ask_good (fun _ => if_pos rfl) (fun _ => rfl) fun _ => ?_
      exact .ret rfl
    exact hj l o h

theorem del_balanced {l : List HookEvent} {u : Unit} (h : Path (del fd) l u) : Balanced l := by
  have hj : Judged holds socketFound none (del fd) fun _ => none := by
    rw [del_eq]
    refine .ask_good (fun _ => rfl) (fun _ => rfl) fun g => ?_
    refine .ask_good (fun _ => rfl) (fun _ => rfl) fun o => ?_
    have hunlock : Judged holds socketFound (some (g, .write))
        (.ask (.unlock g) fun _ => .ret ()) fun _ => none := by
      refine .ask_good (fun _ => if_pos rfl) (fun _ => rfl) fun _ => ?_
      exact .ret rfl
    split
    · exact .ask_good (fun _ => rfl) (fun _ => rfl) fun _ => hunlock
    · exact hunlock
  exact hj l u h

/-- The constructor of a context keeps the lock as it is, but not for a socket. -/
theorem init_judged (hctx : ctx.m_fd ≠ -1) :
    Judged holds socketFound (some held) (init ctx) fun _ => some held := by
  rw [init_eq]
  refine .ask (fun _ => rfl) (fun r hr => ?_) (fun r hr => ?_)
  · have hsock : (statted ctx r).m_isSocket = false := by
      rcases r with e | _ | _
      · rfl
      · rfl
      · cases hr
    simp only [hsock]
    exact .ret rfl
  · have hsock : (statted ctx r).m_isSocket = true := by
      rcases r with e | _ | _
      · cases hr
      · cases hr
      · rfl
    simp only [hsock, if_true]
    rw [statted_fd]
    exact (getfl_rejected hctx).bind

theorem getCreate_balanced {l : List HookEvent} {o : Option FdCtxPtr}
    (h : Path (getCreate fd) l o) : Balanced l := by
  by_cases hfd : fd = -1
  · subst fd
    cases h
    rfl
  · have hj : Judged holds socketFound none (getCreate fd) fun _ => none := by
      rw [getCreate_eq hfd]
      refine .ask_good (fun _ => rfl) (fun _ => rfl) fun g => ?_
      refine .ask_good (fun _ => rfl) (fun _ => rfl) fun o => ?_
      cases o.join with
      | some p =>
        refine .ask_good (fun _ => if_pos rfl) (fun _ => rfl) fun _ => ?_
        exact .ret rfl
      | none =>
        refine .ask_good (fun _ => if_pos rfl) (fun _ => rfl) fun _ => ?_
        refine .ask_good (fun _ => rfl) (fun _ => rfl) fun g₂ => ?_
        refine (init_judged hfd).bind fun ctx => ?_
        refine .ask_good (fun _ => rfl) (fun _ => rfl) fun p => ?_
        refine .ask_good (fun _ => if_pos rfl) (fun _ => rfl) fun _ => ?_
        exact .ret rfl
    exact hj l o h

/-- The sections do not leave the hook layer. -/
def Inside (x : List HookEvent) : Prop := ∃ e, leaves e = false ∧ x = [e]

theorem inside_ask {r : HookReq} (hr : ∀ x, leaves ⟨r, x⟩ = false) (x : r.Ans) :
    Inside [⟨r, x⟩] :=
  ⟨_, hr x, rfl⟩

theorem get_inside (fd : Int) : Made Inside (get fd) := by
  by_cases hfd : fd = -1
  · subst fd
    exact .ret none
  · rw [get_eq hfd]
    exact .ask (inside_ask fun _ => rfl) fun _ => .ask (inside_ask fun _ => rfl) fun _ =>
      .ask (inside_ask fun _ => rfl) fun _ => .ret _

theorem del_inside (fd : Int) : Made Inside (del fd) := by
  rw [del_eq]
  refine .ask (inside_ask fun _ => rfl) fun g => .ask (inside_ask fun _ => rfl) fun o => ?_
  have hunlock : Made Inside (.ask (.unlock g) fun _ => .ret ()) :=
    .ask (inside_ask fun _ => rfl) fun _ => .ret ()
  split
  · exact .ask (inside_ask fun _ => rfl) fun _ => hunlock
  · exact hunlock

section Generic

variable {piece : List HookEvent → Prop}
  (hplain : ∀ r : HookReq, r.plain = true → ∀ x, piece [⟨r, x⟩])
  (hget : ∀ fd, Made piece (get fd))

include hplain hget

theorem tracked_made (fd : Int) : Made piece (tracked fd) := by
  refine .bind (hget fd) fun o => ?_
  cases o with
  | none => exact .ret none
  | some p => exact .ask (hplain _ rfl) fun _ => .ret _

theorem fcntl_made (fd : Int) (c : FcntlCall) : Made piece (fcntl fd c) := by
  have htracked := tracked_made hplain hget fd
  cases c with
  | setfl arg =>
    refine .bind htracked fun o => ?_
    cases o with
    | none => exact .request (hplain _ rfl)
    | some p =>
      exact .ask (hplain _ rfl) fun _ => .ask (hplain _ rfl) fun _ => .request (hplain _ rfl)
  | getfl =>
    refine .ask (hplain _ rfl) fun arg => ?_
    change Made piece (tracked fd >>= _)
    refine .bind htracked fun o => ?_
    cases o with
    | none => exact .ret arg
    | some p => exact .ask (hplain _ rfl) fun _ => .ret _
  | int | void | lock | owner | other => exact .request (hplain _ rfl)

end Generic

theorem fcntl_inside (fd : Int) (c : FcntlCall) : Made Inside (fcntl fd c) := by
  refine fcntl_made (fun r hr => inside_ask fun x => ?_) get_inside fd c
  cases r <;> first | rfl | cases hr

theorem init_inside (ctx : FdCtx) : Made Inside (init ctx) := by
  rw [init_eq]
  refine .ask (inside_ask fun _ => rfl) fun r => ?_
  dsimp only
  split
  · refine .bind (fcntl_inside _ _) fun flags => ?_
    split
    · exact .bind (fcntl_inside _ _) fun _ => .ret _
    · exact .ret _
  · exact .ret _

theorem getCreate_inside (fd : Int) : Made Inside (getCreate fd) := by
  by_cases hfd : fd = -1
  · subst fd
    exact .ret none
  · rw [getCreate_eq hfd]
    refine .ask (inside_ask fun _ => rfl) fun _ => .ask (inside_ask fun _ => rfl) fun o => ?_
    cases o.join with
    | some p => exact .ask (inside_ask fun _ => rfl) fun _ => .ret _
    | none =>
      refine .ask (inside_ask fun _ => rfl) fun _ => .ask (inside_ask fun _ => rfl) fun _ =>
        .bind (init_inside _) fun _ => ?_
      exact .ask (inside_ask fun _ => rfl) fun _ => .ask (inside_ask fun _ => rfl) fun _ => .ret _

end Sections

section Pieces

theorem leaves_of_inside {l : List HookEvent} (h : Pieces Inside l) :
    ∀ e ∈ l, leaves e = false := by
  induction h with
  | nil => simp
  | cons hx _ ih =>
    obtain ⟨e, he, rfl⟩ := hx
    exact List.forall_mem_cons.mpr ⟨he, ih⟩

theorem section_made {p : HookProg α} (hbalanced : ∀ l a, Path p l a → Balanced l)
    (hinside : Made Inside p) : Made LockPiece p := by
  refine .of_piece fun l a hpath => ⟨hbalanced l a hpath, fun e he hleaves => ?_⟩
  rw [leaves_of_inside (hinside l a hpath) e he] at hleaves
  cases hleaves

theorem get_made (fd : Int) : Made LockPiece (get fd) :=
  section_made (fun _ _ => get_balanced) (get_inside fd)

theorem del_made (fd : Int) : Made LockPiece (del fd) :=
  section_made (fun _ _ => del_balanced) (del_inside fd)

theorem getCreate_made (fd : Int) : Made LockPiece (getCreate fd) :=
  section_made (fun _ _ => getCreate_balanced) (getCreate_inside fd)

theorem other_ask {r : HookReq} (hnext : ∀ x, holds none ⟨r, x⟩ = some none)
    (hquiet : ∀ x, socketFound ⟨r, x⟩ = false) (x : r.Ans) : LockPiece [⟨r, x⟩] := by
  refine ⟨?_, fun e he _ => by rw [List.mem_singleton.mp he]⟩
  simp [Balanced, hnext, hquiet]

theorem plain_ask {r : HookReq} (hr : r.plain = true) (x : r.Ans) : LockPiece [⟨r, x⟩] := by
  refine other_ask (fun x => ?_) (fun x => ?_) x
  all_goals
    cases r
    all_goals first | rfl | cases hr

theorem outside_ask {o : Outside} (x : (HookReq.outside o).Ans) :
    LockPiece [⟨.outside o, x⟩] :=
  other_ask (fun _ => rfl) (fun _ => rfl) x

theorem sleepFor_made (ms : BitVec 64) : Made LockPiece (sleepFor ms) :=
  .ask outside_ask fun _ => .ask outside_ask fun _ => .ret _

theorem cancelTimer_made (timeout : BitVec 64) : Made LockPiece (cancelTimer timeout) := by
  unfold cancelTimer
  split
  · exact .request outside_ask
  · exact .ret ()

theorem wait_made (fn : IoFun) (fd : Int) (timeout : BitVec 64) :
    Made LockPiece (wait fn fd timeout) := by
  have hadd : Made LockPiece (addConditionTimer timeout) := by
    unfold addConditionTimer
    split
    · exact .request outside_ask
    · exact .ret ()
  refine .bind hadd fun _ => .ask outside_ask fun rt => ?_
  cases rt with
  | some e =>
    change Made LockPiece (cancelTimer timeout >>= _)
    exact .bind (cancelTimer_made timeout) fun _ => .ret _
  | none =>
    refine .ask outside_ask fun _ => ?_
    change Made LockPiece (cancelTimer timeout >>= _)
    exact .bind (cancelTimer_made timeout) fun _ => .request (plain_ask rfl)

theorem retry_made (fn : IoFun) (fd : Int) (args : List (BitVec 64)) (timeout : BitVec 64)
    (attempts : Nat) : Made LockPiece (retry fn fd args timeout attempts) := by
  induction attempts with
  | zero => exact .ret none
  | succ attempts ih =>
    refine .ask (plain_ask rfl) fun n => ?_
    rcases n with (_ | _ | _ | _ | _) | v
    case error.EINTR => exact ih
    case error.EAGAIN =>
      change Made LockPiece (wait fn fd timeout >>= _)
      refine .bind (wait_made fn fd timeout) fun o => ?_
      cases o with
      | some e => exact .ret _
      | none => exact ih
    all_goals exact .ret _

theorem do_io_made (fn : IoFun) (fd : Int) (args : List (BitVec 64)) (attempts : Nat) :
    Made LockPiece (do_io fn fd args attempts) := by
  refine .ask (plain_ask rfl) fun t_hook_enable => ?_
  have hdirect : Made LockPiece (direct fn fd args) := .ask (plain_ask rfl) fun _ => .ret _
  cases t_hook_enable with
  | false => exact hdirect
  | true =>
    change Made LockPiece (get fd >>= _)
    refine .bind (get_made fd) fun o => ?_
    cases o with
    | none => exact hdirect
    | some p =>
      refine .ask (plain_ask rfl) fun ctx => ?_
      dsimp only [Prog.bind]
      split
      · exact .ret _
      · split
        · exact hdirect
        · exact retry_made _ _ _ _ _

theorem accept_made (fd : Int) (args : List (BitVec 64)) (attempts : Nat) :
    Made LockPiece (accept fd args attempts) := by
  refine .bind (do_io_made _ _ _ _) fun r => ?_
  rcases r with _ | e | new
  · exact .ret _
  · exact .ret _
  · change Made LockPiece (if new ≥ 0 then _ else _)
    split
    · exact .bind (getCreate_made _) fun _ => .ret _
    · exact .ret _

theorem socket_made (domain : Int) (type : BitVec 32) (protocol : Int) :
    Made LockPiece (socket domain type protocol) := by
  refine .ask (plain_ask rfl) fun t_hook_enable => .ask (plain_ask rfl) fun r => ?_
  cases t_hook_enable with
  | false => exact .ret _
  | true =>
    cases r with
    | error e => exact .ret _
    | ok fd =>
      change Made LockPiece (getCreate fd >>= _)
      exact .bind (getCreate_made fd) fun _ => .ret _

theorem close_made (fd : Int) : Made LockPiece (close fd) := by
  refine .ask (plain_ask rfl) fun t_hook_enable => ?_
  cases t_hook_enable with
  | false => exact .request (plain_ask rfl)
  | true =>
    change Made LockPiece (get fd >>= _)
    refine .bind (get_made fd) fun o => ?_
    cases o with
    | none => exact .request (plain_ask rfl)
    | some p =>
      refine .ask (plain_ask rfl) fun iom => ?_
      have hdel : Made LockPiece (del fd >>= fun _ => HookReq.ask (.sys (.close fd))) :=
        .bind (del_made fd) fun _ => .request (plain_ask rfl)
      cases iom with
      | false => exact hdel
      | true => exact .ask outside_ask fun _ => hdel

theorem setsockopt_made (sockfd : Int) (opt : SockOpt) (optval : Ptr) (optlen : BitVec 32) :
    Made LockPiece (setsockopt sockfd opt optval optlen) := by
  refine .ask (plain_ask rfl) fun t_hook_enable => ?_
  cases t_hook_enable with
  | false => cases opt <;> exact .request (plain_ask rfl)
  | true =>
    cases opt with
    | other => exact .request (plain_ask rfl)
    | timeout type v =>
      change Made LockPiece (get sockfd >>= _)
      refine .bind (get_made sockfd) fun o => ?_
      cases o with
      | none => exact .request (plain_ask rfl)
      | some p => exact .ask (plain_ask rfl) fun _ => .request (plain_ask rfl)

theorem ioctl_made (d : Int) (c : IoctlCall) : Made LockPiece (ioctl d c) := by
  cases c with
  | other => exact .request (plain_ask rfl)
  | fionbio value =>
    refine .bind (tracked_made (fun _ => plain_ask) get_made d) fun o => ?_
    cases o with
    | none => exact .request (plain_ask rfl)
    | some p => exact .ask (plain_ask rfl) fun _ => .request (plain_ask rfl)

/-- Every hooked call consists of whole sections and of what is not about the lock. -/
theorem hooked_made (attempts : Nat) (c : Sys) : Made LockPiece (hooked attempts c) := by
  have hsome : ∀ {β : Type} {p : HookProg β}, Made LockPiece p → Made LockPiece (some <$> p) :=
    fun hp => .bind hp fun _ => .ret _
  cases c with
  | sleep seconds =>
    refine hsome (.ask (plain_ask rfl) fun t_hook_enable => ?_)
    cases t_hook_enable with
    | false => exact .request (plain_ask rfl)
    | true => exact sleepFor_made _
  | usleep usec =>
    refine hsome (.ask (plain_ask rfl) fun t_hook_enable => ?_)
    cases t_hook_enable with
    | false => exact .ask (plain_ask rfl) fun _ => .ret _
    | true => exact sleepFor_made _
  | nanosleep req rem =>
    refine hsome (.ask (plain_ask rfl) fun t_hook_enable => ?_)
    cases t_hook_enable with
    | false => exact .request (plain_ask rfl)
    | true => exact .ask (plain_ask rfl) fun _ => sleepFor_made _
  | socket domain type protocol => exact hsome (socket_made domain type protocol)
  | io fn fd args =>
    cases fn
    case accept => exact accept_made fd args attempts
    all_goals exact do_io_made _ fd args attempts
  | close fd => exact hsome (close_made fd)
  | fcntl fd c => exact hsome (fcntl_made (fun _ => plain_ask) get_made fd c)
  | ioctl d c => exact hsome (ioctl_made d c)
  | getsockopt => exact hsome (.request (plain_ask rfl))
  | setsockopt => exact hsome (setsockopt_made _ _ _ _)

end Pieces

end Hooked

theorem ThreadLog.pieces {l : List HookEvent} (h : ThreadLog l) : Pieces LockPiece l := by
  obtain ⟨parts, rfl, hparts⟩ := h
  refine .flatten fun x hx => ?_
  obtain ⟨attempts, c, path, r, hpath, hpart⟩ := hparts x hx
  exact (Hooked.hooked_made attempts c path r hpath).part (fun _ hy => hy.2) hpart

/-- The threads keep the discipline of the lock exactly as long as they make no
context for a socket. -/
theorem disciplined_iff {l : List HookEvent} (h : ThreadLog l) :
    Disciplined l ↔ ∀ e ∈ l, socketFound e = false := by
  unfold Disciplined
  rw [Pieces.foldlM (fun _ hx => hx.1) h.pieces]
  cases hany : l.any socketFound with
  | false =>
    have hnone : ∀ e ∈ l, socketFound e = false := by simpa using hany
    exact iff_of_true rfl hnone
  | true =>
    obtain ⟨e, he, hfound⟩ := List.any_eq_true.mp hany
    refine iff_of_false (by simp) fun hall => ?_
    rw [hall e he] at hfound
    cases hfound

/-- `close(5)` on a thread with hooks, for a descriptor that has a context. -/
def closeLog : List HookEvent :=
  [⟨.hookEnable, true⟩, ⟨.rdlock, (0 : Nat)⟩, ⟨.lookup 5, some (some 3)⟩, ⟨.unlock 0, ()⟩,
    ⟨.hasIOManager, true⟩, ⟨.outside (.cancelAll 5), ()⟩, ⟨.wrlock, (1 : Nat)⟩,
    ⟨.lookup 5, some (some 3)⟩, ⟨.reset 5, ()⟩, ⟨.unlock 1, ()⟩, ⟨.sys (.close 5), .ok ()⟩]

theorem closeLog_threadLog : ThreadLog closeLog := by
  refine ⟨[closeLog], by simp, fun x hx => ?_⟩
  rw [List.mem_singleton.mp hx]
  have hpath : Path (hooked 0 (.close 5)) closeLog (some (.ok ())) :=
    .ask _ (.ask _ (.ask _ (.ask _ (.ask _ (.ask _ (.ask _ (.ask _ (.ask _ (.ask _ (.ask _
      (.ret _)))))))))))
  exact ⟨0, _, _, _, hpath, Part.self⟩

theorem disciplined_iff_close : Disciplined closeLog ∧
    (Disciplined closeLog ↔ ∀ e ∈ closeLog, socketFound e = false) :=
  ⟨by decide, disciplined_iff closeLog_threadLog⟩

/-- `socket(2, 1, 0)` on a thread with hooks, until the context is stored. -/
def socketLog : List HookEvent :=
  [⟨.hookEnable, true⟩, ⟨.sys (.socket 2 1 0), .ok (7 : Int)⟩,
    ⟨.rdlock, (0 : Nat)⟩, ⟨.lookup 7, some none⟩, ⟨.unlock 0, ()⟩,
    ⟨.wrlock, (1 : Nat)⟩, ⟨.fstat 7, .ok true⟩, ⟨.sys (.fcntl 7 .getfl), .ok 0x2#32⟩,
    ⟨.rdlock, (2 : Nat)⟩, ⟨.lookup 7, some none⟩, ⟨.unlock 2, ()⟩,
    ⟨.rdlock, (3 : Nat)⟩, ⟨.lookup 7, some none⟩, ⟨.unlock 3, ()⟩,
    ⟨.sys (.fcntl 7 (.setfl (0x2#32 ||| O_NONBLOCK))), .ok ()⟩]

def socketCtx : FdCtx :=
  { FdCtx.new 7 with m_isInit := true, m_isSocket := true, m_sysNonblock := true }

/-- The new socket's `fcntl` asks for the lock that `get` holds, and gives it back. -/
theorem socket_stores_unlocked : ∃ l, Path (hooked 0 (.socket 2 1 0)) l (some (.ok 7)) ∧
    l = socketLog ++ [⟨.store 7 socketCtx, (4 : Nat)⟩, ⟨.unlock 1, ()⟩] ∧
    ¬ Disciplined l ∧ socketLog.foldl owns none = none := by
  have hpath : Path (hooked 0 (.socket 2 1 0))
      (socketLog ++ [⟨.store 7 socketCtx, (4 : Nat)⟩, ⟨.unlock 1, ()⟩]) (some (.ok 7)) :=
    .ask _ (.ask _ (.ask _ (.ask _ (.ask _ (.ask _ (.ask _ (.ask _ (.ask _ (.ask _ (.ask _
      (.ask _ (.ask _ (.ask _ (.ask _ (.ask _ (.ask _ (.ret _)))))))))))))))))
  exact ⟨_, hpath, rfl, by decide, by decide⟩

end FiberAsync
