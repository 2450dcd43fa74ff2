import FiberAsync.DisabledHooks
import FiberAsync.FdRefinement

/-!
# FdManager under its lock

`get` and `del` once more, one call at a time, and now with `m_mutex`. `RWMutex`
drops what the `pthread_rwlock_` functions return, and an `unlock` by somebody who
is not the writer takes one from the number of the readers. A creation for a
socket gives the write lock back within `init()` and then unlocks once more. What
it leaves is a lock with one reader too few, which nobody gets for writing again.
-/

namespace FiberAsync

set_option autoImplicit false

open Programs Programs.Prog Runs Results

/-- The lock of glibc behind `m_mutex`, for calls that are made one at a time. -/
structure RWMutex where
  /-- the caller is the writer -/
  writer : Bool
  /-- the number of readers, too low after an `unlock` of nobody's -/
  readers : Int
  /-- no reader has come since the last writer, and there was none when it left -/
  writePhase : Bool
  deriving DecidableEq, Repr

namespace RWMutex

def new : RWMutex := ⟨false, 0, false⟩

variable (m : RWMutex)

/-- For the writer itself `EDEADLK`. -/
def rdlock : RWMutex :=
  if m.writer then m else { m with readers := m.readers + 1, writePhase := false }

/-- For the writer itself `EDEADLK`; `none` where the caller waits for readers to leave. -/
def wrlock : Option RWMutex :=
  if m.writer then some m
  else if m.writePhase ∨ m.readers = 0 then some { m with writer := true, writePhase := true }
  else none

/-- `pthread_rwlock_unlock` goes by who the writer is. -/
def unlock : RWMutex :=
  if m.writer then { m with writer := false, writePhase := m.readers = 0 }
  else { m with readers := m.readers - 1 }

def serve : HookReq → Option RWMutex
  | .rdlock => some m.rdlock
  | .wrlock => m.wrlock
  | .unlock _ => some m.unlock
  | _ => some m

end RWMutex

def HookReq.locks : HookReq → Bool
  | .rdlock | .wrlock | .unlock _ => true
  | _ => false

theorem RWMutex.serve_unseen (m : RWMutex) (r : HookReq) (hr : r.locks = false) :
    m.serve r = some m := by
  cases r with
  | rdlock | wrlock | unlock => cases hr
  | _ => rfl

/-- A process with the lock of its table. -/
abbrev LockedProcess (κ : Type) := Process κ × RWMutex

namespace LockedProcess

variable {κ : Type} (E : HookEnv κ)

def fdProg : PartialMap.Op Nat → HookProg (Option FdCtxPtr)
  | .get fd true => Hooked.getCreate fd
  | .get fd false => Hooked.get fd
  | .del fd => Hooked.del fd >>= fun _ => pure none

/-- A call on one thread: it waits for good where the error is `none`. -/
def call (s : LockedProcess κ) (op : PartialMap.Op Nat) :
    Except (Option Fault) (Option FdCtxPtr × LockedProcess κ) :=
  (fdProg op).exec (watched E.answer RWMutex.serve) s

def system : System (LockedProcess κ) FdCall where
  init s := s.1.fdMgr = .initial ∧ s.2 = .new
  step s a s' := Process.Fits a.1 ∧ call E s a.1 = .ok (a.2, s')

/-- `fstat` in the constructor of a context finds a socket. -/
def findsSocket (fd : Nat) (k : κ) : Bool :=
  match (E.fstat fd k).1 with
  | .ok isSock => isSock
  | .error _ => false

/-- The `flags` that `init()` has read contain `O_NONBLOCK` (so do those of a failed call). -/
def findsNonblock (fd : Nat) (k : κ) : Bool :=
  Hooked.toInt (E.perform (.fcntl fd .getfl) (E.fstat fd k).2).1 &&& O_NONBLOCK ≠ 0#32

/-- What `init()` asks of the lock. -/
def initLocks (fd : Nat) (k : κ) : List HookReq :=
  if findsSocket E fd k then
    [.rdlock, .unlock 0] ++ if findsNonblock E fd k then [] else [.rdlock, .unlock 0]
  else []

/-- What a call asks of the lock. -/
def locksOf (s : Process κ) : PartialMap.Op Nat → List HookReq
  | .get _ false => [.rdlock, .unlock 0]
  | .get fd true =>
    if s.entries fd = none then
      [.rdlock, .unlock 0, .wrlock] ++ (initLocks E fd s.kernel ++ [.unlock 0])
    else [.rdlock, .unlock 0]
  | .del _ => [.wrlock, .unlock 0]

section Programs

variable {E} {s : Process κ} {fd : Nat}

theorem shows_get {o : Option FdCtxPtr} (h : s.fdMgr.get fd = .ok o) :
    Shows E.answer HookReq.locks (Hooked.get fd) s [.rdlock, .unlock 0] o s := by
  have hfd : (fd : Int) ≠ -1 := by omega
  rw [Hooked.get_eq hfd]
  rcases answer_lookup (E := E) (s := s) hfd with ⟨o', hanswer, hget⟩ | ⟨f, _, hget⟩
  · cases h.symm.trans hget
    refine (shows_ask_seen_cons rfl rfl).mpr ((shows_ask_answered rfl hanswer).mpr ?_)
    exact (shows_ask_seen_cons rfl rfl).mpr (shows_ret.mpr ⟨rfl, rfl, rfl⟩)
  · cases h.symm.trans hget

theorem shows_tracked_none (h : s.fdMgr.get fd = .ok none) :
    Shows E.answer HookReq.locks (Hooked.tracked fd) s [.rdlock, .unlock 0] none s :=
  (shows_get h).bind (shows_ret.mpr ⟨rfl, rfl, rfl⟩)

theorem shows_getfl (h : s.fdMgr.get fd = .ok none) :
    Shows E.answer HookReq.locks (Hooked.fcntl fd .getfl) s [.rdlock, .unlock 0]
      (s.sys (E.perform (.fcntl fd .getfl))).1 (s.sys (E.perform (.fcntl fd .getfl))).2 := by
  change Shows _ _ (.ask (.sys (.fcntl fd .getfl)) fun _ => Hooked.tracked fd >>= _) _ _ _ _
  refine (shows_ask_answered rfl rfl).mpr ?_
  have htracked : Shows E.answer HookReq.locks (Hooked.tracked fd)
      (s.sys (E.perform (.fcntl fd .getfl))).2 _ _ _ := shows_tracked_none h
  exact htracked.bind (shows_ret.mpr ⟨rfl, rfl, rfl⟩)

theorem shows_setfl (h : s.fdMgr.get fd = .ok none) (arg : BitVec 32) :
    Shows E.answer HookReq.locks (Hooked.fcntl fd (.setfl arg)) s [.rdlock, .unlock 0]
      (s.sys (E.perform (.fcntl fd (.setfl arg)))).1
      (s.sys (E.perform (.fcntl fd (.setfl arg)))).2 :=
  (shows_tracked_none h).bind ((shows_ask_answered rfl rfl).mpr (shows_ret.mpr ⟨rfl, rfl, rfl⟩))

/-- `init()` after its `F_GETFL`. -/
theorem shows_flags (h : s.fdMgr.get fd = .ok none) (flags : BitVec 32) (ctx : FdCtx) :
    ∃ t, Shows E.answer HookReq.locks
      (if flags &&& O_NONBLOCK = 0#32 then
        Hooked.fcntl fd (.setfl (flags ||| O_NONBLOCK)) >>= fun _ => .ret ctx
      else .ret ctx) s
      (if decide (flags &&& O_NONBLOCK ≠ 0#32) then [] else [.rdlock, .unlock 0]) ctx t ∧
      t.fdMgr = s.fdMgr := by
  by_cases hflags : flags &&& O_NONBLOCK = 0#32
  · rw [if_pos hflags, if_neg (by simp [hflags])]
    exact ⟨_, (shows_setfl h _).bind (shows_ret.mpr ⟨rfl, rfl, rfl⟩), rfl⟩
  · rw [if_neg hflags, if_pos (by simp [hflags])]
    exact ⟨s, shows_ret.mpr ⟨rfl, rfl, rfl⟩, rfl⟩

theorem shows_init (h : s.fdMgr.get fd = .ok none) :
    ∃ ctx t, Shows E.answer HookReq.locks (Hooked.init (.new fd)) s (initLocks E fd s.kernel)
      ctx t ∧ t.fdMgr = s.fdMgr ∧ ctx.m_fd = fd := by
  obtain ⟨r, k, hstat⟩ : ∃ r k, E.fstat fd s.kernel = (r, k) := ⟨_, _, rfl⟩
  let u : Process κ := { s with kernel := k }
  have hask : E.answer s (.fstat fd) = .ok (r, u) := by
    change Except.ok ((E.fstat fd s.kernel).1, { s with kernel := (E.fstat fd s.kernel).2 }) = _
    rw [hstat]
  rw [Hooked.init_eq]
  unfold initLocks findsSocket findsNonblock
  rw [hstat]
  rcases r with e | _ | _
  · exact ⟨_, u, (shows_ask_answered rfl hask).mpr (shows_ret.mpr ⟨rfl, rfl, rfl⟩), rfl, rfl⟩
  · exact ⟨_, u, (shows_ask_answered rfl hask).mpr (shows_ret.mpr ⟨rfl, rfl, rfl⟩), rfl, rfl⟩
  · have hgetfl := shows_getfl (E := E) (s := u) h
    obtain ⟨t, hflags, ht⟩ := shows_flags (E := E) (s := (u.sys (E.perform (.fcntl fd .getfl))).2)
      h (Hooked.toInt (E.perform (.fcntl fd .getfl) k).1) (HookEnv.made (.new fd))
    exact ⟨_, t, (shows_ask_answered rfl hask).mpr (hgetfl.bind hflags), ht, rfl⟩

theorem shows_create (hok : s.fdMgr.Ok) (hfits : fd * 3 / 2 ≤ INT_MAX)
    (h : s.fdMgr.get fd = .ok none) : ∃ p t, Shows E.answer HookReq.locks
      (Hooked.init (.new fd) >>= fun ctx => .ask (.store fd ctx) fun p =>
        .ask (.unlock 0) fun _ => .ret (some p)) s
      (initLocks E fd s.kernel ++ [.unlock 0]) (some p) t := by
  obtain ⟨ctx, t, hinit, ht, hctx⟩ := shows_init (E := E) h
  obtain ⟨m, hstore, _⟩ := FdManager.store_ok hok hctx hfits
  have hask : E.answer t (.store fd ctx) = .ok (s.fdMgr.allocated, { t with fdMgr := m }) := by
    change t.fdMgr.store fd ctx >>= _ = _
    rw [ht, hstore]
    rfl
  refine ⟨s.fdMgr.allocated, { t with fdMgr := m }, hinit.bind ?_⟩
  refine (shows_ask_answered rfl hask).mpr ?_
  exact (shows_ask_seen_cons rfl rfl).mpr (shows_ret.mpr ⟨rfl, rfl, rfl⟩)

theorem shows_getCreate (hok : s.fdMgr.Ok) (hfits : fd * 3 / 2 ≤ INT_MAX) :
    ∃ o t, Shows E.answer HookReq.locks (Hooked.getCreate fd) s
      (locksOf E s (.get fd true)) o t := by
  have hfd : (fd : Int) ≠ -1 := by omega
  rw [Hooked.getCreate_eq hfd]
  rcases answer_lookup (E := E) (s := s) hfd with ⟨o, hanswer, hget⟩ | ⟨f, _, hget⟩
  · have hentry : s.entries fd = o.join := Except.ok.inj ((FdManager.get_eq hok fd).symm.trans hget)
    unfold locksOf
    dsimp only
    rw [hentry]
    cases hjoin : o.join with
    | some p =>
      rw [if_neg (by simp)]
      refine ⟨some p, s, ?_⟩
      refine (shows_ask_seen_cons rfl rfl).mpr ((shows_ask_answered rfl hanswer).mpr ?_)
      rw [hjoin]
      exact (shows_ask_seen_cons rfl rfl).mpr (shows_ret.mpr ⟨rfl, rfl, rfl⟩)
    | none =>
      rw [if_pos rfl]
      obtain ⟨p, t, hcreate⟩ := shows_create (E := E) hok hfits (hget.trans (congrArg _ hjoin))
      refine ⟨some p, t, ?_⟩
      refine (shows_ask_seen_cons rfl rfl).mpr ((shows_ask_answered rfl hanswer).mpr ?_)
      rw [hjoin]
      exact (shows_ask_seen_cons rfl rfl).mpr ((shows_ask_seen_cons rfl rfl).mpr hcreate)
  · cases (FdManager.get_eq hok fd).symm.trans hget

theorem shows_del (hok : s.fdMgr.Ok) :
    ∃ t, Shows E.answer HookReq.locks (Hooked.del fd) s [.wrlock, .unlock 0] () t := by
  have hlookup : ∃ o, E.answer s (.lookup fd) = .ok (o, s) := by
    rcases answer_lookup (E := E) (s := s) (by omega : (fd : Int) ≠ -1) with
      ⟨o, hanswer, _⟩ | ⟨f, _, hget⟩
    · exact ⟨o, hanswer⟩
    · cases (FdManager.get_eq hok fd).symm.trans hget
  obtain ⟨o, hanswer⟩ := hlookup
  rw [Hooked.del_eq]
  cases o with
  | none =>
    refine ⟨s, (shows_ask_seen_cons rfl rfl).mpr ((shows_ask_answered rfl hanswer).mpr ?_)⟩
    exact (shows_ask_seen_cons rfl rfl).mpr (shows_ret.mpr ⟨rfl, rfl, rfl⟩)
  | some o =>
    have hreset : ∃ t, E.answer s (.reset fd) = .ok ((), t) := ⟨_, rfl⟩
    obtain ⟨t, hreset⟩ := hreset
    refine ⟨t, (shows_ask_seen_cons rfl rfl).mpr ((shows_ask_answered rfl hanswer).mpr ?_)⟩
    refine (shows_ask_answered rfl hreset).mpr ?_
    exact (shows_ask_seen_cons rfl rfl).mpr (shows_ret.mpr ⟨rfl, rfl, rfl⟩)

theorem shows_call (hok : s.fdMgr.Ok) {op : PartialMap.Op Nat} (hfits : Process.Fits op) :
    ∃ r t, Shows E.answer HookReq.locks (fdProg op) s (locksOf E s op) r t := by
  cases op with
  | get fd create =>
    cases create with
    | false => exact ⟨_, s, shows_get (FdManager.get_eq hok fd)⟩
    | true => exact shows_getCreate hok hfits
  | del fd =>
    obtain ⟨t, hdel⟩ : ∃ t, Shows E.answer HookReq.locks (Hooked.del fd) s _ () t := shows_del hok
    exact ⟨none, t, hdel.bind (shows_ret.mpr ⟨rfl, rfl, rfl⟩)⟩

end Programs

section Folds

variable {E} {w : RWMutex}

theorem serve_read (h : w.writer = false) :
    [HookReq.rdlock, .unlock 0].foldlM RWMutex.serve w = some ⟨false, w.readers, false⟩ := by
  obtain ⟨_, n, phase⟩ := w
  cases h
  change some (RWMutex.mk false (n + 1 - 1) false) = _
  rw [Int.add_sub_cancel]

theorem serve_del (h : w.writer = false) :
    [HookReq.wrlock, .unlock 0].foldlM RWMutex.serve w =
      if w.writePhase ∨ w.readers = 0 then some ⟨false, w.readers, w.readers = 0⟩ else none := by
  obtain ⟨_, n, phase⟩ := w
  cases h
  by_cases hfree : phase = true ∨ n = 0
  · simp [RWMutex.serve, RWMutex.wrlock, RWMutex.unlock, hfree]
  · simp [RWMutex.serve, RWMutex.wrlock, hfree]

theorem serve_create (h : w.writer = false) (fd : Nat) (k : κ) :
    ([HookReq.rdlock, .unlock 0, .wrlock] ++ (initLocks E fd k ++ [HookReq.unlock 0])).foldlM
      RWMutex.serve w = if w.readers = 0 then
        some (if findsSocket E fd k then ⟨false, -1, findsNonblock E fd k⟩ else ⟨false, 0, true⟩)
      else none := by
  have hwrlock : [HookReq.rdlock, .unlock 0, .wrlock].foldlM RWMutex.serve w =
      if w.readers = 0 then some ⟨true, 0, true⟩ else none := by
    change ([HookReq.rdlock, .unlock 0] ++ [HookReq.wrlock]).foldlM RWMutex.serve w = _
    rw [List.foldlM_append, serve_read h]
    by_cases hn : w.readers = 0 <;> simp [RWMutex.serve, RWMutex.wrlock, hn]
  rw [List.foldlM_append, hwrlock]
  by_cases hn : w.readers = 0
  · rw [if_pos hn, if_pos hn]
    unfold initLocks
    cases findsSocket E fd k <;> cases findsNonblock E fd k <;> rfl
  · rw [if_neg hn, if_neg hn]
    rfl

end Folds

/-- The call has made a context for a socket. -/
structure MadeSocket (fd : Nat) (m : Move (LockedProcess κ) FdCall) : Prop where
  act : m.act.1 = .get fd true
  absent : m.pre.1.entries fd = none
  socket : findsSocket E fd m.pre.1.kernel = true

/-- No call has made a context for a socket. -/
def NoSocket (tr : List (Move (LockedProcess κ) FdCall)) : Prop :=
  ∀ m ∈ tr, ∀ fd, ¬ MadeSocket E fd m

/-- Only the last call has, and the socket was non-blocking before. -/
def OnlyLast (tr : List (Move (LockedProcess κ) FdCall)) : Prop :=
  ∀ m ∈ tr, ∀ fd, MadeSocket E fd m →
    tr.getLast? = some m ∧ findsNonblock E fd m.pre.1.kernel = true

/-- The condition on a call, by the calls before it and the table that it finds. -/
def Unblocked (before : List (Move (LockedProcess κ) FdCall)) (s : LockedProcess κ) :
    PartialMap.Op Nat → Prop
  | .get _ false => True
  | .get fd true => s.1.entries fd = none → NoSocket E before
  | .del _ => OnlyLast E before

/-- The lock between the calls. -/
structure LockOk (tr : List (Move (LockedProcess κ) FdCall)) (w : RWMutex) : Prop where
  writer : w.writer = false
  readers : w.readers = 0 ↔ NoSocket E tr
  phase : (w.writePhase = true ∨ w.readers = 0) ↔ OnlyLast E tr

section Steps

variable {E} {tr : List (Move (LockedProcess κ) FdCall)} {m : Move (LockedProcess κ) FdCall}
  {w : RWMutex} {fd : Nat} {s : LockedProcess κ} {op : PartialMap.Op Nat}

theorem noSocket_append : NoSocket E (tr ++ [m]) ↔ NoSocket E tr ∧ ∀ fd, ¬ MadeSocket E fd m := by
  unfold NoSocket
  rw [List.forall_mem_append, List.forall_mem_singleton]

/-- After another call the lock is free for writing only if no socket has been found. -/
theorem onlyLast_append (hm : ∀ fd, ¬ MadeSocket E fd m) :
    OnlyLast E (tr ++ [m]) ↔ NoSocket E tr := by
  unfold OnlyLast
  rw [List.getLast?_concat]
  constructor
  · intro h x hx fd hmade
    cases (h x (List.mem_append_left _ hx) fd hmade).1
    exact hm fd hmade
  · intro h x hx fd hmade
    rcases List.mem_append.mp hx with hx | hx
    · exact absurd hmade (h x hx fd)
    · cases List.mem_singleton.mp hx
      exact absurd hmade (hm fd)

theorem onlyLast_made (h : NoSocket E tr) (hm : MadeSocket E fd m) :
    OnlyLast E (tr ++ [m]) ↔ findsNonblock E fd m.pre.1.kernel = true := by
  unfold OnlyLast
  rw [List.getLast?_concat]
  constructor
  · exact fun honly => (honly m (by simp) fd hm).2
  · intro hnonblock x hx k hmade
    rcases List.mem_append.mp hx with hx | hx
    · exact absurd hmade (h x hx k)
    · cases List.mem_singleton.mp hx
      cases hm.act.symm.trans hmade.act
      exact ⟨rfl, hnonblock⟩

theorem LockOk.keeps {n : Int} {phase : Bool} (h : LockOk E tr w) (hm : ∀ fd, ¬ MadeSocket E fd m)
    (hn : n = w.readers) (hphase : phase = true → n = 0) :
    LockOk E (tr ++ [m]) ⟨false, n, phase⟩ := by
  subst n
  refine ⟨rfl, ?_, ?_⟩
  · rw [noSocket_append, ← h.readers]
    exact (and_iff_left hm).symm
  · rw [onlyLast_append hm, ← h.readers]
    exact ⟨fun hp => hp.elim hphase id, Or.inr⟩

theorem LockOk.made (h : NoSocket E tr) (hm : MadeSocket E fd m) :
    LockOk E (tr ++ [m]) ⟨false, -1, findsNonblock E fd m.pre.1.kernel⟩ := by
  have hneg : (-1 : Int) ≠ 0 := by decide
  refine ⟨rfl, ?_, ?_⟩
  · rw [noSocket_append]
    exact iff_of_false hneg fun hno => hno.2 fd hm
  · rw [onlyLast_made h hm]
    exact or_iff_left hneg

theorem exec_prog (s : Process κ) (op : PartialMap.Op Nat) :
    (fdProg op).exec E.answer s = s.fdExec (E.syscalls [] 0 0) op := by
  cases op with
  | get fd create =>
    cases create with
    | false => exact E.exec_get s fd
    | true => exact E.exec_getCreate [] 0 0 s fd
  | del fd =>
    change (Hooked.del fd >>= _).exec E.answer s = s.fdMgr.del fd >>= _
    rw [exec_bind, E.exec_del]
    cases s.fdMgr.del fd <;> rfl

/-- The call does without the lock what it does with it, or waits. -/
theorem call_eq (hok : s.1.fdMgr.Ok) (hfits : Process.Fits op) :
    ∃ r t, s.1.fdExec (E.syscalls [] 0 0) op = .ok (r, t) ∧ call E s op =
      ((locksOf E s.1 op).foldlM RWMutex.serve s.2).elim (.error none) fun w => .ok (r, t, w) := by
  obtain ⟨r, t, hshows⟩ := shows_call (E := E) hok hfits
  have hexec := hshows.exec_watched RWMutex.serve_unseen s.2
  obtain ⟨l, hrun, _⟩ := hshows
  exact ⟨r, t, (exec_prog s.1 op).symm.trans (exec_of_run hrun), hexec⟩

/-- The calls that wait are those that find the lock with a reader too few. -/
theorem LockOk.served (h : LockOk E tr s.2) (a : FdCall) (t : LockedProcess κ) :
    (∃ w, (locksOf E s.1 a.1).foldlM RWMutex.serve s.2 = some w ∧
      LockOk E (tr ++ [⟨s, a, t⟩]) w) ∧ Unblocked E tr s a.1 ∨
    (locksOf E s.1 a.1).foldlM RWMutex.serve s.2 = none ∧ ¬ Unblocked E tr s a.1 := by
  obtain ⟨op, r⟩ := a
  cases op with
  | get fd create =>
    cases create with
    | false =>
      have hm : ∀ k, ¬ MadeSocket E k ⟨s, (.get fd false, r), t⟩ := fun k hm => nomatch hm.act
      exact Or.inl ⟨⟨_, serve_read h.writer, h.keeps hm rfl nofun⟩, trivial⟩
    | true =>
      by_cases hentry : s.1.entries fd = none
      · have hlocks : locksOf E s.1 (.get fd true) =
            [.rdlock, .unlock 0, .wrlock] ++ (initLocks E fd s.1.kernel ++ [.unlock 0]) :=
          if_pos hentry
        dsimp only
        rw [hlocks, serve_create h.writer]
        by_cases hn : s.2.readers = 0
        · have hno := h.readers.mp hn
          rw [if_pos hn]
          refine Or.inl ⟨⟨_, rfl, ?_⟩, fun _ => hno⟩
          cases hsock : findsSocket E fd s.1.kernel with
          | true =>
            have hmade : MadeSocket E fd ⟨s, (.get fd true, r), t⟩ := ⟨rfl, hentry, hsock⟩
            exact LockOk.made hno hmade
          | false =>
            refine h.keeps (fun k hm => ?_) hn.symm fun _ => rfl
            cases hm.act
            cases hsock.symm.trans hm.socket
        · rw [if_neg hn]
          exact Or.inr ⟨rfl, fun hun => hn (h.readers.mpr (hun hentry))⟩
      · have hlocks : locksOf E s.1 (.get fd true) = [.rdlock, .unlock 0] := if_neg hentry
        have hm : ∀ k, ¬ MadeSocket E k ⟨s, (.get fd true, r), t⟩ := by
          intro k hm
          cases hm.act
          exact hentry hm.absent
        dsimp only
        rw [hlocks]
        refine Or.inl ⟨⟨_, serve_read h.writer, h.keeps hm rfl nofun⟩, fun hnone => ?_⟩
        exact absurd hnone hentry
  | del fd =>
    have hm : ∀ k, ¬ MadeSocket E k ⟨s, (.del fd, r), t⟩ := fun k hm => nomatch hm.act
    change (∃ w, [HookReq.wrlock, .unlock 0].foldlM RWMutex.serve s.2 = some w ∧ _) ∧ _ ∨
      [HookReq.wrlock, .unlock 0].foldlM RWMutex.serve s.2 = none ∧ _
    rw [serve_del h.writer]
    by_cases hfree : s.2.writePhase = true ∨ s.2.readers = 0
    · rw [if_pos hfree]
      exact Or.inl ⟨⟨_, rfl, h.keeps hm rfl of_decide_eq_true⟩, h.phase.mp hfree⟩
    · rw [if_neg hfree]
      exact Or.inr ⟨rfl, fun honly => hfree (h.phase.mpr honly)⟩

end Steps

section OverRuns

variable {E} {s₀ s : LockedProcess κ} {tr : List (Move (LockedProcess κ) FdCall)}

theorem step_served {a : FdCall} {t : LockedProcess κ} (hok : s.1.fdMgr.Ok)
    (hs : (system E).step s a t) : (Process.fdSystem (E.syscalls [] 0 0)).step s.1 a t.1 ∧
      (locksOf E s.1 a.1).foldlM RWMutex.serve s.2 = some t.2 := by
  obtain ⟨hfits, hcall⟩ := hs
  obtain ⟨r, u, hexec, heq⟩ := call_eq (E := E) hok hfits
  rw [hcall] at heq
  cases hlocks : (locksOf E s.1 a.1).foldlM RWMutex.serve s.2 with
  | none =>
    rw [hlocks] at heq
    cases heq
  | some w =>
    rw [hlocks] at heq
    obtain ⟨op, r'⟩ := a
    cases heq
    exact ⟨⟨hfits, hexec⟩, rfl⟩

/-- Without its lock the process makes the same calls. -/
theorem run_unlocked (h₀ : (system E).init s₀) (h : Run (system E) s₀ tr s) :
    Run (Process.fdSystem (E.syscalls [] 0 0)) s₀.1 (tr.map (Move.map Prod.fst)) s.1 := by
  refine h.map Prod.fst (fun s => s.1.fdMgr.Ok) (fun hok hs => ?_) (h₀.1 ▸ FdManager.initial_ok)
  have hstep := (step_served hok hs).1
  exact ⟨hstep, (Process.step_served hok hstep).ok⟩

theorem run_ok (h₀ : (system E).init s₀) (h : Run (system E) s₀ tr s) : s.1.fdMgr.Ok :=
  (Process.run_made h₀.1 (run_unlocked h₀ h)).ok

theorem run_lockOk (h₀ : (system E).init s₀) (h : Run (system E) s₀ tr s) : LockOk E tr s.2 := by
  have hboth := h.history (fun tr s => s.1.fdMgr.Ok ∧ LockOk E tr s.2) (fun hP hs => ?_) ?_
  · exact hboth.2
  · rename_i tr s a t
    obtain ⟨hok, hlock⟩ := hP
    obtain ⟨hstep, hlocks⟩ := step_served hok hs
    refine ⟨(Process.step_served hok hstep).ok, ?_⟩
    rcases hlock.served a t with ⟨⟨w, hw, hnext⟩, _⟩ | ⟨hnone, _⟩
    · cases hlocks.symm.trans hw
      exact hnext
    · cases hlocks.symm.trans hnone
  · obtain ⟨htable, hmutex⟩ := h₀
    rw [htable, hmutex]
    exact ⟨FdManager.initial_ok, rfl, by simp [NoSocket, RWMutex.new],
      by simp [OnlyLast, RWMutex.new]⟩

/-- For all underlying functions and every sequence of calls: seen through its
table FdManager is the map, no call indexes the table out of its bounds, and the
calls that come back are those that meet the condition. -/
theorem fdManager_refines_iff (h₀ : (system E).init s₀) (h : Run (system E) s₀ tr s) :
    Run PartialMap.system (fun _ => none) (tr.map (Move.map fun s => s.1.entries)) s.1.entries ∧
    (∀ before m after, tr = before ++ m :: after →
      Process.Obeys (before.map (Move.map Prod.fst)) (m.map Prod.fst)) ∧
    (∀ op f, Process.Fits op → call E s op ≠ .error (some f)) ∧
    ∀ op, Process.Fits op → ((∃ r t, call E s op = .ok (r, t) ∧
      Process.Obeys (tr.map (Move.map Prod.fst)) ⟨s.1, (op, r), t.1⟩) ↔ Unblocked E tr s op) := by
  have hunlocked := run_unlocked h₀ h
  have hok := run_ok h₀ h
  refine ⟨?_, fun before m after heq => ?_, fun op f hfits => ?_, fun op hfits => ?_⟩
  · have hmap := Process.run_entries h₀.1 hunlocked
    rw [List.map_map] at hmap
    exact hmap
  · obtain ⟨hbefore, hs, _⟩ := (heq ▸ h).split_at
    exact Process.obeys h₀.1 (run_unlocked h₀ hbefore) (step_served (run_ok h₀ hbefore) hs).1
  · obtain ⟨r, t, _, hcall⟩ := call_eq (E := E) hok hfits
    rw [hcall]
    cases (locksOf E s.1 op).foldlM RWMutex.serve s.2 <;> exact nofun
  · obtain ⟨r, t, hexec, hcall⟩ := call_eq (E := E) hok hfits
    rw [hcall]
    rcases (run_lockOk h₀ h).served (op, r) s with ⟨⟨w, hw, _⟩, hun⟩ | ⟨hnone, hblocked⟩
    · refine iff_of_true ⟨r, (t, w), ?_, ?_⟩ hun
      · rw [hw]
        rfl
      · exact Process.obeys h₀.1 hunlocked ⟨hfits, hexec⟩
    · refine iff_of_false (fun hreturns => ?_) hblocked
      obtain ⟨_, _, heq, _⟩ := hreturns
      rw [hnone] at heq
      cases heq

end OverRuns

def next (s : LockedProcess κ) (a : FdCall) : Option (LockedProcess κ) :=
  if Process.Fits a.1 then
    (call E s a.1).toOption.bind fun x => if x.1 = a.2 then some x.2 else none
  else none

variable {E} in
theorem next_sound {s t : LockedProcess κ} {a : FdCall} (h : next E s a = some t) :
    (system E).step s a t := by
  obtain ⟨hfits, h⟩ := Option.ite_none_right_eq_some.mp h
  obtain ⟨⟨r, u⟩, hcall, h⟩ := Option.bind_eq_some_iff.mp h
  obtain ⟨rfl, heq⟩ := Option.ite_none_right_eq_some.mp h
  cases heq
  exact ⟨hfits, toOption_eq_some.mp hcall⟩

/-- Regular files, but for the sockets that are listed. -/
def withSockets (sockets : List Nat) : LockedProcess Files :=
  (⟨fun n => some ⟨decide (n ∈ sockets), O_RDWR⟩, .initial, none, true⟩, .new)

/-- A growth to 300 slots, a second context for the descriptor that made it, and a
socket as the last of the creations. -/
def sparseCalls : List FdCall :=
  [(.get 200 false, none), (.get 200 true, some 0), (.get 5 true, some 1), (.del 200, none),
    (.get 200 true, some 2), (.get 7 true, some 3), (.get 7 true, some 3), (.get 5 false, some 1)]

theorem fdManager_refines_iff_sparse : ∃ tr s, Run (system (Files.env 0)) (withSockets [7]) tr s ∧
    tr.map Move.act = sparseCalls ∧ s.1.fdMgr.m_datas.length = 300 ∧
    Run PartialMap.system (fun _ => none) (tr.map (Move.map fun s => s.1.entries)) s.1.entries ∧
    (∀ before m after, tr = before ++ m :: after →
      Process.Obeys (before.map (Move.map Prod.fst)) (m.map Prod.fst)) ∧
    (∀ op f, Process.Fits op → call (Files.env 0) s op ≠ .error (some f)) ∧
    ∀ op, Process.Fits op → ((∃ r t, call (Files.env 0) s op = .ok (r, t) ∧
      Process.Obeys (tr.map (Move.map Prod.fst)) ⟨s.1, (op, r), t.1⟩) ↔
        Unblocked (Files.env 0) tr s op) := by
  have hrun : (traceAll (next (Files.env 0)) (withSockets [7]) sparseCalls).map
      (fun r => r.2.1.fdMgr.m_datas.length) = some 300 := by decide +kernel
  obtain ⟨tr, s, hr, hacts, hlength⟩ := Run.exists_of_traceAll _ next_sound _ hrun
  have h₀ : (system (Files.env 0)).init (withSockets [7]) := ⟨rfl, rfl⟩
  exact ⟨tr, s, hr, hacts, hlength, fdManager_refines_iff h₀ hr⟩

/-- A call does not come back. -/
def waits (s : LockedProcess Files) (op : PartialMap.Op Nat) : Bool :=
  match call (Files.env 0) s op with
  | .error none => true
  | _ => false

theorem call_of_waits {s : LockedProcess Files} {op : PartialMap.Op Nat} (h : waits s op = true) :
    call (Files.env 0) s op = .error none := by
  unfold waits at h
  split at h
  · assumption
  · cases h

/-- After `get(5, true)` for a socket neither `get(6, true)` nor `del(5)` comes back. -/
theorem creation_blocks : ∃ tr s, Run (system (Files.env 0)) (withSockets [5, 6]) tr s ∧
    tr.map Move.act = [(.get 5 true, some 0)] ∧
    Process.Fits (.get 6 true) ∧ call (Files.env 0) s (.get 6 true) = .error none ∧
    Process.Fits (.del 5) ∧ call (Files.env 0) s (.del 5) = .error none := by
  have hrun : (traceAll (next (Files.env 0)) (withSockets [5, 6]) [(.get 5 true, some 0)]).map
      (fun r => (waits r.2 (.get 6 true), waits r.2 (.del 5))) = some (true, true) := by
    decide +kernel
  obtain ⟨tr, s, hr, hacts, hwaits⟩ := Run.exists_of_traceAll _ next_sound _ hrun
  obtain ⟨hget, hdel⟩ := Prod.mk.inj hwaits
  exact ⟨tr, s, hr, hacts, by decide, call_of_waits hget, by decide, call_of_waits hdel⟩

end LockedProcess

end FiberAsync
