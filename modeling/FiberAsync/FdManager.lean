import FiberAsync.ContextTable

/-!
# FdManager and its table

One `FdCtx` for each descriptor that the hooked functions keep track of. The
objects live on a heap, `m_datas` holds pointers to them, and an `int` that is
not an index of the table is a fault wherever the code does not test it. The
lock of the table is left out: the functions are those of one thread.
-/

namespace FiberAsync

set_option autoImplicit false

open Results

/-- The two options that `setTimeout` and `getTimeout` distinguish. -/
inductive TimeoutType where
  | SO_RCVTIMEO
  | SO_SNDTIMEO
  deriving DecidableEq, Repr

structure FdCtx where
  m_isInit : Bool
  m_isSocket : Bool
  m_sysNonblock : Bool
  m_userNonblock : Bool
  m_isClosed : Bool
  m_fd : Int
  m_recvTimeout : BitVec 64
  m_sendTimeout : BitVec 64
  deriving DecidableEq, Repr

namespace FdCtx

/-- The members before `init()` runs in the constructor. -/
def new (fd : Int) : FdCtx where
  m_isInit := false
  m_isSocket := false
  m_sysNonblock := false
  m_userNonblock := false
  m_isClosed := false
  m_fd := fd
  m_recvTimeout := -1
  m_sendTimeout := -1

def setTimeout (ctx : FdCtx) (type : TimeoutType) (v : BitVec 64) : FdCtx :=
  match type with
  | .SO_RCVTIMEO => { ctx with m_recvTimeout := v }
  | .SO_SNDTIMEO => { ctx with m_sendTimeout := v }

def getTimeout (ctx : FdCtx) : TimeoutType → BitVec 64
  | .SO_RCVTIMEO => ctx.m_recvTimeout
  | .SO_SNDTIMEO => ctx.m_sendTimeout

end FdCtx

abbrev FdCtxPtr := Nat

structure FdManager where
  ctxs : FdCtxPtr → FdCtx
  allocated : Nat
  m_datas : List (Option FdCtxPtr)

namespace FdManager

def initial : FdManager where
  ctxs _ := .new 0
  allocated := 0
  m_datas := List.replicate 64 none

section Operations

variable (m : FdManager)

/-- `m_datas[fd]` -/
def slot : Int → Except Fault (Option FdCtxPtr)
  | .ofNat n =>
    match m.m_datas[n]? with
    | some o => .ok o
    | none => .error .indexOutOfRange
  | .negSucc _ => .error .indexOutOfRange

/-- `get(fd)` -/
def get (fd : Int) : Except Fault (Option FdCtxPtr) :=
  if fd = -1 then .ok none
  else if IOManager.toInt m.m_datas.length ≤ fd then .ok none
  else m.slot fd

/-- `if (fd >= (int)m_datas.size()) m_datas.resize(fd * 1.5);` -/
def grown (fd : Int) : List (Option FdCtxPtr) :=
  if fd ≥ IOManager.toInt m.m_datas.length then
    IOManager.resized m.m_datas (fd.toNat * 3 / 2)
  else m.m_datas

/-- The end of `get(fd, true)`, for a context that has been made. -/
def store (fd : Int) (ctx : FdCtx) : Except Fault (FdCtxPtr × FdManager) :=
  if 0 ≤ fd ∧ fd.toNat < (m.grown fd).length then
    .ok (m.allocated, { m with
      ctxs := Function.update m.ctxs m.allocated ctx
      allocated := m.allocated + 1
      m_datas := (m.grown fd).set fd.toNat (some m.allocated) })
  else .error .indexOutOfRange

def del (fd : Int) : Except Fault FdManager :=
  if IOManager.toInt m.m_datas.length ≤ fd then .ok m
  else m.slot fd >>= fun _ => .ok { m with m_datas := m.m_datas.set fd.toNat none }

/-- A member function of the object behind the pointer. -/
def setCtx (p : FdCtxPtr) (ctx : FdCtx) : FdManager :=
  { m with ctxs := Function.update m.ctxs p ctx }

/-- The pointer that the table holds for a descriptor. -/
def entry (n : Nat) : Option FdCtxPtr := m.m_datas[n]?.join

end Operations

/-- The table can be indexed by any `int` below its size, and its pointers are
to objects made for their index. -/
structure Ok (m : FdManager) : Prop where
  size : 64 ≤ m.m_datas.length ∧ m.m_datas.length ≤ INT_MAX
  entries : ∀ n p, m.entry n = some p → p < m.allocated ∧ (m.ctxs p).m_fd = n

theorem initial_entry (n : Nat) : initial.entry n = none := by
  unfold initial entry
  rw [List.getElem?_replicate]
  split <;> rfl

variable {m m' : FdManager} {n k : Nat} {p : FdCtxPtr} {ctx : FdCtx}

theorem Ok.toInt_length (h : m.Ok) : IOManager.toInt m.m_datas.length = m.m_datas.length :=
  IOManager.toInt_of_lt (Nat.lt_succ_of_le h.size.2)

theorem slot_of_lt (h : n < m.m_datas.length) : m.slot n = .ok (m.entry n) := by
  change (match m.m_datas[n]? with
    | some o => Except.ok o
    | none => .error Fault.indexOutOfRange) = .ok m.m_datas[n]?.join
  rw [List.getElem?_eq_getElem h]
  rfl

theorem entry_of_le (h : m.m_datas.length ≤ n) : m.entry n = none := by
  rw [entry, List.getElem?_eq_none h]
  rfl

theorem get_eq (h : m.Ok) (n : Nat) : m.get n = .ok (m.entry n) := by
  unfold get
  rw [if_neg (by omega), h.toInt_length]
  split
  · rename_i hle
    rw [entry_of_le (by omega)]
  · rename_i hlt
    exact slot_of_lt (by omega)

theorem grown_spec (h : m.Ok) (hn : n * 3 / 2 ≤ INT_MAX) :
    n < (m.grown n).length ∧ 64 ≤ (m.grown n).length ∧ (m.grown n).length ≤ INT_MAX ∧
    ∀ k, (m.grown n)[k]?.join = m.entry k := by
  obtain ⟨hmin, hmax⟩ := h.size
  unfold grown
  rw [h.toInt_length, Int.toNat_natCast]
  split
  · rename_i hge
    have hle : m.m_datas.length ≤ n := by omega
    rw [IOManager.resized_length]
    refine ⟨by omega, by omega, hn, fun k => ?_⟩
    by_cases hk : k < n * 3 / 2
    · rw [IOManager.resized_getElem? _ hk, entry]
      cases m.m_datas[k]? <;> rfl
    · rw [List.getElem?_eq_none (by rw [IOManager.resized_length]; omega), entry_of_le (by omega)]
      rfl
  · rename_i hlt
    exact ⟨by omega, hmin, hmax, fun _ => rfl⟩

/-- What `store` does to the table. -/
structure Stored (m : FdManager) (n : Nat) (ctx : FdCtx) (m' : FdManager) : Prop where
  ok : m'.Ok
  ctxs : m'.ctxs = Function.update m.ctxs m.allocated ctx
  entry : m'.entry = Function.update m.entry n (some m.allocated)

theorem store_ok (h : m.Ok) (hctx : ctx.m_fd = n) (hn : n * 3 / 2 ≤ INT_MAX) :
    ∃ m', m.store n ctx = .ok (m.allocated, m') ∧ Stored m n ctx m' := by
  obtain ⟨hlt, hmin, hmax, hsame⟩ := m.grown_spec h hn
  refine ⟨_, if_pos ⟨Int.natCast_nonneg n, hlt⟩, ?_⟩
  have hentry : ∀ k, ((m.grown n).set n (some m.allocated))[k]?.join =
      Function.update m.entry n (some m.allocated) k := by
    intro k
    by_cases hk : k = n
    · subst k
      rw [List.getElem?_set_self hlt, Function.update_self]
      rfl
    · rw [List.getElem?_set_ne (Ne.symm hk), Function.update_of_ne hk]
      exact hsame k
  refine ⟨⟨?_, fun k p hp => ?_⟩, rfl, funext hentry⟩
  · simp only [List.length_set]
    exact ⟨hmin, hmax⟩
  · have hp' : Function.update m.entry n (some m.allocated) k = some p := (hentry k).symm.trans hp
    change p < m.allocated + 1 ∧ (Function.update m.ctxs m.allocated ctx p).m_fd = k
    by_cases hk : k = n
    · subst k
      rw [Function.update_self] at hp'
      cases hp'
      rw [Function.update_self]
      exact ⟨Nat.lt_succ_self _, hctx⟩
    · rw [Function.update_of_ne hk] at hp'
      obtain ⟨hlt', hfd⟩ := h.entries k p hp'
      rw [Function.update_of_ne (Nat.ne_of_lt hlt')]
      exact ⟨Nat.lt_succ_of_lt hlt', hfd⟩

/-- What `del` does to the table. -/
structure Deleted (m : FdManager) (n : Nat) (m' : FdManager) : Prop where
  ok : m'.Ok
  ctxs : m'.ctxs = m.ctxs
  entry : m'.entry = Function.update m.entry n none

theorem del_ok (h : m.Ok) (n : Nat) : ∃ m', m.del n = .ok m' ∧ Deleted m n m' := by
  unfold del
  rw [h.toInt_length]
  split
  · rename_i hle
    have hnone := m.entry_of_le (n := n) (by omega)
    exact ⟨m, rfl, h, rfl, by rw [← hnone, Function.update_eq_self]⟩
  · rename_i hlt
    rw [slot_of_lt (by omega)]
    refine ⟨_, rfl, ?_⟩
    have hentry : ∀ k, (m.m_datas.set n none)[k]?.join = Function.update m.entry n none k := by
      intro k
      by_cases hk : k = n
      · subst k
        rw [List.getElem?_set_self (by omega), Function.update_self]
        rfl
      · rw [List.getElem?_set_ne (Ne.symm hk), Function.update_of_ne hk]
        rfl
    refine ⟨⟨?_, fun k p hp => ?_⟩, rfl, funext hentry⟩
    · simp only [List.length_set]
      exact h.size
    · have hp' : Function.update m.entry n none k = some p := (hentry k).symm.trans hp
      by_cases hk : k = n
      · subst k
        rw [Function.update_self] at hp'
        cases hp'
      · rw [Function.update_of_ne hk] at hp'
        exact h.entries k p hp'

theorem Ok.entry_inj (h : m.Ok) (hn : m.entry n = some p) (hk : m.entry k = some p) : n = k := by
  have hfd := (h.entries n p hn).2
  rw [(h.entries k p hk).2] at hfd
  omega

theorem Ok.setCtx (h : m.Ok) (hctx : ctx.m_fd = (m.ctxs p).m_fd) : (m.setCtx p ctx).Ok := by
  refine ⟨h.size, fun k q hq => ?_⟩
  obtain ⟨hlt, hfd⟩ := h.entries k q hq
  refine ⟨hlt, ?_⟩
  by_cases hqp : q = p
  · subst q
    simp [FdManager.setCtx, hctx, hfd]
  · simp [FdManager.setCtx, hqp, hfd]

theorem initial_ok : initial.Ok where
  size := by
    rw [initial, List.length_replicate]
    decide
  entries := fun n p h => by
    rw [initial_entry] at h
    cases h

end FdManager

end FiberAsync
