import FiberAsync.FdManager
import FiberAsync.Library.Runs

/-!
# Threads at the table of descriptors

`get(fd, true)` looks for the context under the read lock and makes one under
the write lock, without looking again. Between the two sections other threads
may have made one, which the creation then replaces. For a socket the constructor
gives the write lock back by the way, so that others may also do so between the
constructor and the store. The lock itself is left out: there are more orders of
the steps than with it. A lookup, a store with its `resize`, and a `reset` are one
step each.
-/

namespace FiberAsync

set_option autoImplicit false

open Runs Results

namespace FdManager

/-- The section of `get` under the read lock; `none` when it ends without a `return`. -/
def lookup (m : FdManager) (fd : Int) (auto_create : Bool) :
    Except Fault (Option (Option FdCtxPtr)) :=
  if IOManager.toInt m.m_datas.length ≤ fd then
    if auto_create then .ok none else .ok (some none)
  else m.slot fd >>= fun o => if o.isSome ∨ ¬ auto_create then .ok (some o) else .ok none

theorem get_eq_lookup (m : FdManager) {fd : Int} (hfd : fd ≠ -1) :
    (m.get fd).map some = m.lookup fd false := by
  unfold get lookup
  rw [if_neg hfd]
  split
  · rfl
  · cases m.slot fd with
    | error f => rfl
    | ok o => cases o <;> rfl

end FdManager

/-- Where a thread is in `get(fd, true)`. -/
inductive FdPc where
  | outside
  /-- between the two sections -/
  | missed (fd : Nat)
  /-- in the second one, after the constructor -/
  | made (fd : Nat) (ctx : FdCtx)
  deriving DecidableEq, Repr

/-- The descriptor whose context the thread has missed. -/
def FdPc.fd : FdPc → Option Nat
  | outside => none
  | missed fd | made fd _ => some fd

structure FdThreads where
  manager : FdManager
  pc : Tid → FdPc

namespace FdThreads

inductive Act where
  /-- the read-locked section of `get(fd, auto_create)` -/
  | lookup (t : Tid) (fd : Nat) (auto_create : Bool)
  /-- `WriteLock lock2(m_mutex);` and what the constructor makes -/
  | construct (t : Tid) (ctx : FdCtx)
  /-- the end of `get(fd, true)` -/
  | store (t : Tid)
  | del (t : Tid) (fd : Nat)
  | setTimeout (p : FdCtxPtr) (type : TimeoutType) (v : BitVec 64)
  | setUserNonblock (p : FdCtxPtr) (v : Bool)
  deriving DecidableEq, Repr

def initial : FdThreads := ⟨.initial, fun _ => .outside⟩

section Functions

variable (s : FdThreads)

def setPc (t : Tid) (pc : FdPc) : FdThreads := { s with pc := Function.update s.pc t pc }

def lookup (t : Tid) (fd : Nat) (auto_create : Bool) : Except Fault FdThreads :=
  s.manager.lookup fd auto_create >>= fun
    | some _ => .ok s
    | none => .ok (s.setPc t (.missed fd))

def store (t : Tid) (fd : Nat) (ctx : FdCtx) : Except Fault FdThreads :=
  s.manager.store fd ctx >>= fun (_, manager) => .ok { s.setPc t .outside with manager }

/-- A thread inside `get` goes on with its creation, where the constructor may come to
`get(fd)`; a fault ends the process. -/
def next : Act → Option FdThreads
  | .lookup t fd auto_create =>
    if auto_create → s.pc t = .outside then (s.lookup t fd auto_create).toOption else none
  | .construct t ctx =>
    match s.pc t with
    | .missed fd => if ctx.m_fd = fd then some (s.setPc t (.made fd ctx)) else none
    | _ => none
  | .store t =>
    match s.pc t with
    | .made fd ctx => (s.store t fd ctx).toOption
    | _ => none
  | .del t fd =>
    if s.pc t = .outside then
      (s.manager.del fd).toOption.map fun manager => { s with manager }
    else none
  | .setTimeout p type v =>
    some { s with manager := s.manager.setCtx p ((s.manager.ctxs p).setTimeout type v) }
  | .setUserNonblock p v =>
    some { s with manager := s.manager.setCtx p { s.manager.ctxs p with m_userNonblock := v } }

def system : System FdThreads Act where
  init s := s = initial
  step s a s' := s.next a = some s'

/-- The descriptor and the object of a call of `get` that returns in a step. -/
def returned (m : Move FdThreads Act) : Option (Nat × FdCtxPtr) :=
  match m.act with
  | .lookup _ fd auto_create =>
    (m.pre.manager.lookup fd auto_create).toOption.join.join.map fun p => (fd, p)
  | .store t => (m.pre.pc t).fd.map fun fd => (fd, m.pre.manager.allocated)
  | .construct _ _ | .del _ _ | .setTimeout _ _ _ | .setUserNonblock _ _ => none

/-- A creation stores its context where another one is. -/
def Overwrites : Act → Prop
  | .store t => ∃ fd p, (s.pc t).fd = some fd ∧ s.manager.entry fd = some p
  | _ => False

/-- The resize of a creation cuts off a context. -/
def CutsOff : Act → Prop
  | .store t => ∃ fd k p, (s.pc t).fd = some fd ∧
    IOManager.toInt s.manager.m_datas.length ≤ fd ∧ fd * 3 / 2 ≤ k ∧ s.manager.entry k = some p
  | _ => False

end Functions

def Deletes (fd : Nat) (m : Move FdThreads Act) : Prop := ∃ t, m.act = .del t fd

/-- Between two calls `del(fd)` all calls of `get` on `fd` that return a context
return the same one. -/
def OneCtx (tr : List (Move FdThreads Act)) : Prop :=
  ∀ before m between m' after fd p q, tr = before ++ m :: (between ++ m' :: after) →
    returned m = some (fd, p) → returned m' = some (fd, q) → (∀ x ∈ between, ¬ Deletes fd x) → p = q

variable {s s' : FdThreads} {t : Tid} {fd k : Nat} {a : Act} {p q : FdCtxPtr}
  {tr : List (Move FdThreads Act)}

section Sections

variable {m m' : FdManager} {ctx : FdCtx} {auto_create : Bool}

theorem slot_eq {o : Option FdCtxPtr} (h : m.slot (fd : Int) = .ok o) : o = m.entry fd := by
  have hlt : fd < m.m_datas.length := by
    by_contra hge
    have hnone : m.m_datas[fd]? = none := List.getElem?_eq_none (Nat.le_of_not_lt hge)
    have hslot : m.slot (fd : Int) = match m.m_datas[fd]? with
      | some o => .ok o
      | none => .error .indexOutOfRange := rfl
    rw [hslot, hnone] at h
    cases h
  rw [FdManager.slot_of_lt hlt] at h
  exact (Except.ok.inj h).symm

theorem lookup_some (h : m.lookup fd auto_create = .ok (some (some p))) : m.entry fd = some p := by
  unfold FdManager.lookup at h
  split at h
  · split at h <;> cases h
  · obtain ⟨o, hslot, h⟩ := bind_eq_ok.mp h
    rw [← slot_eq hslot]
    split at h <;> cases h
    rfl

theorem grown_entry (fd k : Nat) : (m.grown fd)[k]?.join = m.entry k ∨
    IOManager.toInt m.m_datas.length ≤ fd ∧ fd * 3 / 2 ≤ k := by
  unfold FdManager.grown
  rw [Int.toNat_natCast]
  split
  · rename_i hge
    by_cases hk : k < fd * 3 / 2
    · refine Or.inl ?_
      rw [IOManager.resized_getElem? _ hk, FdManager.entry]
      cases m.m_datas[k]? <;> rfl
    · exact Or.inr ⟨hge, Nat.le_of_not_lt hk⟩
  · exact Or.inl rfl

/-- What a creation does to the table: it fills the slot, and may cut off others. -/
theorem store_entry (h : m.store fd ctx = .ok (p, m')) : p = m.allocated ∧
    m'.allocated = m.allocated + 1 ∧ m'.entry fd = some m.allocated ∧
    ∀ k ≠ fd, m'.entry k = (m.grown fd)[k]?.join := by
  unfold FdManager.store at h
  split at h
  · rename_i hlt
    cases h
    simp only [Int.toNat_natCast] at hlt
    refine ⟨rfl, rfl, ?_, fun k hk => ?_⟩
    · simp only [FdManager.entry, Int.toNat_natCast]
      rw [List.getElem?_set_self hlt.2]
      rfl
    · simp only [FdManager.entry, Int.toNat_natCast]
      rw [List.getElem?_set_ne (Ne.symm hk)]
  · cases h

theorem del_entry (h : m.del fd = .ok m') : m'.allocated = m.allocated ∧
    (∀ k ≠ fd, m'.entry k = m.entry k) ∧ ∀ p, m'.entry fd = some p → m.entry fd = some p := by
  unfold FdManager.del at h
  split at h
  · cases h
    exact ⟨rfl, fun _ _ => rfl, fun _ hp => hp⟩
  · obtain ⟨o, _, h⟩ := bind_eq_ok.mp h
    cases h
    refine ⟨rfl, fun k hk => ?_, fun p hp => ?_⟩
    · simp only [FdManager.entry, Int.toNat_natCast]
      rw [List.getElem?_set_ne (Ne.symm hk)]
    · simp only [FdManager.entry, Int.toNat_natCast, List.getElem?_set_self'] at hp
      cases hget : m.m_datas[fd]? with
      | none => simp [hget] at hp
      | some o => simp [hget] at hp

end Sections

/-- The sections that a step can be. -/
inductive Stepped (s : FdThreads) : Act → FdThreads → Prop where
  | found (t : Tid) (fd : Nat) (auto_create : Bool) (o : Option FdCtxPtr) :
      s.manager.lookup fd auto_create = .ok (some o) → Stepped s (.lookup t fd auto_create) s
  | missed (t : Tid) (fd : Nat) (auto_create : Bool) :
      s.manager.lookup fd auto_create = .ok none →
      Stepped s (.lookup t fd auto_create) (s.setPc t (.missed fd))
  | construct (t : Tid) (ctx : FdCtx) (fd : Nat) : s.pc t = .missed fd → ctx.m_fd = fd →
      Stepped s (.construct t ctx) (s.setPc t (.made fd ctx))
  | store (t : Tid) (ctx : FdCtx) (fd : Nat) (p : FdCtxPtr) (manager : FdManager) :
      s.pc t = .made fd ctx → s.manager.store fd ctx = .ok (p, manager) →
      Stepped s (.store t) { s.setPc t .outside with manager }
  | del (t : Tid) (fd : Nat) (manager : FdManager) : s.manager.del fd = .ok manager →
      Stepped s (.del t fd) { s with manager }
  | setCtx (a : Act) (p : FdCtxPtr) (ctx : FdCtx) : (∀ t fd b, a ≠ .lookup t fd b) →
      (∀ t, a ≠ .store t) → (∀ t fd, a ≠ .del t fd) → ctx.m_fd = (s.manager.ctxs p).m_fd →
      Stepped s a { s with manager := s.manager.setCtx p ctx }

theorem stepped (h : s.next a = some s') : Stepped s a s' := by
  cases a with
  | lookup t fd auto_create =>
    obtain ⟨_, h⟩ := Option.ite_none_right_eq_some.mp h
    obtain ⟨_ | o, hl, h⟩ := bind_eq_ok.mp (toOption_eq_some.mp h)
    · cases h
      exact .missed t fd auto_create hl
    · cases h
      exact .found t fd auto_create o hl
  | construct t ctx =>
    unfold next at h
    dsimp only at h
    split at h
    case h_1 fd hpc =>
      obtain ⟨hctx, h⟩ := Option.ite_none_right_eq_some.mp h
      cases h
      exact .construct t ctx fd hpc hctx
    case h_2 => cases h
  | store t =>
    unfold next at h
    dsimp only at h
    split at h
    case h_1 fd ctx hpc =>
      obtain ⟨⟨p, manager⟩, hstore, h⟩ := bind_eq_ok.mp (toOption_eq_some.mp h)
      cases h
      exact .store t ctx fd p manager hpc hstore
    case h_2 => cases h
  | del t fd =>
    obtain ⟨_, h⟩ := Option.ite_none_right_eq_some.mp h
    obtain ⟨manager, hdel, h⟩ := Option.map_eq_some_iff.mp h
    cases h
    exact .del t fd manager (toOption_eq_some.mp hdel)
  | setTimeout p type v =>
    cases h
    exact .setCtx _ p _ (by simp) (by simp) (by simp) (by cases type <;> rfl)
  | setUserNonblock p v =>
    cases h
    exact .setCtx _ p _ (by simp) (by simp) (by simp) rfl

theorem entry_of_returned (h : s.next a = some s') (hr : returned ⟨s, a, s'⟩ = some (fd, p)) :
    s'.manager.entry fd = some p := by
  cases stepped h with
  | found t fd' auto_create o hl =>
    simp only [returned, hl, Except.toOption, Option.join_some] at hr
    obtain ⟨q, rfl, hr⟩ := Option.map_eq_some_iff.mp hr
    cases hr
    exact lookup_some hl
  | missed t fd' auto_create hl => simp [returned, hl, Except.toOption] at hr
  | store t ctx fd' q manager hpc hstore =>
    simp only [returned, hpc, FdPc.fd, Option.map_some] at hr
    cases hr
    exact (store_entry hstore).2.2.1
  | construct | del => cases hr
  | setCtx _ q ctx hlookup hstore hdel =>
    cases a with
    | lookup t fd b => exact absurd rfl (hlookup t fd b)
    | store t => exact absurd rfl (hstore t)
    | construct | del | setTimeout | setUserNonblock => cases hr

/-- The slot keeps its context while the guards hold and nobody deletes it. -/
theorem entry_kept (h : s.next a = some s') (hdel : ∀ t, a ≠ .del t fd) (hover : ¬ s.Overwrites a)
    (hcut : ¬ s.CutsOff a) (hp : s.manager.entry fd = some p) : s'.manager.entry fd = some p := by
  cases stepped h with
  | found | missed | construct | setCtx => exact hp
  | store t ctx fd' q manager hpc hstore =>
    obtain ⟨_, _, _, hrest⟩ := store_entry hstore
    have hfd' : (s.pc t).fd = some fd' := congrArg FdPc.fd hpc
    by_cases hfd : fd = fd'
    · subst fd'
      exact absurd ⟨fd, p, hfd', hp⟩ hover
    · rcases grown_entry (m := s.manager) fd' fd with heq | ⟨hge, hle⟩
      · exact (hrest fd hfd).trans (heq.trans hp)
      · exact absurd ⟨fd', fd, p, hfd', hge, hle, hp⟩ hcut
  | del t fd' manager hd =>
    have hne : fd ≠ fd' := fun heq => hdel t (heq ▸ rfl)
    exact ((del_entry hd).2.1 fd hne).trans hp

theorem returned_of_entry (h : s.next a = some s') (hover : ¬ s.Overwrites a)
    (hp : s.manager.entry fd = some p) (hr : returned ⟨s, a, s'⟩ = some (fd, q)) : p = q := by
  cases a with
  | lookup t fd' auto_create =>
    obtain ⟨x, hl, hr⟩ := Option.map_eq_some_iff.mp hr
    cases hr
    have hl := Option.join_eq_some_iff.mp (Option.join_eq_some_iff.mp hl)
    rw [lookup_some (toOption_eq_some.mp hl)] at hp
    exact (Option.some.inj hp).symm
  | store t =>
    obtain ⟨x, hfd, hr⟩ := Option.map_eq_some_iff.mp hr
    cases hr
    exact absurd ⟨fd, p, hfd, hp⟩ hover
  | construct | del | setTimeout | setUserNonblock => cases hr

/-- Runs whose creations store into empty slots and cut nothing off. -/
theorem oneCtx_of_guarded (h : Run system initial tr s)
    (hg : ∀ m ∈ tr, ¬ m.pre.Overwrites m.act ∧ ¬ m.pre.CutsOff m.act) : OneCtx tr := by
  rintro before m between m' after fd p q rfl hm hm' hbetween
  obtain ⟨_, hfirst, hrest⟩ := h.split_at
  obtain ⟨hrun, hlast, _⟩ := hrest.split_at
  have hmid : ∀ x ∈ between, x ∈ before ++ m :: (between ++ m' :: after) := by
    intro x hx
    simp [hx]
  have hentry : m'.pre.manager.entry fd = some p := by
    apply hrun.invariant_of_guard (fun s => s.manager.entry fd = some p)
      (fun s a => (∀ t, a ≠ .del t fd) ∧ ¬ s.Overwrites a ∧ ¬ s.CutsOff a)
      (fun hs hg hstep => entry_kept hstep hg.1 hg.2.1 hg.2.2 hs) (entry_of_returned hfirst hm)
    intro x hx
    exact ⟨fun t heq => hbetween x hx ⟨t, heq⟩, hg x (hmid x hx)⟩
  have hover := (hg m' (by simp)).1
  exact returned_of_entry hlast hover hentry hm'

/-- The descriptor's growth fits an `int`. -/
def Small : Act → Prop
  | .lookup _ fd _ => fd * 3 / 2 ≤ INT_MAX
  | _ => True

/-- Every context in the table was returned since the last `del` of its slot. -/
structure Accounted (tr : List (Move FdThreads Act)) (s : FdThreads) : Prop where
  ok : s.manager.Ok
  small : ∀ t fd, (s.pc t).fd = some fd → fd * 3 / 2 ≤ INT_MAX
  made : ∀ t fd ctx, s.pc t = .made fd ctx → ctx.m_fd = fd
  returned : ∀ fd p, s.manager.entry fd = some p → ∃ before m between,
    tr = before ++ m :: between ∧ returned m = some (fd, p) ∧ ∀ x ∈ between, ¬ Deletes fd x

theorem Accounted.keeps (h : Accounted tr s) (hs : s.next a = some s') (ha : Small a) :
    Accounted (tr ++ [⟨s, a, s'⟩]) s' := by
  have older : ∀ {fd p}, s.manager.entry fd = some p → (∀ t, a ≠ .del t fd) →
      ∃ before m between, tr ++ [⟨s, a, s'⟩] = before ++ m :: between ∧
        FdThreads.returned m = some (fd, p) ∧ ∀ x ∈ between, ¬ Deletes fd x := by
    intro fd p hp hdel
    obtain ⟨before, m, between, rfl, hm, hbetween⟩ := h.returned fd p hp
    refine ⟨before, m, between ++ [⟨s, a, s'⟩], by simp, hm, fun x hx => ?_⟩
    rcases List.mem_append.mp hx with hx | hx
    · exact hbetween x hx
    · rw [List.mem_singleton.mp hx]
      rintro ⟨t, heq⟩
      exact hdel t heq
  have pcs : ∀ {t : Tid} {pc : FdPc}, (∀ fd, pc.fd = some fd → fd * 3 / 2 ≤ INT_MAX) →
      (∀ (fd : Nat) ctx, pc = .made fd ctx → ctx.m_fd = fd) →
      (∀ u k, (Function.update s.pc t pc u).fd = some k → k * 3 / 2 ≤ INT_MAX) ∧
      ∀ u (k : Nat) ctx, Function.update s.pc t pc u = .made k ctx → ctx.m_fd = k := by
    intro t pc hfd hctx
    refine ⟨fun u k hu => ?_, fun u k ctx hu => ?_⟩
    · by_cases hut : u = t
      · subst u
        rw [Function.update_self] at hu
        exact hfd k hu
      · rw [Function.update_of_ne hut] at hu
        exact h.small u k hu
    · by_cases hut : u = t
      · subst u
        rw [Function.update_self] at hu
        exact hctx k ctx hu
      · rw [Function.update_of_ne hut] at hu
        exact h.made u k ctx hu
  cases stepped hs with
  | found t fd auto_create o hl =>
    exact ⟨h.ok, h.small, h.made, fun k p hp => older hp (by simp)⟩
  | missed t fd auto_create hl =>
    have hfd : ∀ k, (FdPc.missed fd).fd = some k → k * 3 / 2 ≤ INT_MAX := by
      intro k hk
      cases hk
      exact ha
    obtain ⟨hsmall, hmade⟩ := pcs (t := t) hfd nofun
    exact ⟨h.ok, hsmall, hmade, fun k p hp => older hp (by simp)⟩
  | construct t ctx fd hpc hctx =>
    have hmissed : (s.pc t).fd = some fd := congrArg FdPc.fd hpc
    have hmade : ∀ (k : Nat) c, FdPc.made fd ctx = .made k c → c.m_fd = k := by
      intro k c hk
      cases hk
      exact hctx
    have hfd : ∀ k, (FdPc.made fd ctx).fd = some k → k * 3 / 2 ≤ INT_MAX :=
      fun k hk => h.small t k (hmissed.trans hk)
    obtain ⟨hsmall, hmade⟩ := pcs (t := t) hfd hmade
    exact ⟨h.ok, hsmall, hmade, fun k p hp => older hp (by simp)⟩
  | store t ctx fd q manager hpc hstore =>
    have hfd : (s.pc t).fd = some fd := congrArg FdPc.fd hpc
    obtain ⟨m', heq, hstored⟩ :=
      FdManager.store_ok h.ok (h.made t fd ctx hpc) (h.small t fd hfd)
    rw [heq] at hstore
    cases hstore
    have hout : ∀ k, FdPc.outside.fd = some k → k * 3 / 2 ≤ INT_MAX := nofun
    obtain ⟨hsmall, hmade⟩ := pcs (t := t) hout nofun
    refine ⟨hstored.ok, hsmall, hmade, fun k p hp => ?_⟩
    simp only [hstored.entry] at hp
    by_cases hk : k = fd
    · subst k
      rw [Function.update_self] at hp
      cases hp
      refine ⟨tr, _, [], rfl, ?_, by simp⟩
      simp [FdThreads.returned, hfd]
    · rw [Function.update_of_ne hk] at hp
      exact older hp (by simp)
  | del t fd manager hdel =>
    obtain ⟨m', heq, hdeleted⟩ := FdManager.del_ok h.ok fd
    rw [heq] at hdel
    cases hdel
    refine ⟨hdeleted.ok, h.small, h.made, fun k p hp => ?_⟩
    simp only [hdeleted.entry] at hp
    by_cases hk : k = fd
    · subst k
      rw [Function.update_self] at hp
      cases hp
    · rw [Function.update_of_ne hk] at hp
      exact older hp fun u heq => hk (Act.del.inj heq).2.symm
  | setCtx _ q ctx hlookup hstore hdel hfd =>
    exact ⟨h.ok.setCtx hfd, h.small, h.made, fun k p hp => older hp (fun u => hdel u k)⟩

theorem initial_accounted : Accounted [] initial := by
  refine ⟨FdManager.initial_ok, nofun, nofun, fun fd p hp => ?_⟩
  have hnone : initial.manager.entry fd = none := FdManager.initial_entry fd
  rw [hnone] at hp
  cases hp

theorem run_accounted (h : Run system initial tr s) (hsmall : ∀ m ∈ tr, Small m.act) :
    Accounted tr s := by
  have hr := h.restrict (fun _ a => Small a) hsmall
  have keeps : ∀ {tr s a s'}, Accounted tr s →
      (system.restrict fun _ a => Small a).step s a s' → Accounted (tr ++ [⟨s, a, s'⟩]) s' := by
    intro tr s a s' hacc hstep
    exact hacc.keeps hstep.1 hstep.2
  exact hr.history Accounted keeps initial_accounted

/-- A table whose size fits an `int` grows only past its end. -/
theorem Accounted.not_cutsOff (h : Accounted tr s) : ¬ s.CutsOff a := by
  cases a with
  | store t =>
    rintro ⟨fd, k, p, _, hge, hle, hp⟩
    rw [h.ok.toInt_length] at hge
    have hmin := h.ok.size.1
    rw [FdManager.entry_of_le (by omega)] at hp
    cases hp
  | lookup | construct | del | setTimeout | setUserNonblock => exact id

/-- A creation that overwrites a context returns another than the one before. -/
theorem not_overwrites_of_oneCtx (h : Run system initial tr s) (hsmall : ∀ m ∈ tr, Small m.act)
    (hone : OneCtx tr) : ∀ m ∈ tr, ¬ m.pre.Overwrites m.act := by
  intro m' hm' hover
  obtain ⟨before, after, rfl⟩ := List.append_of_mem hm'
  obtain ⟨hbefore, _, _⟩ := h.split_at
  have hacc := run_accounted hbefore fun x hx => hsmall x (by simp [hx])
  cases hact : m'.act with
  | store t =>
    rw [hact] at hover
    obtain ⟨fd, p, hfd, hp⟩ := hover
    obtain ⟨first, m, between, rfl, hm, hbetween⟩ := hacc.returned fd p hp
    have hlast : returned m' = some (fd, m'.pre.manager.allocated) := by
      simp [returned, hact, hfd]
    have heq := hone first m between m' after fd p _ (by simp) hm hlast hbetween
    exact Nat.lt_irrefl _ (heq ▸ (hacc.ok.entries fd p hp).1)
  | lookup | construct | del | setTimeout | setUserNonblock =>
    rw [hact] at hover
    exact hover

/-- All calls of `get` agree in every run whose creations store into empty slots
and cut nothing off the table. Among the runs in which the table's size fits an
`int`, where nothing is cut off, these are all in which they agree. -/
theorem oneCtx_run (h : Run system initial tr s) :
    ((∀ m ∈ tr, ¬ m.pre.Overwrites m.act ∧ ¬ m.pre.CutsOff m.act) → OneCtx tr) ∧
    ((∀ m ∈ tr, Small m.act) → (OneCtx tr ↔ ∀ m ∈ tr, ¬ m.pre.Overwrites m.act)) := by
  refine ⟨oneCtx_of_guarded h, fun hsmall => ⟨not_overwrites_of_oneCtx h hsmall, fun hover => ?_⟩⟩
  refine oneCtx_of_guarded h fun m hm => ⟨hover m hm, ?_⟩
  obtain ⟨before, after, rfl⟩ := List.append_of_mem hm
  exact (run_accounted h.split_at.1 fun x hx => hsmall x (by simp [hx])).not_cutsOff

/-- Two threads make contexts in one another's sections, and each reads and writes
through the other's. -/
def sharedContext : List Act :=
  [.lookup 0 5 true, .lookup 1 6 true, .construct 0 (.new 5), .construct 1 (.new 6), .store 0,
    .lookup 1 6 false, .store 1, .lookup 1 5 false, .setUserNonblock 0 true, .lookup 0 6 true,
    .lookup 0 5 true, .del 1 5]

theorem oneCtx_run_shared : ∃ tr s, Run system initial tr s ∧ tr.map Move.act = sharedContext ∧
    (∀ m ∈ tr, Small m.act) ∧ (∀ m ∈ tr, ¬ m.pre.Overwrites m.act ∧ ¬ m.pre.CutsOff m.act) ∧
    OneCtx tr := by
  have hrun : (traceAll next initial sharedContext).map (fun r => r.1.map fun m =>
      match m.act with
      | .store t => (m.pre.pc t).fd.bind m.pre.manager.entry
      | _ => none) = some (List.replicate 12 none) := by decide +kernel
  obtain ⟨tr, s, hr, hacts, hobs⟩ := Run.exists_of_traceAll next (S := system) id _ hrun
  have hsmall : ∀ m ∈ tr, Small m.act := by
    intro m hm
    have hall : ∀ a ∈ sharedContext, Small a := by simp [sharedContext, Small, INT_MAX]
    exact hall _ (hacts ▸ List.mem_map_of_mem hm)
  have hguard : ∀ m ∈ tr, ¬ m.pre.Overwrites m.act ∧ ¬ m.pre.CutsOff m.act := by
    intro m hm
    obtain ⟨before, after, rfl⟩ := List.append_of_mem hm
    refine ⟨fun hover => ?_,
      (run_accounted hr.split_at.1 fun x hx => hsmall x (by simp [hx])).not_cutsOff⟩
    have hempty := List.eq_of_mem_replicate (hobs ▸ List.mem_map_of_mem hm)
    cases hact : m.act with
    | store t =>
      rw [hact] at hover hempty
      obtain ⟨fd, p, hfd, hp⟩ := hover
      simp [hfd, hp] at hempty
    | lookup | construct | del | setTimeout | setUserNonblock =>
      rw [hact] at hover
      exact hover
  exact ⟨tr, s, hr, hacts, hsmall, hguard, (oneCtx_run hr).1 hguard⟩

/-- Two threads miss the context of a descriptor before either has made it. The
first sets its timeout on a context that no later call returns. -/
def bothMiss : List Act :=
  [.lookup 0 5 true, .lookup 1 5 true, .construct 0 (.new 5), .store 0, .construct 1 (.new 5),
    .store 1, .setTimeout 0 .SO_RCVTIMEO 100, .lookup 0 5 false]

theorem bothMiss_two_contexts : ∃ tr s, Run system initial tr s ∧ tr.map Move.act = bothMiss ∧
    (∀ m ∈ tr, ¬ Deletes 5 m) ∧ s.manager.entry 5 = some 1 ∧
    (s.manager.ctxs 0).m_recvTimeout = 100 ∧ (s.manager.ctxs 1).m_recvTimeout = -1 ∧
    ¬ OneCtx tr := by
  have hrun : (traceAll next initial bothMiss).map
      (fun r => ((r.1[3]?.bind returned, r.1[5]?.bind returned), r.2.manager.entry 5,
        (r.2.manager.ctxs 0).m_recvTimeout, (r.2.manager.ctxs 1).m_recvTimeout)) =
      some ((some (5, 0), some (5, 1)), some 1, 100, -1) := by decide +kernel
  obtain ⟨tr, s, hr, hacts, hobs⟩ := Run.exists_of_traceAll next (S := system) id _ hrun
  simp only [Prod.mk.injEq] at hobs
  obtain ⟨⟨hfirst, hsecond⟩, hentry, hrecv, hrecv'⟩ := hobs
  obtain ⟨m, hget, hm⟩ := Option.bind_eq_some_iff.mp hfirst
  obtain ⟨m', hget', hm'⟩ := Option.bind_eq_some_iff.mp hsecond
  have hkept : ∀ x ∈ tr, ¬ Deletes 5 x := by
    intro x hx hdel
    obtain ⟨t, hdel⟩ := hdel
    have hmem : x.act ∈ bothMiss := hacts ▸ List.mem_map_of_mem hx
    rw [hdel] at hmem
    simp [bothMiss] at hmem
  refine ⟨tr, s, hr, hacts, hkept, hentry, hrecv, hrecv', fun hone => ?_⟩
  have hget₁ : (tr.drop 4)[1]? = some m' := List.getElem?_drop.trans hget'
  have htr : tr = tr.take 3 ++ m :: ((tr.drop 4).take 1 ++ m' :: (tr.drop 4).drop 2) := by
    rw [← eq_take_append_drop hget₁]
    exact eq_take_append_drop hget
  have heq := hone _ m _ m' _ 5 0 1 htr hm hm' fun x hx =>
    hkept x (List.mem_of_mem_drop (List.mem_of_mem_take hx))
  cases heq

end FdThreads

end FiberAsync
