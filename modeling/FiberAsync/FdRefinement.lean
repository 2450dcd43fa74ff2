import FiberAsync.StatusFlags
import FiberAsync.Library.PartialMap

/-!
# FdManager as a map

What `get` and `del` do to the table, one call at a time and over any underlying
functions. The table of pointers stands for the map from the descriptors to their
contexts, and in a growth by half of the descriptor there is always room for it.
Whether a call gets the lock of the table is another matter, see `LockedTable`.
-/

namespace FiberAsync

set_option autoImplicit false

open Runs Results

namespace Process

variable {κ : Type} {calls : Syscalls κ} {s : Process κ} {fd : Int}

theorem tracked_of_get_none (h : s.fdMgr.get fd = .ok none) : s.tracked fd = .ok none := by
  unfold tracked
  rw [h]
  rfl

variable (calls) in
theorem fcntlGETFL_of_get_none (h : s.fdMgr.get fd = .ok none) :
    s.fcntlGETFL calls fd = .ok (s.sys (calls.getfl_f fd)) := by
  have htracked : (s.sys (calls.getfl_f fd)).2.tracked fd = .ok none := tracked_of_get_none h
  unfold fcntlGETFL
  dsimp only
  rw [htracked]
  rfl

variable (calls) in
theorem fcntlSETFL_of_get_none (h : s.fdMgr.get fd = .ok none) (arg : BitVec 32) :
    s.fcntlSETFL calls fd arg = .ok (s.sys (calls.setfl_f fd arg)) := by
  unfold fcntlSETFL
  rw [tracked_of_get_none h]
  rfl

variable (calls) in
/-- `init()` of a context that is not in the table yet leaves the table alone. -/
theorem init_of_get_none (ctx : FdCtx) (h : s.fdMgr.get ctx.m_fd = .ok none) :
    ∃ ctx' kernel, s.init calls ctx = .ok (ctx', { s with kernel := kernel }) ∧
      ctx'.m_fd = ctx.m_fd := by
  let stat := (s.sys (calls.fstat ctx.m_fd)).2
  let getfl := (stat.sys (calls.getfl_f ctx.m_fd)).2
  have hflags : ∀ flags : BitVec 32, ∃ kernel, (if flags &&& O_NONBLOCK = 0#32 then
      getfl.fcntlSETFL calls ctx.m_fd (flags ||| O_NONBLOCK) >>= fun x => .ok x.2
      else .ok getfl) = .ok { s with kernel := kernel } := by
    intro flags
    split
    · rw [fcntlSETFL_of_get_none calls (s := getfl) h]
      exact ⟨_, rfl⟩
    · exact ⟨_, rfl⟩
  unfold init
  dsimp only
  cases hstat : (s.sys (calls.fstat ctx.m_fd)).1 with
  | error e => exact ⟨_, _, rfl, rfl⟩
  | ok isSock =>
    cases isSock with
    | false => exact ⟨_, _, rfl, rfl⟩
    | true =>
      obtain ⟨kernel, hkernel⟩ := hflags _
      dsimp only
      rw [if_pos rfl]
      exact ⟨_, kernel, bind_eq_ok.mpr ⟨_, fcntlGETFL_of_get_none calls (s := stat) h,
        bind_eq_ok.mpr ⟨_, hkernel, rfl⟩⟩, rfl⟩

end Process

namespace FdManager

variable {m m' : FdManager} {n : Nat} {p : FdCtxPtr} {ctx : FdCtx}

/-- The product with 1.5 is never below the size of a table that is too small. -/
theorem grown_length_le (h : m.Ok) (n : Nat) : m.m_datas.length ≤ (m.grown n).length := by
  obtain ⟨hmin, _⟩ := h.size
  unfold grown
  rw [h.toInt_length, Int.toNat_natCast]
  split
  · rw [IOManager.resized_length]
    omega
  · exact le_refl _

theorem store_grows (h : m.Ok) (hs : m.store n ctx = .ok (p, m')) :
    m.m_datas.length ≤ m'.m_datas.length ∧ m'.allocated = m.allocated + 1 := by
  unfold store at hs
  split at hs
  · cases hs
    simp only [List.length_set]
    exact ⟨grown_length_le h n, trivial⟩
  · cases hs

theorem del_keeps (hs : m.del n = .ok m') :
    m'.m_datas.length = m.m_datas.length ∧ m'.allocated = m.allocated := by
  unfold del at hs
  split at hs
  · cases hs
    exact ⟨rfl, rfl⟩
  · obtain ⟨_, _, hs⟩ := bind_eq_ok.mp hs
    cases hs
    exact ⟨List.length_set, rfl⟩

end FdManager

/-- A call and the pointer that it returns. -/
abbrev FdCall := PartialMap.Op Nat × Option FdCtxPtr

namespace Process

variable {κ : Type} (calls : Syscalls κ)

def fdExec (s : Process κ) : PartialMap.Op Nat → Except Fault (Option FdCtxPtr × Process κ)
  | .get fd true => s.getCreate calls fd
  | .get fd false => s.fdMgr.get fd >>= fun o => .ok (o, s)
  | .del fd => s.fdMgr.del fd >>= fun fdMgr => .ok (none, { s with fdMgr })

/-- The product of the descriptor and 1.5 is an `int`. -/
def Fits (op : PartialMap.Op Nat) : Prop := op.key * 3 / 2 ≤ INT_MAX

def fdSystem : System (Process κ) FdCall where
  init s := s.fdMgr = .initial
  step s a s' := Fits a.1 ∧ s.fdExec calls a.1 = .ok (a.2, s')

variable {calls} {s s' : Process κ} {op : PartialMap.Op Nat} {a : FdCall}

/-- What one call does to the table. -/
structure Served (s : Process κ) (a : FdCall) (s' : Process κ) : Prop where
  ok : s'.fdMgr.Ok
  step : PartialMap.Step s.fdMgr.entry a s'.fdMgr.entry
  grows : s.fdMgr.m_datas.length ≤ s'.fdMgr.m_datas.length
  allocated : s.fdMgr.allocated ≤ s'.fdMgr.allocated
  /-- a pointer is to an object that the table had, or to a new one -/
  returned : ∀ p, a.2 = some p → p < s'.fdMgr.allocated ∧
    (s.fdMgr.entry a.1.key = none → p = s.fdMgr.allocated)
  ctxs : ∀ q < s.fdMgr.allocated, s'.fdMgr.ctxs q = s.fdMgr.ctxs q

theorem getCreate_of_some {n : Nat} {p : FdCtxPtr} (h : s.fdMgr.get n = .ok (some p)) :
    s.getCreate calls n = .ok (some p, s) := by
  unfold getCreate
  rw [if_neg (by omega)]
  exact bind_eq_ok.mpr ⟨_, h, rfl⟩

variable (calls) in
theorem getCreate_of_none {n : Nat} (hok : s.fdMgr.Ok) (h : s.fdMgr.get n = .ok none)
    (hfits : n * 3 / 2 ≤ INT_MAX) : ∃ ctx kernel fdMgr,
      s.getCreate calls n =
        .ok (some s.fdMgr.allocated, { s with kernel := kernel, fdMgr := fdMgr }) ∧
      s.fdMgr.store n ctx = .ok (s.fdMgr.allocated, fdMgr) ∧ s.fdMgr.Stored n ctx fdMgr := by
  obtain ⟨ctx, kernel, hinit, hctx⟩ := init_of_get_none calls (.new n) h
  obtain ⟨fdMgr, hstore, hstored⟩ := FdManager.store_ok hok hctx hfits
  refine ⟨ctx, kernel, fdMgr, ?_, hstore, hstored⟩
  unfold getCreate
  rw [if_neg (by omega)]
  exact bind_eq_ok.mpr ⟨_, h, bind_eq_ok.mpr ⟨_, hinit, bind_eq_ok.mpr ⟨_, hstore, rfl⟩⟩⟩

theorem Served.same (hok : s.fdMgr.Ok) (hstep : PartialMap.Step s.fdMgr.entry a s.fdMgr.entry)
    (hret : a.2 = s.fdMgr.entry a.1.key) : s.Served a s := by
  refine ⟨hok, hstep, le_refl _, le_refl _, fun p hp => ?_, fun _ _ => rfl⟩
  rw [hret] at hp
  exact ⟨(hok.entries _ p hp).1, fun hnone => nomatch hp.symm.trans hnone⟩

variable (calls) in
theorem exec_served (h : s.fdMgr.Ok) (hfits : Fits op) :
    ∃ r s', s.fdExec calls op = .ok (r, s') ∧ s.Served (op, r) s' := by
  cases op with
  | get fd create =>
    have hget := FdManager.get_eq h fd
    cases hp : s.fdMgr.entry fd with
    | some p =>
      rw [hp] at hget
      have hserved : s.Served (.get fd create, some p) s :=
        .same h (.found fd create p hp) hp.symm
      cases create with
      | false => exact ⟨_, _, bind_eq_ok.mpr ⟨_, hget, rfl⟩, hserved⟩
      | true => exact ⟨_, _, getCreate_of_some hget, hserved⟩
    | none =>
      rw [hp] at hget
      cases create with
      | false => exact ⟨_, _, bind_eq_ok.mpr ⟨_, hget, rfl⟩, .same h (.absent fd hp) hp.symm⟩
      | true =>
        obtain ⟨ctx, kernel, fdMgr, hcreate, hstore, hstored⟩ :=
          getCreate_of_none calls h hget hfits
        obtain ⟨hlength, halloc⟩ := FdManager.store_grows h hstore
        refine ⟨_, _, hcreate, hstored.ok, ?_, hlength, ?_, fun p hp' => ?_, fun q hq => ?_⟩
        · rw [hstored.entry]
          refine .created fd _ hp fun j hj => ?_
          exact absurd (h.entries j _ hj).1 (Nat.lt_irrefl _)
        · exact halloc.symm ▸ Nat.le_succ _
        · cases hp'
          exact ⟨halloc.symm ▸ Nat.lt_succ_self _, fun _ => rfl⟩
        · rw [hstored.ctxs]
          exact Function.update_of_ne (Nat.ne_of_lt hq) _ _
  | del fd =>
    obtain ⟨fdMgr, hdel, hdeleted⟩ := FdManager.del_ok h fd
    obtain ⟨hlength, halloc⟩ := FdManager.del_keeps hdel
    refine ⟨none, { s with fdMgr := fdMgr }, bind_eq_ok.mpr ⟨_, hdel, rfl⟩, hdeleted.ok, ?_,
      hlength.ge, halloc.ge, nofun, fun q _ => by rw [hdeleted.ctxs]⟩
    rw [hdeleted.entry]
    exact .deleted fd

theorem step_served (h : s.fdMgr.Ok) (hs : (fdSystem calls).step s a s') : s.Served a s' := by
  obtain ⟨r, s₁, hexec, hserved⟩ := exec_served calls h hs.1
  rw [hs.2] at hexec
  cases hexec
  exact hserved

section OverRuns

variable {s₀ : Process κ} {tr before : List (Move (Process κ) FdCall)} {m : Move (Process κ) FdCall}
  {fd : Nat} {p : FdCtxPtr}

/-- The map that the table stands for. -/
def entries (s : Process κ) : Nat → Option FdCtxPtr := s.fdMgr.entry

/-- The last creating call of `get` since the last `del` has returned that context. -/
def Stores (fd : Nat) (p : FdCtxPtr) (tr : List (Move (Process κ) FdCall)) : Prop :=
  ∃ m, Last (fun m => m.act.1 = .del fd ∨ m.act.1 = .get fd true ∧ m.pre.fdMgr.entry fd = none)
    tr m ∧ m.act = (.get fd true, some p)

/-- What a call does after the calls before it. -/
structure Obeys (before : List (Move (Process κ) FdCall)) (m : Move (Process κ) FdCall) : Prop where
  found : ∀ fd create p, m.act.1 = .get fd create → Stores fd p before →
    m.act.2 = some p ∧ m.post.entries = m.pre.entries
  absent : ∀ fd, m.act.1 = .get fd false → (∀ p, ¬ Stores fd p before) →
    m.act.2 = none ∧ m.post.entries = m.pre.entries
  created : ∀ fd, m.act.1 = .get fd true → (∀ p, ¬ Stores fd p before) →
    ∃ p, m.act.2 = some p ∧ m.post.entries fd = some p ∧ ∀ x ∈ before, x.act.2 ≠ some p
  deleted : ∀ fd, m.act.1 = .del fd → m.post.entries fd = none
  frame : ∀ fd, fd ≠ m.act.1.key → m.post.entries fd = m.pre.entries fd
  grows : m.pre.fdMgr.m_datas.length ≤ m.post.fdMgr.m_datas.length

/-- The pointers that have been returned are to objects that have been made. -/
structure Made (tr : List (Move (Process κ) FdCall)) (s : Process κ) : Prop where
  ok : s.fdMgr.Ok
  returned : ∀ x ∈ tr, ∀ p, x.act.2 = some p → p < s.fdMgr.allocated

theorem Made.keeps (h : Made tr s) (hs : (fdSystem calls).step s a s') :
    Made (tr ++ [⟨s, a, s'⟩]) s' := by
  have hserved := step_served h.ok hs
  refine ⟨hserved.ok, fun x hx p hp => ?_⟩
  rcases List.mem_append.mp hx with hx | hx
  · exact (h.returned x hx p hp).trans_le hserved.allocated
  · cases List.mem_singleton.mp hx
    exact (hserved.returned p hp).1

theorem run_made (h₀ : s₀.fdMgr = .initial) (h : Run (fdSystem calls) s₀ tr s) : Made tr s := by
  refine h.history Made (fun hm hs => hm.keeps hs) ⟨?_, nofun⟩
  rw [h₀]
  exact FdManager.initial_ok

theorem run_entries (h₀ : s₀.fdMgr = .initial) (h : Run (fdSystem calls) s₀ tr s) :
    Run PartialMap.system (fun _ => none) (tr.map (Move.map entries)) s.entries := by
  have hstart : s₀.entries = fun _ => none := by
    unfold entries
    rw [h₀]
    exact funext FdManager.initial_entry
  rw [← hstart]
  refine h.map entries (fun s => s.fdMgr.Ok) (fun hok hs => ?_) (h₀ ▸ FdManager.initial_ok)
  have hserved := step_served hok hs
  exact ⟨hserved.step, hserved.ok⟩

theorem entries_iff (h₀ : s₀.fdMgr = .initial) (h : Run (fdSystem calls) s₀ tr s) :
    s.entries fd = some p ↔ Stores fd p tr := by
  rw [PartialMap.entry_iff_stores (run_entries h₀ h)]
  unfold PartialMap.Stores Stores
  constructor
  · intro hstores
    obtain ⟨_, hlast, hact⟩ := hstores
    obtain ⟨m, rfl, hmapped⟩ := (Last.map_iff entries).mp hlast
    exact ⟨m, hmapped, hact⟩
  · intro hstores
    obtain ⟨m, hlast, hact⟩ := hstores
    exact ⟨_, (Last.map_iff entries).mpr ⟨m, rfl, hlast⟩, hact⟩

theorem obeys (h₀ : s₀.fdMgr = .initial) (h : Run (fdSystem calls) s₀ before m.pre)
    (hs : (fdSystem calls).step m.pre m.act m.post) : Obeys before m := by
  have hmade := run_made h₀ h
  have hserved := step_served hmade.ok hs
  have hstep : PartialMap.Step m.pre.entries m.act m.post.entries := hserved.step
  have hnone : ∀ fd, (∀ p, ¬ Stores fd p before) → m.pre.entries fd = none := by
    intro fd hno
    exact Option.eq_none_iff_forall_ne_some.mpr fun p hp => hno p ((entries_iff h₀ h).mp hp)
  obtain ⟨pre, ⟨op, r⟩, post⟩ := m
  refine ⟨?_, ?_, ?_, ?_, fun fd => hstep.frame, hserved.grows⟩
  · intro fd create p hop hstores
    cases hop
    exact hstep.get_some ((entries_iff h₀ h).mpr hstores)
  · intro fd hop hno
    cases hop
    exact hstep.get_none (hnone fd hno)
  · intro fd hop hno
    cases hop
    obtain ⟨p, rfl, hp⟩ := hstep.get_create (hnone fd hno)
    refine ⟨p, rfl, hp, fun x hx heq => ?_⟩
    have hold := hmade.returned x hx p heq
    rw [(hserved.returned p rfl).2 (hnone fd hno)] at hold
    exact absurd hold (Nat.lt_irrefl _)
  · intro fd hop
    cases hop
    exact hstep.del

end OverRuns

instance : Decidable (Fits op) := inferInstanceAs (Decidable (_ ≤ _))

end Process

end FiberAsync
