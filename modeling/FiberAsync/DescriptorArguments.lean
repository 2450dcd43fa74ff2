import FiberAsync.FdRefinement
import FiberAsync.TableIdentity

/-!
# Any int as a descriptor

The functions that take a descriptor of the user, on every `int`. They compare
it with the size of the table as an `int`, and index the table with what is left;
the two tables may have any sizes that calls can give them, also those above
`INT_MAX`, whose `int` is another number. A number that is not an open descriptor
may still be known to a table, from before it was closed. The lock of FdManager is
left out; what it does to `del` is in `LockedTable`.
-/

namespace FiberAsync

set_option autoImplicit false

open Runs Results

/-- Not negative, or ended by the test `(int)size <= fd`. -/
def InBounds (size : Nat) (fd : Int) : Prop := 0 ≤ fd ∨ IOManager.toInt size ≤ fd

/-- Room for it is made by a growth to `fd * 1.5`, if there is none. -/
def Growable (size : Nat) (fd : Int) : Prop := 0 ≤ fd ∧ (fd < IOManager.toInt size ∨ 2 ≤ fd)

instance (size : Nat) (fd : Int) : Decidable (InBounds size fd) := by
  unfold InBounds
  infer_instance

instance (size : Nat) (fd : Int) : Decidable (Growable size fd) := by
  unfold Growable
  infer_instance

theorem toInt_le (size : Nat) : IOManager.toInt size ≤ size := by
  have hcond := BitVec.toInt_eq_toNat_cond (BitVec.ofNat 32 size)
  rw [BitVec.toNat_ofNat] at hcond
  unfold IOManager.toInt
  split at hcond <;> omega

namespace IOManager

variable {io io' : IOManager} {p : ContextPtr} {fd : Int} {n : Nat} {k : Removal}

/-- `findContext` for an `int` of any sign. -/
def findInt (io : IOManager) (fd : Int) : Except Fault (Option ContextPtr) :=
  if toInt io.m_fdContexts.length ≤ fd then .ok none
  else
    match fd with
    | .ofNat n => io.contextAt n >>= fun p => .ok (some p)
    | .negSucc _ => .error .indexOutOfRange

/-- `growContext`: a negative `fd * 1.5` is no size, and no index either. -/
def growInt (io : IOManager) : Int → Except Fault (ContextPtr × IOManager)
  | .ofNat n => io.growContext n
  | .negSucc _ => .error .indexOutOfRange

/-- `delEvent`, `cancelEvent` and `cancelAll`: without `valid`, `epoll_ctl` does not take
the number. -/
def removeInt (io : IOManager) (k : Removal) (fd : Int) (valid : Bool) :
    Except Fault (Outcome × IOManager) :=
  io.findInt fd >>= fun
    | some p => k.locked io p fd.toNat >>= fun (r, io) =>
      if r = .bool true ∧ ¬ valid then .error .epollCtl else .ok (r, io)
    | none => .ok (.bool false, io)

/-- The context that `addEvent` goes on with. -/
def placeInt (io : IOManager) (fd : Int) : Except Fault (ContextPtr × IOManager) :=
  io.findInt fd >>= fun
    | some p => .ok (p, io)
    | none => io.growInt fd

/-- Without `pollable`, `epoll_ctl` does not take the number. -/
def addEventInt (io : IOManager) (fd : Int) (event : Event) (cb : Option Callback)
    (caller : Caller) (pollable : Bool) : Except Fault (Outcome × IOManager) :=
  io.placeInt fd >>= fun (p, io) =>
  io.addEventLocked (io.addOp p) p ⟨fd.toNat, event, cb, caller⟩ >>= fun (r, io) =>
    if r = .zero ∧ ¬ pollable then .error .epollCtl else .ok (r, io)

theorem findInt_natCast (io : IOManager) (n : Nat) : io.findInt n = io.findContext n := by
  unfold findInt findContext
  by_cases hlt : (n : Int) < toInt io.m_fdContexts.length
  · rw [if_neg (not_le.mpr hlt), if_pos hlt]
  · rw [if_pos (not_lt.mp hlt), if_neg hlt]

theorem contextAt_ne_index (h : n < io.m_fdContexts.length) :
    io.contextAt n ≠ .error .indexOutOfRange := by
  unfold contextAt
  rw [List.getElem?_eq_getElem h]
  intro heq
  split at heq <;> simp_all

theorem findInt_bounds_iff : io.findInt fd ≠ .error .indexOutOfRange ↔
    InBounds io.m_fdContexts.length fd := by
  have hle := toInt_le io.m_fdContexts.length
  unfold findInt InBounds
  split
  case isTrue h => simp [h]
  case isFalse h =>
    cases fd with
    | ofNat n =>
      refine iff_of_true (fun heq => ?_) (Or.inl (Int.natCast_nonneg n))
      rcases bind_eq_error.mp heq with hat | ⟨_, _, hok⟩
      · exact contextAt_ne_index (by change ¬ _ ≤ (n : Int) at h; omega) hat
      · cases hok
    | negSucc n => simp [h]

theorem removeInt_bounds_iff {valid : Bool} :
    io.removeInt k fd valid ≠ .error .indexOutOfRange ↔ InBounds io.m_fdContexts.length fd := by
  rw [← findInt_bounds_iff, not_iff_not]
  unfold removeInt
  rw [bind_eq_error]
  refine ⟨fun h => h.resolve_right fun hlocked => ?_, Or.inl⟩
  obtain ⟨_ | p, _, hlocked⟩ := hlocked
  · cases hlocked
  · rcases bind_eq_error.mp hlocked with hlocked | ⟨⟨r, io₁⟩, _, hlocked⟩
    · rcases Removal.locked_fault hlocked with h | h | h <;> cases h
    · dsimp only at hlocked
      split at hlocked <;> cases hlocked

theorem removeInt_natCast (io : IOManager) (k : Removal) (n : Nat) :
    io.removeInt k n true = io.withContext n fun p => k.locked io p n := by
  have hlocked : ∀ p, (k.locked io p n >>= fun x => if x.1 = .bool true ∧ ¬ (true : Bool) then
      .error .epollCtl else .ok (x.1, x.2)) = k.locked io p n := by
    intro p
    cases k.locked io p n with
    | error f => rfl
    | ok x => exact if_neg fun hx => hx.2 rfl
  unfold removeInt withContext
  rw [findInt_natCast]
  refine congrArg (io.findContext n >>= ·) (funext fun o => ?_)
  cases o with
  | none => rfl
  | some p => exact hlocked p

end IOManager

/-- The call finds nothing to remove. -/
def Removal.Absent (k : Removal) (m_events : EventMask) : Prop :=
  match k with
  | .delEvent e | .cancelEvent e => m_events.has e = false
  | .cancelAll => m_events = .NONE

theorem Removal.locked_cases {k : Removal} {io io' : IOManager} {p : ContextPtr} {fd : Nat}
    {r : Outcome} (h : k.locked io p fd = .ok (r, io')) :
    k.Absent (io.contexts p).m_events ∧ r = .bool false ∧ io' = io ∨ r = .bool true := by
  cases k with
  | delEvent e =>
    rcases IOManager.delEventLocked_ok_iff.mp h with h | ⟨_, _, h, _⟩
    · exact Or.inl h
    · exact Or.inr h
  | cancelEvent e =>
    rcases IOManager.cancelEventLocked_ok_iff.mp h with h | ⟨_, _, _, h, _⟩
    · exact Or.inl h
    · exact Or.inr h
  | cancelAll =>
    rcases IOManager.cancelAllLocked_ok_iff.mp h with h | ⟨_, _, _, _, _, _, h, _⟩
    · exact Or.inl h
    · exact Or.inr h

theorem Removal.locked_of_absent {k : Removal} {io : IOManager} {p : ContextPtr} (fd : Nat)
    (h : k.Absent (io.contexts p).m_events) : k.locked io p fd = .ok (.bool false, io) := by
  cases k with
  | delEvent e => exact IOManager.delEventLocked_ok_iff.mpr (Or.inl ⟨h, rfl, rfl⟩)
  | cancelEvent e => exact IOManager.cancelEventLocked_ok_iff.mpr (Or.inl ⟨h, rfl, rfl⟩)
  | cancelAll => exact IOManager.cancelAllLocked_ok_iff.mpr (Or.inl ⟨h, rfl, rfl⟩)

namespace IOManager

variable {io io' : IOManager} {p : ContextPtr} {fd : Int} {n : Nat} {k : Removal}

/-- What the call would remove is not registered for the number. -/
def Unregistered (io : IOManager) (k : Removal) (fd : Int) : Prop :=
  ∀ p, io.findInt fd = .ok (some p) → k.Absent (io.contexts p).m_events

theorem removeInt_of_unregistered (hb : InBounds io.m_fdContexts.length fd) (h : io.TableOk)
    (hun : io.Unregistered k fd) (valid : Bool) :
    io.removeInt k fd valid = .ok (.bool false, io) := by
  have hle := toInt_le io.m_fdContexts.length
  unfold removeInt
  by_cases hend : toInt io.m_fdContexts.length ≤ fd
  · rw [show io.findInt fd = .ok none from if_pos hend]
    rfl
  · have hpos : 0 ≤ fd := hb.resolve_right hend
    obtain ⟨n, rfl⟩ := Int.eq_ofNat_of_zero_le hpos
    have hlt : n < io.m_fdContexts.length := by omega
    obtain ⟨p, hp, _⟩ := h.contextAt_of_lt hlt
    have hfind : io.findInt n = .ok (some p) := by
      rw [findInt_natCast]
      exact findContext_some_iff.mpr ⟨by omega, hp⟩
    have hlocked := Removal.locked_of_absent (n : Int).toNat (hun p hfind)
    exact bind_eq_ok.mpr ⟨_, hfind, bind_eq_ok.mpr ⟨_, hlocked, rfl⟩⟩

/-- With a number that `epoll_ctl` does not take the call is refused, or it fails. -/
theorem removeInt_invalid_iff (hb : InBounds io.m_fdContexts.length fd) (h : io.TableOk) :
    (∃ x, io.removeInt k fd false = .ok x) ↔ io.Unregistered k fd := by
  constructor
  · intro hs p hfind
    obtain ⟨⟨r, io'⟩, hs⟩ := hs
    obtain ⟨o, ho, hs⟩ := bind_eq_ok.mp hs
    cases hfind.symm.trans ho
    obtain ⟨⟨r, io₁⟩, hlocked, heq⟩ := bind_eq_ok.mp hs
    dsimp only at heq
    rcases Removal.locked_cases hlocked with ⟨habsent, _, _⟩ | rfl
    · exact habsent
    · cases heq
  · exact fun hun => ⟨_, removeInt_of_unregistered hb h hun false⟩

theorem removeInt_table (h : io.TableOk) {r : Outcome} {valid : Bool}
    (hs : io.removeInt k fd valid = .ok (r, io')) : io'.TableOk := by
  obtain ⟨_ | p, _, hlocked⟩ := bind_eq_ok.mp hs
  · cases hlocked
    exact h
  · obtain ⟨⟨r₁, io₁⟩, hlocked, heq⟩ := bind_eq_ok.mp hlocked
    dsimp only at heq
    split at heq <;> cases heq
    exact (Removal.locked_sameTable hlocked).tableOk h

theorem growInt_spec (h : io.TableOk) (fd : Int) :
    io.growInt fd = .error .indexOutOfRange ∧ fd < 2 ∨
      ∃ p io', io.growInt fd = .ok (p, io') ∧ 2 ≤ fd ∧
        ResizedTo io (fd.toNat * 3 / 2) io' ∧ io'.contextAt fd.toNat = .ok p := by
  cases fd with
  | negSucc n => exact Or.inl ⟨rfl, by omega⟩
  | ofNat n =>
    change io.growContext n = _ ∧ (n : Int) < 2 ∨ ∃ p io', io.growContext n = _ ∧ (2 : Int) ≤ n ∧ _
    by_cases hn : 2 ≤ n
    · obtain ⟨p, hgrow, hp⟩ := growContext_contextResize h hn
      exact Or.inr ⟨p, _, hgrow, by omega, contextResize_resizedTo h _, hp⟩
    · have hnone : (io.contextResize (n * 3 / 2)).contextAt n = .error .indexOutOfRange := by
        unfold contextAt
        rw [List.getElem?_eq_none (by rw [(contextResize_resizedTo h _).length]; omega)]
      refine Or.inl ⟨?_, by omega⟩
      unfold growContext
      dsimp only
      rw [hnone]
      rfl

theorem placeInt_spec (h : io.TableOk) (fd : Int) :
    io.placeInt fd = .error .indexOutOfRange ∧ ¬ Growable io.m_fdContexts.length fd ∨
    Growable io.m_fdContexts.length fd ∧
      ∃ p io', io.placeInt fd = .ok (p, io') ∧ io'.TableOk := by
  have hle := toInt_le io.m_fdContexts.length
  unfold placeInt Growable
  by_cases hend : toInt io.m_fdContexts.length ≤ fd
  · have hfind : io.findInt fd = .ok none := if_pos hend
    rw [hfind]
    rcases growInt_spec h fd with ⟨hgrow, hlt⟩ | ⟨p, io', hgrow, hge, hr, hp⟩
    · exact Or.inl ⟨hgrow, by omega⟩
    · exact Or.inr ⟨by omega, p, io', hgrow, hr.tableOk h⟩
  · cases fd with
    | negSucc n =>
      have hfind : io.findInt (.negSucc n) = .error .indexOutOfRange := if_neg hend
      rw [hfind]
      exact Or.inl ⟨rfl, by omega⟩
    | ofNat n =>
      change ¬ _ ≤ (n : Int) at hend
      have hlt : n < io.m_fdContexts.length := by omega
      obtain ⟨p, hp, _⟩ := h.contextAt_of_lt hlt
      have hfind : io.findInt (n : Int) = .ok (some p) := by
        rw [findInt_natCast]
        exact findContext_some_iff.mpr ⟨by omega, hp⟩
      change (io.findInt n >>= _) = _ ∧ _ ∨ _ ∧ ∃ p io', (io.findInt n >>= _) = _ ∧ _
      rw [hfind]
      exact Or.inr ⟨⟨Int.natCast_nonneg n, Or.inl (by change (n : Int) < _; omega)⟩, p, io, rfl, h⟩

section AddEvent

variable {event : Event} {cb : Option Callback} {caller : Caller} {pollable : Bool} {r : Outcome}

/-- The event is registered for the number, in a context that the table has. -/
def Registered (io : IOManager) (fd : Int) (event : Event) : Prop :=
  ∃ p, io.placeInt fd = .ok (p, io) ∧ (io.contexts p).m_events.has event = true

/-- With a number that `epoll_ctl` does not take, `addEvent` throws in front of the call,
or the assertion after it fails, if not an earlier one. -/
theorem addEventInt_invalid_iff : io.addEventInt fd event cb caller false = .ok (r, io) ↔
    io.Registered fd event ∧ r = .logicError := by
  constructor
  · intro hs
    obtain ⟨⟨p, io₁⟩, hplace, hs⟩ := bind_eq_ok.mp hs
    obtain ⟨⟨o, io₂⟩, hlocked, heq⟩ := bind_eq_ok.mp hs
    dsimp only at heq
    rcases addEventLocked_ok_iff.mp hlocked with ⟨hset, rfl, rfl⟩ | ⟨_, _, _, _, rfl, _⟩
    · cases heq
      exact ⟨⟨p, hplace, hset⟩, rfl⟩
    · cases heq
  · intro h
    obtain ⟨⟨p, hplace, hset⟩, rfl⟩ := h
    have hlocked : io.addEventLocked (io.addOp p) p ⟨fd.toNat, event, cb, caller⟩ =
        .ok (.logicError, io) := addEventLocked_ok_iff.mpr (Or.inl ⟨hset, rfl, rfl⟩)
    exact bind_eq_ok.mpr ⟨_, hplace, bind_eq_ok.mpr ⟨_, hlocked, rfl⟩⟩

variable (h : io.TableOk)
include h

theorem addEventInt_bounds_iff :
    io.addEventInt fd event cb caller pollable ≠ .error .indexOutOfRange ↔
      Growable io.m_fdContexts.length fd := by
  rcases placeInt_spec h fd with ⟨hplace, hno⟩ | ⟨hyes, p, io', hplace, _⟩
  · refine iff_of_false (fun hne => hne ?_) hno
    unfold addEventInt
    rw [hplace]
    rfl
  · refine iff_of_true (fun heq => ?_) hyes
    unfold addEventInt at heq
    rw [hplace] at heq
    change (io'.addEventLocked _ p _ >>= _) = _ at heq
    rcases bind_eq_error.mp heq with hfault | ⟨⟨o, io₁⟩, _, heq⟩
    · rcases addEventLocked_fault hfault with hf | hf | hf <;> cases hf
    · dsimp only at heq
      split at heq <;> cases heq

theorem addEventInt_table (hs : io.addEventInt fd event cb caller pollable = .ok (r, io')) :
    io'.TableOk := by
  obtain ⟨⟨p, io₁⟩, hplace, hs⟩ := bind_eq_ok.mp hs
  obtain ⟨⟨o, io₂⟩, hlocked, hs⟩ := bind_eq_ok.mp hs
  rcases placeInt_spec h fd with ⟨herror, _⟩ | ⟨_, p', io', hplace', htable⟩
  · cases hplace.symm.trans herror
  · cases hplace.symm.trans hplace'
    have hsame := (addEventLocked_sameTable hlocked).tableOk htable
    dsimp only at hs
    split at hs <;> cases hs
    exact hsame

end AddEvent

end IOManager

namespace FdManager

variable {m m' : FdManager} {fd : Int} {n : Nat}

/-- What `get` accepts: the special case, or a number within bounds. -/
def Gettable (m : FdManager) (fd : Int) : Prop := fd = -1 ∨ InBounds m.m_datas.length fd

instance (m : FdManager) (fd : Int) : Decidable (m.Gettable fd) := by
  unfold Gettable
  infer_instance

theorem slot_or_fault (h : fd < IOManager.toInt m.m_datas.length) :
    m.slot fd = .error .indexOutOfRange ∧ fd < 0 ∨
      0 ≤ fd ∧ fd.toNat < m.m_datas.length ∧ m.slot fd = .ok (m.entry fd.toNat) := by
  have hle := toInt_le m.m_datas.length
  cases fd with
  | negSucc n => exact Or.inl ⟨rfl, by omega⟩
  | ofNat n =>
    change (n : Int) < _ at h
    have hlt : n < m.m_datas.length := by omega
    exact Or.inr ⟨Int.natCast_nonneg n, hlt, slot_of_lt hlt⟩

theorem get_cases (m : FdManager) (fd : Int) :
    m.get fd = .error .indexOutOfRange ∧ ¬ m.Gettable fd ∨
    m.Gettable fd ∧ ((fd = -1 ∨ IOManager.toInt m.m_datas.length ≤ fd) ∧ m.get fd = .ok none ∨
      0 ≤ fd ∧ fd < IOManager.toInt m.m_datas.length ∧ m.get fd = .ok (m.entry fd.toNat)) := by
  unfold get Gettable InBounds
  split
  case isTrue h => exact Or.inr ⟨Or.inl h, Or.inl ⟨Or.inl h, rfl⟩⟩
  case isFalse h =>
    split
    case isTrue hend => exact Or.inr ⟨Or.inr (Or.inr hend), Or.inl ⟨Or.inr hend, rfl⟩⟩
    case isFalse hlt =>
      rcases slot_or_fault (not_le.mp hlt) with ⟨hslot, hneg⟩ | ⟨hpos, _, hslot⟩
      · exact Or.inl ⟨hslot, by omega⟩
      · exact Or.inr ⟨Or.inr (Or.inl hpos), Or.inr ⟨hpos, not_le.mp hlt, hslot⟩⟩

theorem get_bounds_iff : m.get fd ≠ .error .indexOutOfRange ↔ m.Gettable fd := by
  rcases m.get_cases fd with ⟨hget, hno⟩ | ⟨hyes, hget⟩
  · exact iff_of_false (fun hne => hne hget) hno
  · refine iff_of_true (fun heq => ?_) hyes
    rcases hget with ⟨_, hget⟩ | ⟨_, _, hget⟩ <;> cases heq.symm.trans hget

/-- `get(fd)` finds no context. -/
def NoContext (m : FdManager) (fd : Int) : Prop := ∀ p, m.get fd ≠ .ok (some p)

theorem NoContext.get (h : m.NoContext fd) (hg : m.Gettable fd) : m.get fd = .ok none := by
  rcases m.get_cases fd with ⟨_, hno⟩ | ⟨_, ⟨_, hget⟩ | ⟨_, _, hget⟩⟩
  · exact absurd hg hno
  · exact hget
  · cases hentry : m.entry fd.toNat with
    | none => rw [hget, hentry]
    | some p => exact absurd (hget.trans (congrArg _ hentry)) (h p)

theorem del_bounds_iff : m.del fd ≠ .error .indexOutOfRange ↔ InBounds m.m_datas.length fd := by
  unfold del InBounds
  split
  case isTrue hend => exact iff_of_true nofun (Or.inr hend)
  case isFalse hlt =>
    rcases slot_or_fault (not_le.mp hlt) with ⟨hslot, hneg⟩ | ⟨hpos, _, hslot⟩
    · rw [hslot]
      exact iff_of_false (fun hne => hne rfl) (by omega)
    · rw [hslot]
      exact iff_of_true nofun (Or.inl hpos)

theorem del_same_iff (hb : InBounds m.m_datas.length fd) :
    m.del fd = .ok m ↔ m.NoContext fd := by
  unfold FdManager.del NoContext
  split
  case isTrue hend =>
    refine iff_of_true rfl fun p hp => ?_
    rcases m.get_cases fd with ⟨hget, _⟩ | ⟨_, ⟨_, hget⟩ | ⟨_, hlt, _⟩⟩
    · cases hget.symm.trans hp
    · cases hget.symm.trans hp
    · exact absurd hend (not_le.mpr hlt)
  case isFalse hlt =>
    rcases slot_or_fault (not_le.mp hlt) with ⟨_, hneg⟩ | ⟨hpos, hsize, hslot⟩
    · exact absurd hb (by unfold InBounds; omega)
    · have hget : m.get fd = .ok (m.entry fd.toNat) := by
        unfold FdManager.get
        rw [if_neg (by omega), if_neg hlt, hslot]
      have hentry : m.entry fd.toNat = m.m_datas[fd.toNat] := by
        unfold entry
        rw [List.getElem?_eq_getElem hsize]
        rfl
      rw [hslot, hget, hentry]
      change Except.ok { m with m_datas := m.m_datas.set fd.toNat none } = .ok m ↔ _
      rw [Except.ok.injEq]
      constructor
      · intro hsame p hp
        have hset : (m.m_datas.set fd.toNat none)[fd.toNat]? = m.m_datas[fd.toNat]? :=
          congrArg (fun m' : FdManager => m'.m_datas[fd.toNat]?) hsame
        rw [List.getElem?_set_self hsize, List.getElem?_eq_getElem hsize, Except.ok.inj hp] at hset
        cases hset
      · intro hnone
        have hempty : m.m_datas[fd.toNat] = none :=
          Option.eq_none_iff_forall_ne_some.mpr fun p hp => hnone p (congrArg _ hp)
        rw [← hempty, List.set_getElem_self]

end FdManager

/-- The calls that take a descriptor: those of the hooks, with the underlying
function of `do_io` and its timeout option, and those of the two tables. -/
inductive DescriptorCall (κ : Type) where
  | do_io (fd : Int) (f : κ → Returned Int × κ) (timeout_so : TimeoutType)
  | close (fd : Int)
  | setfl (fd : Int) (arg : BitVec 32)
  | getfl (fd : Int)
  | fionbio (fd : Int) (value : BitVec 32)
  | setsockopt (fd : Int) (type : TimeoutType) (v : Timeval)
  | get (fd : Int)
  /-- `get(fd, true)`, for what `socket` and `accept` return -/
  | create (fd : Int)
  | del (fd : Int)
  | remove (k : Removal) (fd : Int)
  /-- with a file that `epoll_ctl` takes, if it is `pollable` -/
  | addEvent (fd : Int) (event : Event) (cb : Option Callback) (caller : Caller) (pollable : Bool)

inductive Reply where
  | io (r : IoStep Int)
  | unit (r : Returned Unit)
  | flags (r : Returned (BitVec 32))
  | ctx (o : Option FdCtxPtr)
  | outcome (o : Outcome)
  | void

/-- `nullptr`, `false`, an error, an exception, or nothing at all. -/
def Reply.Refuses : Reply → Prop
  | ctx none | io (.returns (.error _)) | outcome (.bool false) | outcome .logicError | void => True
  | _ => False

namespace Process

variable {κ : Type} (calls : Syscalls κ) (s : Process κ)

/-- A call of the thread's IOManager, if it has one. -/
def onIom (f : IOManager → Except Fault (Outcome × IOManager)) :
    Except Fault (Reply × Process κ) :=
  match s.iom with
  | none => .ok (.void, s)
  | some io => (f io).map fun r => (.outcome r.1, { s with iom := some r.2 })

/-- `close`, where the `epoll_ctl` of its `cancelAll` takes the number only if it is `valid`. -/
def closeInt (fd : Int) (valid : Bool) : Except Fault (Returned Unit × Process κ) :=
  if s.t_hook_enable then
    s.fdMgr.get fd >>= fun
    | none => .ok (s.sys (calls.close_f fd))
    | some _ =>
      s.onIom (fun io => io.removeInt .cancelAll fd valid) >>= fun (_, s) =>
      s.fdMgr.del fd >>= fun fdMgr => .ok (({ s with fdMgr } : Process κ).sys (calls.close_f fd))
  else .ok (s.sys (calls.close_f fd))

/-- The number is `valid` if it is an open descriptor. -/
def descriptorCall (valid : Bool) : DescriptorCall κ → Except Fault (Reply × Process κ)
  | .do_io fd f so => (s.do_io fd f so).map fun r => (.io r.1, r.2)
  | .close fd => (s.closeInt calls fd valid).map fun r => (.unit r.1, r.2)
  | .setfl fd arg => (s.fcntlSETFL calls fd arg).map fun r => (.unit r.1, r.2)
  | .getfl fd => (s.fcntlGETFL calls fd).map fun r => (.flags r.1, r.2)
  | .fionbio fd value => (s.ioctlFIONBIO calls fd value).map fun r => (.unit r.1, r.2)
  | .setsockopt fd type v =>
    (s.setsockopt calls fd (.timeout type v)).map fun r => (.unit r.1, r.2)
  | .get fd => (s.fdMgr.get fd).map fun o => (.ctx o, s)
  | .create fd => (s.getCreate calls fd).map fun r => (.ctx r.1, r.2)
  | .del fd => (s.fdMgr.del fd).map fun fdMgr => (.void, { s with fdMgr })
  | .remove k fd => s.onIom fun io => io.removeInt k fd valid
  | .addEvent fd event cb caller pollable =>
    s.onIom fun io => io.addEventInt fd event cb caller (pollable && valid)

/-- The underlying function of the call has been called on the number; `get` has looked,
and its callers go on to theirs. -/
def Reached (kernel : κ) : DescriptorCall κ → Prop
  | .do_io _ f _ => kernel = (f s.kernel).2
  | .close fd => kernel = (calls.close_f fd s.kernel).2
  | .setfl fd _ => ∃ arg, kernel = (calls.setfl_f fd arg s.kernel).2
  | .getfl fd => kernel = (calls.getfl_f fd s.kernel).2
  | .fionbio fd value => kernel = (calls.fionbio_f fd value s.kernel).2
  | .setsockopt fd type v => kernel = (calls.setsockopt_f fd (.timeout type v) s.kernel).2
  | .get _ => True
  | _ => False

/-- The number is no descriptor; one that `socket` and `accept` return then is negative. -/
def Invalid (valid : Bool) : DescriptorCall κ → Prop
  | .create fd => fd < 0
  | _ => valid = false

/-- The call comes back from the underlying function, or refuses the number, and leaves
both tables as they were. -/
def Harmless (valid : Bool) (c : DescriptorCall κ) : Prop :=
  ∃ r t, s.descriptorCall calls valid c = .ok (r, t) ∧ t.fdMgr = s.fdMgr ∧ t.iom = s.iom ∧
    (s.Reached calls t.kernel c ∨ t = s ∧ r.Refuses)

/-- No table is indexed out of its bounds, and an invalid number does no harm. -/
structure SafeCall (valid : Bool) (c : DescriptorCall κ) : Prop where
  bounds : s.descriptorCall calls valid c ≠ .error .indexOutOfRange
  invalid : Invalid valid c → s.Harmless calls valid c

/-- What the thread would write into the context is there already. -/
def KeepsNonblock (fd : Int) (v : Bool) : Prop :=
  ∀ p, s.tracked fd = .ok (some p) → (s.fdMgr.ctxs p).m_userNonblock = v

def KeepsTimeout (fd : Int) (type : TimeoutType) (v : BitVec 64) : Prop :=
  ∀ p, s.fdMgr.get fd = .ok (some p) → (s.fdMgr.ctxs p).getTimeout type = v

/-- The numbers that the functions take without leaving a table. -/
def Bounded : DescriptorCall κ → Prop
  | .do_io fd _ _ | .close fd | .setsockopt fd _ _ => s.t_hook_enable = true → s.fdMgr.Gettable fd
  | .setfl fd _ | .getfl fd | .fionbio fd _ | .get fd => s.fdMgr.Gettable fd
  | .create fd => fd = -1 ∨ Growable s.fdMgr.m_datas.length fd
  | .del fd => InBounds s.fdMgr.m_datas.length fd
  | .remove _ fd => ∀ io, s.iom = some io → InBounds io.m_fdContexts.length fd
  | .addEvent fd _ _ _ _ => ∀ io, s.iom = some io → Growable io.m_fdContexts.length fd

/-- Nothing is left in the tables that the function would change or act on. -/
def Clean : DescriptorCall κ → Prop
  | .do_io _ _ _ | .getfl _ | .get _ | .create _ => True
  | .close fd => s.t_hook_enable = true → s.fdMgr.NoContext fd
  | .setfl fd arg => s.KeepsNonblock fd (arg &&& O_NONBLOCK ≠ 0#32)
  | .fionbio fd value => s.KeepsNonblock fd (value ≠ 0#32)
  | .setsockopt fd type v =>
    s.t_hook_enable = true → s.KeepsTimeout fd type (v.tv_sec * 1000 + v.tv_usec.sdiv 1000)
  | .del fd => s.fdMgr.NoContext fd
  | .remove k fd => ∀ io, s.iom = some io → io.Unregistered k fd
  | .addEvent fd event _ _ _ => ∀ io, s.iom = some io → io.Registered fd event

/-- The numbers that the call takes. -/
def Takes (valid : Bool) (c : DescriptorCall κ) : Prop :=
  s.Bounded c ∧ (valid = false → s.Clean c)

variable {calls} {s} {s' : Process κ} {fd : Int}

theorem tracked_bounds_iff : s.tracked fd ≠ .error .indexOutOfRange ↔ s.fdMgr.Gettable fd := by
  rw [← FdManager.get_bounds_iff]
  exact bind_ne_error_iff fun _ _ => nofun

section Hooked

variable {α : Type} {k : Option FdCtxPtr → Except Fault α} {x : Except Fault α}

theorem hooked_bounds_iff
    (hk : ∀ o, s.fdMgr.get fd = .ok o → k o ≠ .error .indexOutOfRange)
    (hx : x ≠ .error .indexOutOfRange) :
    (if s.t_hook_enable then s.fdMgr.get fd >>= k else x) ≠ .error .indexOutOfRange ↔
      (s.t_hook_enable = true → s.fdMgr.Gettable fd) := by
  split
  case isTrue hon =>
    rw [forall_prop_of_true hon, ← FdManager.get_bounds_iff]
    exact bind_ne_error_iff hk
  case isFalse hoff => exact iff_of_true hx fun hon => absurd hon hoff

end Hooked

theorem do_io_bounds_iff (f : κ → Returned Int × κ) (so : TimeoutType) :
    s.do_io fd f so ≠ .error .indexOutOfRange ↔
      (s.t_hook_enable = true → s.fdMgr.Gettable fd) := by
  have hentry : s.ioEntry fd so ≠ .error .indexOutOfRange ↔
      (s.t_hook_enable = true → s.fdMgr.Gettable fd) := by
    refine hooked_bounds_iff (fun o _ => ?_) nofun
    cases o with
    | none => exact nofun
    | some p =>
      dsimp only
      split
      · exact nofun
      · split <;> exact nofun
  rw [← hentry]
  refine bind_ne_error_iff fun e _ => ?_
  split <;> exact nofun

theorem onIom_bounds_iff (g : IOManager → Except Fault (Outcome × IOManager)) :
    s.onIom g ≠ .error .indexOutOfRange ↔
      ∀ io, s.iom = some io → g io ≠ .error .indexOutOfRange := by
  unfold onIom
  cases s.iom with
  | none => exact iff_of_true nofun nofun
  | some io =>
    simp only [Option.some.injEq, forall_eq']
    exact map_ne_error_iff

theorem onIom_fdMgr {g : IOManager → Except Fault (Outcome × IOManager)} {r : Reply}
    (h : s.onIom g = .ok (r, s')) : s'.fdMgr = s.fdMgr := by
  unfold onIom at h
  split at h
  · cases h
    rfl
  · obtain ⟨_, _, heq⟩ := map_eq_ok.mp h
    cases heq
    rfl

theorem pos_of_get_some {p : FdCtxPtr} (h : s.fdMgr.get fd = .ok (some p)) : 0 ≤ fd := by
  rcases s.fdMgr.get_cases fd with ⟨hget, _⟩ | ⟨_, ⟨_, hget⟩ | ⟨hpos, _⟩⟩
  · cases h.symm.trans hget
  · cases h.symm.trans hget
  · exact hpos

/-- With a valid number it is the `close` of the hooks. -/
theorem closeInt_true : s.closeInt calls fd true = s.close calls fd := by
  have hcancel : 0 ≤ fd → (s.onIom fun io => io.removeInt .cancelAll fd true).map Prod.snd =
      s.cancelAll fd := by
    intro hpos
    obtain ⟨n, rfl⟩ := Int.eq_ofNat_of_zero_le hpos
    unfold onIom cancelAll
    cases s.iom with
    | none => rfl
    | some io =>
      dsimp only
      rw [IOManager.removeInt_natCast]
      change _ = io.cancelAll n >>= _
      change Except.map _ (Except.map _ (io.cancelAll n)) = _
      cases io.cancelAll n <;> rfl
  unfold closeInt close
  split
  · cases hget : s.fdMgr.get fd with
    | error f => rfl
    | ok o =>
      cases o with
      | none => rfl
      | some p =>
        rw [← hcancel (pos_of_get_some hget)]
        change (s.onIom _ >>= _) = ((s.onIom _).map Prod.snd >>= _)
        cases s.onIom fun io => io.removeInt .cancelAll fd true <;> rfl
  · rfl

theorem closeInt_bounds_iff {valid : Bool} : s.closeInt calls fd valid ≠ .error .indexOutOfRange ↔
    (s.t_hook_enable = true → s.fdMgr.Gettable fd) := by
  refine hooked_bounds_iff (fun o ho => ?_) nofun
  cases o with
  | none => exact nofun
  | some p =>
    have hpos := pos_of_get_some ho
    intro heq
    rcases bind_eq_error.mp heq with hcancel | ⟨⟨r, t⟩, ht, heq⟩
    · refine (onIom_bounds_iff _).mpr (fun io _ => ?_) hcancel
      exact IOManager.removeInt_bounds_iff.mpr (Or.inl hpos)
    · rcases bind_eq_error.mp heq with hdel | ⟨_, _, hok⟩
      · rw [onIom_fdMgr ht] at hdel
        exact FdManager.del_bounds_iff.mpr (Or.inl hpos) hdel
      · cases hok

theorem setsockopt_bounds_iff (type : TimeoutType) (v : Timeval) :
    s.setsockopt calls fd (.timeout type v) ≠ .error .indexOutOfRange ↔
      (s.t_hook_enable = true → s.fdMgr.Gettable fd) := by
  refine hooked_bounds_iff (fun o _ => ?_) nofun
  cases o <;> exact nofun

theorem fcntlSETFL_bounds_iff (arg : BitVec 32) :
    s.fcntlSETFL calls fd arg ≠ .error .indexOutOfRange ↔ s.fdMgr.Gettable fd := by
  rw [← tracked_bounds_iff]
  refine bind_ne_error_iff fun o _ => ?_
  cases o <;> exact nofun

theorem fcntlGETFL_bounds_iff :
    s.fcntlGETFL calls fd ≠ .error .indexOutOfRange ↔ s.fdMgr.Gettable fd := by
  have htracked : (s.sys (calls.getfl_f fd)).2.tracked fd ≠ .error .indexOutOfRange ↔
      s.fdMgr.Gettable fd := tracked_bounds_iff
  rw [← htracked]
  refine bind_ne_error_iff fun o _ => ?_
  cases o with
  | none => exact nofun
  | some p =>
    dsimp only
    split <;> exact nofun

theorem ioctlFIONBIO_bounds_iff (value : BitVec 32) :
    s.ioctlFIONBIO calls fd value ≠ .error .indexOutOfRange ↔ s.fdMgr.Gettable fd := by
  rw [← tracked_bounds_iff]
  refine bind_ne_error_iff fun o _ => ?_
  cases o <;> exact nofun

/-- The end of `get(fd, true)` for a number without a context. -/
theorem store_bounds_iff (m : FdManager) (ctx : FdCtx) :
    m.store fd ctx ≠ .error .indexOutOfRange ↔ Growable m.m_datas.length fd := by
  have hle := toInt_le m.m_datas.length
  have hroom : 0 ≤ fd → (fd.toNat < (m.grown fd).length ↔
      fd < IOManager.toInt m.m_datas.length ∨ 2 ≤ fd) := by
    intro hpos
    unfold FdManager.grown
    split
    · rw [IOManager.resized_length]
      omega
    · omega
  unfold FdManager.store Growable
  split
  case isTrue h => exact iff_of_true nofun ⟨h.1, (hroom h.1).mp h.2⟩
  case isFalse h =>
    exact iff_of_false (fun hne => hne rfl) fun hgrow => h ⟨hgrow.1, (hroom hgrow.1).mpr hgrow.2⟩

theorem getCreate_bounds_of_none (hne : fd ≠ -1) (hget : s.fdMgr.get fd = .ok none) :
    s.getCreate calls fd ≠ .error .indexOutOfRange ↔ Growable s.fdMgr.m_datas.length fd := by
  obtain ⟨ctx, kernel, hinit, _⟩ := init_of_get_none calls (.new fd) hget
  have hcreate : s.getCreate calls fd = s.fdMgr.store fd ctx >>= fun r =>
      .ok (some r.1, { s with kernel := kernel, fdMgr := r.2 }) := by
    unfold getCreate
    rw [if_neg hne, hget]
    change (s.init calls (.new fd) >>= _) = _
    rw [hinit]
    rfl
  rw [hcreate, ← store_bounds_iff s.fdMgr ctx]
  exact bind_ne_error_iff fun _ _ => nofun

theorem getCreate_bounds_iff : s.getCreate calls fd ≠ .error .indexOutOfRange ↔
    fd = -1 ∨ Growable s.fdMgr.m_datas.length fd := by
  by_cases hne : fd = -1
  · unfold getCreate
    rw [if_pos hne]
    exact iff_of_true nofun (Or.inl hne)
  rw [or_iff_right hne]
  rcases s.fdMgr.get_cases fd with ⟨hget, hno⟩ | ⟨_, ⟨_, hget⟩ | ⟨hpos, hlt, hget⟩⟩
  · refine iff_of_false (fun hcreate => hcreate ?_) fun hgrow => hno (Or.inr (Or.inl hgrow.1))
    unfold getCreate
    rw [if_neg hne, hget]
    rfl
  · exact getCreate_bounds_of_none hne hget
  · cases hp : s.fdMgr.entry fd.toNat with
    | none =>
      rw [hp] at hget
      exact getCreate_bounds_of_none hne hget
    | some p =>
      refine iff_of_true (fun heq => ?_) ⟨hpos, Or.inl hlt⟩
      unfold getCreate at heq
      rw [if_neg hne, hget, hp] at heq
      cases heq

variable (calls) in
theorem bounds_iff (htable : ∀ io, s.iom = some io → io.TableOk) (valid : Bool)
    (c : DescriptorCall κ) :
    s.descriptorCall calls valid c ≠ .error .indexOutOfRange ↔ s.Bounded c := by
  cases c with
  | do_io fd f so => exact map_ne_error_iff.trans (do_io_bounds_iff f so)
  | close fd => exact map_ne_error_iff.trans closeInt_bounds_iff
  | setfl fd arg => exact map_ne_error_iff.trans (fcntlSETFL_bounds_iff arg)
  | getfl fd => exact map_ne_error_iff.trans fcntlGETFL_bounds_iff
  | fionbio fd value => exact map_ne_error_iff.trans (ioctlFIONBIO_bounds_iff value)
  | setsockopt fd type v => exact map_ne_error_iff.trans (setsockopt_bounds_iff type v)
  | get fd => exact map_ne_error_iff.trans FdManager.get_bounds_iff
  | create fd => exact map_ne_error_iff.trans getCreate_bounds_iff
  | del fd => exact map_ne_error_iff.trans FdManager.del_bounds_iff
  | remove k fd =>
    exact (onIom_bounds_iff _).trans
      (forall₂_congr fun io _ => IOManager.removeInt_bounds_iff)
  | addEvent fd event cb caller pollable =>
    exact (onIom_bounds_iff _).trans
      (forall₂_congr fun io hio => IOManager.addEventInt_bounds_iff (htable io hio))

section Harm

theorem get_ok (hg : s.fdMgr.Gettable fd) : ∃ o, s.fdMgr.get fd = .ok o := by
  rcases s.fdMgr.get_cases fd with ⟨_, hno⟩ | ⟨_, ⟨_, hget⟩ | ⟨_, _, hget⟩⟩
  · exact absurd hg hno
  · exact ⟨none, hget⟩
  · exact ⟨_, hget⟩

theorem tracked_ok (hg : s.fdMgr.Gettable fd) : ∃ o, s.tracked fd = .ok o := by
  obtain ⟨o, hget⟩ := get_ok hg
  exact ⟨_, bind_eq_ok.mpr ⟨o, hget, rfl⟩⟩

theorem setCtx_fdMgr_iff {p : FdCtxPtr} {ctx : FdCtx} :
    (s.setCtx p ctx).fdMgr = s.fdMgr ↔ ctx = s.fdMgr.ctxs p := by
  constructor
  · intro h
    have hctxs : Function.update s.fdMgr.ctxs p ctx = s.fdMgr.ctxs := congrArg FdManager.ctxs h
    rw [← hctxs, Function.update_self]
  · rintro rfl
    unfold setCtx FdManager.setCtx
    rw [Function.update_eq_self]

theorem setNonblock_eq_iff {ctx : FdCtx} {v : Bool} :
    { ctx with m_userNonblock := v } = ctx ↔ ctx.m_userNonblock = v := by
  obtain ⟨_, _, _, b, _, _, _, _⟩ := ctx
  simp [eq_comm]

theorem setTimeout_eq_iff {ctx : FdCtx} {type : TimeoutType} {v : BitVec 64} :
    ctx.setTimeout type v = ctx ↔ ctx.getTimeout type = v := by
  obtain ⟨_, _, _, _, _, _, t, t'⟩ := ctx
  cases type <;> simp [FdCtx.setTimeout, FdCtx.getTimeout, eq_comm]

theorem keepsNonblock_iff {p : FdCtxPtr} {v : Bool} (h : s.tracked fd = .ok (some p)) :
    s.KeepsNonblock fd v ↔ (s.fdMgr.ctxs p).m_userNonblock = v := by
  refine ⟨fun hkeeps => hkeeps p h, fun hv q hq => ?_⟩
  cases h.symm.trans hq
  exact hv

theorem keepsTimeout_iff {p : FdCtxPtr} {type : TimeoutType} {v : BitVec 64}
    (h : s.fdMgr.get fd = .ok (some p)) :
    s.KeepsTimeout fd type v ↔ (s.fdMgr.ctxs p).getTimeout type = v := by
  refine ⟨fun hkeeps => hkeeps p h, fun hv q hq => ?_⟩
  cases h.symm.trans hq
  exact hv

/-- A call that has reached the underlying function does harm in `m_datas` only. -/
theorem harmless_iff_of_ok {valid : Bool} {c : DescriptorCall κ} {r : Reply}
    (hcall : s.descriptorCall calls valid c = .ok (r, s')) (hiom : s'.iom = s.iom)
    (hreached : s.Reached calls s'.kernel c) :
    s.Harmless calls valid c ↔ s'.fdMgr = s.fdMgr := by
  constructor
  · intro h
    obtain ⟨r', t, ht, hsame, _⟩ := h
    cases hcall.symm.trans ht
    exact hsame
  · exact fun hsame => ⟨r, s', hcall, hsame, hiom, Or.inl hreached⟩

theorem harmless_setfl_iff (hg : s.fdMgr.Gettable fd) (arg : BitVec 32) :
    s.Harmless calls false (.setfl fd arg) ↔ s.Clean (.setfl fd arg) := by
  obtain ⟨o, htracked⟩ := tracked_ok hg
  cases o with
  | none =>
    have hcall : s.descriptorCall calls false (.setfl fd arg) =
        .ok (.unit (s.sys (calls.setfl_f fd arg)).1, (s.sys (calls.setfl_f fd arg)).2) :=
      map_eq_ok.mpr ⟨s.sys _, bind_eq_ok.mpr ⟨none, htracked, rfl⟩, rfl⟩
    refine iff_of_true ((harmless_iff_of_ok hcall rfl ⟨arg, rfl⟩).mpr rfl) fun p hp => ?_
    cases htracked.symm.trans hp
  | some p =>
    let u := s.setCtx p { s.fdMgr.ctxs p with m_userNonblock := arg &&& O_NONBLOCK ≠ 0#32 }
    obtain ⟨a, hcall⟩ : ∃ a, s.descriptorCall calls false (.setfl fd arg) =
        .ok (.unit (u.sys (calls.setfl_f fd a)).1, (u.sys (calls.setfl_f fd a)).2) :=
      ⟨_, map_eq_ok.mpr ⟨u.sys _, bind_eq_ok.mpr ⟨some p, htracked, rfl⟩, rfl⟩⟩
    refine (harmless_iff_of_ok hcall rfl ⟨a, rfl⟩).trans ?_
    exact setCtx_fdMgr_iff.trans (setNonblock_eq_iff.trans (keepsNonblock_iff htracked).symm)

theorem harmless_fionbio_iff (hg : s.fdMgr.Gettable fd) (value : BitVec 32) :
    s.Harmless calls false (.fionbio fd value) ↔ s.Clean (.fionbio fd value) := by
  obtain ⟨o, htracked⟩ := tracked_ok hg
  cases o with
  | none =>
    have hcall : s.descriptorCall calls false (.fionbio fd value) =
        .ok (.unit (s.sys (calls.fionbio_f fd value)).1, (s.sys (calls.fionbio_f fd value)).2) :=
      map_eq_ok.mpr ⟨s.sys _, bind_eq_ok.mpr ⟨none, htracked, rfl⟩, rfl⟩
    refine iff_of_true ((harmless_iff_of_ok hcall rfl rfl).mpr rfl) fun p hp => ?_
    cases htracked.symm.trans hp
  | some p =>
    let u := s.setCtx p { s.fdMgr.ctxs p with m_userNonblock := value ≠ 0#32 }
    have hcall : s.descriptorCall calls false (.fionbio fd value) =
        .ok (.unit (u.sys (calls.fionbio_f fd value)).1, (u.sys (calls.fionbio_f fd value)).2) :=
      map_eq_ok.mpr ⟨u.sys _, bind_eq_ok.mpr ⟨some p, htracked, rfl⟩, rfl⟩
    refine (harmless_iff_of_ok hcall rfl rfl).trans ?_
    exact setCtx_fdMgr_iff.trans (setNonblock_eq_iff.trans (keepsNonblock_iff htracked).symm)

/-- The call of a hook that goes on with `get(fd)`. -/
theorem hooked_eq {α : Type} {k : Option FdCtxPtr → Except Fault α} {x : Except Fault α}
    {o : Option FdCtxPtr} (hon : s.t_hook_enable = true) (hget : s.fdMgr.get fd = .ok o) :
    (if s.t_hook_enable then s.fdMgr.get fd >>= k else x) = k o := by
  rw [if_pos hon, hget]
  rfl

theorem harmless_setsockopt_iff (hg : s.t_hook_enable = true → s.fdMgr.Gettable fd)
    (type : TimeoutType) (v : Timeval) :
    s.Harmless calls false (.setsockopt fd type v) ↔ s.Clean (.setsockopt fd type v) := by
  let f := calls.setsockopt_f fd (.timeout type v)
  have hplain : s.setsockopt calls fd (.timeout type v) = .ok (s.sys f) →
      s.Harmless calls false (.setsockopt fd type v) := by
    intro hcall
    have hcall : s.descriptorCall calls false (.setsockopt fd type v) =
        .ok (.unit (s.sys f).1, (s.sys f).2) := congrArg (Except.map _) hcall
    exact (harmless_iff_of_ok hcall rfl rfl).mpr rfl
  by_cases hon : s.t_hook_enable = true
  · obtain ⟨o, hget⟩ := get_ok (hg hon)
    cases o with
    | none =>
      refine iff_of_true (hplain (hooked_eq hon hget)) fun _ p hp => ?_
      cases hget.symm.trans hp
    | some p =>
      let ms := v.tv_sec * 1000 + v.tv_usec.sdiv 1000
      let u := s.setCtx p ((s.fdMgr.ctxs p).setTimeout type ms)
      have hcall : s.descriptorCall calls false (.setsockopt fd type v) =
          .ok (.unit (u.sys f).1, (u.sys f).2) :=
        congrArg (Except.map _) (hooked_eq hon hget)
      refine (harmless_iff_of_ok hcall rfl rfl).trans ?_
      have hkeeps : s.Clean (.setsockopt fd type v) ↔ s.KeepsTimeout fd type ms :=
        forall_prop_of_true hon
      rw [hkeeps, keepsTimeout_iff hget, ← setTimeout_eq_iff]
      exact setCtx_fdMgr_iff
  · exact iff_of_true (hplain (if_neg hon)) fun h => absurd h hon

theorem harmless_do_io (hg : s.t_hook_enable = true → s.fdMgr.Gettable fd)
    (f : κ → Returned Int × κ) (so : TimeoutType) : s.Harmless calls false (.do_io fd f so) := by
  have hentry : ∃ e, s.ioEntry fd so = .ok e := by
    by_cases hon : s.t_hook_enable = true
    · obtain ⟨o, hget⟩ := get_ok (hg hon)
      unfold ioEntry
      rw [hooked_eq hon hget]
      cases o with
      | none => exact ⟨_, rfl⟩
      | some p =>
        dsimp only
        split
        · exact ⟨_, rfl⟩
        · split <;> exact ⟨_, rfl⟩
    · exact ⟨_, if_neg hon⟩
  obtain ⟨e, he⟩ := hentry
  by_cases hclosed : e = .closed
  · have hcall : s.do_io fd f so = .ok (.returns (.error .EBADF), s) :=
      bind_eq_ok.mpr ⟨e, he, if_pos hclosed⟩
    exact ⟨_, s, congrArg (Except.map _) hcall, rfl, rfl, Or.inr ⟨rfl, trivial⟩⟩
  · have hcall : s.do_io fd f so = .ok (e.after (s.sys f).1, (s.sys f).2) :=
      bind_eq_ok.mpr ⟨e, he, if_neg hclosed⟩
    exact ⟨_, _, congrArg (Except.map _) hcall, rfl, rfl, Or.inl rfl⟩

theorem harmless_getfl (hg : s.fdMgr.Gettable fd) : s.Harmless calls false (.getfl fd) := by
  let u := (s.sys (calls.getfl_f fd)).2
  have hcall : ∃ r, s.fcntlGETFL calls fd = .ok (r, u) := by
    obtain ⟨o, htracked⟩ := tracked_ok (s := u) hg
    cases o with
    | none => exact ⟨_, bind_eq_ok.mpr ⟨none, htracked, rfl⟩⟩
    | some p =>
      by_cases hb : (u.fdMgr.ctxs p).m_userNonblock = true
      · exact ⟨_, bind_eq_ok.mpr ⟨some p, htracked, if_pos hb⟩⟩
      · exact ⟨_, bind_eq_ok.mpr ⟨some p, htracked, if_neg hb⟩⟩
  obtain ⟨r, hcall⟩ := hcall
  exact ⟨_, u, congrArg (Except.map _) hcall, rfl, rfl, Or.inl rfl⟩

/-- `close` deletes the context of a stale number, if the assertion in `cancelAll` holds. -/
theorem harmless_close_iff (hg : s.t_hook_enable = true → s.fdMgr.Gettable fd) :
    s.Harmless calls false (.close fd) ↔ s.Clean (.close fd) := by
  have hplain : s.closeInt calls fd false = .ok (s.sys (calls.close_f fd)) →
      s.Harmless calls false (.close fd) :=
    fun hcall => ⟨_, _, congrArg (Except.map _) hcall, rfl, rfl, Or.inl rfl⟩
  by_cases hon : s.t_hook_enable = true
  · obtain ⟨o, hget⟩ := get_ok (hg hon)
    cases o with
    | none =>
      refine iff_of_true (hplain (hooked_eq hon hget)) fun _ p hp => ?_
      cases hget.symm.trans hp
    | some p =>
      refine iff_of_false (fun hharm => ?_) fun hclean => hclean hon p hget
      obtain ⟨r, t, hcall, hsame, _⟩ := hharm
      obtain ⟨⟨r', t'⟩, hclose, heq⟩ := map_eq_ok.mp hcall
      cases heq
      have hclose := (hooked_eq hon hget).symm.trans hclose
      obtain ⟨⟨_, u⟩, hcancel, hclose⟩ := bind_eq_ok.mp hclose
      obtain ⟨fdMgr, hdel, heq⟩ := bind_eq_ok.mp hclose
      cases heq
      rw [onIom_fdMgr hcancel] at hdel
      have hdel : s.fdMgr.del fd = .ok s.fdMgr := hdel.trans (congrArg _ hsame)
      exact (FdManager.del_same_iff (Or.inl (pos_of_get_some hget))).mp hdel p hget
  · exact iff_of_true (hplain (if_neg hon)) fun h => absurd h hon

theorem harmless_del_iff (hb : InBounds s.fdMgr.m_datas.length fd) :
    s.Harmless calls false (.del fd) ↔ s.Clean (.del fd) := by
  refine Iff.trans ?_ (FdManager.del_same_iff hb)
  constructor
  · intro h
    obtain ⟨r, t, hcall, hsame, _⟩ := h
    obtain ⟨fdMgr, hdel, heq⟩ := map_eq_ok.mp hcall
    cases heq
    exact hdel.trans (congrArg _ hsame)
  · intro hdel
    exact ⟨.void, s, congrArg (Except.map _) hdel, rfl, rfl, Or.inr ⟨rfl, trivial⟩⟩

/-- A call of the IOManager that leaves it as it was. -/
theorem harmless_onIom_iff {c : DescriptorCall κ} {io : IOManager} (hio : s.iom = some io)
    {g : IOManager → Except Fault (Outcome × IOManager)}
    (hcall : s.descriptorCall calls false c = s.onIom g) (hreached : ∀ k, ¬ s.Reached calls k c) :
    s.Harmless calls false c ↔ ∃ o, g io = .ok (o, io) ∧ (Reply.outcome o).Refuses := by
  unfold Harmless
  rw [hcall]
  unfold onIom
  rw [hio]
  constructor
  · intro h
    obtain ⟨r, t, hmap, _, hsame, hreply⟩ := h
    obtain ⟨⟨o, io'⟩, hg, heq⟩ := map_eq_ok.mp hmap
    cases heq
    cases hsame
    exact ⟨o, hg, (hreply.resolve_left (hreached _)).2⟩
  · intro h
    obtain ⟨o, hg, hrefuses⟩ := h
    have hsame : { s with iom := some io } = s := by rw [← hio]
    exact ⟨_, s, map_eq_ok.mpr ⟨_, hg, congrArg (Prod.mk _) hsame⟩, rfl, hio,
      Or.inr ⟨rfl, hrefuses⟩⟩

theorem harmless_of_no_iom {c : DescriptorCall κ} (hio : s.iom = none)
    {g : IOManager → Except Fault (Outcome × IOManager)}
    (hcall : s.descriptorCall calls false c = s.onIom g) : s.Harmless calls false c := by
  refine ⟨.void, s, hcall.trans ?_, rfl, rfl, Or.inr ⟨rfl, trivial⟩⟩
  unfold onIom
  rw [hio]

theorem harmless_remove_iff (htable : ∀ io, s.iom = some io → io.TableOk) {k : Removal}
    (hb : s.Bounded (.remove k fd)) :
    s.Harmless calls false (.remove k fd) ↔ s.Clean (.remove k fd) := by
  cases hio : s.iom with
  | none =>
    refine iff_of_true (harmless_of_no_iom hio rfl) fun io h => ?_
    cases hio.symm.trans h
  | some io =>
    have hclean : s.Clean (.remove k fd) ↔ io.Unregistered k fd := by
      change (∀ io, s.iom = some io → _) ↔ _
      rw [hio]
      simp only [Option.some.injEq, forall_eq']
    rw [hclean]
    refine (harmless_onIom_iff (c := .remove k fd) hio rfl fun _ h => h).trans ?_
    constructor
    · intro h
      obtain ⟨o, hremove, _⟩ := h
      exact (IOManager.removeInt_invalid_iff (hb io hio) (htable io hio)).mp ⟨_, hremove⟩
    · intro hun
      exact ⟨_, IOManager.removeInt_of_unregistered (hb io hio) (htable io hio) hun false, trivial⟩

theorem harmless_addEvent_iff {event : Event} {cb : Option Callback} {caller : Caller}
    {pollable : Bool} : s.Harmless calls false (.addEvent fd event cb caller pollable) ↔
      s.Clean (.addEvent fd event cb caller pollable) := by
  cases hio : s.iom with
  | none =>
    refine iff_of_true (harmless_of_no_iom hio rfl) fun io h => ?_
    cases hio.symm.trans h
  | some io =>
    have hclean : s.Clean (.addEvent fd event cb caller pollable) ↔ io.Registered fd event := by
      change (∀ io, s.iom = some io → _) ↔ _
      rw [hio]
      simp only [Option.some.injEq, forall_eq']
    rw [hclean]
    refine (harmless_onIom_iff (c := .addEvent fd event cb caller pollable) hio rfl
      fun _ h => h).trans ?_
    rw [Bool.and_false]
    simp only [IOManager.addEventInt_invalid_iff]
    constructor
    · intro h
      obtain ⟨o, ⟨hregistered, _⟩, _⟩ := h
      exact hregistered
    · exact fun hregistered => ⟨.logicError, ⟨hregistered, rfl⟩, trivial⟩

/-- Within the bounds, an invalid number does no harm if nothing is left behind for it. -/
theorem harmless_iff (htable : ∀ io, s.iom = some io → io.TableOk) {c : DescriptorCall κ}
    (hc : ∀ fd, c ≠ .create fd) (hb : s.Bounded c) : s.Harmless calls false c ↔ s.Clean c := by
  cases c with
  | do_io fd f so => exact iff_of_true (harmless_do_io hb f so) trivial
  | close fd => exact harmless_close_iff hb
  | setfl fd arg => exact harmless_setfl_iff hb arg
  | getfl fd => exact iff_of_true (harmless_getfl hb) trivial
  | fionbio fd value => exact harmless_fionbio_iff hb value
  | setsockopt fd type v => exact harmless_setsockopt_iff hb type v
  | get fd =>
    obtain ⟨o, hget⟩ := get_ok hb
    exact iff_of_true ⟨_, s, congrArg (Except.map _) hget, rfl, rfl, Or.inl trivial⟩ trivial
  | create fd => exact absurd rfl (hc fd)
  | del fd => exact harmless_del_iff hb
  | remove k fd => exact harmless_remove_iff htable hb
  | addEvent => exact harmless_addEvent_iff

end Harm

theorem safeCall_iff_of_table (htable : ∀ io, s.iom = some io → io.TableOk) (valid : Bool)
    (c : DescriptorCall κ) : s.SafeCall calls valid c ↔ s.Takes valid c := by
  have hbounds := bounds_iff calls htable valid c
  have hother : (∀ fd, c ≠ .create fd) → (Invalid valid c ↔ valid = false) →
      (s.SafeCall calls valid c ↔ s.Takes valid c) := by
    intro hc hinvalid
    constructor
    · intro h
      have hb := hbounds.mp h.bounds
      refine ⟨hb, fun hv => ?_⟩
      have hharm := h.invalid (hinvalid.mpr hv)
      rw [hv] at hharm
      exact (harmless_iff htable hc hb).mp hharm
    · intro h
      refine ⟨hbounds.mpr h.1, fun hi => ?_⟩
      obtain rfl := hinvalid.mp hi
      exact (harmless_iff htable hc h.1).mpr (h.2 rfl)
  cases c with
  | create fd =>
    refine ⟨fun h => ⟨hbounds.mp h.bounds, fun _ => trivial⟩, fun h => ?_⟩
    refine ⟨hbounds.mpr h.1, fun hi => ?_⟩
    have hneg : fd < 0 := hi
    have heq : fd = -1 := h.1.resolve_right fun hgrow => absurd hgrow.1 (by omega)
    have hcall : s.getCreate calls fd = .ok (none, s) := if_pos heq
    exact ⟨_, s, congrArg (Except.map _) hcall, rfl, rfl, Or.inr ⟨rfl, trivial⟩⟩
  | _ => exact hother nofun Iff.rfl

/-- Every entry of the table of contexts is a context made for its index. -/
def Tabled (s : Process κ) : Prop := ∀ io, s.iom = some io → io.TableOk

theorem Tabled.of_iom (h : s.Tabled) (hiom : s'.iom = s.iom) : s'.Tabled := by
  intro io hio
  rw [hiom] at hio
  exact h io hio

theorem Tabled.update (h : s.Tabled) {f : IOManager → Except Fault (Outcome × IOManager)}
    (hf : ∀ io r io', io.TableOk → f io = .ok (r, io') → io'.TableOk) {io : IOManager}
    (hio : s.iom = some io) {r : Outcome} {io' : IOManager} (hs : f io = .ok (r, io')) :
    Tabled { s with iom := some io' } := by
  intro io₁ heq
  cases heq
  exact hf io r io' (h io hio) hs

theorem Tabled.onIom (h : s.Tabled) {f : IOManager → Except Fault (Outcome × IOManager)}
    (hf : ∀ io r io', io.TableOk → f io = .ok (r, io') → io'.TableOk) {r : Reply}
    (hs : s.onIom f = .ok (r, s')) : s'.Tabled := by
  unfold Process.onIom at hs
  split at hs
  · cases hs
    exact h
  case h_2 io hio =>
    obtain ⟨⟨o, io'⟩, hcall, heq⟩ := map_eq_ok.mp hs
    cases heq
    exact h.update hf hio hcall

theorem do_io_iom {f : κ → Returned Int × κ} {so : TimeoutType} {r : IoStep Int}
    (hs : s.do_io fd f so = .ok (r, s')) : s'.iom = s.iom := by
  obtain ⟨e, _, hs⟩ := bind_eq_ok.mp hs
  split at hs <;> cases hs <;> rfl

theorem fcntlSETFL_iom {arg : BitVec 32} {r : Returned Unit}
    (hs : s.fcntlSETFL calls fd arg = .ok (r, s')) : s'.iom = s.iom := by
  obtain ⟨_ | p, _, hs⟩ := bind_eq_ok.mp hs <;> cases hs <;> rfl

theorem fcntlGETFL_iom {r : Returned (BitVec 32)}
    (hs : s.fcntlGETFL calls fd = .ok (r, s')) : s'.iom = s.iom := by
  obtain ⟨_ | p, _, hs⟩ := bind_eq_ok.mp hs
  · cases hs
    rfl
  · dsimp only at hs
    split at hs <;> cases hs <;> rfl

theorem ioctlFIONBIO_iom {value : BitVec 32} {r : Returned Unit}
    (hs : s.ioctlFIONBIO calls fd value = .ok (r, s')) : s'.iom = s.iom := by
  obtain ⟨_ | p, _, hs⟩ := bind_eq_ok.mp hs <;> cases hs <;> rfl

theorem setsockopt_iom {type : TimeoutType} {v : Timeval} {r : Returned Unit}
    (hs : s.setsockopt calls fd (.timeout type v) = .ok (r, s')) : s'.iom = s.iom := by
  unfold setsockopt at hs
  dsimp only at hs
  split at hs
  · obtain ⟨_ | p, _, hs⟩ := bind_eq_ok.mp hs <;> cases hs <;> rfl
  · cases hs
    rfl

theorem getCreate_iom {o : Option FdCtxPtr} (hs : s.getCreate calls fd = .ok (o, s')) :
    s'.iom = s.iom := by
  unfold getCreate at hs
  split at hs
  · cases hs
    rfl
  · obtain ⟨_ | p, hget, hs⟩ := bind_eq_ok.mp hs
    · obtain ⟨⟨ctx, t⟩, hinit, hs⟩ := bind_eq_ok.mp hs
      obtain ⟨_, _, hs⟩ := bind_eq_ok.mp hs
      obtain ⟨_, _, hinit', _⟩ := init_of_get_none calls (.new fd) hget
      cases hinit.symm.trans hinit'
      cases hs
      rfl
    · cases hs
      rfl

theorem Tabled.close (h : s.Tabled) {valid : Bool} {r : Returned Unit}
    (hs : s.closeInt calls fd valid = .ok (r, s')) : s'.Tabled := by
  unfold closeInt at hs
  split at hs
  · obtain ⟨_ | p, _, hs⟩ := bind_eq_ok.mp hs
    · cases hs
      exact h
    · obtain ⟨⟨_, t⟩, hcancel, hs⟩ := bind_eq_ok.mp hs
      obtain ⟨fdMgr, _, heq⟩ := bind_eq_ok.mp hs
      cases heq
      have ht := h.onIom (fun io r io' ht => IOManager.removeInt_table ht) hcancel
      exact ht.of_iom rfl
  · cases hs
    exact h

theorem Tabled.of_map {α : Type} {x : Except Fault (α × Process κ)} {g : α → Reply} {r : Reply}
    (hx : ∀ a t, x = .ok (a, t) → t.Tabled) (hs : x.map (fun y => (g y.1, y.2)) = .ok (r, s')) :
    s'.Tabled := by
  obtain ⟨⟨a, t⟩, hcall, heq⟩ := map_eq_ok.mp hs
  cases heq
  exact hx a t hcall

theorem Tabled.call (h : s.Tabled) {valid : Bool} {c : DescriptorCall κ} {r : Reply}
    (hs : s.descriptorCall calls valid c = .ok (r, s')) : s'.Tabled := by
  cases c with
  | remove k fd => exact h.onIom (fun io r io' ht => IOManager.removeInt_table ht) hs
  | addEvent => exact h.onIom (fun io r io' ht => IOManager.addEventInt_table ht) hs
  | get fd | del fd =>
    obtain ⟨_, _, heq⟩ := map_eq_ok.mp hs
    cases heq
    exact h
  | close fd => exact .of_map (fun a t hcall => h.close hcall) hs
  | do_io fd f so => exact .of_map (fun a t hcall => h.of_iom (do_io_iom hcall)) hs
  | setfl fd arg => exact .of_map (fun a t hcall => h.of_iom (fcntlSETFL_iom hcall)) hs
  | getfl fd => exact .of_map (fun a t hcall => h.of_iom (fcntlGETFL_iom hcall)) hs
  | fionbio fd value => exact .of_map (fun a t hcall => h.of_iom (ioctlFIONBIO_iom hcall)) hs
  | setsockopt fd type v => exact .of_map (fun a t hcall => h.of_iom (setsockopt_iom hcall)) hs
  | create fd => exact .of_map (fun a t hcall => h.of_iom (getCreate_iom hcall)) hs

end Process

theorem IOManager.dispatchEvent_table {io io' : IOManager} {p : ContextPtr} {e : Event}
    (h : io.TableOk) (hs : io.dispatchEvent p e = .ok io') : io'.TableOk := by
  obtain ⟨io₁, r, io₂, htrigger, hdel, rfl⟩ := dispatchEvent_ok_iff.mp hs
  have h₁ : io₁.TableOk := (triggerEvent_sameView htrigger).sameTable.tableOk h
  have hremove : io₁.removeInt (.delEvent e) (io₁.contexts p).m_fd true = .ok (r, io₂) :=
    (io₁.removeInt_natCast (.delEvent e) _).trans hdel
  have hsame : SameTable io₂ { io₂ with m_pendingEventCount := io₂.m_pendingEventCount - 1 } :=
    ⟨rfl, rfl, fun _ => rfl⟩
  exact hsame.tableOk (removeInt_table h₁ hremove)

theorem IOManager.idleEvent_table {io io' : IOManager} {p : ContextPtr} {events : BitVec 32}
    {r : Outcome} (h : io.TableOk) (hs : io.idleEvent p events = .ok (r, io')) : io'.TableOk := by
  have hstep : ∀ {io io' : IOManager} {b : Bool} {e : Event}, io.TableOk →
      (if b then io.dispatchEvent p e else .ok io) = .ok io' → io'.TableOk := by
    intro io io' b e h hs
    split at hs
    · exact dispatchEvent_table h hs
    · cases hs
      exact h
  obtain ⟨-, ⟨-, rfl⟩ | ⟨-, io₁, hread, hwrite⟩⟩ := idleEvent_ok_iff.mp hs
  · exact h
  · exact hstep (hstep h hread) hwrite

/-- What becomes of the tables: a call, one report in `idle`, or anything else the
thread and the kernel do, which leaves them alone. -/
inductive TableAct (κ : Type) where
  | call (valid : Bool) (c : DescriptorCall κ)
  | idle (p : ContextPtr) (events : BitVec 32)
  | other (kernel : κ) (enabled : Bool)

namespace Process

variable {κ : Type} (calls : Syscalls κ) {s s' : Process κ}

def tableAct (s : Process κ) : TableAct κ → Except Fault (Process κ)
  | .call valid c => s.descriptorCall calls valid c >>= fun r => .ok r.2
  | .idle p events => s.onIom (fun io => io.idleEvent p events) >>= fun r => .ok r.2
  | .other kernel enabled => .ok { s with kernel := kernel, t_hook_enable := enabled }

def descriptorSystem : System (Process κ) (TableAct κ) where
  init s := s.fdMgr = .initial ∧ ∀ io, s.iom = some io → io = .initial
  step s a s' := s.tableAct calls a = .ok s'

variable {calls}

theorem Tabled.keeps {a : TableAct κ} (h : s.Tabled) (hs : (descriptorSystem calls).step s a s') :
    s'.Tabled := by
  cases a with
  | call valid c =>
    obtain ⟨⟨r, t⟩, hcall, heq⟩ := bind_eq_ok.mp hs
    cases heq
    exact h.call hcall
  | idle p events =>
    obtain ⟨⟨r, t⟩, hidle, heq⟩ := bind_eq_ok.mp hs
    cases heq
    exact h.onIom (fun io r io' ht => IOManager.idleEvent_table ht) hidle
  | other kernel enabled =>
    cases hs
    exact h.of_iom rfl

theorem reachable_tabled (h : Reachable (descriptorSystem calls) s) : s.Tabled := by
  refine h.invariant Tabled Tabled.keeps fun s hinit io hio => ?_
  rw [hinit.2 io hio]
  exact IOManager.initial_tableOk

/-- In every reachable state, whatever the underlying functions do. -/
theorem safeCall_iff (h : Reachable (descriptorSystem calls) s) (valid : Bool)
    (c : DescriptorCall κ) : s.SafeCall calls valid c ↔ s.Takes valid c :=
  safeCall_iff_of_table (reachable_tabled h) valid c

/-- Hooks enabled, every descriptor a socket, and two new tables. -/
def withNewTables : Process Files := ⟨fun _ => some ⟨true, O_RDWR⟩, .initial, some .initial, true⟩

/-- The tables come to know 5 and 6, and then these are closed past the hooks. -/
def goingStale : List (TableAct Files) :=
  [.call true (.create 5), .call true (.create 6),
    .call true (.addEvent 5 .READ (some 0) ⟨none, 0, true⟩ true), .other (fun _ => none) true]

def staleNext (s : Process Files) (a : TableAct Files) : Option (Process Files) :=
  (s.tableAct (Files.linux 0) a).toOption

theorem staleNext_sound {s t : Process Files} {a : TableAct Files} (h : s.staleNext a = some t) :
    (descriptorSystem (Files.linux 0)).step s a t := toOption_eq_some.mp h

theorem withNewTables_init : (descriptorSystem (Files.linux 0)).init withNewTables := by
  refine ⟨rfl, fun io hio => ?_⟩
  cases hio
  rfl

/-- The stale 6 is no number for `close`, but 7, which no table knows, is. -/
theorem safeCall_iff_stale : ∃ tr s, Run (descriptorSystem (Files.linux 0)) withNewTables tr s ∧
    tr.map Move.act = goingStale ∧
    (s.SafeCall (Files.linux 0) false (.close 6) ↔ s.Takes false (.close 6)) ∧
    ¬ s.Takes false (.close 6) ∧ s.Takes false (.close 7) := by
  have hrun : (traceAll staleNext withNewTables goingStale).map (fun r =>
      (r.2.t_hook_enable, (r.2.fdMgr.get 6).toOption, (r.2.fdMgr.get 7).toOption)) =
      some (true, some (some 1), some none) := by decide +kernel
  obtain ⟨tr, s, hr, hacts, hobs⟩ := Run.exists_of_traceAll _ staleNext_sound _ hrun
  obtain ⟨hon, hgets⟩ := Prod.mk.inj hobs
  obtain ⟨hsix, hseven⟩ := Prod.mk.inj hgets
  refine ⟨tr, s, hr, hacts, safeCall_iff ⟨_, tr, withNewTables_init, hr⟩ false (.close 6), ?_, ?_⟩
  · exact fun htakes => htakes.2 rfl hon 1 (toOption_eq_some.mp hsix)
  · refine ⟨fun _ => Or.inr (Or.inl (by decide)), fun _ _ p hp => ?_⟩
    cases (toOption_eq_some.mp hseven).symm.trans hp

/-- How calls end that are made with a number that is not open. -/
def endings (s : Process Files) : List (Option Fault) :=
  [.close (-2), .remove (.delEvent .READ) (-1),
    .addEvent (-1) .READ (some 0) ⟨none, 0, true⟩ true,
    .addEvent 7 .READ (some 0) ⟨none, 0, true⟩ true,
    .addEvent 5 .WRITE (some 0) ⟨none, 0, true⟩ true].map fun c =>
      errorOf (s.descriptorCall (Files.linux 0) false c)

/-- `close(-2)` indexes the table of FdManager, `delEvent(-1)` and `addEvent(-1)` the one of
IOManager. `addEvent` of a number that is no descriptor ends in the assertion, whether a
table knows it or not, and `close` of one that FdManager knows deletes its context. -/
theorem close_minus_two_out_of_range :
    ∃ tr s, Run (descriptorSystem (Files.linux 0)) withNewTables tr s ∧
    tr.map Move.act = goingStale ∧
    s.endings = [some .indexOutOfRange, some .indexOutOfRange, some .indexOutOfRange,
      some .epollCtl, some .epollCtl] ∧
    s.fdMgr.entry 6 = some 1 ∧ (s.descriptorCall (Files.linux 0) false (.close 6)).toOption.map
      (fun r => r.2.fdMgr.entry 6) = some none ∧
    ¬ s.SafeCall (Files.linux 0) false (.close (-2)) := by
  have hrun : (traceAll staleNext withNewTables goingStale).map (fun r => (r.2.endings,
      r.2.fdMgr.entry 6, (r.2.descriptorCall (Files.linux 0) false (.close 6)).toOption.map
        (fun x => x.2.fdMgr.entry 6), errorOf (r.2.descriptorCall (Files.linux 0) false
          (.close (-2))))) = some ([some .indexOutOfRange, some .indexOutOfRange,
      some .indexOutOfRange, some .epollCtl, some .epollCtl], some 1, some none,
      some .indexOutOfRange) := by decide +kernel
  obtain ⟨tr, s, hr, hacts, hobs⟩ := Run.exists_of_traceAll _ staleNext_sound _ hrun
  obtain ⟨hendings, hobs⟩ := Prod.mk.inj hobs
  obtain ⟨hsix, hobs⟩ := Prod.mk.inj hobs
  obtain ⟨hclosed, herror⟩ := Prod.mk.inj hobs
  exact ⟨tr, s, hr, hacts, hendings, hsix, hclosed, fun hsafe =>
    hsafe.bounds (errorOf_eq_some.mp herror)⟩

end Process

end FiberAsync
