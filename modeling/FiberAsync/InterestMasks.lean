import FiberAsync.EventAccounting

/-!
# Interest masks and contexts

`addEvent` registers `m_events | EPOLLET`, but the functions that take events
out of a context register the rest of the mask alone. So the interest list
mirrors the contexts until one of two registered events is taken and the other
is left.
-/

namespace FiberAsync

set_option autoImplicit false

open Runs Results

namespace EventMask

/-- The entry that mirrors a mask: none for `NONE`, else edge-triggered. -/
def interest (m : EventMask) (p : ContextPtr) : Option EpollEvent :=
  if m ≠ .NONE then some ⟨m.bits ||| EPOLLET, p⟩ else none

/-- The entry that the functions removing events write for what is left. -/
def remainder (m : EventMask) (p : ContextPtr) : Option EpollEvent :=
  if m ≠ .NONE then some ⟨m.bits, p⟩ else none

theorem bits_ne_edgeTriggered (m : EventMask) : m.bits ≠ m.bits ||| EPOLLET := by
  intro h
  have hbit := congrArg (fun b : BitVec 32 => b.getLsbD 31) h
  have hknown := m.known_getLsbD (i := 31) (by decide) (by decide) (by decide)
  have hedge : EPOLLET.getLsbD 31 = true := by decide
  simp only [BitVec.getLsbD_or, hknown, hedge, Bool.or_true] at hbit
  cases hbit

theorem remainder_eq_interest_iff (m : EventMask) (p : ContextPtr) :
    m.remainder p = m.interest p ↔ m = .NONE := by
  unfold remainder interest
  split
  · rename_i hm
    simp [hm, m.bits_ne_edgeTriggered]
  · rename_i hm
    simp [not_not.mp hm]

theorem interest_eq_none_iff {m : EventMask} {p : ContextPtr} :
    m.interest p = none ↔ m = .NONE := by
  simp [interest]

end EventMask

/-- The events an operation takes out of the context of its descriptor, if they
are registered there. -/
def Op.takes (ctx : FdContext) : Op → Event → Bool
  | .addEvent _, _ => false
  | .delEvent _ event, e | .cancelEvent _ event, e => decide (event = e)
  | .cancelAll _, _ => true
  | .idleEvent _ events, e => (IOManager.realEvents ctx events).has e

namespace IOManager

variable {io io' io₁ io₂ : IOManager} {p : ContextPtr} {fd : Nat} {e : Event} {r : Outcome}

/-- The entry of a descriptor is the mask of its context, edge-triggered, with a
pointer to that context; without a context or with an empty mask there is none. -/
def MirrorsAt (io : IOManager) (fd : Nat) : Prop :=
  io.epoll fd = io.m_fdContexts[fd]?.join.bind fun p => (io.contexts p).m_events.interest p

def Mirrors (io : IOManager) : Prop := ∀ fd, io.MirrorsAt fd

instance (io : IOManager) (fd : Nat) : Decidable (io.MirrorsAt fd) :=
  inferInstanceAs (Decidable (_ = _))

/-- The operation takes one of two registered events and leaves the other. -/
def LeavesOne (io : IOManager) (op : Op) : Prop :=
  ∃ p, io.findContext op.fd = .ok (some p) ∧
    (∃ e, (io.contexts p).m_events.has e = true ∧ op.takes (io.contexts p) e = true) ∧
    ∃ e, (io.contexts p).m_events.has e = true ∧ op.takes (io.contexts p) e = false

/-- The operation is an `addEvent` whose resize cuts off a context with events. -/
def CutsRegistered (io : IOManager) (op : Op) : Prop :=
  ∃ c, op = .addEvent c ∧ io.findContext c.fd = .ok none ∧
    ∃ fd p, c.fd * 3 / 2 ≤ fd ∧ io.contextAt fd = .ok p ∧ (io.contexts p).m_events ≠ .NONE

theorem mirrorsAt_iff (hp : io.contextAt fd = .ok p) :
    io.MirrorsAt fd ↔ io.epoll fd = (io.contexts p).m_events.interest p := by
  simp [MirrorsAt, contextAt_ok_iff.mp hp]

theorem SameView.mirrorsAt_iff (h : SameView io io') : io'.MirrorsAt fd ↔ io.MirrorsAt fd := by
  simp only [MirrorsAt, h.epoll, h.table, h.events]

theorem SameView.mirrors_iff (h : SameView io io') : io'.Mirrors ↔ io.Mirrors :=
  forall_congr' fun _ => h.mirrorsAt_iff

/-- Nothing but the mask of the context `p` and the entry of `fd` differs. -/
structure Touches (io : IOManager) (fd : Nat) (p : ContextPtr) (io' : IOManager) : Prop where
  table : io'.m_fdContexts = io.m_fdContexts
  events : ∀ q ≠ p, (io'.contexts q).m_events = (io.contexts q).m_events
  epoll : ∀ fd' ≠ fd, io'.epoll fd' = io.epoll fd'

namespace Touches

theorem refl (io : IOManager) (fd : Nat) (p : ContextPtr) : Touches io fd p io :=
  ⟨rfl, fun _ _ => rfl, fun _ _ => rfl⟩

theorem trans (h : Touches io fd p io₁) (h' : Touches io₁ fd p io₂) : Touches io fd p io₂ :=
  ⟨h'.table.trans h.table, fun q hq => (h'.events q hq).trans (h.events q hq),
    fun fd' hfd => (h'.epoll fd' hfd).trans (h.epoll fd' hfd)⟩

theorem of_sameView (h : SameView io io') : Touches io fd p io' :=
  ⟨h.table, fun q _ => h.events q, fun fd' _ => by rw [h.epoll]⟩

theorem contextAt (h : Touches io fd p io') (hp : io.contextAt fd = .ok p) :
    io'.contextAt fd = .ok p := by
  rw [contextAt_ok_iff, h.table]
  exact contextAt_ok_iff.mp hp

theorem findContext (h : Touches io fd p io') (hp : io.findContext fd = .ok (some p)) :
    io'.findContext fd = .ok (some p) := by
  obtain ⟨hlt, hat⟩ := findContext_some_iff.mp hp
  exact findContext_some_iff.mpr ⟨by rw [h.table]; exact hlt, h.contextAt hat⟩

theorem mirrors_iff (h : Touches io fd p io') (ht : io.TableOk) (hp : io.contextAt fd = .ok p) :
    io'.Mirrors ↔ io'.epoll fd = (io'.contexts p).m_events.interest p ∧
      ∀ fd' ≠ fd, io.MirrorsAt fd' := by
  have hother : ∀ fd' ≠ fd, (io'.MirrorsAt fd' ↔ io.MirrorsAt fd') := by
    intro fd' hne
    unfold MirrorsAt
    rw [h.epoll fd' hne, h.table]
    cases hq : io.m_fdContexts[fd']?.join with
    | none => rfl
    | some q =>
      have hat := contextAt_ok_iff.mpr (Option.join_eq_some_iff.mp hq)
      have hqp : q ≠ p := by
        rintro rfl
        exact hne ((ht.of_contextAt hat).2.symm.trans (ht.of_contextAt hp).2)
      simp only [Option.bind_some, h.events q hqp]
  constructor
  · intro hall
    exact ⟨(mirrorsAt_iff (h.contextAt hp)).mp (hall fd), fun fd' hne =>
      (hother fd' hne).mp (hall fd')⟩
  · rintro ⟨hself, hrest⟩ fd'
    by_cases hne : fd' = fd
    · subst fd'
      exact (mirrorsAt_iff (h.contextAt hp)).mpr hself
    · exact (hother fd' hne).mpr (hrest fd' hne)

end Touches

/-- The registered events among `taken` have been removed from the context, and
if there was one, the entry is what is left of the mask. -/
structure Takes (io : IOManager) (fd : Nat) (p : ContextPtr) (taken : Event → Bool)
    (io' : IOManager) : Prop where
  touches : Touches io fd p io'
  left : ∀ e, (io'.contexts p).m_events.has e = ((io.contexts p).m_events.has e && !taken e)
  entry : ∀ e, (io.contexts p).m_events.has e = true → taken e = true →
    io'.epoll fd = (io'.contexts p).m_events.remainder p
  idle : (∀ e, (io.contexts p).m_events.has e = true → taken e = false) →
    io'.epoll fd = io.epoll fd

namespace Takes

variable {taken taken' : Event → Bool}

theorem mask_of_idle (h : Takes io fd p taken io')
    (hnone : ∀ e, (io.contexts p).m_events.has e = true → taken e = false) :
    (io'.contexts p).m_events = (io.contexts p).m_events := by
  apply EventMask.ext_has
  intro e
  rw [h.left]
  cases hm : (io.contexts p).m_events.has e with
  | false => rfl
  | true => simp [hnone e hm]

theorem of_sameView (h : SameView io io')
    (hnone : ∀ e, (io.contexts p).m_events.has e = true → taken e = false) :
    Takes io fd p taken io' := by
  refine ⟨.of_sameView h, ?_, ?_, fun _ => by rw [h.epoll]⟩
  · intro e
    rw [h.events]
    cases hm : (io.contexts p).m_events.has e with
    | false => rfl
    | true => simp [hnone e hm]
  · intro e hm ht
    rw [hnone e hm] at ht
    cases ht

theorem sameView_trans (hs : SameView io io₁) (h : Takes io₁ fd p taken io') :
    Takes io fd p taken io' := by
  have hev := hs.events p
  refine ⟨(Touches.of_sameView hs).trans h.touches, ?_, ?_, ?_⟩
  · rw [← hev]
    exact h.left
  · rw [← hev]
    exact h.entry
  · rw [← hev, ← hs.epoll]
    exact h.idle

theorem trans_sameView (h : Takes io fd p taken io₁) (hs : SameView io₁ io') :
    Takes io fd p taken io' := by
  refine ⟨h.touches.trans (.of_sameView hs), ?_, ?_, ?_⟩
  · rw [hs.events]
    exact h.left
  · rw [hs.events, hs.epoll]
    exact h.entry
  · rw [hs.epoll]
    exact h.idle

theorem trans (h : Takes io fd p taken io₁) (h' : Takes io₁ fd p taken' io₂) :
    Takes io fd p (fun e => taken e || taken' e) io₂ := by
  have hleft : ∀ e, (io₂.contexts p).m_events.has e =
      ((io.contexts p).m_events.has e && !(taken e || taken' e)) := by
    intro e
    rw [h'.left, h.left, Bool.not_or, Bool.and_assoc]
  refine ⟨h.touches.trans h'.touches, hleft, ?_, ?_⟩
  · intro e hm ht
    by_cases hnone : ∀ e, (io₁.contexts p).m_events.has e = true → taken' e = false
    · -- a second step that takes nothing leaves the mask and the entry alone
      rw [h'.mask_of_idle hnone, h'.idle hnone]
      cases hte : taken e with
      | true => exact h.entry e hm hte
      | false =>
        have hm₁ : (io₁.contexts p).m_events.has e = true := by simp [h.left, hm, hte]
        simp [hte, hnone e hm₁] at ht
    · push Not at hnone
      obtain ⟨x, hx, htx⟩ := hnone
      exact h'.entry x hx (by simpa using htx)
  · intro hnone
    have hfirst : ∀ e, (io.contexts p).m_events.has e = true → taken e = false :=
      fun e hm => ((Bool.or_eq_false_iff).mp (hnone e hm)).1
    have hsecond : ∀ e, (io₁.contexts p).m_events.has e = true → taken' e = false := by
      intro e hm
      rw [h.left, Bool.and_eq_true] at hm
      exact ((Bool.or_eq_false_iff).mp (hnone e hm.1)).2
    rw [h'.idle hsecond, h.idle hfirst]

theorem congr (h : Takes io fd p taken io')
    (heq : ∀ e, (io.contexts p).m_events.has e = true → taken' e = taken e) :
    Takes io fd p taken' io' := by
  refine ⟨h.touches, ?_, ?_, ?_⟩
  · intro e
    rw [h.left]
    cases hm : (io.contexts p).m_events.has e with
    | false => rfl
    | true => rw [heq e hm]
  · intro e hm ht
    exact h.entry e hm ((heq e hm).symm.trans ht)
  · intro hnone
    exact h.idle fun e hm => (heq e hm).symm.trans (hnone e hm)

/-- The entry mirrors what is left exactly when nothing was taken or nothing is left. -/
theorem mirrors_iff (h : Takes io fd p taken io') (ht : io.TableOk)
    (hp : io.contextAt fd = .ok p) (hm : io.Mirrors) :
    io'.Mirrors ↔ ¬ ((∃ e, (io.contexts p).m_events.has e = true ∧ taken e = true) ∧
      ∃ e, (io.contexts p).m_events.has e = true ∧ taken e = false) := by
  have hleft : (io'.contexts p).m_events = .NONE ↔
      ¬ ∃ e, (io.contexts p).m_events.has e = true ∧ taken e = false := by
    rw [EventMask.eq_NONE_iff]
    simp [h.left]
  rw [h.touches.mirrors_iff ht hp, and_iff_left fun fd' _ => hm fd', not_and, ← hleft]
  constructor
  · rintro hentry ⟨e, hme, hte⟩
    rw [h.entry e hme hte] at hentry
    exact (EventMask.remainder_eq_interest_iff _ _).mp hentry
  · intro hnone
    by_cases hex : ∃ e, (io.contexts p).m_events.has e = true ∧ taken e = true
    · obtain ⟨e, hme, hte⟩ := hex
      rw [h.entry e hme hte, EventMask.remainder_eq_interest_iff]
      exact hnone ⟨e, hme, hte⟩
    · have hidle : ∀ e, (io.contexts p).m_events.has e = true → taken e = false := by
        intro e hme
        by_contra hte
        exact hex ⟨e, hme, by simpa using hte⟩
      rw [h.idle hidle, h.mask_of_idle hidle]
      exact (mirrorsAt_iff hp).mp (hm fd)

theorem dropped (hm : (io.contexts p).m_events.has e = true) :
    Takes io fd p (fun x => decide (e = x)) (io.dropped p fd e) := by
  have hmask : ((io.dropped p fd e).contexts p).m_events = (io.contexts p).m_events.erase e := by
    simp [IOManager.dropped, setContext]
  refine ⟨⟨rfl, ?_, ?_⟩, ?_, ?_, ?_⟩
  · intro q hq
    simp [IOManager.dropped, setContext, hq]
  · intro fd' hne
    simp [IOManager.dropped, setContext, hne]
  · intro x
    rw [hmask, EventMask.has_erase]
    simp
  · intro x _ _
    rw [hmask]
    simp [IOManager.dropped, setContext, EventMask.remainder]
  · intro hnone
    have hself := hnone e hm
    simp at hself

theorem cleared (hm : (io.contexts p).m_events ≠ .NONE) :
    Takes io fd p (fun _ => true) (io.cleared p fd) := by
  have hmask : ((io.cleared p fd).contexts p).m_events = .NONE := by
    simp [IOManager.cleared, setContext]
  refine ⟨⟨rfl, ?_, ?_⟩, ?_, ?_, ?_⟩
  · intro q hq
    simp [IOManager.cleared, setContext, hq]
  · intro fd' hne
    simp [IOManager.cleared, setContext, hne]
  · intro x
    rw [hmask]
    simp
  · intro x _ _
    rw [hmask]
    simp [IOManager.cleared, EventMask.remainder]
  · intro hnone
    obtain ⟨x, hx⟩ := (EventMask.ne_NONE_iff _).mp hm
    cases hnone x hx

theorem none_registered (hm : (io.contexts p).m_events.has e = false) :
    Takes io fd p (fun x => decide (e = x)) io := by
  refine of_sameView (.refl _) ?_
  intro x hx
  rw [decide_eq_false_iff_not]
  rintro rfl
  rw [hm] at hx
  cases hx

theorem delEventLocked (h : io.delEventLocked p fd e = .ok (r, io')) :
    Takes io fd p (fun x => decide (e = x)) io' := by
  rcases delEventLocked_ok_iff.mp h with ⟨hm, _, rfl⟩ | ⟨hm, _, _, rfl⟩
  · exact none_registered hm
  · exact (dropped hm).trans_sameView (resetContext_sameView _ p e)

theorem cancelEventLocked (h : io.cancelEventLocked p fd e = .ok (r, io')) :
    Takes io fd p (fun x => decide (e = x)) io' := by
  rcases cancelEventLocked_ok_iff.mp h with ⟨hm, _, rfl⟩ | ⟨io₁, ht, _, _, rfl⟩
  · exact none_registered hm
  · have hs := triggerEvent_sameView ht
    have hm := (triggerEvent_ok_iff.mp ht).1
    exact sameView_trans hs (dropped (by rw [hs.events]; exact hm))

theorem cancelAllLocked (h : io.cancelAllLocked p fd = .ok (r, io')) :
    Takes io fd p (fun _ => true) io' := by
  rcases cancelAllLocked_ok_iff.mp h with ⟨hm, _, rfl⟩ | ⟨hm, io₁, io₂, h₁, h₂, _, _, rfl⟩
  · refine of_sameView (.refl _) ?_
    intro x hx
    rw [(EventMask.eq_NONE_iff _).mp hm x] at hx
    cases hx
  · have hs := (triggerCounted_sameView h₁).trans (triggerCounted_sameView h₂)
    exact sameView_trans hs (cleared (by rw [hs.events]; exact hm))

/-- One event of a report, when the table still has the context of the descriptor. -/
theorem dispatchEvent (ht : io.TableOk) (hp : io.findContext fd = .ok (some p)) {b : Bool}
    (h : (if b then io.dispatchEvent p e else .ok io) = .ok io') :
    Takes io fd p (fun x => b && decide (e = x)) io' := by
  cases b with
  | false =>
    cases h
    exact of_sameView (.refl _) (fun _ _ => rfl)
  | true =>
    obtain ⟨io₁, r, io₂, htr, hdel, rfl⟩ := dispatchEvent_ok_iff.mp h
    have hs := triggerEvent_sameView htr
    have hfd := (ht.of_contextAt (findContext_some_iff.mp hp).2).2
    rw [hs.fd, hfd] at hdel
    have hfind := (Touches.of_sameView hs : Touches io fd p io₁).findContext hp
    rcases withContext_ok_iff.mp hdel with ⟨hno, _, _⟩ | ⟨q, hq, hl⟩
    · rw [hfind] at hno
      cases hno
    · rw [hfind] at hq
      cases hq
      have hcount := SameView.of_count io₂ (io₂.m_pendingEventCount - 1)
      exact (sameView_trans hs (delEventLocked hl)).trans_sameView hcount

theorem idleEvent (hi : EventsOk io) (hp : io.findContext fd = .ok (some p)) {events : BitVec 32}
    (h : io.idleEvent p events = .ok (r, io')) :
    Takes io fd p (fun e => (realEvents (io.contexts p) events).has e) io' := by
  obtain ⟨_, ⟨hd, rfl⟩ | ⟨_, io₁, h₁, h₂⟩⟩ := idleEvent_ok_iff.mp h
  · refine of_sameView (.refl _) ?_
    intro e hm
    by_contra hreal
    rw [dispatches_iff.mpr ⟨e, hm, by simpa using hreal⟩] at hd
    cases hd
  · have hread := dispatchEvent hi.table hp h₁
    have hfind := hread.touches.findContext hp
    have htable : io₁.TableOk := by
      cases hb : (realEvents (io.contexts p) events).has .READ with
      | false =>
        rw [hb] at h₁
        cases h₁
        exact hi.table
      | true =>
        rw [hb] at h₁
        exact (dispatchEvent_drifts hi h₁).ok.table
    have hwrite := dispatchEvent htable hfind h₂
    refine (hread.trans hwrite).congr fun e _ => ?_
    cases e <;> simp

end Takes

/-- A report for a context that the table no longer finds triggers its events
and leaves the masks and the interest list alone. -/
theorem dispatchEvent_sameView (hno : io.findContext (io.contexts p).m_fd = .ok none) {b : Bool}
    (h : (if b then io.dispatchEvent p e else .ok io) = .ok io') : SameView io io' := by
  cases b with
  | false =>
    cases h
    exact .refl _
  | true =>
    obtain ⟨io₁, r, io₂, htr, hdel, rfl⟩ := dispatchEvent_ok_iff.mp h
    have hs := triggerEvent_sameView htr
    have hno₁ : io₁.findContext (io₁.contexts p).m_fd = .ok none := by
      rw [hs.fd, findContext_none_iff, hs.table]
      exact findContext_none_iff.mp hno
    rcases withContext_ok_iff.mp hdel with ⟨_, _, rfl⟩ | ⟨q, hq, _⟩
    · exact hs.trans (.of_count _ _)
    · rw [hno₁] at hq
      cases hq

theorem idleEvent_sameView (hno : io.findContext (io.contexts p).m_fd = .ok none)
    {events : BitVec 32} (h : io.idleEvent p events = .ok (r, io')) : SameView io io' := by
  obtain ⟨_, ⟨_, rfl⟩ | ⟨_, io₁, h₁, h₂⟩⟩ := idleEvent_ok_iff.mp h
  · exact .refl _
  · have hs := dispatchEvent_sameView hno h₁
    have hno₁ : io₁.findContext (io₁.contexts p).m_fd = .ok none := by
      rw [hs.fd, findContext_none_iff, hs.table]
      exact findContext_none_iff.mp hno
    exact hs.trans (dispatchEvent_sameView hno₁ h₂)

theorem Mirrors.entry_eq_none_iff (hm : io.Mirrors) :
    io.epoll fd = none ↔ ∀ p, io.contextAt fd = .ok p → (io.contexts p).m_events = .NONE := by
  rw [hm fd]
  constructor
  · intro hnone p hp
    rw [contextAt_ok_iff.mp hp] at hnone
    exact EventMask.interest_eq_none_iff.mp hnone
  · intro hall
    cases hq : io.m_fdContexts[fd]?.join with
    | none => rfl
    | some q =>
      have hat := contextAt_ok_iff.mpr (Option.join_eq_some_iff.mp hq)
      exact EventMask.interest_eq_none_iff.mpr (hall q hat)

theorem Mirrors.of_entry (hm : io.Mirrors) {ev : EpollEvent} (hev : io.epoll fd = some ev) :
    io.contextAt fd = .ok ev.ptr := by
  rw [hm fd] at hev
  obtain ⟨q, hq, hinterest⟩ := Option.bind_eq_some_iff.mp hev
  simp only [EventMask.interest, Option.ite_none_right_eq_some, Option.some.injEq] at hinterest
  rw [← hinterest.2]
  exact contextAt_ok_iff.mpr (Option.join_eq_some_iff.mp hq)

section Growth

variable {size : Nat}

theorem ResizedTo.mirrorsAt (hr : ResizedTo io size io') (hi : EventsOk io) (hm : io.Mirrors)
    (hlt : fd < size) : io'.MirrorsAt fd := by
  by_cases hlen : fd < io.m_fdContexts.length
  · obtain ⟨p, hp, hp_lt, _⟩ := hi.table.contextAt_of_lt hlen
    have hp' : io'.contextAt fd = .ok p := by
      rw [contextAt_ok_iff, hr.kept fd hlt hlen]
      exact contextAt_ok_iff.mp hp
    rw [mirrorsAt_iff hp', hr.rest.epoll, hr.old p hp_lt]
    exact (mirrorsAt_iff hp).mp (hm fd)
  · have hnone := hm fd
    rw [MirrorsAt, List.getElem?_eq_none (Nat.le_of_not_lt hlen)] at hnone
    obtain ⟨p, _, _, hp, hc⟩ := hr.fresh fd hlt (Nat.le_of_not_lt hlen)
    rw [mirrorsAt_iff (contextAt_ok_iff.mpr hp), hr.rest.epoll, hnone, hc]
    rfl

theorem ResizedTo.mirrors_iff (hr : ResizedTo io size io') (hi : EventsOk io) (hm : io.Mirrors) :
    io'.Mirrors ↔ ∀ fd, size ≤ fd → io.epoll fd = none := by
  have hcut : ∀ fd, size ≤ fd → (io'.MirrorsAt fd ↔ io.epoll fd = none) := by
    intro fd hle
    rw [MirrorsAt, List.getElem?_eq_none (by rw [hr.length]; exact hle), hr.rest.epoll]
    rfl
  constructor
  · intro hall fd hle
    exact (hcut fd hle).mp (hall fd)
  · intro hnone fd
    by_cases hlt : fd < size
    · exact hr.mirrorsAt hi hm hlt
    · exact (hcut fd (Nat.le_of_not_lt hlt)).mpr (hnone fd (Nat.le_of_not_lt hlt))

end Growth

theorem addEventLocked_mirrors_iff (ht : io.TableOk) {c : AddCall}
    (hp : io.contextAt c.fd = .ok p) (hself : io.MirrorsAt c.fd)
    (h : io.addEventLocked (io.addOp p) p c = .ok (r, io')) : io'.Mirrors ↔ io.Mirrors := by
  rcases addEventLocked_ok_iff.mp h with ⟨_, _, rfl⟩ | ⟨_, _, _, _, _, rfl⟩
  · rfl
  · have hmask : ((io.added (io.addOp p) p c).contexts p).m_events =
        (io.contexts p).m_events.insert c.event := by
      simp [added, setContext]
    have htouch : Touches io c.fd p (io.added (io.addOp p) p c) := by
      refine ⟨rfl, ?_, ?_⟩
      · intro q hq
        simp [added, setContext, hq]
      · intro fd' hne
        simp [added, hne]
    have hstored : ∀ ev, (io.addOp p).stored ev = some ev := by
      intro ev
      unfold addOp
      split <;> rfl
    have hne : (io.contexts p).m_events.insert c.event ≠ .NONE :=
      has_ne_NONE (e := c.event) (by simp)
    have hentry : (io.added (io.addOp p) p c).epoll c.fd =
        ((io.added (io.addOp p) p c).contexts p).m_events.interest p := by
      rw [hmask, EventMask.interest, if_pos hne]
      simp [added, hstored]
    rw [htouch.mirrors_iff ht hp, and_iff_right hentry]
    constructor
    · intro hother fd
      by_cases hfd : fd = c.fd
      · rw [hfd]
        exact hself
      · exact hother fd hfd
    · exact fun hall fd _ => hall fd

/-- `addEvent` keeps the mirror unless its resize cuts off a context with events. -/
theorem addEvent_mirrors_iff (hi : EventsOk io) (hm : io.Mirrors) {c : AddCall}
    (h : io.addEvent c = .ok (r, io')) : io'.Mirrors ↔ ¬ io.CutsRegistered (.addEvent c) := by
  rcases addEvent_ok_iff.mp h with ⟨p, hf, hl⟩ | ⟨hf, p, io₁, hg, hl⟩
  · have hp := (findContext_some_iff.mp hf).2
    refine iff_of_true ((addEventLocked_mirrors_iff hi.table hp (hm c.fd) hl).mpr hm) ?_
    rintro ⟨c', hc, hno, _⟩
    cases hc
    rw [hf] at hno
    cases hno
  · have hr := (growContext_resized hi.table hg).1
    have hp : io₁.contextAt c.fd = .ok p := by
      obtain ⟨hat, _⟩ := growContext_ok_iff.mp hg
      rw [(growContext_eq hi.table hg).1]
      exact hat
    have hlt : c.fd < c.fd * 3 / 2 := by
      rw [← hr.length]
      exact (List.getElem?_eq_some_iff.mp (contextAt_ok_iff.mp hp)).1
    rw [addEventLocked_mirrors_iff (hr.tableOk hi.table) hp (hr.mirrorsAt hi hm hlt) hl,
      hr.mirrors_iff hi hm]
    constructor
    · rintro hnone ⟨c', hc, _, fd, q, hle, hq, hne⟩
      cases hc
      exact hne (hm.entry_eq_none_iff.mp (hnone fd hle) q hq)
    · intro hcut fd hle
      refine hm.entry_eq_none_iff.mpr fun q hq => ?_
      by_contra hne
      exact hcut ⟨c, rfl, hf, fd, q, hle, hq, hne⟩

theorem Takes.exact (op : Op) (hi : EventsOk io) (hm : io.Mirrors)
    (hp : io.findContext op.fd = .ok (some p))
    (h : Takes io op.fd p (op.takes (io.contexts p)) io') : io'.Mirrors ↔ ¬ io.LeavesOne op := by
  rw [h.mirrors_iff hi.table (findContext_some_iff.mp hp).2 hm]
  constructor
  · rintro hno ⟨q, hq, htaken⟩
    rw [hp] at hq
    cases hq
    exact hno htaken
  · exact fun hno htaken => hno ⟨p, hp, htaken⟩

theorem withContext_mirrors_iff {locked : ContextPtr → Except Fault (Outcome × IOManager)}
    (op : Op) (hi : EventsOk io) (hm : io.Mirrors)
    (hl : ∀ p, locked p = .ok (r, io') → Takes io op.fd p (op.takes (io.contexts p)) io')
    (h : io.withContext op.fd locked = .ok (r, io')) : io'.Mirrors ↔ ¬ io.LeavesOne op := by
  rcases withContext_ok_iff.mp h with ⟨hf, _, rfl⟩ | ⟨p, hf, h⟩
  · refine iff_of_true hm ?_
    rintro ⟨q, hq, _⟩
    rw [hf] at hq
    cases hq
  · exact (hl p h).exact op hi hm hf

theorem idleEvent_mirrors_iff {events : BitVec 32} {ev : EpollEvent} (hi : EventsOk io)
    (hm : io.Mirrors) (hev : io.epoll fd = some ev)
    (h : io.idleEvent ev.ptr events = .ok (r, io')) :
    io'.Mirrors ↔ ¬ io.LeavesOne (.idleEvent fd events) := by
  have hat := hm.of_entry hev
  by_cases hlt : (fd : Int) < toInt io.m_fdContexts.length
  · have hf := findContext_some_iff.mpr ⟨hlt, hat⟩
    exact Takes.exact (.idleEvent fd events) hi hm hf (Takes.idleEvent hi hf h)
  · have hf := findContext_none_iff.mpr hlt
    have hfd := (hi.back fd ev hev).2.1
    refine iff_of_true ((idleEvent_sameView (hfd ▸ hf) h).mirrors_iff.mpr hm) ?_
    rintro ⟨q, hq, _⟩
    rw [show (Op.idleEvent fd events).fd = fd from rfl, hf] at hq
    cases hq

theorem not_leavesOne_addEvent (io : IOManager) (c : AddCall) :
    ¬ io.LeavesOne (.addEvent c) := by
  rintro ⟨_, _, ⟨_, _, ht⟩, _⟩
  cases ht

theorem not_cutsRegistered {op : Op} (hop : ∀ c, op ≠ .addEvent c) : ¬ io.CutsRegistered op := by
  rintro ⟨c, hc, _⟩
  exact hop c hc

theorem exec_mirrors_iff (hi : EventsOk io) (hm : io.Mirrors) {op : Op} (ha : io.Allowed op)
    (h : io.exec op = .ok (r, io')) :
    io'.Mirrors ↔ ¬ io.LeavesOne op ∧ ¬ io.CutsRegistered op := by
  cases op with
  | addEvent c =>
    rw [addEvent_mirrors_iff hi hm h, and_iff_right (not_leavesOne_addEvent io c)]
  | delEvent fd e =>
    rw [and_iff_left (not_cutsRegistered (by simp))]
    exact withContext_mirrors_iff (.delEvent fd e) hi hm
      (fun _ hl => Takes.delEventLocked hl) h
  | cancelEvent fd e =>
    rw [and_iff_left (not_cutsRegistered (by simp))]
    exact withContext_mirrors_iff (.cancelEvent fd e) hi hm
      (fun _ hl => Takes.cancelEventLocked hl) h
  | cancelAll fd =>
    rw [and_iff_left (not_cutsRegistered (by simp))]
    exact withContext_mirrors_iff (.cancelAll fd) hi hm
      (fun _ hl => Takes.cancelAllLocked hl) h
  | idleEvent fd events =>
    obtain ⟨ev, hev, _⟩ := ha.2 fd events rfl
    simp only [exec, hev] at h
    rw [and_iff_left (not_cutsRegistered (by simp))]
    exact idleEvent_mirrors_iff hi hm hev h

theorem initial_mirrors : initial.Mirrors := by
  intro fd
  rw [MirrorsAt, initial_epoll]
  cases hq : initial.m_fdContexts[fd]?.join with
  | none => rfl
  | some q =>
    have hat := contextAt_ok_iff.mpr (Option.join_eq_some_iff.mp hq)
    obtain ⟨j, _, hc⟩ := initial_placed (initial_tableOk.of_contextAt hat).1
    rw [Option.bind_some, hc]
    exact (EventMask.interest_eq_none_iff.mpr rfl).symm

/-- The interest list mirrors the contexts after every operation exactly when no
operation takes one of two registered events and leaves the other, and no
resize cuts off a context with events. -/
theorem mirrors_run_iff {tr : List (Move IOManager Op)} {io : IOManager}
    (h : Run calls initial tr io) :
    (∀ m ∈ tr, m.post.Mirrors) ↔
      ∀ m ∈ tr, ¬ m.pre.LeavesOne m.act ∧ ¬ m.pre.CutsRegistered m.act := by
  have exact_step : ∀ {io op io'}, EventsOk io ∧ io.Mirrors → calls.step io op io' →
      (io'.Mirrors ↔ ¬ io.LeavesOne op ∧ ¬ io.CutsRegistered op) := by
    rintro io op io' ⟨hi, hm⟩ ⟨ha, r, he⟩
    exact exec_mirrors_iff hi hm ha he
  refine Run.forall_iff_guard (fun io => EventsOk io ∧ io.Mirrors)
    (fun io op => ¬ io.LeavesOne op ∧ ¬ io.CutsRegistered op) (fun m => m.post.Mirrors) ?_
    exact_step h ⟨initial_eventsOk, initial_mirrors⟩
  intro io op io' hinv hg hstep
  obtain ⟨_, hd, _⟩ := exec_drifts hinv.1 hstep.1 hstep.2.choose_spec
  exact ⟨hd.ok, (exact_step hinv hstep).mpr hg⟩

theorem mirrors_run_iff_cancelAll : ∃ tr io, Run calls initial tr io ∧
    tr.map Move.act = [.addEvent ⟨5, .READ, some 0, ⟨some 0, 0, true⟩⟩,
      .addEvent ⟨5, .WRITE, some 1, ⟨some 0, 0, true⟩⟩, .cancelAll 5] ∧
    ((∀ m ∈ tr, m.post.Mirrors) ↔
      ∀ m ∈ tr, ¬ m.pre.LeavesOne m.act ∧ ¬ m.pre.CutsRegistered m.act) := by
  let read : Op := .addEvent ⟨5, .READ, some 0, ⟨some 0, 0, true⟩⟩
  let write : Op := .addEvent ⟨5, .WRITE, some 1, ⟨some 0, 0, true⟩⟩
  have hread : calls.step initial read (initial.afterCall read) :=
    calls_step_afterCall (r := .zero) (.of_not_report (by decide) (by simp [read]))
      (by decide +kernel)
  have hwrite : calls.step (initial.afterCall read) write
      ((initial.afterCall read).afterCall write) :=
    calls_step_afterCall (r := .zero) (.of_not_report (by decide) (by simp [write]))
      (by decide +kernel)
  have hcancel : calls.step ((initial.afterCall read).afterCall write) (.cancelAll 5)
      (((initial.afterCall read).afterCall write).afterCall (.cancelAll 5)) :=
    calls_step_afterCall (r := .bool true) (.of_not_report (by decide) (by simp))
      (by decide +kernel)
  have hrun := Run.cons hread (.cons hwrite (.single hcancel))
  exact ⟨_, _, hrun, rfl, mirrors_run_iff hrun⟩

/-- After READ and WRITE have been added and READ deleted, WRITE is registered
without `EPOLLET`. -/
theorem remaining_event_not_edgeTriggered : ∃ tr io, Run calls initial tr io ∧
    tr.map Move.act = [.addEvent ⟨5, .READ, some 0, ⟨some 0, 0, true⟩⟩,
      .addEvent ⟨5, .WRITE, some 1, ⟨some 0, 0, true⟩⟩, .delEvent 5 .READ] ∧
    io.epoll 5 = some ⟨EPOLLOUT, 5⟩ ∧ ∃ m ∈ tr, ¬ m.post.Mirrors := by
  let read : Op := .addEvent ⟨5, .READ, some 0, ⟨some 0, 0, true⟩⟩
  let write : Op := .addEvent ⟨5, .WRITE, some 1, ⟨some 0, 0, true⟩⟩
  let both := (initial.afterCall read).afterCall write
  have hread : calls.step initial read (initial.afterCall read) :=
    calls_step_afterCall (r := .zero) (.of_not_report (by decide) (by simp [read]))
      (by decide +kernel)
  have hwrite : calls.step (initial.afterCall read) write both :=
    calls_step_afterCall (r := .zero) (.of_not_report (by decide) (by simp [write]))
      (by decide +kernel)
  have hdel : calls.step both (.delEvent 5 .READ) (both.afterCall (.delEvent 5 .READ)) :=
    calls_step_afterCall (r := .bool true) (.of_not_report (by decide) (by simp))
      (by decide +kernel)
  have hentry : ¬ (both.afterCall (.delEvent 5 .READ)).MirrorsAt 5 := by decide +kernel
  refine ⟨_, _, .cons hread (.cons hwrite (.single hdel)), rfl, by decide +kernel,
    ⟨both, .delEvent 5 .READ, both.afterCall (.delEvent 5 .READ)⟩, by simp, ?_⟩
  exact fun hall => hentry (hall 5)

end IOManager

end FiberAsync
