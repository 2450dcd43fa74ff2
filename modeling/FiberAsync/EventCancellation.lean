import FiberAsync.EventRefinement

/-!
# Cancelling all at once and one by one

`cancelEvent` takes the bit out and modifies or deletes the registration, while
`cancelAll` triggers both events with the bits still set, deletes once and then
clears the mask. The state that both leave is the one with the events taken out
in turn.
-/

namespace FiberAsync

set_option autoImplicit false

open Results

namespace EventMask

variable {m : EventMask} {e : Event}

theorem erase_of_absent (h : m.has e = false) : m.erase e = m := by
  apply ext_has
  intro e'
  rw [has_erase]
  by_cases he : e = e'
  · subst e'
    rw [h, Bool.false_and]
  · simp [he]

theorem erase_both (m : EventMask) : (m.erase .READ).erase .WRITE = NONE := by
  rw [eq_NONE_iff]
  intro e
  cases e <;> simp

end EventMask

namespace FdContext

variable {ctx : FdContext} {e : Event}

theorem registration_of_absent (h : ctx.m_events.has e = false) : ctx.registration e = none := by
  unfold registration
  rw [h, if_neg Bool.false_ne_true]

theorem without_of_absent (h : ctx.SlotsOk) (hm : ctx.m_events.has e = false) :
    ctx.without e = ctx := by
  unfold without
  rw [EventMask.erase_of_absent hm]
  exact resetEventContext_of_empty (h.empty e hm)

theorem without_eq (ctx : FdContext) (e : Event) : ctx.without e =
    { ctx.resetEventContext e with m_events := ctx.m_events.erase e } :=
  (resetEventContext_withEvents ctx e _).symm

theorem without_both (ctx : FdContext) : (ctx.without .READ).without .WRITE =
    { (ctx.resetEventContext .READ).resetEventContext .WRITE with m_events := .NONE } := by
  simp only [without, resetEventContext, setEventContext, ctx.m_events.erase_both]

end FdContext

namespace IOManager

variable {io : IOManager} {p : ContextPtr} {fd : Nat} {e : Event}

/-- What `m_pendingEventCount` has for an event of a context. -/
def share (ctx : FdContext) (e : Event) : BitVec 64 := if ctx.m_events.has e then 1 else 0

/-- The state after `triggerEvent(e); --m_pendingEventCount;`, if the event is registered. -/
def counted (io : IOManager) (p : ContextPtr) (e : Event) : IOManager :=
  { io.resetContext p e with
    tasks := io.tasks ++ ((io.contexts p).registration e).toList
    m_pendingEventCount := io.m_pendingEventCount - share (io.contexts p) e }

/-- The registration after an event has been taken out. -/
def entryWithout (io : IOManager) (p : ContextPtr) (fd : Nat) (e : Event) : Option EpollEvent :=
  let m_events := (io.contexts p).m_events
  if m_events.has e then
    if m_events.erase e ≠ .NONE then some ⟨(m_events.erase e).bits, p⟩ else none
  else io.epoll fd

/-- The state after the event of a context has been cancelled, if it was registered. -/
def cancelled (io : IOManager) (p : ContextPtr) (fd : Nat) (e : Event) : IOManager :=
  { io.setContext p ((io.contexts p).without e) with
    epoll := Function.update io.epoll fd (io.entryWithout p fd e)
    tasks := io.tasks ++ ((io.contexts p).registration e).toList
    m_pendingEventCount := io.m_pendingEventCount - share (io.contexts p) e }

section Locked

theorem counted_of_absent (hempty : (io.contexts p).getEventContext e = {})
    (hm : (io.contexts p).m_events.has e = false) : io.counted p e = io := by
  have hctx : (io.contexts p).resetEventContext e = io.contexts p :=
    FdContext.resetEventContext_of_empty hempty
  simp [counted, resetContext, setContext, hctx, FdContext.registration_of_absent hm, share, hm]

theorem triggerCounted_counted
    (hempty : (io.contexts p).m_events.has e = false → (io.contexts p).getEventContext e = {})
    (hw : (io.contexts p).m_events.has e = true →
      ∃ w, ((io.contexts p).getEventContext e).waiter = some w) :
    io.triggerCounted p e = .ok (io.counted p e) := by
  cases hm : (io.contexts p).m_events.has e with
  | false =>
    rw [counted_of_absent (hempty hm) hm]
    exact triggerCounted_ok_iff.mpr (Or.inl ⟨hm, rfl⟩)
  | true =>
    obtain ⟨w, hw⟩ := hw hm
    refine triggerCounted_ok_iff.mpr (Or.inr ⟨_, triggerEvent_ok_iff.mpr ⟨hm, w, hw, rfl⟩, ?_⟩)
    simp [counted, resetContext, setContext, FdContext.registration, hm, hw, share]

theorem cancelled_of_absent (hs : (io.contexts p).SlotsOk)
    (hm : (io.contexts p).m_events.has e = false) : io.cancelled p fd e = io := by
  simp [cancelled, entryWithout, setContext, FdContext.without_of_absent hs hm,
    FdContext.registration_of_absent hm, share, hm]

end Locked

section Context

variable (hi : RepInv io) (hp : io.contextAt fd = .ok p)
include hi hp

theorem RepInv.cancelEvent_eq (e : Event) : io.cancelEvent fd e =
    .ok (.bool ((io.contexts p).m_events.has e), io.cancelled p fd e) := by
  have hs := hi.slots p (hi.ok.table.of_contextAt hp).1
  have hfind : io.findContext fd = .ok (some p) := findContext_of_contextAt hi.small hp
  refine withContext_ok_iff.mpr (Or.inr ⟨p, hfind, ?_⟩)
  cases hm : (io.contexts p).m_events.has e with
  | false =>
    rw [cancelled_of_absent hs hm]
    exact cancelEventLocked_ok_iff.mpr (Or.inl ⟨hm, rfl, rfl⟩)
  | true =>
    obtain ⟨w, hw, _⟩ := hi.waiter_of_has hp hm
    have hsome := hi.entry_isSome hp (has_ne_NONE hm)
    have ht := triggerEvent_ok_iff.mpr ⟨hm, w, hw, rfl⟩
    refine cancelEventLocked_ok_iff.mpr (Or.inr ⟨_, ht, hsome, rfl, ?_⟩)
    simp [cancelled, entryWithout, dropped, resetContext, setContext, share,
      FdContext.without_eq, FdContext.registration, hm, hw]

theorem RepInv.counted_twice : io.triggerCounted p .READ = .ok (io.counted p .READ) ∧
    (io.counted p .READ).triggerCounted p .WRITE =
      .ok ((io.counted p .READ).counted p .WRITE) := by
  have hs := hi.slots p (hi.ok.table.of_contextAt hp).1
  have hwaiter : ∀ e, (io.contexts p).m_events.has e = true →
      ∃ w, ((io.contexts p).getEventContext e).waiter = some w := by
    intro e hm
    obtain ⟨w, hw, _⟩ := hi.waiter_of_has hp hm
    exact ⟨w, hw⟩
  refine ⟨triggerCounted_counted (hs.empty .READ) (hwaiter .READ), ?_⟩
  -- READ has left the bits and the slot of WRITE alone
  have hctx : (io.counted p .READ).contexts p = (io.contexts p).resetEventContext .READ :=
    Function.update_self _ _ _
  have hslot : ((io.contexts p).resetEventContext .READ).getEventContext .WRITE =
      (io.contexts p).getEventContext .WRITE := by simp [FdContext.getEventContext_reset]
  apply triggerCounted_counted
  · rw [hctx, hslot, FdContext.resetEventContext_events]
    exact hs.empty .WRITE
  · rw [hctx, hslot, FdContext.resetEventContext_events]
    exact hwaiter .WRITE

theorem RepInv.entryWithout_both :
    (io.cancelled p fd .READ).entryWithout p fd .WRITE = none := by
  have herase := (io.contexts p).m_events.erase_both
  have hbits : ((io.cancelled p fd .READ).contexts p).m_events =
      (io.contexts p).m_events.erase .READ := by
    simp [cancelled, setContext, FdContext.without]
  unfold entryWithout
  dsimp only
  rw [hbits, herase, EventMask.has_erase]
  cases hw : (io.contexts p).m_events.has .WRITE with
  | true => rfl
  | false =>
    have hleft : (io.contexts p).m_events.erase .READ = .NONE := by
      have habsent : ((io.contexts p).m_events.erase .READ).has .WRITE = false := by simp [hw]
      exact (EventMask.erase_of_absent habsent).symm.trans herase
    change Function.update io.epoll fd (io.entryWithout p fd .READ) fd = none
    rw [Function.update_self, entryWithout, hleft]
    cases hr : (io.contexts p).m_events.has .READ with
    | true => rfl
    | false =>
      apply hi.entry_none hp
      rw [← hleft, EventMask.erase_of_absent hr]

/-- With both events out, the two orders of the updates have met. -/
theorem RepInv.cleared_counted : ((io.counted p .READ).counted p .WRITE).cleared p fd =
    (io.cancelled p fd .READ).cancelled p fd .WRITE := by
  have hentry := hi.entryWithout_both hp
  have hboth := FdContext.without_both (io.contexts p)
  have hreg : ((io.contexts p).resetEventContext .READ).registration .WRITE =
      ((io.contexts p).without .READ).registration .WRITE := by
    simp [FdContext.registration, FdContext.without, FdContext.getEventContext_reset]
  have hshare : share ((io.contexts p).resetEventContext .READ) .WRITE =
      share ((io.contexts p).without .READ) .WRITE := by
    simp [share, FdContext.without]
  rw [cancelled, hentry]
  simp only [cleared, counted, cancelled, resetContext, setContext, Function.update_self,
    Function.update_idem, hboth, hreg, hshare]

theorem RepInv.cancelAll_eq : io.cancelAll fd =
    .ok (.bool ((io.contexts p).m_events.has .READ || (io.contexts p).m_events.has .WRITE),
      (io.cancelled p fd .READ).cancelled p fd .WRITE) := by
  have hfind : io.findContext fd = .ok (some p) := findContext_of_contextAt hi.small hp
  refine withContext_ok_iff.mpr (Or.inr ⟨p, hfind, ?_⟩)
  by_cases hm : (io.contexts p).m_events = .NONE
  · have hnone := (EventMask.eq_NONE_iff _).mp hm
    have hs := hi.slots p (hi.ok.table.of_contextAt hp).1
    rw [cancelled_of_absent hs (hnone .READ), cancelled_of_absent hs (hnone .WRITE), hnone, hnone]
    exact cancelAllLocked_ok_iff.mpr (Or.inl ⟨hm, rfl, rfl⟩)
  · obtain ⟨hread, hwrite⟩ := hi.counted_twice hp
    have hsome := hi.entry_isSome hp hm
    obtain ⟨e, he⟩ := (EventMask.ne_NONE_iff _).mp hm
    refine cancelAllLocked_ok_iff.mpr (Or.inr ⟨hm, _, _, hread, hwrite, hsome, ?_,
      (hi.cleared_counted hp).symm⟩)
    cases e <;> simp [he]

end Context

/-- Nothing of another descriptor has changed. -/
structure OthersUntouched (io io' : IOManager) (fd : Nat) : Prop where
  table : io'.m_fdContexts = io.m_fdContexts
  contexts : ∀ p, (io.contexts p).m_fd ≠ fd → io'.contexts p = io.contexts p
  epoll : ∀ fd', fd' ≠ fd → io'.epoll fd' = io.epoll fd'

theorem cancelled_both_untouched (hp : (io.contexts p).m_fd = fd) :
    io.OthersUntouched ((io.cancelled p fd .READ).cancelled p fd .WRITE) fd := by
  refine ⟨rfl, fun q hq => ?_, fun fd' hfd => ?_⟩
  · have hne : q ≠ p := fun heq => hq (heq ▸ hp)
    exact (Function.update_of_ne hne _ _).trans (Function.update_of_ne hne _ _)
  · exact (Function.update_of_ne hfd _ _).trans (Function.update_of_ne hfd _ _)

/-- In every state with the invariant, `cancelAll` does what the two calls of
`cancelEvent` do, and reports whether one of them has cancelled an event. -/
theorem cancelAll_one_by_one (hi : RepInv io) (fd : Nat) : ∃ read write io₁ io₂,
    io.cancelEvent fd .READ = .ok (.bool read, io₁) ∧
    io₁.cancelEvent fd .WRITE = .ok (.bool write, io₂) ∧
    io.cancelAll fd = .ok (.bool (read || write), io₂) ∧ io.OthersUntouched io₂ fd := by
  by_cases hlen : fd < io.m_fdContexts.length
  · obtain ⟨p, hp, _⟩ := findContext_of_lt hi.ok.table hi.small hlen
    have hread := hi.cancelEvent_eq hp .READ
    obtain ⟨r, io₁, hread', ha⟩ := cancelEvent_answers hi fd .READ
    cases hread.symm.trans hread'
    have hp₁ : (io.cancelled p fd .READ).contextAt fd = .ok p := hp
    have hwrite := ha.inv.cancelEvent_eq hp₁ .WRITE
    have hbit : ((io.cancelled p fd .READ).contexts p).m_events.has .WRITE =
        (io.contexts p).m_events.has .WRITE := by
      simp [cancelled, setContext, FdContext.without]
    rw [hbit] at hwrite
    exact ⟨_, _, _, _, hread, hwrite, hi.cancelAll_eq hp,
      cancelled_both_untouched (hi.ok.table.of_contextAt hp).2⟩
  · have hnone := findContext_of_le hi.small (Nat.le_of_not_lt hlen)
    have hskip : ∀ locked, io.withContext fd locked = .ok (.bool false, io) :=
      fun locked => withContext_ok_iff.mpr (Or.inl ⟨hnone, rfl, rfl⟩)
    exact ⟨false, false, io, io, hskip _, hskip _, hskip _, rfl, fun _ _ => rfl, fun _ _ => rfl⟩

/-- A callback waits for the descriptor to be readable and a fiber for it to be writable. -/
def bothRegistered : IOManager :=
  (initial.afterCall (.addEvent ⟨5, .READ, some 0, ⟨some 0, 0, true⟩⟩)).afterCall
    (.addEvent ⟨5, .WRITE, none, ⟨some 0, 7, true⟩⟩)

theorem bothRegistered_repInv : bothRegistered.RepInv := by
  have hadd : ∀ {io c}, RepInv io → c.fd * 3 / 2 ≤ INT_MAX → c.Ready →
      (io.afterCall (.addEvent c)).RepInv := by
    intro io c hi hfits hc
    obtain ⟨r, io', hexec, ha⟩ := addEvent_answers hi hfits hc
    have hafter : io.afterCall (.addEvent c) = io' := by
      unfold afterCall
      rw [show io.exec (.addEvent c) = _ from hexec]
    rw [hafter]
    exact ha.inv
  apply hadd (hadd initial_repInv.1 (by decide) ⟨rfl, by simp⟩) (by decide)
  exact ⟨rfl, fun _ => rfl⟩

theorem cancelAll_one_by_one_both : bothRegistered.RepInv ∧
    (∀ e, ((bothRegistered.contexts 5).m_events.has e) = true) ∧ ∃ read write io₁ io₂,
    bothRegistered.cancelEvent 5 .READ = .ok (.bool read, io₁) ∧
    io₁.cancelEvent 5 .WRITE = .ok (.bool write, io₂) ∧
    bothRegistered.cancelAll 5 = .ok (.bool (read || write), io₂) ∧
    bothRegistered.OthersUntouched io₂ 5 :=
  ⟨bothRegistered_repInv, by decide +kernel, cancelAll_one_by_one bothRegistered_repInv 5⟩

end IOManager

end FiberAsync
