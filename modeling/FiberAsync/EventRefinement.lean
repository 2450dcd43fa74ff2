import FiberAsync.EventRepresentation

/-!
# The table of contexts implements the map of registrations

Each operation returns, keeps the representation invariant, and does to the map
that the table stands for what the specification says.
-/

namespace FiberAsync

set_option autoImplicit false

open Runs Results

namespace IOManager

variable {io io' : IOManager} {p : ContextPtr} {fd : Nat} {e : Event} {r : Outcome}

/-- What a call did, as the specification sees it. -/
structure Answers (io : IOManager) (op : Op) (r : Outcome) (io' : IOManager) : Prop where
  inv : RepInv io'
  step : io.abs.step op = (r, io'.abs)
  refused : r = .bool false ∨ r = .logicError → io' = io

theorem RepInv.answers_nothing (hi : RepInv io) {op : Op}
    (hstep : io.abs.step op = (r, io.abs)) : Answers io op r io := ⟨hi, hstep, fun _ => rfl⟩

/-- The calls about one event: what is left to show is what the section under
the context's mutex does when the bit is set. -/
theorem RepInv.single_answers (hi : RepInv io) {op : Op} {after : Registrations}
    {locked : ContextPtr → Except Fault (Outcome × IOManager)}
    (hop : io.abs.step op = (.bool (io.abs.waiters fd e).isSome, after))
    (habsent : io.abs.waiters fd e = none → after = io.abs)
    (hskip : ∀ p, (io.contexts p).m_events.has e = false → locked p = .ok (.bool false, io))
    (hset : ∀ p, io.contextAt fd = .ok p → (io.contexts p).m_events.has e = true →
      ∃ io', locked p = .ok (.bool true, io') ∧ RepInv io' ∧ io'.abs = after) :
    ∃ r io', io.withContext fd locked = .ok (r, io') ∧ Answers io op r io' := by
  by_cases hlen : fd < io.m_fdContexts.length
  · obtain ⟨p, hp, hf⟩ := findContext_of_lt hi.ok.table hi.small hlen
    cases hm : (io.contexts p).m_events.has e with
    | false =>
      have habs := hi.not_has_of_absent hp hm
      refine ⟨_, _, withContext_ok_iff.mpr (Or.inr ⟨p, hf, hskip p hm⟩), hi.answers_nothing ?_⟩
      rw [hop, habs, habsent habs]
      rfl
    | true =>
      obtain ⟨io', hl, hi', habs⟩ := hset p hp hm
      refine ⟨_, _, withContext_ok_iff.mpr (Or.inr ⟨p, hf, hl⟩), hi', ?_, by simp⟩
      rw [hop, hi.registration_isSome hp, hm, habs]
  · have hle := Nat.le_of_not_lt hlen
    have habs := abs_waiters_of_length_le (e := e) hle
    refine ⟨_, _, withContext_ok_iff.mpr (Or.inl ⟨findContext_of_le hi.small hle, rfl, rfl⟩),
      hi.answers_nothing ?_⟩
    rw [hop, habs, habsent habs]
    rfl

theorem delEvent_answers (hi : RepInv io) (fd : Nat) (e : Event) :
    ∃ r io', io.delEvent fd e = .ok (r, io') ∧ Answers io (.delEvent fd e) r io' := by
  apply hi.single_answers rfl io.abs.put_absent
  · exact fun p hm => delEventLocked_ok_iff.mpr (Or.inl ⟨hm, rfl, rfl⟩)
  · intro p hp hm
    obtain ⟨io', hl, hr, ht⟩ := delEventLocked_removes hi hp hm
    obtain ⟨hi', _, hw⟩ := hi.removes hp hm hr
    exact ⟨io', hl, hi', abs_eq hw ht⟩

theorem cancelEvent_answers (hi : RepInv io) (fd : Nat) (e : Event) :
    ∃ r io', io.cancelEvent fd e = .ok (r, io') ∧ Answers io (.cancelEvent fd e) r io' := by
  apply hi.single_answers rfl io.abs.release_absent
  · exact fun p hm => cancelEventLocked_ok_iff.mpr (Or.inl ⟨hm, rfl, rfl⟩)
  · intro p hp hm
    obtain ⟨io', hl, hr, ht⟩ := cancelEventLocked_removes hi hp hm
    exact ⟨io', hl, (hi.removes hp hm hr).1, hi.removes_abs hp hm hr ht⟩

/-- With an empty slot behind an unset bit, `triggerCounted` empties the slot in
every case. -/
theorem triggerCounted_eq (io : IOManager) (p : ContextPtr) (e : Event)
    (hslots : (io.contexts p).m_events.has e = false →
      (io.contexts p).getEventContext e = {})
    (hwaiter : (io.contexts p).m_events.has e = true →
      (((io.contexts p).getEventContext e).waiter).isSome) :
    ∃ n, io.triggerCounted p e = .ok { io.resetContext p e with
      tasks := io.tasks ++ ((io.contexts p).registration e).toList
      m_pendingEventCount := n } := by
  cases hm : (io.contexts p).m_events.has e with
  | false =>
    have hsame : (io.contexts p).resetEventContext e = io.contexts p :=
      FdContext.resetEventContext_of_empty (hslots hm)
    refine ⟨io.m_pendingEventCount, triggerCounted_ok_iff.mpr (Or.inl ⟨hm, ?_⟩)⟩
    simp [resetContext, setContext, hsame, FdContext.registration, hm]
  | true =>
    obtain ⟨w, hw⟩ := Option.isSome_iff_exists.mp (hwaiter hm)
    refine ⟨io.m_pendingEventCount - 1, triggerCounted_ok_iff.mpr (Or.inr ⟨_,
      triggerEvent_ok_iff.mpr ⟨hm, w, hw, rfl⟩, ?_⟩)⟩
    simp [FdContext.registration, hm, hw, resetContext, setContext]

theorem cancelAllLocked_clears (hi : RepInv io) (hp : io.contextAt fd = .ok p)
    (hm : (io.contexts p).m_events ≠ .NONE) :
    ∃ io', io.cancelAllLocked p fd = .ok (.bool true, io') ∧
      Rewritten io p { m_fd := fd } none io' ∧
      io'.tasks = io.tasks ++ (io.abs.waiters fd .READ).toList ++
        (io.abs.waiters fd .WRITE).toList := by
  obtain ⟨hlt, hfd⟩ := hi.ok.table.of_contextAt hp
  have hs := hi.slots p hlt
  have hsome := hi.entry_isSome hp hm
  have harmed : ∀ e, (io.contexts p).m_events.has e = true →
      (((io.contexts p).getEventContext e).waiter).isSome := by
    intro e hb
    rw [EventContext.waiter_isSome]
    exact ((hs.armed e).mp hb).1
  obtain ⟨n₁, h₁⟩ := triggerCounted_eq io p .READ (hs.empty .READ) (harmed .READ)
  generalize hio₁ : ({ io.resetContext p .READ with
      tasks := io.tasks ++ ((io.contexts p).registration .READ).toList
      m_pendingEventCount := n₁ } : IOManager) = io₁ at h₁
  have hctx₁ : io₁.contexts p = (io.contexts p).resetEventContext .READ := by
    subst io₁
    exact Function.update_self _ _ _
  have hslot₁ : (io₁.contexts p).getEventContext .WRITE =
      (io.contexts p).getEventContext .WRITE := by
    simp [hctx₁, FdContext.getEventContext_reset]
  have hbits₁ : (io₁.contexts p).m_events = (io.contexts p).m_events := by simp [hctx₁]
  obtain ⟨n₂, h₂⟩ := triggerCounted_eq io₁ p .WRITE
    (by rw [hbits₁, hslot₁]; exact hs.empty .WRITE) (by rw [hbits₁, hslot₁]; exact harmed .WRITE)
  have hreg₁ : (io₁.contexts p).registration .WRITE = (io.contexts p).registration .WRITE := by
    simp only [FdContext.registration, hbits₁, hslot₁]
  refine ⟨_, cancelAllLocked_ok_iff.mpr (Or.inr ⟨hm, io₁, _, h₁, h₂, ?_, rfl, rfl⟩), ?_, ?_⟩
  · subst io₁
    exact hsome
  · subst io₁
    refine ⟨rfl, rfl, ?_, rfl, hfd.symm⟩
    simp only [cleared, resetContext, setContext, Function.update_idem, Function.update_self]
    rw [← hfd]
    rfl
  · simp only [cleared, setContext, hreg₁, abs_waiters_of_contextAt hp]
    subst io₁
    rfl

theorem cancelAll_answers (hi : RepInv io) (fd : Nat) :
    ∃ r io', io.cancelAll fd = .ok (r, io') ∧ Answers io (.cancelAll fd) r io' := by
  by_cases hlen : fd < io.m_fdContexts.length
  · obtain ⟨p, hp, hf⟩ := findContext_of_lt hi.ok.table hi.small hlen
    obtain ⟨hlt, hfd⟩ := hi.ok.table.of_contextAt hp
    by_cases hm : (io.contexts p).m_events = .NONE
    · have hnone := (EventMask.eq_NONE_iff _).mp hm
      have habs : ∀ e, io.abs.waiters fd e = none := fun e => hi.not_has_of_absent hp (hnone e)
      refine ⟨.bool false, io, withContext_ok_iff.mpr (Or.inr ⟨p, hf, ?_⟩), ?_⟩
      · exact cancelAllLocked_ok_iff.mpr (Or.inl ⟨hm, rfl, rfl⟩)
      · exact hi.answers_nothing (by
          simp [Registrations.step, Registrations.releaseAll, habs, Registrations.release_absent])
    · obtain ⟨io', hl, hr, ht⟩ := cancelAllLocked_clears hi hp hm
      have hok : EventsOk io' := hr.eventsOk hi.ok hlt
        (fun ev hev => hi.ok.owner hlt hm (hfd ▸ hev)) (fun h => absurd rfl h) (fun _ => rfl)
      obtain ⟨hi', _, hw⟩ := hi.rewritten hp hr hok
        (FdContext.slotsOk_new fd) (by simp)
      refine ⟨.bool true, io', withContext_ok_iff.mpr (Or.inr ⟨p, hf, hl⟩), hi', ?_, by simp⟩
      obtain ⟨e, he⟩ := (EventMask.ne_NONE_iff _).mp hm
      have hbool : ((io.abs.waiters fd .READ).isSome || (io.abs.waiters fd .WRITE).isSome) =
          true := by
        rw [hi.registration_isSome hp, hi.registration_isSome hp]
        cases e <;> simp [he]
      have habs : io'.abs = io.abs.releaseAll fd fun _ => true := by
        apply abs_eq
        · funext fd' e'
          rw [hw fd' e']
          simp only [Registrations.releaseAll, Registrations.release, Registrations.put, if_true]
          by_cases hx : fd' = fd
          · cases e' <;> simp [hx, FdContext.registration]
          · simp [hx]
        · simp only [ht, Registrations.releaseAll, Registrations.release, Registrations.put]
          simp
          rfl
      simp [Registrations.step, hbool, habs]
  · have hle := Nat.le_of_not_lt hlen
    have habs : ∀ e, io.abs.waiters fd e = none := fun e => abs_waiters_of_length_le hle
    refine ⟨.bool false, io,
      withContext_ok_iff.mpr (Or.inl ⟨findContext_of_le hi.small hle, rfl, rfl⟩), ?_⟩
    exact hi.answers_nothing (by
      simp [Registrations.step, Registrations.releaseAll, habs, Registrations.release_absent])

/-- The new context and its entry in the interest list after a successful `addEvent`. -/
theorem RepInv.added (hi : RepInv io) {c : AddCall} (hp : io.contextAt c.fd = .ok p)
    (hle : c.fd ≤ INT_MAX) (harmed : c.eventContext.Armed)
    (hop : (io.addOp p).accepts (io.epoll c.fd) = true) :
    RepInv (io.added (io.addOp p) p c) ∧
      (io.added (io.addOp p) p c).abs = io.abs.put c.fd c.event c.waiter := by
  obtain ⟨hlt, hfd⟩ := hi.ok.table.of_contextAt hp
  let ctx := ({ io.contexts p with
    m_events := (io.contexts p).m_events.insert c.event }.setEventContext c.eventContext c.event :
      FdContext)
  have hhas : ∀ e, ctx.m_events.has e =
      ((io.contexts p).m_events.has e || decide (c.event = e)) := by simp [ctx]
  have hslot : ∀ e, ctx.getEventContext e =
      if c.event = e then c.eventContext else (io.contexts p).getEventContext e := by
    simp [ctx, FdContext.getEventContext_set]
  have hr : Rewritten io p ctx
      (some ⟨((io.contexts p).m_events.insert c.event).bits ||| EPOLLET, p⟩)
      (io.added (io.addOp p) p c) := by
    refine ⟨rfl, rfl, rfl, ?_, by simp [ctx]⟩
    have hst : ∀ ev, (io.addOp p).stored ev = some ev := by
      intro ev
      unfold addOp
      split <;> rfl
    simp [IOManager.added, setContext, hst, hfd, ctx]
  have hslots : ctx.SlotsOk := by
    constructor
    · intro e
      rw [hhas, hslot]
      by_cases he : c.event = e
      · simpa [he] using harmed
      · simpa [he] using (hi.slots p hlt).armed e
    · intro e hm
      rw [hhas, Bool.or_eq_false_iff, decide_eq_false_iff_not] at hm
      rw [hslot, if_neg hm.2]
      exact (hi.slots p hlt).empty e hm.1
  obtain ⟨hi', _, hw⟩ := hi.rewritten hp hr (added_eventsOk hi.ok hlt hfd hle hop) hslots <| by
    intro ev hev
    cases hev
    refine ⟨rfl, fun e => ?_⟩
    have het : EPOLLET.getLsbD e.index = false := by cases e <;> decide
    rw [BitVec.getLsbD_or, het, Bool.or_false, hhas, ← EventMask.has_eq_getLsbD,
      EventMask.has_insert]
  refine ⟨hi', abs_eq ?_ rfl⟩
  funext fd' e
  have hwait : c.eventContext.waiter = c.waiter := by
    unfold AddCall.waiter EventContext.waiter AddCall.eventContext
    cases c.cb <;> rfl
  rw [hw fd' e]
  simp only [Registrations.put]
  by_cases hx : fd' = c.fd
  · simp only [hx, abs_waiters_of_contextAt hp, FdContext.registration, hhas, hslot]
    by_cases he : c.event = e
    · simp [he, hwait]
    · simp [he, Ne.symm he]
  · simp [hx]

theorem RepInv.addOp_accepts (hi : RepInv io) (hp : io.contextAt fd = .ok p) :
    (io.addOp p).accepts (io.epoll fd) = true := by
  by_cases hm : (io.contexts p).m_events = .NONE
  · simp [addOp, hm, EpollOp.accepts, hi.entry_none hp hm]
  · simpa [addOp, hm, EpollOp.accepts] using hi.entry_isSome hp hm

theorem addEventLocked_answers (hi : RepInv io) {c : AddCall} (hp : io.contextAt c.fd = .ok p)
    (hle : c.fd ≤ INT_MAX) (hc : c.Ready) :
    ∃ r io', io.addEventLocked (io.addOp p) p c = .ok (r, io') ∧
      Answers io (.addEvent c) r io' := by
  obtain ⟨hlt, hfd⟩ := hi.ok.table.of_contextAt hp
  cases hm : (io.contexts p).m_events.has c.event with
  | true =>
    refine ⟨.logicError, io, addEventLocked_ok_iff.mpr (Or.inl ⟨hm, rfl, rfl⟩), ?_⟩
    exact hi.answers_nothing (by simp [Registrations.step, hi.registration_isSome hp, hm])
  | false =>
    have hop := hi.addOp_accepts hp
    obtain ⟨hi', habs⟩ := hi.added hp hle hc.armed hop
    refine ⟨.zero, _, addEventLocked_ok_iff.mpr (Or.inr ⟨hm, (hi.slots p hlt).empty c.event hm,
      hc.running, hop, rfl, rfl⟩), hi', ?_, by simp⟩
    simp [Registrations.step, hi.registration_isSome hp, hm, habs]

theorem RepInv.resized (hi : RepInv io) {size : Nat} (h : ResizedTo io size io')
    (hgrow : io.m_fdContexts.length ≤ size) (hfits : size ≤ INT_MAX) :
    RepInv io' ∧ io'.abs = io.abs := by
  have hok := h.eventsOk hi.ok
  have hkept : ∀ (j : Nat) (p : ContextPtr), io.m_fdContexts[j]? = some (some p) →
      io'.m_fdContexts[j]? = some (some p) := by
    intro j p hj
    have hlen := (List.getElem?_eq_some_iff.mp hj).1
    rw [h.kept j (Nat.lt_of_lt_of_le hlen hgrow) hlen, hj]
  refine ⟨⟨hok, ?_, h.length ▸ hfits, ?_, ?_, ?_⟩, ?_⟩
  · rw [h.length]
    exact hi.large.trans hgrow
  · intro p hp
    by_cases hlt : p < io.allocated
    · rw [h.old p hlt]
      exact hkept _ p (hi.placed p hlt)
    · obtain ⟨j, hj, hc⟩ := h.placed p (Nat.le_of_not_lt hlt) hp
      rw [hc]
      exact hj
  · intro p hp
    by_cases hlt : p < io.allocated
    · rw [h.old p hlt]
      exact hi.slots p hlt
    · obtain ⟨j, _, hc⟩ := h.placed p (Nat.le_of_not_lt hlt) hp
      rw [hc]
      exact FdContext.slotsOk_new j
  · intro fd ev hev
    rw [h.rest.epoll] at hev
    rw [h.old ev.ptr (hi.ok.back fd ev hev).1]
    exact hi.mask fd ev hev
  · apply abs_eq
    · funext fd e
      by_cases hlen : fd < io.m_fdContexts.length
      · obtain ⟨p, hp, hlt, _⟩ := hi.ok.table.contextAt_of_lt hlen
        have hp' : io'.contextAt fd = .ok p :=
          contextAt_ok_iff.mpr (hkept fd p (contextAt_ok_iff.mp hp))
        rw [abs_waiters_of_contextAt hp', abs_waiters_of_contextAt hp, h.old p hlt]
      · have hle := Nat.le_of_not_lt hlen
        rw [abs_waiters_of_length_le hle]
        by_cases hsize : fd < size
        · obtain ⟨p, _, _, hp, hc⟩ := h.fresh fd hsize hle
          rw [abs_waiters_of_contextAt (contextAt_ok_iff.mpr hp), hc]
          simp [FdContext.registration]
        · exact abs_waiters_of_length_le (by rw [h.length]; exact Nat.le_of_not_lt hsize)
    · exact h.rest.tasks

theorem addEvent_answers (hi : RepInv io) {c : AddCall} (hfits : c.fd * 3 / 2 ≤ INT_MAX)
    (hc : c.Ready) :
    ∃ r io', io.addEvent c = .ok (r, io') ∧ Answers io (.addEvent c) r io' := by
  have hle : c.fd ≤ INT_MAX := by omega
  by_cases hlen : c.fd < io.m_fdContexts.length
  · obtain ⟨p, hp, hf⟩ := findContext_of_lt hi.ok.table hi.small hlen
    obtain ⟨r, io', hl, ha⟩ := addEventLocked_answers hi hp hle hc
    exact ⟨r, io', addEvent_ok_iff.mpr (Or.inl ⟨p, hf, hl⟩), ha⟩
  · have hge := Nat.le_of_not_lt hlen
    have hlarge := hi.large
    have hr := contextResize_resizedTo hi.ok.table (c.fd * 3 / 2)
    obtain ⟨hi₁, habs⟩ := hi.resized hr (by omega) hfits
    obtain ⟨p, hgrow, hp⟩ := growContext_contextResize hi.ok.table (show 2 ≤ c.fd by omega)
    obtain ⟨r, io', hl, ha⟩ := addEventLocked_answers hi₁ hp hle hc
    have habsent : io.abs.waiters c.fd c.event = none := abs_waiters_of_length_le hge
    have hstep := ha.step
    rw [habs] at hstep
    refine ⟨r, io', addEvent_ok_iff.mpr (Or.inr ⟨findContext_of_le hi.small hge, p, _, hgrow, hl⟩),
      ha.inv, hstep, ?_⟩
    -- a growth means that the pair was absent, so the call does not refuse
    simp only [Registrations.step, habsent, Option.isSome_none, Bool.false_eq_true, if_false,
      Prod.mk.injEq] at hstep
    rw [← hstep.1]
    simp

/-- One half of `idle`: the event is dispatched when `real_events` has it. Bits
of the report that are not registered need not be among the real events. -/
theorem dispatchEvent_answers (hi : RepInv io) (hp : io.contextAt fd = .ok p) {real sel : Bool}
    (hreal : real = true → (io.contexts p).m_events.has e = true)
    (hsel : (io.contexts p).m_events.has e = true → sel = real) :
    ∃ io', (if real then io.dispatchEvent p e else .ok io) = .ok io' ∧ RepInv io' ∧
      io'.contextAt fd = .ok p ∧
      io'.abs = (if sel then io.abs.release fd e else io.abs) ∧
      ∀ e', e ≠ e' → (io'.contexts p).m_events.has e' = (io.contexts p).m_events.has e' := by
  cases hm : (io.contexts p).m_events.has e with
  | true =>
    rw [hsel hm]
    cases real with
    | false => exact ⟨io, rfl, hi, hp, rfl, fun _ _ => rfl⟩
    | true =>
      obtain ⟨io', hd, hr, ht⟩ := dispatchEvent_removes hi hp hm
      obtain ⟨hi', hp', _⟩ := hi.removes hp hm hr
      refine ⟨io', hd, hi', hp', hi.removes_abs hp hm hr ht, fun e' hne => ?_⟩
      rw [Rewritten.contexts hr, Function.update_self, FdContext.without_has]
      simp [hne]
  | false =>
    have hno : real = false := by
      cases real with
      | false => rfl
      | true => rw [hreal rfl] at hm; cases hm
    rw [hno]
    refine ⟨io, rfl, hi, hp, ?_, fun _ _ => rfl⟩
    rw [io.abs.release_absent (hi.not_has_of_absent hp hm), ite_self]

theorem realEvents_of_has {events : BitVec 32} (hm : (io.contexts p).m_events.has e = true) :
    (realEvents (io.contexts p) events).has e = Registrations.signalled events e := by
  simp [has_realEvents, hm, Registrations.signalled]

theorem RepInv.reported_has (hi : RepInv io) {events : BitVec 32} {ev : EpollEvent}
    (hrep : io.Reported fd events ev)
    (h : (realEvents (io.contexts ev.ptr) events).has e = true) :
    (io.contexts ev.ptr).m_events.has e = true := by
  rw [has_realEvents, Bool.or_eq_true] at h
  rcases h with h | h
  · have hbit := congrArg (fun b : BitVec 32 => b.getLsbD e.index) hrep.2
    have hlt : e.index < 32 := by cases e <;> decide
    have herr : EPOLLERR.getLsbD e.index = false := by cases e <;> decide
    have hhup : EPOLLHUP.getLsbD e.index = false := by cases e <;> decide
    simp only [BitVec.getLsbD_and, BitVec.getLsbD_not, BitVec.getLsbD_or, h, hlt, herr, hhup,
      decide_true, Bool.true_and, Bool.or_false, BitVec.getLsbD_zero, Bool.not_eq_false'] at hbit
    rw [← hi.mask fd ev hrep.1 e]
    exact hbit
  · exact ((Bool.and_eq_true _ _).mp h).2

theorem idleEvent_answers (hi : RepInv io) {events : BitVec 32} {ev : EpollEvent}
    (hrep : io.Reported fd events ev) :
    ∃ r io', io.idleEvent ev.ptr events = .ok (r, io') ∧
      Answers io (.idleEvent fd events) r io' := by
  obtain ⟨hlt, hfd, _⟩ := hi.ok.back fd ev hrep.1
  have hp : io.contextAt fd = .ok ev.ptr := by
    rw [contextAt_ok_iff, ← hfd]
    exact hi.placed ev.ptr hlt
  by_cases hd : io.dispatches ev.ptr events = true
  · obtain ⟨io₁, h₁, hi₁, hp₁, habs₁, hbits⟩ := dispatchEvent_answers (e := .READ) hi hp
      (hi.reported_has hrep) (fun hm => (realEvents_of_has hm).symm)
    have hreal : (realEvents (io.contexts ev.ptr) events).has .WRITE = true →
        (io₁.contexts ev.ptr).m_events.has .WRITE = true := by
      intro h
      rw [hbits .WRITE (by simp)]
      exact hi.reported_has hrep h
    have hsel : (io₁.contexts ev.ptr).m_events.has .WRITE = true →
        Registrations.signalled events .WRITE =
          (realEvents (io.contexts ev.ptr) events).has .WRITE := by
      intro hm
      rw [hbits .WRITE (by simp)] at hm
      exact (realEvents_of_has hm).symm
    obtain ⟨io₂, h₂, hi₂, _, habs₂, _⟩ := dispatchEvent_answers hi₁ hp₁ hreal hsel
    refine ⟨.done, io₂, idleEvent_ok_iff.mpr ⟨rfl, Or.inr ⟨hd, io₁, h₁, h₂⟩⟩, hi₂, ?_, by simp⟩
    rw [Registrations.step, Registrations.releaseAll, habs₂, habs₁]
  · have hnone : ∀ e, Registrations.signalled events e = true → io.abs.waiters fd e = none := by
      intro e hsig
      apply hi.not_has_of_absent hp
      by_contra hm
      rw [Bool.not_eq_false] at hm
      exact hd (dispatches_iff.mpr ⟨e, hm, (realEvents_of_has hm).trans hsig⟩)
    have hrelease : ∀ e, (if Registrations.signalled events e then io.abs.release fd e
        else io.abs) = io.abs := by
      intro e
      split
      · rename_i hsig
        exact io.abs.release_absent (hnone e hsig)
      · rfl
    rw [Bool.not_eq_true] at hd
    refine ⟨.done, io, idleEvent_ok_iff.mpr ⟨rfl, Or.inl ⟨hd, rfl⟩⟩, hi.answers_nothing ?_⟩
    simp only [Registrations.step, Registrations.releaseAll, hrelease]

/-- A descriptor whose growth fits an `int`, a report the kernel makes, and a
caller under a scheduler. -/
structure Scheduled (io : IOManager) (op : Op) : Prop where
  allowed : io.Allowed op
  fits : op.fd * 3 / 2 ≤ INT_MAX
  ready : ∀ c, op = .addEvent c → c.Ready

theorem exec_answers (hi : RepInv io) {op : Op} (hs : io.Scheduled op) :
    ∃ r io', io.exec op = .ok (r, io') ∧ Answers io op r io' := by
  cases op with
  | addEvent c => exact addEvent_answers hi hs.fits (hs.ready c rfl)
  | delEvent fd e => exact delEvent_answers hi fd e
  | cancelEvent fd e => exact cancelEvent_answers hi fd e
  | cancelAll fd => exact cancelAll_answers hi fd
  | idleEvent fd events =>
    obtain ⟨ev, hrep⟩ := hs.allowed.2 fd events rfl
    simp only [exec, hrep.1]
    exact idleEvent_answers hi hrep

theorem initial_repInv : RepInv initial ∧ initial.abs = .empty := by
  refine ⟨⟨initial_eventsOk, Nat.le_of_eq initial_length.symm, ?_, ?_, ?_, ?_⟩, abs_eq ?_ rfl⟩
  · rw [initial_length]
    decide
  · intro p hp
    obtain ⟨j, hj, hc⟩ := initial_placed hp
    rw [hc]
    exact contextAt_ok_iff.mp hj
  · intro p hp
    obtain ⟨j, _, hc⟩ := initial_placed hp
    rw [hc]
    exact FdContext.slotsOk_new j
  · intro fd ev hev
    rw [initial_epoll] at hev
    cases hev
  · funext fd e
    by_cases hlen : fd < initial.m_fdContexts.length
    · obtain ⟨p, hp, hlt, _⟩ := initial_tableOk.contextAt_of_lt hlen
      obtain ⟨j, _, hc⟩ := initial_placed hlt
      rw [abs_waiters_of_contextAt hp, hc]
      simp [FdContext.registration, Registrations.empty]
    · exact abs_waiters_of_length_le (Nat.le_of_not_lt hlen)

/-- Runs of the table, each call labelled with its result. -/
def system : System IOManager (Op × Outcome) where
  init io := io = initial
  step io a io' := io.Scheduled a.1 ∧ io.exec a.1 = .ok (a.2, io')

/-- The table of contexts implements the map of registrations: every run is
answered by the map with the same results and ends in the map that the table
stands for, a refused call leaves the state as it was, and no call faults. -/
theorem table_refines_registrations {tr : List (Move IOManager (Op × Outcome))} {io : IOManager}
    (h : Run system initial tr io) :
    RepInv io ∧
      (∃ tr', Run Registrations.system .empty tr' io.abs ∧
        tr'.map Move.act = tr.map Move.act) ∧
      (∀ m ∈ tr, m.act.2 = .bool false ∨ m.act.2 = .logicError → m.post = m.pre) ∧
      ∀ op, io.Scheduled op → ∃ r io', io.exec op = .ok (r, io') := by
  have hstep : ∀ {io a io'}, RepInv io → system.step io a io' → Answers io a.1 a.2 io' := by
    intro io a io' hi hs
    obtain ⟨r, io₁, he, ha⟩ := exec_answers hi hs.1
    rw [hs.2] at he
    cases he
    exact ha
  have hkeeps : ∀ {io a io'}, RepInv io → system.step io a io' → RepInv io' :=
    fun hi hs => (hstep hi hs).inv
  have hi := h.invariant RepInv hkeeps initial_repInv.1
  refine ⟨hi, ?_, ?_, ?_⟩
  · obtain ⟨tr', s, hr, hacts, _, rfl⟩ := h.simulate (T := Registrations.system)
      (fun io s => RepInv io ∧ s = io.abs)
      (fun hR hs => by
        obtain ⟨hi, rfl⟩ := hR
        exact ⟨_, (hstep hi hs).step, (hstep hi hs).inv, rfl⟩)
      ⟨initial_repInv.1, initial_repInv.2.symm⟩
    exact ⟨tr', hr, hacts⟩
  · intro m hm hrefused
    have hpre := (h.invariant_at RepInv hkeeps initial_repInv.1 hm).1
    exact (hstep hpre (h.step_of_mem hm)).refused hrefused
  · intro op hs
    obtain ⟨r, io', he, _⟩ := exec_answers hi hs
    exact ⟨r, io', he⟩

theorem table_refines_registrations_cancel : ∃ tr io, Run system initial tr io ∧
    tr.map Move.act = [(.addEvent ⟨5, .READ, some 0, ⟨some 0, 0, true⟩⟩, .zero),
      (.cancelEvent 5 .READ, .bool true)] ∧
    RepInv io ∧
    (∃ tr', Run Registrations.system .empty tr' io.abs ∧
      tr'.map Move.act = tr.map Move.act) ∧
    (∀ m ∈ tr, m.act.2 = .bool false ∨ m.act.2 = .logicError → m.post = m.pre) ∧
    ∀ op, io.Scheduled op → ∃ r io', io.exec op = .ok (r, io') := by
  let c : AddCall := ⟨5, .READ, some 0, ⟨some 0, 0, true⟩⟩
  let io₁ := initial.afterCall (.addEvent c)
  have hadd : initial.Scheduled (.addEvent c) :=
    ⟨.of_not_report (by decide) (by simp), by decide, by
      intro c' hc
      cases hc
      exact ⟨rfl, by simp [c]⟩⟩
  have hcancel : io₁.Scheduled (.cancelEvent 5 .READ) :=
    ⟨.of_not_report (by decide) (by simp), by decide, by simp⟩
  have h₁ : system.step initial (.addEvent c, .zero) io₁ :=
    ⟨hadd, exec_eq_afterCall (by decide +kernel)⟩
  have h₂ : system.step io₁ (.cancelEvent 5 .READ, .bool true)
      (io₁.afterCall (.cancelEvent 5 .READ)) :=
    ⟨hcancel, exec_eq_afterCall (by decide +kernel)⟩
  have hrun := Run.cons h₁ (.single h₂)
  exact ⟨_, _, hrun, rfl, table_refines_registrations hrun⟩

end IOManager

end FiberAsync
