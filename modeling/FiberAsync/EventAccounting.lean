import FiberAsync.EventInterest
import FiberAsync.Library.Counting
import FiberAsync.Library.Runs
import Mathlib.Algebra.BigOperators.Group.Finset.Piecewise
import Mathlib.Algebra.BigOperators.Group.Finset.Sigma

/-!
# Accounting of pending events

`m_pendingEventCount` against the number of registered (descriptor, event)
pairs. The difference of the two, modulo 2^64, is kept by every operation of the
API; an event processed by `idle` moves it, because both `delEvent` and the
statement after it decrement the counter.
-/

namespace FiberAsync

set_option autoImplicit false

open Runs Results Counting

namespace EventMask

def size (m : EventMask) : Nat := ∑ e : Event, if m.has e then 1 else 0

theorem size_eq (m : EventMask) :
    m.size = (if m.has .READ then 1 else 0) + (if m.has .WRITE then 1 else 0) := rfl

theorem size_insert {m : EventMask} {e : Event} (h : m.has e = false) :
    (m.insert e).size = m.size + 1 := by
  cases e <;> simp [size_eq, h]
  omega

theorem size_erase {m : EventMask} {e : Event} (h : m.has e = true) :
    (m.erase e).size + 1 = m.size := by
  cases e <;> simp [size_eq, h]
  omega

theorem size_NONE : NONE.size = 0 := by decide

end EventMask

namespace IOManager

variable {io io' : IOManager} {p : ContextPtr} {fd : Nat} {e : Event} {r : Outcome}

/-- The pairs whose bit is set in the `m_events` of some context. -/
def registered (io : IOManager) : Finset (Nat × Event) :=
  ((Finset.range io.allocated ×ˢ (Finset.univ : Finset Event)).filter
    fun x => (io.contexts x.1).m_events.has x.2 = true).image
      fun x => ((io.contexts x.1).m_fd, x.2)

theorem mem_registered : (fd, e) ∈ io.registered ↔
    ∃ p < io.allocated, (io.contexts p).m_fd = fd ∧ (io.contexts p).m_events.has e = true := by
  simp only [registered, Finset.mem_image, Finset.mem_filter, Finset.mem_product, Finset.mem_range,
    Finset.mem_univ, and_true, Prod.exists, Prod.mk.injEq]
  constructor
  · intro hx
    obtain ⟨p, e', ⟨hp, hm⟩, hfd, rfl⟩ := hx
    exact ⟨p, hp, hfd, hm⟩
  · intro hx
    obtain ⟨p, hp, hfd, hm⟩ := hx
    exact ⟨p, e, ⟨hp, hm⟩, hfd, rfl⟩

/-- The number of bits set in all contexts together. -/
def bitCount (io : IOManager) : Nat :=
  total (Finset.range io.allocated) (fun ctx => ctx.m_events.size) io.contexts

theorem EventsOk.card_registered (hi : EventsOk io) : io.registered.card = io.bitCount := by
  rw [registered, Finset.card_image_of_injOn, Finset.card_filter, Finset.sum_product]
  · rfl
  · rintro ⟨p, e⟩ hx ⟨q, e'⟩ hy heq
    simp only [Finset.coe_filter, Finset.mem_product, Finset.mem_range, Set.mem_ofPred_eq] at hx hy
    obtain ⟨hfd, rfl⟩ := Prod.mk.inj heq
    rw [hi.unique hx.1.1 hy.1.1 (has_ne_NONE hx.2) (has_ne_NONE hy.2) hfd]

theorem card_registered_le {n : Nat} (h : ∀ fd e, (fd, e) ∈ io.registered → fd < n) :
    io.registered.card ≤ n * 2 := by
  have hsub : io.registered ⊆ Finset.range n ×ˢ Finset.univ := by
    rintro ⟨fd, e⟩ hx
    simpa using h fd e hx
  have hcard := Finset.card_le_card hsub
  rwa [Finset.card_product, Finset.card_range] at hcard

theorem EventsOk.card_lt (hi : EventsOk io) : io.registered.card < 2 ^ 64 := by
  have hcard := card_registered_le (n := INT_MAX + 1) <| by
    intro fd e h
    obtain ⟨p, hp, rfl, hm⟩ := mem_registered.mp h
    exact Nat.lt_succ_of_le (hi.listed p hp (has_ne_NONE hm)).1
  unfold INT_MAX at hcard
  omega

/-- How far the counter is from the number of bits, modulo 2^64. -/
def drift (io : IOManager) : BitVec 64 := io.m_pendingEventCount - BitVec.ofNat 64 io.bitCount

/-- The counter is the number of registered pairs. -/
def PendingExact (io : IOManager) : Prop :=
  io.m_pendingEventCount.toNat = io.registered.card

theorem EventsOk.pendingExact_iff (hi : EventsOk io) : io.PendingExact ↔ io.drift = 0#64 := by
  have hlt := hi.card_lt
  rw [PendingExact, drift, ← hi.card_registered]
  bv_omega

theorem SameView.bitCount (h : SameView io io') : io'.bitCount = io.bitCount := by
  unfold IOManager.bitCount
  rw [h.allocated]
  exact total_congr _ _ fun p _ => congrArg EventMask.size (h.events p)

theorem ResizedTo.bitCount {size : Nat} (h : ResizedTo io size io') :
    io'.bitCount = io.bitCount := by
  have hsub : Finset.range io.allocated ⊆ Finset.range io'.allocated :=
    Finset.range_subset_range.mpr h.grows
  have hnew : ∀ p ∈ Finset.range io'.allocated, p ∉ Finset.range io.allocated →
      (io'.contexts p).m_events.size = 0 := by
    intro p hp hn
    rw [h.unused p (by simpa using hn) (by simpa using hp), EventMask.size_NONE]
  unfold IOManager.bitCount total
  rw [← Finset.sum_subset hsub hnew]
  apply Finset.sum_congr rfl
  intro p hp
  rw [h.old p (Finset.mem_range.mp hp)]

theorem bitCount_rewritten {ctx : FdContext} {entry : Option EpollEvent}
    (h : Rewritten io p ctx entry io') (hp : p < io.allocated) :
    io'.bitCount + (io.contexts p).m_events.size = io.bitCount + ctx.m_events.size := by
  unfold bitCount
  rw [h.allocated, h.contexts]
  exact total_update _ _ (Finset.mem_range.mpr hp) ctx

/-- The invariant holds and the drift has gone down by `k`. -/
structure Drifts (io : IOManager) (k : Nat) (io' : IOManager) : Prop where
  ok : EventsOk io'
  drift : io'.drift = io.drift - BitVec.ofNat 64 k

theorem Drifts.refl (hi : EventsOk io) : Drifts io 0 io := ⟨hi, by simp⟩

theorem Drifts.trans {io₁ io₂ io₃ : IOManager} {k l : Nat} (h : Drifts io₁ k io₂)
    (h' : Drifts io₂ l io₃) : Drifts io₁ (k + l) io₃ :=
  ⟨h'.ok, by rw [h'.drift, h.drift]; bv_omega⟩

theorem triggerEvent_drifts (hi : EventsOk io) (h : io.triggerEvent p e = .ok io') :
    Drifts io 0 io' := by
  have hs := triggerEvent_sameView h
  obtain ⟨_, w, _, rfl⟩ := triggerEvent_ok_iff.mp h
  refine ⟨hs.eventsOk hi, ?_⟩
  simp only [IOManager.drift, hs.bitCount]
  exact (BitVec.sub_zero _).symm

theorem addEventLocked_drifts (hi : EventsOk io) (hp : p < io.allocated) {c : AddCall}
    (hfd : (io.contexts p).m_fd = c.fd) (hle : c.fd ≤ INT_MAX)
    (h : io.addEventLocked (io.addOp p) p c = .ok (r, io')) : Drifts io 0 io' := by
  rcases addEventLocked_ok_iff.mp h with ⟨_, _, rfl⟩ | ⟨hm, _, _, hop, _, rfl⟩
  · exact .refl hi
  · have hsize := total_update (s := Finset.range io.allocated)
      (fun ctx : FdContext => ctx.m_events.size) io.contexts (Finset.mem_range.mpr hp)
      ({ io.contexts p with m_events := (io.contexts p).m_events.insert c.event }.setEventContext
        c.eventContext c.event)
    simp only [FdContext.setEventContext_events, EventMask.size_insert hm] at hsize
    have hbits : (io.added (io.addOp p) p c).bitCount = io.bitCount + 1 := by
      change total _ _ _ = total _ _ _ + 1
      simp only [added, setContext]
      omega
    refine ⟨added_eventsOk hi hp hfd hle hop, ?_⟩
    change io.m_pendingEventCount + 1 - BitVec.ofNat 64 _ = _
    rw [hbits, IOManager.drift]
    bv_omega

theorem dropped_drifts (hi : EventsOk io) (hp : p < io.allocated)
    (hfd : (io.contexts p).m_fd = fd) (hm : (io.contexts p).m_events.has e = true) :
    Drifts io 0 (io.dropped p fd e) := by
  have hbits := bitCount_rewritten (dropped_rewritten (e := e) hfd) hp
  have hsize := EventMask.size_erase hm
  refine ⟨dropped_eventsOk hi hp hfd hm, ?_⟩
  change io.m_pendingEventCount - 1 - BitVec.ofNat 64 _ = _
  rw [IOManager.drift]
  simp only at hbits
  bv_omega

theorem delEventLocked_drifts (hi : EventsOk io) (hp : p < io.allocated)
    (hfd : (io.contexts p).m_fd = fd) (h : io.delEventLocked p fd e = .ok (r, io')) :
    Drifts io 0 io' := by
  rcases delEventLocked_ok_iff.mp h with ⟨_, _, rfl⟩ | ⟨hm, _, _, rfl⟩
  · exact .refl hi
  · have hd := dropped_drifts hi hp hfd hm
    have hs := resetContext_sameView (io.dropped p fd e) p e
    refine ⟨hs.eventsOk hd.ok, ?_⟩
    simp only [IOManager.drift, hs.bitCount]
    exact hd.drift

theorem cancelEventLocked_drifts (hi : EventsOk io) (hp : p < io.allocated)
    (hfd : (io.contexts p).m_fd = fd) (h : io.cancelEventLocked p fd e = .ok (r, io')) :
    Drifts io 0 io' := by
  rcases cancelEventLocked_ok_iff.mp h with ⟨_, _, rfl⟩ | ⟨io₁, ht, _, _, rfl⟩
  · exact .refl hi
  · have hs := triggerEvent_sameView ht
    have hm := (triggerEvent_ok_iff.mp ht).1
    exact (triggerEvent_drifts hi ht).trans (dropped_drifts (hs.eventsOk hi) (hs.allocated ▸ hp)
      ((hs.fd p).trans hfd) (by rw [hs.events]; exact hm))

theorem triggerCounted_count (h : io.triggerCounted p e = .ok io') :
    io'.m_pendingEventCount = io.m_pendingEventCount -
      BitVec.ofNat 64 (if (io.contexts p).m_events.has e then 1 else 0) := by
  rcases triggerCounted_ok_iff.mp h with ⟨hm, rfl⟩ | ⟨io₁, ht, rfl⟩
  · simp [hm]
  · obtain ⟨hm, w, _, rfl⟩ := triggerEvent_ok_iff.mp ht
    simp [hm, resetContext, setContext]

theorem cancelAllLocked_drifts (hi : EventsOk io) (hp : p < io.allocated)
    (hfd : (io.contexts p).m_fd = fd) (h : io.cancelAllLocked p fd = .ok (r, io')) :
    Drifts io 0 io' := by
  rcases cancelAllLocked_ok_iff.mp h with ⟨_, _, rfl⟩ | ⟨hm, io₁, io₂, h₁, h₂, _, _, rfl⟩
  · exact .refl hi
  · have hs := (triggerCounted_sameView h₁).trans (triggerCounted_sameView h₂)
    have hc₁ := triggerCounted_count h₁
    have hc₂ := triggerCounted_count h₂
    rw [(triggerCounted_sameView h₁).events] at hc₂
    have hp₂ : p < io₂.allocated := hs.allocated ▸ hp
    have hfd₂ : (io₂.contexts p).m_fd = fd := (hs.fd p).trans hfd
    have hr : Rewritten io₂ p { io₂.contexts p with m_events := .NONE } none (io₂.cleared p fd) :=
      ⟨rfl, rfl, rfl, by rw [← hfd₂]; rfl, rfl⟩
    have hbits := bitCount_rewritten hr hp₂
    rw [hs.bitCount, hs.events, EventMask.size_NONE, EventMask.size_eq] at hbits
    refine ⟨cleared_eventsOk (hs.eventsOk hi) hp₂ hfd₂ (by rw [hs.events]; exact hm), ?_⟩
    change io₂.m_pendingEventCount - BitVec.ofNat 64 _ = _
    rw [hc₂, hc₁, IOManager.drift]
    generalize (if (io.contexts p).m_events.has .READ = true then 1 else 0) = x at *
    generalize (if (io.contexts p).m_events.has .WRITE = true then 1 else 0) = y at *
    bv_omega

theorem EventsOk.of_findContext (hi : EventsOk io) (h : io.findContext fd = .ok (some p)) :
    p < io.allocated ∧ (io.contexts p).m_fd = fd :=
  hi.table.of_contextAt (findContext_some_iff.mp h).2

theorem withContext_drifts {locked : ContextPtr → Except Fault (Outcome × IOManager)}
    (hi : EventsOk io)
    (hl : ∀ p, p < io.allocated → (io.contexts p).m_fd = fd → locked p = .ok (r, io') →
      Drifts io 0 io')
    (h : io.withContext fd locked = .ok (r, io')) : Drifts io 0 io' := by
  rcases withContext_ok_iff.mp h with ⟨_, _, rfl⟩ | ⟨p, hf, hp⟩
  · exact .refl hi
  · obtain ⟨hlt, hfd⟩ := hi.of_findContext hf
    exact hl p hlt hfd hp

theorem delEvent_drifts (hi : EventsOk io) (h : io.delEvent fd e = .ok (r, io')) :
    Drifts io 0 io' :=
  withContext_drifts hi (fun _ hp hfd => delEventLocked_drifts hi hp hfd) h

theorem addEvent_drifts (hi : EventsOk io) {c : AddCall} (hle : c.fd ≤ INT_MAX)
    (h : io.addEvent c = .ok (r, io')) : Drifts io 0 io' := by
  rcases addEvent_ok_iff.mp h with ⟨p, hf, hl⟩ | ⟨_, p, io₁, hg, hl⟩
  · obtain ⟨hlt, hfd⟩ := hi.of_findContext hf
    exact addEventLocked_drifts hi hlt hfd hle hl
  · obtain ⟨rfl, hlt, hfd⟩ := growContext_eq hi.table hg
    have hr := contextResize_resizedTo hi.table (c.fd * 3 / 2)
    have hgrow : Drifts io 0 (io.contextResize (c.fd * 3 / 2)) := by
      refine ⟨hr.eventsOk hi, ?_⟩
      simp [IOManager.drift, hr.bitCount, hr.rest.count]
    exact hgrow.trans (addEventLocked_drifts hgrow.ok hlt hfd hle hl)

theorem dispatchEvent_drifts (hi : EventsOk io) (h : io.dispatchEvent p e = .ok io') :
    Drifts io 1 io' := by
  obtain ⟨io₁, r, io₂, ht, hd, rfl⟩ := dispatchEvent_ok_iff.mp h
  have h₁ := triggerEvent_drifts hi ht
  have h₂ := h₁.trans (delEvent_drifts h₁.ok hd)
  have hs := SameView.of_count io₂ (io₂.m_pendingEventCount - 1)
  refine ⟨hs.eventsOk h₂.ok, ?_⟩
  have hdrift := h₂.drift
  change io₂.m_pendingEventCount - 1 - BitVec.ofNat 64 io₂.bitCount = _
  unfold IOManager.drift at hdrift ⊢
  bv_omega

/-- The number of events one report makes `idle` process. -/
def dispatchCount (io : IOManager) (p : ContextPtr) (events : BitVec 32) : Nat :=
  if io.dispatches p events then (realEvents (io.contexts p) events).size else 0

theorem idleEvent_drifts (hi : EventsOk io) {events : BitVec 32}
    (h : io.idleEvent p events = .ok (r, io')) : Drifts io (io.dispatchCount p events) io' := by
  obtain ⟨_, ⟨hd, rfl⟩ | ⟨hd, io₁, h₁, h₂⟩⟩ := idleEvent_ok_iff.mp h
  · simp only [dispatchCount, hd]
    exact .refl hi
  · have step : ∀ {io io' : IOManager} {b : Bool} {e : Event}, EventsOk io →
        (if b then io.dispatchEvent p e else .ok io) = .ok io' →
          Drifts io (if b then 1 else 0) io' := by
      intro io io' b e hi h
      cases b
      · cases h
        exact .refl hi
      · exact dispatchEvent_drifts hi h
    simp only [dispatchCount, hd, if_true, EventMask.size_eq]
    have hd₁ := step hi h₁
    exact hd₁.trans (step hd₁.ok h₂)

theorem dispatchCount_bounds {events : BitVec 32} (h : io.dispatches p events = true) :
    io.dispatchCount p events = 1 ∨ io.dispatchCount p events = 2 := by
  obtain ⟨e, _, he⟩ := dispatches_iff.mp h
  simp only [dispatchCount, h, if_true, EventMask.size_eq]
  cases e <;> simp only [he, if_true] <;> split <;> simp

theorem dispatchCount_eq_zero {events : BitVec 32} (h : io.dispatches p events = false) :
    io.dispatchCount p events = 0 := by
  simp [dispatchCount, h]

/-- The operation is a report whose mask check succeeds. -/
def Dispatches (io : IOManager) (op : Op) : Prop :=
  ∃ fd events ev, op = .idleEvent fd events ∧ io.epoll fd = some ev ∧
    io.dispatches ev.ptr events = true

/-- Every operation but a dispatch keeps the drift; a dispatch changes it. -/
theorem exec_drifts (hi : EventsOk io) {op : Op} (ha : io.Allowed op)
    (h : io.exec op = .ok (r, io')) :
    ∃ k, Drifts io k io' ∧ k ≤ 2 ∧ (io.Dispatches op ↔ k ≠ 0) := by
  have hother : ∀ {op : Op}, (∀ fd events, op ≠ .idleEvent fd events) → ¬ io.Dispatches op := by
    rintro op hne ⟨fd, events, ev, rfl, _⟩
    exact hne fd events rfl
  cases op with
  | addEvent c =>
    exact ⟨0, addEvent_drifts hi ha.1 h, by simp, by simpa using hother (by simp)⟩
  | delEvent fd e =>
    exact ⟨0, delEvent_drifts hi h, by simp, by simpa using hother (by simp)⟩
  | cancelEvent fd e =>
    exact ⟨0, withContext_drifts hi (fun _ hp hfd => cancelEventLocked_drifts hi hp hfd) h,
      by simp, by simpa using hother (by simp)⟩
  | cancelAll fd =>
    exact ⟨0, withContext_drifts hi (fun _ hp hfd => cancelAllLocked_drifts hi hp hfd) h,
      by simp, by simpa using hother (by simp)⟩
  | idleEvent fd events =>
    obtain ⟨ev, hev, _⟩ := ha.2 fd events rfl
    simp only [exec, hev] at h
    refine ⟨_, idleEvent_drifts hi h, ?_, ?_⟩
    · cases hd : io.dispatches ev.ptr events with
      | false => rw [dispatchCount_eq_zero hd]; decide
      | true => rcases dispatchCount_bounds hd with hk | hk <;> simp [hk]
    · constructor
      · intro hx
        obtain ⟨fd', events', ev', heq, hev', hd⟩ := hx
        cases heq
        rw [hev] at hev'
        cases hev'
        rcases dispatchCount_bounds hd with hk | hk <;> simp [hk]
      · intro hk
        refine ⟨fd, events, ev, rfl, hev, ?_⟩
        by_contra hd
        exact hk (dispatchCount_eq_zero (by simpa using hd))

theorem initial_drift : initial.drift = 0#64 := by
  obtain ⟨io₀, _, hcount, halloc, hr⟩ := initial_resizedTo
  have hzero : io₀.bitCount = 0 := by simp [bitCount, total, halloc]
  rw [drift, hr.bitCount, hr.rest.count, hcount, hzero]
  decide

/-- Sequences of complete operations, one at a time, from a new manager. -/
def calls : System IOManager Op where
  init io := io = initial
  step io op io' := io.Allowed op ∧ ∃ r, io.exec op = .ok (r, io')

/-- The counter is exact after every operation of a run, and so the first
conjunct of `stopping()` is back once nothing is registered, exactly when no
report of the run has passed the mask check of `idle`. -/
theorem pendingEventCount_exact_iff {tr : List (Move IOManager Op)} {io : IOManager}
    (h : Run calls initial tr io) :
    (∀ m ∈ tr, m.post.PendingExact ∧
      (m.post.registered = ∅ → m.post.m_pendingEventCount = 0)) ↔
      ∀ m ∈ tr, ¬ m.pre.Dispatches m.act := by
  refine Run.forall_iff_guard (fun io => EventsOk io ∧ io.drift = 0#64)
    (fun io op => ¬ io.Dispatches op) _ ?_ ?_ h ⟨initial_eventsOk, initial_drift⟩
  · rintro io op io' ⟨hi, hz⟩ hg ⟨ha, r, he⟩
    obtain ⟨k, hd, _, hk⟩ := exec_drifts hi ha he
    have hk0 : k = 0 := not_not.mp (fun hne => hg (hk.mpr hne))
    refine ⟨hd.ok, ?_⟩
    rw [hd.drift, hz, hk0]
    decide
  · rintro io op io' ⟨hi, hz⟩ ⟨ha, r, he⟩
    obtain ⟨k, hd, hle, hk⟩ := exec_drifts hi ha he
    have hdrift : io'.drift = 0#64 ↔ k = 0 := by
      rw [hd.drift, hz]
      bv_omega
    change (io'.PendingExact ∧ _) ↔ _
    rw [hk, not_not, ← hdrift, ← hd.ok.pendingExact_iff]
    refine ⟨And.left, fun hx => ⟨hx, fun hempty => ?_⟩⟩
    rw [PendingExact, hempty, Finset.card_empty] at hx
    exact BitVec.eq_of_toNat_eq hx

theorem calls_step_afterCall {op : Op} (ha : io.Allowed op)
    (h : (io.exec op).toOption.map Prod.fst = some r) :
    calls.step io op (io.afterCall op) := ⟨ha, r, exec_eq_afterCall h⟩

/-- Three registrations on two descriptors, each removed in another way. -/
def addedAndRemoved : List Op :=
  [.addEvent ⟨5, .READ, some 0, ⟨some 0, 0, true⟩⟩, .addEvent ⟨5, .WRITE, none, ⟨some 0, 0, true⟩⟩,
    .addEvent ⟨50, .READ, some 1, ⟨some 0, 0, true⟩⟩, .delEvent 5 .READ, .cancelEvent 5 .WRITE,
    .cancelAll 50]

/-- An operation that is not a report. -/
def nextCall (io : IOManager) (op : Op) : Option IOManager :=
  match op with
  | .idleEvent _ _ => none
  | _ => if op.fd ≤ INT_MAX then (io.exec op).toOption.map Prod.snd else none

theorem nextCall_sound {io io' : IOManager} {op : Op} (h : io.nextCall op = some io') :
    calls.step io op io' := by
  cases op with
  | idleEvent => cases h
  | _ =>
    obtain ⟨hle, h⟩ := Option.ite_none_right_eq_some.mp h
    obtain ⟨⟨r, _⟩, hexec, rfl⟩ := Option.map_eq_some_iff.mp h
    exact ⟨.of_not_report hle nofun, r, toOption_eq_some.mp hexec⟩

theorem pendingEventCount_exact_iff_removals : ∃ tr io, Run calls initial tr io ∧
    tr.map Move.act = addedAndRemoved ∧ io.registered = ∅ ∧ io.m_pendingEventCount = 0 ∧
    ∀ m ∈ tr, m.post.PendingExact := by
  have hrun : (traceAll nextCall initial addedAndRemoved).map (fun r =>
      (decide (r.2.registered = ∅), r.2.m_pendingEventCount)) = some (true, 0) := by decide +kernel
  obtain ⟨tr, io, hr, hacts, hobs⟩ := Run.exists_of_traceAll nextCall
    nextCall_sound _ hrun
  obtain ⟨hempty, hcount⟩ := Prod.mk.inj hobs
  refine ⟨tr, io, hr, hacts, of_decide_eq_true hempty, hcount, fun m hm => ?_⟩
  have hnone : ∀ m ∈ tr, ¬ m.pre.Dispatches m.act := by
    rintro m hm ⟨fd, events, ev, hact, _⟩
    have hmem : m.act ∈ addedAndRemoved := hacts ▸ List.mem_map_of_mem hm
    rw [hact] at hmem
    simp [addedAndRemoved] at hmem
  exact ((pendingEventCount_exact_iff hr).mpr hnone m hm).1

/-- One registration and its dispatch leave nothing registered and the counter
at 2^64 - 1. -/
theorem counter_wraps_after_dispatch :
    ∃ tr io, Run calls initial tr io ∧
      tr.map Move.act = [.addEvent ⟨5, .READ, some 0, ⟨some 0, 0, true⟩⟩, .idleEvent 5 EPOLLIN] ∧
      io.registered = ∅ ∧ io.m_pendingEventCount = BitVec.allOnes 64 ∧ ¬ io.PendingExact := by
  let c : AddCall := ⟨5, .READ, some 0, ⟨some 0, 0, true⟩⟩
  let io₁ := initial.afterCall (.addEvent c)
  have h₁ : calls.step initial (.addEvent c) io₁ :=
    calls_step_afterCall (r := .zero) (.of_not_report (by decide) (by simp)) (by decide +kernel)
  have hrep : io₁.Allowed (.idleEvent 5 EPOLLIN) := by
    refine ⟨by decide, fun fd events heq => ?_⟩
    cases heq
    exact ⟨⟨EPOLLIN ||| EPOLLET, 5⟩, by decide +kernel, by decide⟩
  have h₂ : calls.step io₁ (.idleEvent 5 EPOLLIN) (io₁.afterCall (.idleEvent 5 EPOLLIN)) :=
    calls_step_afterCall (r := .done) hrep (by decide +kernel)
  have hempty : (io₁.afterCall (.idleEvent 5 EPOLLIN)).registered = ∅ := by decide +kernel
  have hcount : (io₁.afterCall (.idleEvent 5 EPOLLIN)).m_pendingEventCount =
      BitVec.allOnes 64 := by decide +kernel
  refine ⟨_, _, .cons h₁ (.single h₂), rfl, hempty, hcount, ?_⟩
  rw [PendingExact, hempty, hcount]
  decide

end IOManager

end FiberAsync
