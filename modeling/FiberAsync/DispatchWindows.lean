import FiberAsync.TableIdentity

/-!
# The windows of a dispatch

Between the unlock in `idle` and the section of its `delEvent`, a thread is
dispatching an event that every other thread can still see in `m_events`. Here
is what each position of a thread still has to trigger and to delete, which
contexts it points to, and what the sections under a context's mutex leave of
that context.
-/

namespace FiberAsync

set_option autoImplicit false

open Runs Results

namespace IOManager

variable {io io' io₁ : IOManager} {p : ContextPtr} {fd : Nat} {e : Event}

/-- The section overwrites one context and stores no other pointer for `epoll`. -/
structure OnlyAt (io : IOManager) (p : ContextPtr) (io' : IOManager) : Prop where
  others : ∀ q, q ≠ p → io'.contexts q = io.contexts q
  entries : ∀ fd ev, io'.epoll fd = some ev → ev.ptr = p ∨ io.epoll fd = some ev

theorem OnlyAt.refl (io : IOManager) (p : ContextPtr) : OnlyAt io p io :=
  ⟨fun _ _ => rfl, fun _ _ h => Or.inr h⟩

theorem OnlyAt.trans (h : OnlyAt io p io₁) (h' : OnlyAt io₁ p io') : OnlyAt io p io' := by
  refine ⟨fun q hq => (h'.others q hq).trans (h.others q hq), fun fd ev hev => ?_⟩
  rcases h'.entries fd ev hev with hp | hev
  · exact Or.inl hp
  · exact h.entries fd ev hev

theorem resetContext_onlyAt (io : IOManager) (p : ContextPtr) (e : Event) :
    OnlyAt io p (io.resetContext p e) :=
  ⟨fun _ hq => Function.update_of_ne hq _ _, fun _ _ h => Or.inr h⟩

theorem handOver_onlyAt (h : io.handOver p e = .ok io') : OnlyAt io p io' := by
  obtain ⟨_, w, _, rfl⟩ := handOver_ok_iff.mp h
  exact ⟨fun _ _ => rfl, fun _ _ h => Or.inr h⟩

theorem triggerEvent_onlyAt (h : io.triggerEvent p e = .ok io') : OnlyAt io p io' := by
  obtain ⟨_, w, _, rfl⟩ := triggerEvent_ok_iff.mp h
  exact ⟨(resetContext_onlyAt io p e).others, fun _ _ h => Or.inr h⟩

theorem triggerCounted_onlyAt (h : io.triggerCounted p e = .ok io') : OnlyAt io p io' := by
  rcases triggerCounted_ok_iff.mp h with ⟨_, rfl⟩ | ⟨io₁, ht, rfl⟩
  · exact .refl _ p
  · have ht := triggerEvent_onlyAt ht
    exact ⟨ht.others, ht.entries⟩

theorem update_entries {entry : Option EpollEvent} (hentry : ∀ ev, entry = some ev → ev.ptr = p)
    (fd fd' : Nat) (ev : EpollEvent) (h : Function.update io.epoll fd entry fd' = some ev) :
    ev.ptr = p ∨ io.epoll fd' = some ev := by
  by_cases hfd : fd' = fd
  · subst fd'
    rw [Function.update_self] at h
    exact Or.inl (hentry ev h)
  · rw [Function.update_of_ne hfd] at h
    exact Or.inr h

theorem dropped_onlyAt (io : IOManager) (p : ContextPtr) (fd : Nat) (e : Event) :
    OnlyAt io p (io.dropped p fd e) := by
  refine ⟨fun _ hq => Function.update_of_ne hq _ _, fun fd' ev h => ?_⟩
  refine update_entries (fun ev hev => ?_) fd fd' ev h
  split at hev <;> cases hev
  rfl

theorem cleared_onlyAt (io : IOManager) (p : ContextPtr) (fd : Nat) :
    OnlyAt io p (io.cleared p fd) :=
  ⟨fun _ hq => Function.update_of_ne hq _ _,
    fun fd' ev h => update_entries (fun _ hev => by cases hev) fd fd' ev h⟩

theorem added_onlyAt (io : IOManager) (op : EpollOp) (p : ContextPtr) (c : AddCall) :
    OnlyAt io p (io.added op p c) := by
  refine ⟨fun _ hq => Function.update_of_ne hq _ _, fun fd' ev h => ?_⟩
  refine update_entries (fun ev hev => ?_) c.fd fd' ev h
  cases op <;> cases hev <;> rfl

theorem triggerEvent_slot (e' : Event) (h : io.triggerEvent p e = .ok io') (hne : e ≠ e') :
    (io'.contexts p).getEventContext e' = (io.contexts p).getEventContext e' := by
  obtain ⟨_, w, _, rfl⟩ := triggerEvent_ok_iff.mp h
  simp [resetContext, setContext, FdContext.getEventContext_reset, hne]

theorem triggerCounted_slot (e' : Event) (h : io.triggerCounted p e = .ok io')
    (hne : ¬ (e = e' ∧ (io.contexts p).m_events.has e' = true)) :
    (io'.contexts p).getEventContext e' = (io.contexts p).getEventContext e' := by
  rcases triggerCounted_ok_iff.mp h with ⟨_, rfl⟩ | ⟨io₁, ht, rfl⟩
  · rfl
  · have hs := triggerEvent_slot e' ht fun he =>
      hne ⟨he, by rw [← he]; exact (triggerEvent_ok_iff.mp ht).1⟩
    exact hs

end IOManager

/-- What a section that removes events leaves in the context. -/
structure Removal.RemovedCells (k : Removal) (io : IOManager) (p : ContextPtr)
    (io' : IOManager) : Prop where
  only : IOManager.OnlyAt io p io'
  bits : ∀ e, (io'.contexts p).m_events.has e = ((io.contexts p).m_events.has e && !k.selects e)
  slots : ∀ e, ¬ (k.selects e = true ∧ (io.contexts p).m_events.has e = true) →
    (io'.contexts p).getEventContext e = (io.contexts p).getEventContext e

theorem Removal.locked_cells {k : Removal} {io io' : IOManager} {p : ContextPtr} {fd : Nat}
    {r : Outcome} (h : k.locked io p fd = .ok (r, io')) : k.RemovedCells io p io' := by
  have hnothing : ∀ e, (io.contexts p).m_events.has e = false → ∀ e',
      (io.contexts p).m_events.has e' = ((io.contexts p).m_events.has e' && !decide (e = e')) := by
    intro e hm e'
    by_cases he : e = e'
    · simp [← he, hm]
    · simp [he]
  cases k with
  | delEvent e =>
    rcases IOManager.delEventLocked_ok_iff.mp h with ⟨hm, _, rfl⟩ | ⟨hm, _, _, rfl⟩
    · exact ⟨.refl _ p, hnothing e hm, fun _ _ => rfl⟩
    · refine ⟨(IOManager.dropped_onlyAt io p fd e).trans (IOManager.resetContext_onlyAt _ p e),
        fun e' => ?_, fun e' he => ?_⟩
      · simp [IOManager.resetContext, IOManager.dropped, IOManager.setContext, selects]
      · have hne : e ≠ e' := fun heq => he ⟨decide_eq_true heq, heq ▸ hm⟩
        simp [IOManager.resetContext, IOManager.dropped, IOManager.setContext,
          FdContext.getEventContext_reset, hne]
  | cancelEvent e =>
    rcases IOManager.cancelEventLocked_ok_iff.mp h with ⟨hm, _, rfl⟩ | ⟨io₁, ht, _, _, rfl⟩
    · exact ⟨.refl _ p, hnothing e hm, fun _ _ => rfl⟩
    · have hm := (IOManager.triggerEvent_ok_iff.mp ht).1
      have hbits := (IOManager.triggerEvent_sameView ht).events p
      refine ⟨(IOManager.triggerEvent_onlyAt ht).trans (IOManager.dropped_onlyAt io₁ p fd e),
        fun e' => ?_, fun e' he => ?_⟩
      · simp [IOManager.dropped, IOManager.setContext, selects, hbits]
      · have hne : e ≠ e' := fun heq => he ⟨decide_eq_true heq, heq ▸ hm⟩
        simp [IOManager.dropped, IOManager.setContext, IOManager.triggerEvent_slot _ ht hne]
  | cancelAll =>
    rcases IOManager.cancelAllLocked_ok_iff.mp h with
      ⟨hm, _, rfl⟩ | ⟨_, io₁, io₂, h₁, h₂, _, _, rfl⟩
    · exact ⟨.refl _ p, fun e => by simp [hm], fun _ _ => rfl⟩
    · have hbits := (IOManager.triggerCounted_sameView h₁).events p
      have honly := (IOManager.triggerCounted_onlyAt h₁).trans (IOManager.triggerCounted_onlyAt h₂)
      refine ⟨honly.trans (IOManager.cleared_onlyAt io₂ p fd), fun e => ?_, fun e he => ?_⟩
      · simp [IOManager.cleared, IOManager.setContext, selects]
      · have hm : ¬ (io.contexts p).m_events.has e = true := fun hm => he ⟨rfl, hm⟩
        have hs₁ := IOManager.triggerCounted_slot e h₁ (fun hx => hm hx.2)
        have hs₂ := IOManager.triggerCounted_slot e h₂
          (fun hx => hm (by rw [← hbits]; exact hx.2))
        simp [IOManager.cleared, IOManager.setContext, hs₂, hs₁]

namespace RemovePc

def pointers : RemovePc → List ContextPtr
  | find => []
  | lock p | locked p | unlock p => [p]

def past : RemovePc → Bool
  | unlock _ => true
  | _ => false

end RemovePc

namespace Pc

/-- The events a thread in `idle` has still to delete, those it has triggered included. -/
def deleting : Pc → List (ContextPtr × Event)
  | idleUnlock p real _ => real.map (p, ·)
  | idleTrigger p e es _ | idleReset p e es _ | idleDel p e es _ => (e :: es).map (p, ·)
  | idleDeleting p e es _ _ at_ => (if at_.past then es else e :: es).map (p, ·)
  | idleDecrement p es _ => es.map (p, ·)
  | _ => []

/-- The events it has still to trigger. -/
def triggering : Pc → List (ContextPtr × Event)
  | idleUnlock p real _ => real.map (p, ·)
  | idleTrigger p e es _ => (e :: es).map (p, ·)
  | idleReset p _ es _ | idleDel p _ es _ | idleDeleting p _ es _ _ _ | idleDecrement p es _ =>
    es.map (p, ·)
  | _ => []

def pointers : Pc → List ContextPtr
  | addOp _ p | addLock _ _ p | addLocked _ _ p => [p]
  | remove _ _ at_ => at_.pointers
  | idleLock p _ more | idleLocked p _ more | idleContinue p more | idleUnlock p _ more
  | idleTrigger p _ _ more | idleReset p _ _ more | idleDel p _ _ more | idleDecrement p _ more
  | idleEnd p more => p :: more.map Prod.fst
  | idleDeleting p _ _ more _ at_ => at_.pointers ++ p :: more.map Prod.fst
  | _ => []

/-- The `addEvent` a thread is in, up to its section under the mutex. -/
def adding : Pc → Option AddCall
  | addFind c | addGrow c | addOp c _ | addLock c _ _ | addLocked c _ _ => some c
  | _ => none

theorem triggering_sub (pc : Pc) : pc.triggering ⊆ pc.deleting := by
  cases pc with
  | idleReset p e es more | idleDel p e es more | idleDecrement p es more =>
    simp [triggering, deleting]
  | idleDeleting p e es more fd at_ => cases at_ <;> simp [triggering, deleting, RemovePc.past]
  | _ => exact List.Subset.refl _

section Shape

variable (p : ContextPtr) (more : List Report) (es : List Event)

@[simp] theorem deleting_process : (process p more es).deleting = es.map (p, ·) := by
  cases es <;> rfl

@[simp] theorem triggering_process : (process p more es).triggering = es.map (p, ·) := by
  cases es <;> rfl

@[simp] theorem pointers_process : (process p more es).pointers = p :: more.map Prod.fst := by
  cases es <;> rfl

@[simp] theorem adding_process : (process p more es).adding = none := by cases es <;> rfl

@[simp] theorem deleting_nextReport : (nextReport more).deleting = [] := by cases more <;> rfl

@[simp] theorem triggering_nextReport : (nextReport more).triggering = [] := by cases more <;> rfl

@[simp] theorem pointers_nextReport : (nextReport more).pointers = more.map Prod.fst := by
  cases more <;> rfl

@[simp] theorem adding_nextReport : (nextReport more).adding = none := by cases more <;> rfl

end Shape

structure Ok (io : IOManager) (pc : Pc) : Prop where
  pointers : ∀ p ∈ pc.pointers, p < io.allocated
  nodup : pc.deleting.Nodup
  adding : ∀ c, pc.adding = some c → c.caller.scheduler.isSome = true
  target : ∀ p e es more fd at_, pc = .idleDeleting p e es more fd at_ →
    fd = (io.contexts p).m_fd ∧ ∀ q ∈ at_.pointers, q = p

theorem Ok.mono {io io' : IOManager} {pc : Pc} (h : pc.Ok io)
    (hgrows : io.allocated ≤ io'.allocated)
    (hfd : ∀ p < io.allocated, (io'.contexts p).m_fd = (io.contexts p).m_fd) : pc.Ok io' := by
  refine ⟨fun p hp => Nat.lt_of_lt_of_le (h.pointers p hp) hgrows, h.nodup, h.adding, ?_⟩
  intro p e es more fd at_ hpc
  subst hpc
  rw [hfd p (h.pointers p (by simp [Pc.pointers]))]
  exact h.target p e es more fd at_ rfl

theorem deleting_pointers {pc : Pc} {p : ContextPtr} {e : Event} (h : (p, e) ∈ pc.deleting) :
    p ∈ pc.pointers := by
  cases pc <;> simp only [deleting, pointers, List.mem_map, List.not_mem_nil] at h ⊢ <;>
  · obtain ⟨_, _, h⟩ := h
    cases h
    simp

variable {io : IOManager} {pc pc' : Pc}

/-- A position from which no `delEvent` of `idle` is under way. -/
def Plain (pc : Pc) : Prop := ∀ p e es more fd at_, pc ≠ .idleDeleting p e es more fd at_

theorem plain_nextReport (more : List Report) : (nextReport more).Plain := by
  cases more <;> simp [nextReport, Plain]

theorem plain_process (p : ContextPtr) (more : List Report) (es : List Event) :
    (process p more es).Plain := by
  cases es <;> simp [process, Plain]

theorem Ok.next (h : pc.Ok io) (hplain : pc'.Plain) (hp : ∀ p ∈ pc'.pointers, p ∈ pc.pointers)
    (hd : pc'.deleting.Sublist pc.deleting) (ha : ∀ c, pc'.adding = some c → pc.adding = some c) :
    pc'.Ok io :=
  ⟨fun p hp' => h.pointers p (hp p hp'), h.nodup.sublist hd, fun c hc => h.adding c (ha c hc),
    fun p e es more fd at_ hpc => absurd hpc (hplain p e es more fd at_)⟩

theorem sublist_deleting (p : ContextPtr) (e : Event) (es : List Event) (more : List Report)
    (fd : Nat) (at_ : RemovePc) :
    (es.map (p, ·)).Sublist (idleDeleting p e es more fd at_).deleting := by
  apply List.Sublist.map
  split
  · exact List.Sublist.refl _
  · exact List.sublist_cons_self e es

/-- A step inside the `delEvent` of `idle`, which keeps to the context it was called for. -/
theorem Ok.deleting_next {p : ContextPtr} {e : Event} {es : List Event} {more : List Report}
    {fd : Nat} {at_ at' : RemovePc} (h : (idleDeleting p e es more fd at_).Ok io)
    (hat : ∀ q ∈ at'.pointers, q = p)
    (hd : (idleDeleting p e es more fd at').deleting.Sublist
      (idleDeleting p e es more fd at_).deleting) : (idleDeleting p e es more fd at').Ok io := by
  refine ⟨fun q hq => ?_, h.nodup.sublist hd, by simp [Pc.adding], ?_⟩
  · rcases List.mem_append.mp hq with hq | hq
    · rw [hat q hq]
      exact h.pointers p (by simp [Pc.pointers])
    · exact h.pointers q (List.mem_append_right _ hq)
  · intro p' e' es' more' fd' at₁ heq
    cases heq
    exact ⟨(h.target _ _ _ _ _ _ rfl).1, hat⟩

theorem realList_nodup (m : EventMask) : (realList m).Nodup :=
  List.Nodup.filter _ (by decide)

theorem mem_realList {m : EventMask} {e : Event} : e ∈ realList m ↔ m.has e = true := by
  cases e <;> simp [realList]

end Pc

namespace Shared

variable {sh sh' : Shared} {t : Tid} {pc pc' : Pc}

/-- The thread's own position stays consistent, judged by the contexts before the step. -/
theorem Steps.ok (hok : pc.Ok sh.io) (ht : sh.io.TableOk)
    (hplaced : ∀ p < sh.io.allocated, sh.io.contextAt (sh.io.contexts p).m_fd = .ok p)
    (h : Steps sh t pc sh' pc') (hgrow : ∀ c, pc ≠ .addGrow c) : pc'.Ok sh.io := by
  have hfind : ∀ {fd p}, sh.io.findContext fd = .ok (some p) → p < sh.io.allocated := by
    intro fd p hf
    exact (ht.of_contextAt (IOManager.findContext_some_iff.mp hf).2).1
  cases h with
  | addGrow => exact absurd rfl (hgrow _)
  | addFound hf =>
    exact ⟨by simpa [Pc.pointers] using hfind hf, by simp [Pc.deleting], hok.adding, by simp⟩
  | addMissing =>
    exact hok.next (by simp [Pc.Plain]) (by simp [Pc.pointers]) (by simp [Pc.deleting])
      (fun _ h => h)
  | addOp | addLock =>
    exact hok.next (by simp [Pc.Plain]) (fun _ h => h) (by simp [Pc.deleting]) (fun _ h => h)
  | addLocked =>
    exact hok.next (by simp [Pc.Plain]) (by simp [Pc.pointers]) (by simp [Pc.deleting])
      (by simp [Pc.adding])
  | addUnlock | removeReturn =>
    exact hok.next (by simp [Pc.Plain]) (by simp [Pc.pointers]) (by simp [Pc.deleting])
      (by simp [Pc.adding])
  | removeStep h =>
    cases h with
    | found hf =>
      exact ⟨by simpa [Pc.pointers, RemovePc.pointers] using hfind hf, by simp [Pc.deleting],
        by simp [Pc.adding], by simp⟩
    | lock | locked =>
      exact hok.next (by simp [Pc.Plain]) (fun _ h => h) (by simp [Pc.deleting])
        (by simp [Pc.adding])
  | idleLock | idleSkip =>
    exact hok.next (by simp [Pc.Plain]) (fun _ h => h) (by simp [Pc.deleting]) (by simp [Pc.adding])
  | idleDispatch =>
    refine ⟨hok.pointers, ?_, by simp [Pc.adding], by simp⟩
    exact (Pc.realList_nodup _).map (fun _ _ h => (Prod.mk.inj h).2)
  | idleContinue | idleEnd =>
    refine hok.next (Pc.plain_nextReport _) (fun q hq => ?_) (by simp) (by simp)
    rw [Pc.pointers_nextReport] at hq
    exact List.mem_cons_of_mem _ hq
  | idleUnlock | idleDecrement =>
    refine hok.next (Pc.plain_process _ _ _) (fun q hq => ?_) ?_ (by simp)
    · rw [Pc.pointers_process] at hq
      exact hq
    · rw [Pc.deleting_process]
      exact List.Sublist.refl _
  | idleTrigger | idleReset =>
    exact hok.next (by simp [Pc.Plain]) (fun _ h => h) (by simp [Pc.deleting]) (by simp [Pc.adding])
  | idleDel =>
    refine ⟨hok.pointers, hok.nodup, by simp [Pc.adding], ?_⟩
    intro p e es more fd at_ heq
    cases heq
    exact ⟨rfl, by simp [RemovePc.pointers]⟩
  | deleteReturn =>
    exact hok.next (by simp [Pc.Plain]) (fun q hq => List.mem_append_right _ hq)
      (Pc.sublist_deleting _ _ _ _ _ _) (by simp [Pc.adding])
  | deleteStep h =>
    obtain ⟨hfd, hat⟩ := hok.target _ _ _ _ _ _ rfl
    cases h with
    | found hf =>
      rename_i p e es more fd q
      have hp := hok.pointers p (by simp [Pc.pointers])
      have hq := (IOManager.findContext_some_iff.mp hf).2
      rw [hfd, hplaced p hp] at hq
      cases hq
      exact hok.deleting_next (by simp [RemovePc.pointers]) (List.Sublist.refl _)
    | lock => exact hok.deleting_next hat (List.Sublist.refl _)
    | locked => exact hok.deleting_next hat (Pc.sublist_deleting _ _ _ _ _ (.locked _))

end Shared

end FiberAsync
