import FiberAsync.DispatchWindows

/-!
# The invariant of undisturbed dispatch

One event of one context is unset, armed, or triggered by the one thread that
has still to delete it. As long as no other thread removes or dispatches an
event in its window, every step keeps this, and `triggerEvent` finds the event
armed.
-/

namespace FiberAsync

set_option autoImplicit false

open Runs Results

namespace Registration

/-- A registration that is gone: handed over once if it was dispatched or
cancelled, and not at all if it was deleted. -/
def Settled (r : Registration) : Prop :=
  ∃ w, r.waiter = some w ∧
    (r.removed = some .dispatch ∧ r.enqueued = [w] ∨
      r.removed = some .cancel ∧ r.enqueued = [w] ∨ r.removed = some .delete ∧ r.enqueued = [])

end Registration

/-- The states of one event of one context: its bit, the waiter in its slot, its
registrations, and the threads that have still to delete or to trigger it. -/
inductive CellOk (bit : Bool) (slot : Option Waiter) (l : List Registration)
    (del trig : Tid → Prop) : Prop where
  | unset : bit = false → (∀ r ∈ l, r.Settled) → (∀ t, ¬ del t) → CellOk bit slot l del trig
  | armed (w : Waiter) (rest : List Registration) : bit = true → slot = some w →
      l = { waiter := some w } :: rest → (∀ r ∈ rest, r.Settled) → (∀ t, del t → trig t) →
      CellOk bit slot l del trig
  | triggered (w : Waiter) (rest : List Registration) (t : Tid) : bit = true →
      l = { waiter := some w, enqueued := [w] } :: rest → (∀ r ∈ rest, r.Settled) → del t →
      ¬ trig t → CellOk bit slot l del trig

theorem CellOk.congr {bit bit' : Bool} {slot slot' : Option Waiter} {l l' : List Registration}
    {del trig del' trig' : Tid → Prop} (h : CellOk bit slot l del trig) (hb : bit' = bit)
    (hs : slot' = slot) (hl : l' = l) (hd : ∀ t, del' t ↔ del t) (ht : ∀ t, trig' t ↔ trig t) :
    CellOk bit' slot' l' del' trig' := by
  subst hb hs hl
  rwa [funext fun t => propext (hd t), funext fun t => propext (ht t)]

/-- The step touches one context and its registrations only. -/
structure Shared.Local (sh : Shared) (p : ContextPtr) (sh' : Shared) : Prop where
  only : IOManager.OnlyAt sh.io p sh'.io
  log : ∀ q, q ≠ p → sh'.log q = sh.log q

namespace Threads

def Deletes (s : Threads) (p : ContextPtr) (e : Event) (t : Tid) : Prop :=
  (p, e) ∈ (s.pc t).deleting

def Triggers (s : Threads) (p : ContextPtr) (e : Event) (t : Tid) : Prop :=
  (p, e) ∈ (s.pc t).triggering

structure DispatchInv (s : Threads) : Prop where
  tableInv : s.TableInv
  owners : s.OwnersOk
  placed : ∀ p < s.io.allocated, s.io.contextAt (s.io.contexts p).m_fd = .ok p
  entries : ∀ fd ev, s.io.epoll fd = some ev → ev.ptr < s.io.allocated
  pcs : ∀ t, (s.pc t).Ok s.io
  unused : ∀ p, s.io.allocated ≤ p → ∀ e, s.log p e = []
  unique : ∀ p e t t', s.Deletes p e t → s.Deletes p e t' → t = t'
  cells : ∀ p < s.io.allocated, ∀ e, CellOk ((s.io.contexts p).m_events.has e)
    ((s.io.contexts p).getEventContext e).waiter (s.log p e) (s.Deletes p e) (s.Triggers p e)

/-- The step is not one of those by which threads get in each other's way. -/
structure Undisturbed (s : Threads) (a : Act) : Prop where
  /-- `addEvent` is called under a scheduler, for a descriptor whose growth fits an `int`. -/
  caller : ∀ t c, a = .addEvent t c → c.Fits ∧ c.caller.scheduler.isSome = true
  growth : ¬ s.Shrinks a
  /-- A section that removes events removes none that a thread is dispatching. -/
  removal : ∀ t k fd p, a = .run t → s.pc t = .remove k fd (.locked p) → ∀ e,
    k.selects e = true → (s.io.contexts p).m_events.has e = true → ∀ u, ¬ s.Deletes p e u
  /-- A mask check that succeeds finds all real events registered and none of
  them being dispatched. -/
  dispatch : ∀ t p events more, a = .run t → s.pc t = .idleLocked p events more →
    s.io.dispatches p events = true → ∀ e,
      (IOManager.realEvents (s.io.contexts p) events).has e = true →
        (s.io.contexts p).m_events.has e = true ∧ ∀ u, ¬ s.Deletes p e u
  /-- An iteration that processed an event ends while nobody holds the mutex. -/
  release : ∀ t p more, a = .run t → s.pc t = .idleEnd p more → s.owner p = none

section Step

variable {s : Threads} {t : Tid} {sh : Shared} {pc : Pc} {p : ContextPtr} {e : Event}

/-- The state after a step of thread `t` that leads to `sh` and `pc`. -/
def moved (s : Threads) (t : Tid) (sh : Shared) (pc : Pc) : Threads :=
  { sh with pc := Function.update s.pc t pc }

theorem deletes_moved {u : Tid} : (s.moved t sh pc).Deletes p e u ↔
    if u = t then (p, e) ∈ pc.deleting else s.Deletes p e u := by
  unfold Deletes moved
  by_cases hu : u = t <;> simp [hu]

theorem triggers_moved {u : Tid} : (s.moved t sh pc).Triggers p e u ↔
    if u = t then (p, e) ∈ pc.triggering else s.Triggers p e u := by
  unfold Triggers moved
  by_cases hu : u = t <;> simp [hu]

theorem Triggers.deletes {u : Tid} (h : s.Triggers p e u) : s.Deletes p e u :=
  (s.pc u).triggering_sub h

theorem DispatchInv.lt_of_deletes (hi : s.DispatchInv) {u : Tid} (h : s.Deletes p e u) :
    p < s.io.allocated := (hi.pcs u).pointers p (Pc.deleting_pointers h)

theorem DispatchInv.cell_kept (hi : s.DispatchInv) (hp : p < s.io.allocated)
    (hb : (sh.io.contexts p).m_events.has e = (s.io.contexts p).m_events.has e)
    (hs : (sh.io.contexts p).getEventContext e = (s.io.contexts p).getEventContext e)
    (hl : sh.log p e = s.log p e)
    (hd : (p, e) ∈ pc.deleting ↔ (p, e) ∈ (s.pc t).deleting)
    (ht : (p, e) ∈ pc.triggering ↔ (p, e) ∈ (s.pc t).triggering) :
    CellOk ((sh.io.contexts p).m_events.has e) ((sh.io.contexts p).getEventContext e).waiter
      (sh.log p e) ((s.moved t sh pc).Deletes p e) ((s.moved t sh pc).Triggers p e) := by
  refine (hi.cells p hp e).congr hb (by rw [hs]) hl (fun u => ?_) (fun u => ?_)
  · rw [deletes_moved]
    by_cases hu : u = t
    · simp [hu, hd, Deletes]
    · simp [hu]
  · rw [triggers_moved]
    by_cases hu : u = t
    · simp [hu, ht, Triggers]
    · simp [hu]

theorem DispatchInv.unique_moved (hi : s.DispatchInv)
    (h : ∀ p e, (p, e) ∈ pc.deleting → s.Deletes p e t ∨ ∀ u, ¬ s.Deletes p e u) :
    ∀ p e u u', (s.moved t sh pc).Deletes p e u → (s.moved t sh pc).Deletes p e u' → u = u' := by
  have hother : ∀ {p e u}, (p, e) ∈ pc.deleting → s.Deletes p e u → u = t := by
    intro p e u hd hu
    rcases h p e hd with ht | hno
    · exact hi.unique p e u t hu ht
    · exact absurd hu (hno u)
  intro p e u u' hu hu'
  rw [deletes_moved] at hu hu'
  split at hu <;> split at hu'
  · rename_i h₁ h₂
    exact h₁.trans h₂.symm
  · rename_i h₁ _
    exact h₁.trans (hother hu hu').symm
  · rename_i _ h₂
    exact (hother hu' hu).trans h₂.symm
  · exact hi.unique p e u u' hu hu'

end Step

section Frame

variable {s : Threads} {t : Tid} {sh : Shared} {pc : Pc} {p : ContextPtr}

theorem DispatchInv.of_same (hi : s.DispatchInv) (htab : (s.moved t sh pc).TableInv)
    (hown : (s.moved t sh pc).OwnersOk) (hsame : IOManager.SameTable s.io sh.io)
    (hent : ∀ fd ev, sh.io.epoll fd = some ev → ev.ptr < s.io.allocated)
    (hunused : ∀ p, s.io.allocated ≤ p → ∀ e, sh.log p e = []) (hok : pc.Ok s.io)
    (hnew : ∀ p e, (p, e) ∈ pc.deleting → s.Deletes p e t ∨ ∀ u, ¬ s.Deletes p e u)
    (hcells : ∀ p < s.io.allocated, ∀ e, CellOk ((sh.io.contexts p).m_events.has e)
      ((sh.io.contexts p).getEventContext e).waiter (sh.log p e)
      ((s.moved t sh pc).Deletes p e) ((s.moved t sh pc).Triggers p e)) :
    (s.moved t sh pc).DispatchInv := by
  have hmono : ∀ {pc : Pc}, pc.Ok s.io → pc.Ok sh.io :=
    fun h => h.mono (Nat.le_of_eq hsame.allocated.symm) (fun p _ => hsame.fd p)
  have halloc : (s.moved t sh pc).io.allocated = s.io.allocated := hsame.allocated
  refine ⟨htab, hown, ?_, ?_, ?_, ?_, hi.unique_moved hnew, ?_⟩
  · intro p hp
    rw [halloc] at hp
    change sh.io.contextAt (sh.io.contexts p).m_fd = .ok p
    rw [hsame.fd, IOManager.contextAt_ok_iff, hsame.table]
    exact IOManager.contextAt_ok_iff.mp (hi.placed p hp)
  · intro fd ev hev
    rw [halloc]
    exact hent fd ev hev
  · intro u
    by_cases hu : u = t
    · subst u
      simpa [moved] using hmono hok
    · simpa [moved, hu] using hmono (hi.pcs u)
  · intro p hp
    rw [halloc] at hp
    exact hunused p hp
  · intro p hp
    rw [halloc] at hp
    exact hcells p hp

/-- A step on locks and positions only. -/
theorem DispatchInv.quiet (hi : s.DispatchInv) (htab : (s.moved t sh pc).TableInv)
    (hown : (s.moved t sh pc).OwnersOk) (hsame : IOManager.SameTable s.io sh.io)
    (hctx : sh.io.contexts = s.io.contexts) (hep : sh.io.epoll = s.io.epoll)
    (hlog : sh.log = s.log) (hok : pc.Ok s.io) (hd : pc.deleting = (s.pc t).deleting)
    (ht : pc.triggering = (s.pc t).triggering) : (s.moved t sh pc).DispatchInv := by
  apply hi.of_same htab hown hsame
  · intro fd ev hev
    rw [hep] at hev
    exact hi.entries fd ev hev
  · intro p hp e
    rw [hlog]
    exact hi.unused p hp e
  · exact hok
  · intro p e hx
    rw [hd] at hx
    exact Or.inl hx
  · intro p hp e
    exact hi.cell_kept hp (by rw [hctx]) (by rw [hctx]) (by rw [hlog]) (by rw [hd]) (by rw [ht])

/-- A step on one context: its own events are left to show. -/
theorem DispatchInv.local (hi : s.DispatchInv) (htab : (s.moved t sh pc).TableInv)
    (hown : (s.moved t sh pc).OwnersOk) (hsame : IOManager.SameTable s.io sh.io)
    (hp : p < s.io.allocated) (hl : Shared.Local s.toShared p sh) (hok : pc.Ok s.io)
    (hd : ∀ x ∈ pc.deleting, x ∈ (s.pc t).deleting)
    (hother : ∀ q e, q ≠ p → ((q, e) ∈ pc.deleting ↔ (q, e) ∈ (s.pc t).deleting) ∧
      ((q, e) ∈ pc.triggering ↔ (q, e) ∈ (s.pc t).triggering))
    (hcell : ∀ e, CellOk ((sh.io.contexts p).m_events.has e)
      ((sh.io.contexts p).getEventContext e).waiter (sh.log p e)
      ((s.moved t sh pc).Deletes p e) ((s.moved t sh pc).Triggers p e)) :
    (s.moved t sh pc).DispatchInv := by
  apply hi.of_same htab hown hsame
  · intro fd ev hev
    rcases hl.only.entries fd ev hev with hptr | hev
    · rw [hptr]
      exact hp
    · exact hi.entries fd ev hev
  · intro q hq e
    rw [hl.log q (fun h => absurd hp (Nat.not_lt.mpr (h ▸ hq)))]
    exact hi.unused q hq e
  · exact hok
  · exact fun q e hx => Or.inl (hd (q, e) hx)
  · intro q hq e
    by_cases hqp : q = p
    · subst q
      exact hcell e
    · have hctx : sh.io.contexts q = s.io.contexts q := hl.only.others q hqp
      have hlog : sh.log q = s.log q := hl.log q hqp
      exact hi.cell_kept hq (by rw [hctx]) (by rw [hctx]) (by rw [hlog]) (hother q e hqp).1
        (hother q e hqp).2

end Frame

section Effects

variable {s : Threads} {t : Tid} {p : ContextPtr} {io : IOManager}

theorem log_at_self (log : Log) (p : ContextPtr)
    (f : Event → List Registration → List Registration) (e : Event) :
    log.at_ p f p e = f e (log p e) := by
  simp [Log.at_]

theorem log_at_other (log : Log) {p q : ContextPtr}
    (f : Event → List Registration → List Registration) (h : q ≠ p) : log.at_ p f q = log q := by
  simp [Log.at_, h]

theorem DispatchInv.armed_of_free (hi : s.DispatchInv) (hp : p < s.io.allocated) {e : Event}
    (hm : (s.io.contexts p).m_events.has e = true) (hfree : ∀ u, ¬ s.Deletes p e u) :
    ∃ w rest, ((s.io.contexts p).getEventContext e).waiter = some w ∧
      s.log p e = { waiter := some w } :: rest ∧ ∀ r ∈ rest, r.Settled := by
  rcases hi.cells p hp e with
    ⟨hb, _, _⟩ | ⟨w, rest, _, hw, hl, hold, _⟩ | ⟨w, rest, u, _, _, _, hd, _⟩
  · rw [hm] at hb
    cases hb
  · exact ⟨w, rest, hw, hl, hold⟩
  · exact absurd hd (hfree u)

theorem DispatchInv.armed_of_triggers (hi : s.DispatchInv) {e : Event} (ht : s.Triggers p e t) :
    (s.io.contexts p).m_events.has e = true ∧
    ∃ w rest, ((s.io.contexts p).getEventContext e).waiter = some w ∧
      s.log p e = { waiter := some w } :: rest ∧ ∀ r ∈ rest, r.Settled := by
  have hd := ht.deletes
  rcases hi.cells p (hi.lt_of_deletes hd) e with
    ⟨_, _, hfree⟩ | ⟨w, rest, hb, hw, hl, hold, _⟩ | ⟨w, rest, u, _, _, _, hu, hnt⟩
  · exact absurd hd (hfree t)
  · exact ⟨hb, w, rest, hw, hl, hold⟩
  · rw [hi.unique p e u t hu hd] at hnt
    exact absurd ht hnt

theorem DispatchInv.triggered_of_deletes (hi : s.DispatchInv) {e : Event} (hd : s.Deletes p e t)
    (hnt : ¬ s.Triggers p e t) :
    (s.io.contexts p).m_events.has e = true ∧
    ∃ w rest, s.log p e = { waiter := some w, enqueued := [w] } :: rest ∧
      ∀ r ∈ rest, r.Settled := by
  rcases hi.cells p (hi.lt_of_deletes hd) e with
    ⟨_, _, hfree⟩ | ⟨w, rest, _, _, _, _, htrig⟩ | ⟨w, rest, u, hb, hl, hold, _, _⟩
  · exact absurd hd (hfree t)
  · exact absurd (htrig t hd) hnt
  · exact ⟨hb, w, rest, hl, hold⟩

theorem DispatchInv.addLocked (hi : s.DispatchInv) {c : AddCall} {op : EpollOp} {r : Outcome}
    (hpc : s.pc t = .addLocked c op p) (h : s.io.addEventLocked op p c = .ok (r, io))
    {sh : Shared} (hsh : sh = { s.toShared with
      io, log := if r = .zero then s.log.opened p c else s.log })
    (htab : (s.moved t sh (.addUnlock p)).TableInv)
    (hown : (s.moved t sh (.addUnlock p)).OwnersOk) :
    (s.moved t sh (.addUnlock p)).DispatchInv := by
  have hok := hi.pcs t
  rw [hpc] at hok
  have hp : p < s.io.allocated := hok.pointers p (by simp [Pc.pointers])
  have hok' : (Pc.addUnlock p).Ok s.io :=
    hok.next (by simp [Pc.Plain]) (by simp [Pc.pointers]) (by simp [Pc.deleting])
      (by simp [Pc.adding])
  rcases IOManager.addEventLocked_ok_iff.mp h with ⟨_, rfl, rfl⟩ | ⟨hm, _, _, _, rfl, rfl⟩
  · exact hi.quiet htab hown (by rw [hsh]; exact .refl _) (by rw [hsh]) (by rw [hsh])
      (by rw [hsh]; rfl) hok' (by rw [hpc]; rfl) (by rw [hpc]; rfl)
  · have hsame := IOManager.addEventLocked_sameTable h
    subst hsh
    refine hi.local htab hown hsame hp ⟨IOManager.added_onlyAt s.io op p c, ?_⟩ hok'
      (by simp [Pc.deleting]) (fun q e _ => by simp [hpc, Pc.deleting, Pc.triggering]) ?_
    · exact fun q hq => log_at_other _ _ hq
    · intro e
      by_cases he : c.event = e
      · subst e
        have hsome := EventContext.waiter_isSome c.eventContext
        rw [show c.eventContext.scheduler = c.caller.scheduler from rfl,
          hok.adding c rfl] at hsome
        obtain ⟨w, hw⟩ := Option.isSome_iff_exists.mp hsome
        rcases hi.cells p hp c.event with ⟨_, hold, hfree⟩ | ⟨_, _, hb, _⟩ | ⟨_, _, _, hb, _⟩
        · refine .armed w (s.log p c.event) ?_ ?_ ?_ hold ?_
          · simp [IOManager.added, IOManager.setContext]
          · simpa [IOManager.added, IOManager.setContext] using hw
          · simp [Log.opened, log_at_self, hw]
          · intro u hu
            rw [deletes_moved] at hu
            split at hu
            · simp [Pc.deleting] at hu
            · exact absurd hu (hfree u)
        · rw [hm] at hb
          cases hb
        · rw [hm] at hb
          cases hb
      · refine hi.cell_kept hp ?_ ?_ ?_ (by simp [hpc, Pc.deleting]) (by simp [hpc, Pc.triggering])
        · simp [IOManager.added, IOManager.setContext, he]
        · simp [IOManager.added, IOManager.setContext, FdContext.getEventContext_set, he]
        · simp [Log.opened, log_at_self, Ne.symm he]

section Removing

variable {k : Removal} {cause : Cause} {pc : Pc} {e : Event}

/-- A removing section leaves the events alone that it does not select or finds unset. -/
theorem DispatchInv.cell_unselected (hi : s.DispatchInv) (hp : p < s.io.allocated)
    (hc : k.RemovedCells s.io p io)
    (he : ¬ (k.selects e = true ∧ (s.io.contexts p).m_events.has e = true)) {sh : Shared}
    (hsh : sh = { s.toShared with io, log := s.log.removed p k cause (s.io.contexts p) })
    (hd : (p, e) ∈ pc.deleting ↔ (p, e) ∈ (s.pc t).deleting)
    (ht : (p, e) ∈ pc.triggering ↔ (p, e) ∈ (s.pc t).triggering) :
    CellOk ((sh.io.contexts p).m_events.has e) ((sh.io.contexts p).getEventContext e).waiter
      (sh.log p e) ((s.moved t sh pc).Deletes p e) ((s.moved t sh pc).Triggers p e) := by
  have hno : (k.selects e && (s.io.contexts p).m_events.has e) = false := by
    rw [Bool.and_eq_false_iff]
    by_contra hx
    exact he (by simpa using hx)
  subst hsh
  refine hi.cell_kept hp ?_ (hc.slots e he) ?_ hd ht
  · rw [hc.bits]
    cases hm : (s.io.contexts p).m_events.has e with
    | false => rfl
    | true =>
      rw [hm, Bool.and_true] at hno
      simp [hno]
  · simp only [Log.removed, log_at_self, hno, Bool.false_eq_true, if_false]

/-- It unsets the others, whose last registration it settles. -/
theorem cell_selected (hc : k.RemovedCells s.io p io) (hsel : k.selects e = true)
    (hm : (s.io.contexts p).m_events.has e = true) {sh : Shared}
    (hsh : sh = { s.toShared with io, log := s.log.removed p k cause (s.io.contexts p) })
    {reg : Registration} {rest : List Registration} (hl : s.log p e = reg :: rest)
    (hnew : Registration.Settled { reg with
      removed := some cause, enqueued := reg.enqueued ++ k.handsOver (s.io.contexts p) e })
    (hold : ∀ r ∈ rest, r.Settled) (hfree : ∀ u, ¬ (s.moved t sh pc).Deletes p e u) :
    CellOk ((sh.io.contexts p).m_events.has e) ((sh.io.contexts p).getEventContext e).waiter
      (sh.log p e) ((s.moved t sh pc).Deletes p e) ((s.moved t sh pc).Triggers p e) := by
  subst hsh
  refine .unset (by simp [hc.bits, hsel]) ?_ hfree
  intro r hr
  simp only [Log.removed, log_at_self, hsel, hm, Bool.and_self, if_true, hl,
    List.modifyHead_cons, List.mem_cons] at hr
  rcases hr with rfl | hr
  · exact hnew
  · exact hold r hr

end Removing

theorem DispatchInv.removeLocked (hi : s.DispatchInv) {k : Removal} {fd : Nat} {r : Outcome}
    (hpc : s.pc t = .remove k fd (.locked p)) (h : k.locked s.io p fd = .ok (r, io))
    (hg : ∀ e, k.selects e = true → (s.io.contexts p).m_events.has e = true →
      ∀ u, ¬ s.Deletes p e u) {sh : Shared} (hsh : sh = { s.toShared with
        io, log := s.log.removed p k k.cause (s.io.contexts p) })
    (htab : (s.moved t sh (.remove k fd (.unlock p))).TableInv)
    (hown : (s.moved t sh (.remove k fd (.unlock p))).OwnersOk) :
    (s.moved t sh (.remove k fd (.unlock p))).DispatchInv := by
  have hok := hi.pcs t
  rw [hpc] at hok
  have hp : p < s.io.allocated := hok.pointers p (by simp [Pc.pointers, RemovePc.pointers])
  have hc := Removal.locked_cells h
  have hsame := Removal.locked_sameTable h
  refine hi.local htab hown (by rw [hsh]; exact hsame) hp ⟨by rw [hsh]; exact hc.only, ?_⟩
    (hok.next (by simp [Pc.Plain]) (fun _ h => h) (by simp [Pc.deleting]) (by simp [Pc.adding]))
    (by simp [Pc.deleting]) (fun q e _ => by simp [hpc, Pc.deleting, Pc.triggering]) ?_
  · intro q hq
    rw [hsh]
    exact log_at_other _ _ hq
  · intro e
    by_cases he : k.selects e = true ∧ (s.io.contexts p).m_events.has e = true
    · have hfree := hg e he.1 he.2
      obtain ⟨w, rest, hw, hl, hold⟩ := hi.armed_of_free hp he.2 hfree
      apply cell_selected hc he.1 he.2 hsh hl _ hold
      · intro u hu
        rw [deletes_moved] at hu
        split at hu
        · simp [Pc.deleting] at hu
        · exact hfree u hu
      · refine ⟨w, rfl, ?_⟩
        cases k with
        | delEvent e' => exact Or.inr (Or.inr ⟨rfl, rfl⟩)
        | cancelEvent e' => exact Or.inr (Or.inl ⟨rfl, by simp [Removal.handsOver, hw]⟩)
        | cancelAll => exact Or.inr (Or.inl ⟨rfl, by simp [Removal.handsOver, hw]⟩)
    · exact hi.cell_unselected hp hc he hsh (by simp [hpc, Pc.deleting])
        (by simp [hpc, Pc.triggering])

theorem DispatchInv.trigger (hi : s.DispatchInv) {e : Event} {es : List Event} {more : List Report}
    (hpc : s.pc t = .idleTrigger p e es more) (h : s.io.handOver p e = .ok io) {sh : Shared}
    (hsh : sh = { s.toShared with io, log := s.log.triggered p e (s.io.contexts p) })
    (htab : (s.moved t sh (.idleReset p e es more)).TableInv)
    (hown : (s.moved t sh (.idleReset p e es more)).OwnersOk) :
    (s.moved t sh (.idleReset p e es more)).DispatchInv := by
  have hok := hi.pcs t
  rw [hpc] at hok
  have hp : p < s.io.allocated := hok.pointers p (by simp [Pc.pointers])
  have hview := IOManager.handOver_sameView h
  have hne : e ∉ es := by simpa [Pc.deleting] using (List.nodup_cons.mp hok.nodup).1
  subst hsh
  refine hi.local htab hown hview.sameTable hp ⟨IOManager.handOver_onlyAt h, ?_⟩
    (hok.next (by simp [Pc.Plain]) (fun _ h => h) (by simp [Pc.deleting]) (by simp [Pc.adding]))
    (by simp [hpc, Pc.deleting]) (fun q e _ => ?_) ?_
  · exact fun q hq => log_at_other _ _ hq
  · simp_all [Pc.deleting, Pc.triggering]
  · intro e'
    by_cases he : e' = e
    · subst e'
      have ht : s.Triggers p e t := by simp [Triggers, hpc, Pc.triggering]
      obtain ⟨hb, w, rest, hw, hl, hold⟩ := hi.armed_of_triggers ht
      refine .triggered w rest t ?_ ?_ hold ?_ ?_
      · rw [hview.events]
        exact hb
      · simp [Log.triggered, log_at_self, hl, hw]
      · rw [deletes_moved]
        simp [Pc.deleting]
      · rw [triggers_moved]
        simpa [Pc.triggering] using hne
    · refine hi.cell_kept hp (by rw [hview.events]) ?_ ?_ (by simp [hpc, Pc.deleting]) ?_
      · obtain ⟨_, w, _, rfl⟩ := IOManager.handOver_ok_iff.mp h
        rfl
      · simp [Log.triggered, log_at_self, he]
      · simp [hpc, Pc.triggering, he]

theorem DispatchInv.reset (hi : s.DispatchInv) {e : Event} {es : List Event} {more : List Report}
    (hpc : s.pc t = .idleReset p e es more) {sh : Shared}
    (hsh : sh = { s.toShared with io := s.io.resetContext p e })
    (htab : (s.moved t sh (.idleDel p e es more)).TableInv)
    (hown : (s.moved t sh (.idleDel p e es more)).OwnersOk) :
    (s.moved t sh (.idleDel p e es more)).DispatchInv := by
  have hok := hi.pcs t
  rw [hpc] at hok
  have hp : p < s.io.allocated := hok.pointers p (by simp [Pc.pointers])
  have hview := IOManager.resetContext_sameView s.io p e
  have hne : e ∉ es := by simpa [Pc.deleting] using (List.nodup_cons.mp hok.nodup).1
  subst hsh
  refine hi.local htab hown hview.sameTable hp ⟨IOManager.resetContext_onlyAt s.io p e, ?_⟩
    (hok.next (by simp [Pc.Plain]) (fun _ h => h) (by simp [Pc.deleting]) (by simp [Pc.adding]))
    (by simp [hpc, Pc.deleting]) (fun q e _ => by simp [hpc, Pc.deleting, Pc.triggering]) ?_
  · exact fun _ _ => rfl
  · intro e'
    by_cases he : e' = e
    · subst e'
      -- the waiter has been handed over, whatever is in the slot
      have hd : s.Deletes p e t := by simp [Deletes, hpc, Pc.deleting]
      have hnt : ¬ s.Triggers p e t := by simpa [Triggers, hpc, Pc.triggering] using hne
      obtain ⟨hb, w, rest, hl, hold⟩ := hi.triggered_of_deletes hd hnt
      refine .triggered w rest t ?_ hl hold ?_ ?_
      · rw [hview.events]
        exact hb
      · rw [deletes_moved]
        simp [Pc.deleting]
      · rw [triggers_moved]
        simpa [Pc.triggering] using hne
    · refine hi.cell_kept hp (by rw [hview.events]) ?_ rfl (by simp [hpc, Pc.deleting]) ?_
      · simp [IOManager.resetContext, IOManager.setContext, FdContext.getEventContext_reset,
          Ne.symm he]
      · simp [hpc, Pc.triggering]

theorem DispatchInv.deleteLocked (hi : s.DispatchInv) {e : Event} {es : List Event}
    {more : List Report} {fd : Nat} {q : ContextPtr} {r : Outcome}
    (hpc : s.pc t = .idleDeleting p e es more fd (.locked q))
    (h : (Removal.delEvent e).locked s.io q fd = .ok (r, io)) {sh : Shared}
    (hsh : sh = { s.toShared with
      io, log := s.log.removed q (.delEvent e) .dispatch (s.io.contexts q) })
    (htab : (s.moved t sh (.idleDeleting p e es more fd (.unlock q))).TableInv)
    (hown : (s.moved t sh (.idleDeleting p e es more fd (.unlock q))).OwnersOk)
    (hok' : (Pc.idleDeleting p e es more fd (.unlock q)).Ok s.io) :
    (s.moved t sh (.idleDeleting p e es more fd (.unlock q))).DispatchInv := by
  have hok := hi.pcs t
  rw [hpc] at hok
  obtain rfl := (hok.target _ _ _ _ _ _ rfl).2 q (by simp [RemovePc.pointers])
  have hp : q < s.io.allocated := hok.pointers q (by simp [Pc.pointers])
  have hc := Removal.locked_cells h
  have hne : e ∉ es := by
    simpa [Pc.deleting, RemovePc.past] using (List.nodup_cons.mp hok.nodup).1
  have hsame := Removal.locked_sameTable h
  refine hi.local htab hown (by rw [hsh]; exact hsame) hp ⟨by rw [hsh]; exact hc.only, ?_⟩ hok' ?_
    (fun p e _ => ?_) ?_
  · intro q hq
    rw [hsh]
    exact log_at_other _ _ hq
  · intro x hx
    rw [hpc]
    exact List.mem_cons_of_mem _ hx
  · simp_all [Pc.deleting, Pc.triggering, RemovePc.past]
  · intro e'
    by_cases he : e = e'
    · subst e'
      have hd : s.Deletes q e t := by simp [Deletes, hpc, Pc.deleting, RemovePc.past]
      have hnt : ¬ s.Triggers q e t := by simpa [Triggers, hpc, Pc.triggering] using hne
      obtain ⟨hb, w, rest, hl, hold⟩ := hi.triggered_of_deletes hd hnt
      apply cell_selected hc (decide_eq_true rfl) hb hsh hl ⟨w, rfl, Or.inl ⟨rfl, rfl⟩⟩ hold
      intro u hu
      rw [deletes_moved] at hu
      split at hu
      · simp [Pc.deleting, RemovePc.past] at hu
        exact hne hu
      · rename_i hut
        exact hut (hi.unique q e u t hu hd)
    · apply hi.cell_unselected hp hc _ hsh
      · simp [hpc, Pc.deleting, RemovePc.past, Ne.symm he]
      · simp [hpc, Pc.triggering]
      · simp [Removal.selects, he]

theorem DispatchInv.openDispatch (hi : s.DispatchInv) {events : BitVec 32} {more : List Report}
    (hpc : s.pc t = .idleLocked p events more) {real : List Event}
    (hg : ∀ e ∈ real, (s.io.contexts p).m_events.has e = true ∧ ∀ u, ¬ s.Deletes p e u)
    (htab : (s.moved t s.toShared (.idleUnlock p real more)).TableInv)
    (hown : (s.moved t s.toShared (.idleUnlock p real more)).OwnersOk)
    (hok' : (Pc.idleUnlock p real more).Ok s.io) :
    (s.moved t s.toShared (.idleUnlock p real more)).DispatchInv := by
  refine hi.of_same htab hown (.refl _) hi.entries hi.unused hok' ?_ ?_
  · intro q e hx
    simp only [Pc.deleting, List.mem_map] at hx
    obtain ⟨e', he', hx⟩ := hx
    cases hx
    exact Or.inr (hg e he').2
  · intro q hq e
    by_cases hx : q = p ∧ e ∈ real
    · obtain ⟨rfl, he⟩ := hx
      obtain ⟨hm, hfree⟩ := hg e he
      obtain ⟨w, rest, hw, hl, hold⟩ := hi.armed_of_free hq hm hfree
      refine .armed w rest hm hw hl hold fun u hu => ?_
      rw [deletes_moved] at hu
      rw [triggers_moved]
      split at hu
      · rename_i hut
        rw [if_pos hut]
        exact hu
      · exact absurd hu (hfree u)
    · have hno : ¬ (q, e) ∈ (Pc.idleUnlock p real more).deleting := by
        simp only [Pc.deleting, List.mem_map, Prod.mk.injEq]
        rintro ⟨_, he, rfl, rfl⟩
        exact hx ⟨rfl, he⟩
      refine hi.cell_kept hq rfl rfl rfl ?_ ?_
      · simpa [hpc, Pc.deleting] using hno
      · simpa [hpc, Pc.triggering, Pc.deleting] using hno

theorem DispatchInv.grow (hi : s.DispatchInv) {c : AddCall} (hpc : s.pc t = .addGrow c)
    (h : s.io.growContext c.fd = .ok (p, io)) {sh : Shared} (hsh : sh = { s.toShared with io })
    (htab : (s.moved t sh (.addOp c p)).TableInv) (hown : (s.moved t sh (.addOp c p)).OwnersOk)
    (hkept : ∀ fd q, s.io.contextAt fd = .ok q → io.contextAt fd = .ok q) :
    (s.moved t sh (.addOp c p)).DispatchInv := by
  obtain ⟨hr, hp⟩ := IOManager.growContext_resized hi.tableInv.table h
  have hok := hi.pcs t
  rw [hpc] at hok
  subst hsh
  refine ⟨htab, hown, ?_, ?_, ?_, ?_, hi.unique_moved (by simp [Pc.deleting]), ?_⟩
  · intro q hq
    change io.contextAt (io.contexts q).m_fd = .ok q
    by_cases hlt : q < s.io.allocated
    · rw [hr.old q hlt]
      exact hkept _ _ (hi.placed q hlt)
    · obtain ⟨j, hj, hctx⟩ := hr.placed q (Nat.le_of_not_lt hlt) hq
      rw [hctx]
      exact IOManager.contextAt_ok_iff.mpr hj
  · intro fd ev hev
    change io.epoll fd = some ev at hev
    rw [hr.rest.epoll] at hev
    exact Nat.lt_of_lt_of_le (hi.entries fd ev hev) hr.grows
  · intro u
    by_cases hu : u = t
    · subst u
      refine ⟨?_, ?_, ?_, ?_⟩
      · simpa [moved, Pc.pointers] using hp
      · simp [moved, Pc.deleting]
      · simpa [moved, Pc.adding] using hok.adding c rfl
      · simp [moved]
    · have hmono := (hi.pcs u).mono hr.grows
        (fun q hq => congrArg FdContext.m_fd (hr.old q hq))
      simpa [moved, hu] using hmono
  · exact fun q hq e => hi.unused q (Nat.le_trans hr.grows hq) e
  · intro q hq e
    by_cases hlt : q < s.io.allocated
    · have hctx := hr.old q hlt
      exact hi.cell_kept hlt (congrArg (fun ctx => ctx.m_events.has e) hctx)
        (congrArg (fun ctx => ctx.getEventContext e) hctx) rfl (by simp [hpc, Pc.deleting])
        (by simp [hpc, Pc.triggering])
    · refine .unset ?_ ?_ ?_
      · change (io.contexts q).m_events.has e = false
        rw [hr.unused q (Nat.le_of_not_lt hlt) hq, EventMask.has_NONE]
      · have hlog := hi.unused q (Nat.le_of_not_lt hlt) e
        change ∀ r ∈ s.log q e, r.Settled
        simp [hlog]
      · intro u hu
        rw [deletes_moved] at hu
        split at hu
        · simp [Pc.deleting] at hu
        · exact hlt (hi.lt_of_deletes hu)

end Effects

section Run

variable {s s' : Threads} {t : Tid} {a : Act}

theorem DispatchInv.run (hi : s.DispatchInv) (hg : s.Undisturbed (.run t))
    (h : s.exec (.run t) = .ok s') : s'.DispatchInv := by
  have htab := hi.tableInv.exec (a := .run t) trivial h
  have hown := hi.owners.exec hg.release h
  have hkept := (hi.tableInv.keeps_entry hg.growth h).2
  obtain ⟨sh, pc, hs, rfl⟩ := steps_of_run h
  change (s.moved t sh pc).TableInv at htab
  change (s.moved t sh pc).OwnersOk at hown
  change (s.moved t sh pc).DispatchInv
  have hok := hs.ok (hi.pcs t) hi.tableInv.table hi.placed
  generalize hpc : s.pc t = pc₀ at hs hok
  cases hs with
  | addGrow hgr => exact hi.grow hpc hgr rfl htab hown hkept
  | addLocked hl => exact hi.addLocked hpc hl rfl htab hown
  | removeStep hr =>
    cases hr with
    | locked hl => exact hi.removeLocked hpc hl (hg.removal t _ _ _ rfl hpc) rfl htab hown
    | found | lock =>
      exact hi.quiet htab hown (.refl _) rfl rfl rfl (hok (by simp)) (by rw [hpc]; rfl)
        (by rw [hpc]; rfl)
  | idleDispatch hd =>
    refine hi.openDispatch hpc (fun e he => ?_) htab hown (hok (by simp))
    exact hg.dispatch t _ _ _ rfl hpc hd e (Pc.mem_realList.mp he)
  | idleTrigger ht => exact hi.trigger hpc ht rfl htab hown
  | idleReset => exact hi.reset hpc rfl htab hown
  | deleteStep hr =>
    cases hr with
    | locked hl => exact hi.deleteLocked hpc hl rfl htab hown (hok (by simp))
    | found | lock =>
      exact hi.quiet htab hown (.refl _) rfl rfl rfl (hok (by simp)) (by rw [hpc]; rfl)
        (by rw [hpc]; rfl)
  | deleteReturn hr =>
    cases hr with
    | unlock =>
      exact hi.quiet htab hown (.refl _) rfl rfl rfl (hok (by simp)) (by rw [hpc]; rfl)
        (by rw [hpc]; rfl)
    | missing hf =>
      -- the context is in the table, so its descriptor is found
      rename_i p e es more fd
      have hok₀ := hi.pcs t
      rw [hpc] at hok₀
      have hat := hi.placed p (hok₀.pointers p (by simp [Pc.pointers, RemovePc.pointers]))
      rw [← (hok₀.target _ _ _ _ _ _ rfl).1] at hat
      rw [IOManager.findContext_of_contextAt hi.tableInv.small hat] at hf
      cases hf
  | removeReturn hr =>
    cases hr with
    | missing | unlock =>
      exact hi.quiet htab hown (.refl _) rfl rfl rfl (hok (by simp)) (by rw [hpc]; rfl)
        (by rw [hpc]; rfl)
  | idleContinue | idleEnd =>
    exact hi.quiet htab hown (.refl _) rfl rfl rfl (hok (by simp)) (by rw [hpc]; simp; rfl)
      (by rw [hpc]; simp; rfl)
  | idleUnlock | idleDecrement =>
    exact hi.quiet htab hown ⟨rfl, rfl, fun _ => rfl⟩ rfl rfl rfl (hok (by simp))
      (by rw [hpc]; simp; rfl) (by rw [hpc]; simp; rfl)
  | addFound | addMissing | addOp | addLock | addUnlock | idleLock | idleSkip | idleDel =>
    exact hi.quiet htab hown (.refl _) rfl rfl rfl (hok (by simp)) (by rw [hpc]; rfl)
      (by rw [hpc]; rfl)

theorem DispatchInv.start (hi : s.DispatchInv) {pc : Pc} (hok : pc.Ok s.io)
    (hd : pc.deleting = []) (ht : pc.triggering = []) (h : s.start t pc = .ok s')
    (htab : s'.TableInv) (hown : s'.OwnersOk) : s'.DispatchInv := by
  obtain ⟨hout, rfl⟩ := start_ok_iff.mp h
  exact hi.quiet htab hown (.refl _) rfl rfl rfl hok (by rw [hd, hout]; rfl)
    (by rw [ht, hout]; rfl)

theorem reported_allocated (hentries : ∀ fd ev, s.io.epoll fd = some ev → ev.ptr < s.io.allocated)
    {reports : List Report} (ha : s.Allowed (.report t reports)) :
    ∀ p ∈ (Pc.nextReport reports).pointers, p < s.io.allocated := by
  intro p hp
  rw [Pc.pointers_nextReport, List.mem_map] at hp
  obtain ⟨r, hr, rfl⟩ := hp
  obtain ⟨fd, ev, hrep, hptr⟩ := ha r hr
  rw [← hptr]
  exact hentries fd ev hrep.1

theorem DispatchInv.exec (hi : s.DispatchInv) (ha : s.Allowed a) (hg : s.Undisturbed a)
    (h : s.exec a = .ok s') : s'.DispatchInv := by
  cases a with
  | run t => exact hi.run hg h
  | addEvent t c =>
    obtain ⟨hfits, hsched⟩ := hg.caller t c rfl
    refine hi.start ⟨by simp [Pc.pointers], by simp [Pc.deleting], ?_, by simp⟩ rfl rfl h
      (hi.tableInv.exec (a := .addEvent t c) hfits h) (hi.owners.exec hg.release h)
    intro c' hc
    cases hc
    exact hsched
  | remove t k fd =>
    exact hi.start ⟨by simp [Pc.pointers, RemovePc.pointers], by simp [Pc.deleting],
      by simp [Pc.adding], by simp⟩ rfl rfl h (hi.tableInv.exec (a := .remove t k fd) trivial h)
      (hi.owners.exec hg.release h)
  | report t reports =>
    exact hi.start ⟨reported_allocated hi.entries ha, by simp, by simp,
      fun p e es more fd at_ hpc => absurd hpc (Pc.plain_nextReport reports p e es more fd at_)⟩
      (by simp) (by simp) h (hi.tableInv.exec (a := .report t reports) trivial h)
      (hi.owners.exec hg.release h)

theorem initial_dispatchInv : initial.DispatchInv := by
  refine ⟨initial_tableInv, initial_ownersOk, ?_, ?_, ?_, fun _ _ _ => rfl, ?_, ?_⟩
  · intro p hp
    obtain ⟨j, hj, hc⟩ := IOManager.initial_placed hp
    change IOManager.initial.contextAt (IOManager.initial.contexts p).m_fd = .ok p
    rw [hc]
    exact hj
  · intro fd ev hev
    change IOManager.initial.epoll fd = some ev at hev
    rw [IOManager.initial_epoll] at hev
    cases hev
  · intro t
    exact ⟨by simp [initial, Pc.pointers], by simp [initial, Pc.deleting],
      by simp [initial, Pc.adding], by simp [initial]⟩
  · intro p e t t' h
    simp [Deletes, initial, Pc.deleting] at h
  · intro p hp e
    obtain ⟨j, _, hc⟩ := IOManager.initial_placed hp
    refine .unset ?_ (fun r hr => by cases hr) (fun t h => by cases h)
    change (IOManager.initial.contexts p).m_events.has e = false
    rw [hc, EventMask.has_NONE]

theorem DispatchInv.removal_fault (hi : s.DispatchInv) {k : Removal} {fd : Nat} {p : ContextPtr}
    (hp : p < s.io.allocated) (hfree : ∀ e, k.selects e = true →
      (s.io.contexts p).m_events.has e = true → ∀ u, ¬ s.Deletes p e u) {f : Fault}
    (h : k.locked s.io p fd = .error f) : f = .epollCtl := by
  have hslot : ∀ {e}, k.selects e = true → (s.io.contexts p).m_events.has e = true →
      ∃ w, ((s.io.contexts p).getEventContext e).waiter = some w := by
    intro e hsel hm
    obtain ⟨w, _, hw, _⟩ := hi.armed_of_free hp hm (hfree e hsel hm)
    exact ⟨w, hw⟩
  cases k with
  | delEvent e => exact IOManager.delEventLocked_fault h
  | cancelEvent e =>
    rcases IOManager.cancelEventLocked_fault h with h | ⟨hm, ht⟩
    · exact h
    · obtain ⟨w, hw⟩ := hslot (decide_eq_true rfl) hm
      exact absurd ht (IOManager.triggerEvent_ne_error hm hw f)
  | cancelAll =>
    rcases IOManager.cancelAllLocked_fault h with h | ht | ⟨io₁, h₁, ht⟩
    · exact h
    · obtain ⟨hm, ht⟩ := IOManager.triggerCounted_fault ht
      obtain ⟨w, hw⟩ := hslot rfl hm
      exact absurd ht (IOManager.triggerEvent_ne_error hm hw f)
    · -- the first event was triggered, the slot of the second is as it was
      obtain ⟨hm, ht⟩ := IOManager.triggerCounted_fault ht
      have hm' := hm
      rw [(IOManager.triggerCounted_sameView h₁).events] at hm'
      obtain ⟨w, hw⟩ := hslot rfl hm'
      rw [← IOManager.triggerCounted_slot _ h₁ (by simp)] at hw
      exact absurd ht (IOManager.triggerEvent_ne_error hm hw f)

/-- `triggerEvent` finds the bit set and the slot armed, in `idle` and in the
cancelling sections. -/
theorem DispatchInv.no_triggerFault (hi : s.DispatchInv) (hg : s.Undisturbed a) {f : Fault}
    (h : s.exec a = .error (.fault f)) : f ≠ .eventNotSet ∧ f ≠ .nullScheduler := by
  have hother : f = .epollCtl → f ≠ .eventNotSet ∧ f ≠ .nullScheduler := by
    intro hf
    simp [hf]
  obtain ⟨t, rfl, hstep⟩ := fault_of_exec h
  generalize hpc : s.pc t = pc at hstep
  cases hstep with
  | addFind hf | removeFind hf | deleteFind hf =>
    exact absurd hf (hi.tableInv.findContext_ne_error _ f)
  | addGrow hf => exact absurd hf (hi.tableInv.growContext_ne_error hpc f)
  | addLocked hf =>
    rcases IOManager.addEventLocked_fault hf with rfl | rfl | rfl <;> simp
  | deleteLocked hf => exact hother (IOManager.delEventLocked_fault hf)
  | idleTrigger hf =>
    rename_i p e es more
    have ht : s.Triggers p e t := by simp [Triggers, hpc, Pc.triggering]
    obtain ⟨hm, w, _, hw, _⟩ := hi.armed_of_triggers ht
    exact absurd hf (IOManager.handOver_ne_error hm hw f)
  | removeLocked hf =>
    rename_i k fd p
    have hok := hi.pcs t
    rw [hpc] at hok
    have hp : p < s.io.allocated := hok.pointers p (by simp [Pc.pointers, RemovePc.pointers])
    exact hother (hi.removal_fault hp (hg.removal t k fd p rfl hpc) hf)

end Run

end Threads

end FiberAsync
