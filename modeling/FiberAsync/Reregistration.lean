import FiberAsync.DispatchInvariant

/-!
# Woken waiters and their registrations

The tasks made for a registration are started by the run loops of other
threads, at any time after the `add_task` call. `idle` makes the call before its
`delEvent` removes the registration: in this window the task can already run.
The cancel paths do both in one section under the mutex, and there too the task
can start before the bit is cleared; its `addEvent` then waits for the mutex,
unless a dispatch that ends frees it.
-/

namespace FiberAsync

set_option autoImplicit false

open Runs Results

/-- The registrations of one event, numbered from the oldest. -/
def registration (l : List Registration) (n : Nat) : Option Registration := l.reverse[n]?

namespace Pc

/-- The event that the thread has triggered and not yet deleted. -/
def window : Pc → Option (ContextPtr × Event)
  | idleReset p e _ _ | idleDel p e _ _ => some (p, e)
  | idleDeleting p e _ _ _ at_ => if at_.past then none else some (p, e)
  | _ => none

/-- The contexts a thread points to are allocated, and the `delEvent` of `idle`
keeps to the context it was called for. -/
structure Aims (io : IOManager) (pc : Pc) : Prop where
  pointers : ∀ p ∈ pc.pointers, p < io.allocated
  target : ∀ p e es more fd at_, pc = .idleDeleting p e es more fd at_ →
    fd = (io.contexts p).m_fd ∧ ∀ q ∈ at_.pointers, q = p

end Pc

/-- Threads with run loops: which tasks have been started, and for which
registration each thread in `idle` made its last `triggerEvent`. -/
structure EventWorkers extends Threads where
  started : ContextPtr → Event → Nat → Nat
  dispatched : Tid → Nat

namespace EventWorkers

inductive Act where
  | thread (a : FiberAsync.Act)
  /-- a run loop starts a task that was made for registration `n` -/
  | start (t : Tid) (p : ContextPtr) (e : Event) (n : Nat)
  /-- a run loop starts a task before the section of thread `u` that made it has ended -/
  | startInside (t u : Tid) (p : ContextPtr) (e : Event)

variable (s : EventWorkers)

/-- The registration that the next step of a thread triggers is the newest one. -/
def dispatches (a : FiberAsync.Act) : Tid → Nat :=
  match a with
  | .run t =>
    match s.pc t with
    | .idleTrigger p e _ _ => Function.update s.dispatched t ((s.log p e).length - 1)
    | _ => s.dispatched
  | _ => s.dispatched

/-- A task of the registration is in the queue. -/
def Queued (p : ContextPtr) (e : Event) (n : Nat) : Prop :=
  ∃ r, registration (s.log p e) n = some r ∧ s.started p e n < r.enqueued.length

instance (p : ContextPtr) (e : Event) (n : Nat) : Decidable (s.Queued p e n) :=
  match h : registration (s.log p e) n with
  | none => isFalse fun ⟨r, hr, _⟩ => by rw [h] at hr; cases hr
  | some r =>
    if hlt : s.started p e n < r.enqueued.length then isTrue ⟨r, h, hlt⟩
    else isFalse fun ⟨r', hr, hlt'⟩ => by rw [h] at hr; cases hr; exact hlt hlt'

/-- What the cancelling section that a thread is in hands over for the event. -/
def handing (u : Tid) (p : ContextPtr) (e : Event) : List Waiter :=
  match s.pc u with
  | .remove k _ (.locked q) =>
    if q = p ∧ k.selects e ∧ (s.io.contexts p).m_events.has e then
      k.handsOver (s.io.contexts p) e
    else []
  | _ => []

/-- A task of the newest registration is in the queue, made by the section that thread
`u` has not ended yet. -/
def QueuedInside (u : Tid) (p : ContextPtr) (e : Event) : Prop :=
  s.handing u p e ≠ [] ∧ s.started p e ((s.log p e).length - 1) <
    (((s.log p e).head?.map Registration.enqueued).getD [] ++ s.handing u p e).length

instance (u : Tid) (p : ContextPtr) (e : Event) : Decidable (s.QueuedInside u p e) :=
  inferInstanceAs (Decidable (_ ∧ _))

def withStarted (p : ContextPtr) (e : Event) (n : Nat) : EventWorkers :=
  { s with started := Function.update s.started p (Function.update (s.started p) e
    (Function.update (s.started p e) n (s.started p e n + 1))) }

def exec : Act → Except Stop EventWorkers
  | .thread a => s.toThreads.exec a >>= fun s' =>
    .ok { s' with started := s.started, dispatched := s.dispatches a }
  | .start t p e n =>
    if s.pc t = .outside ∧ s.Queued p e n then .ok (s.withStarted p e n) else .error .blocked
  | .startInside t u p e =>
    if s.pc t = .outside ∧ s.QueuedInside u p e then
      .ok (s.withStarted p e ((s.log p e).length - 1))
    else .error .blocked

def Allowed : Act → Prop
  | .thread a => s.toThreads.Allowed a
  | .start _ _ _ _ | .startInside _ _ _ _ => True

def initial : EventWorkers where
  toThreads := .initial
  started _ _ _ := 0
  dispatched _ := 0

def system : System EventWorkers Act where
  init s := s = initial
  step s a s' := s.Allowed a ∧ s.exec a = .ok s'

def allows : Act → Bool
  | .thread a => s.toThreads.allows a
  | .start _ _ _ _ | .startInside _ _ _ _ => true

def next (a : Act) : Option EventWorkers := if s.allows a then (s.exec a).toOption else none

theorem next_sound {s s' : EventWorkers} {a : Act} (h : s.next a = some s') :
    system.step s a s' := by
  obtain ⟨hallows, h⟩ := Option.ite_none_right_eq_some.mp h
  constructor
  · cases a with
    | thread a => exact Threads.allowed_of_allows hallows
    | start t p e n => trivial
    | startInside t u p e => trivial
  · cases he : s.exec a with
    | ok s₁ =>
      rw [he] at h
      cases h
      rfl
    | error e =>
      rw [he] at h
      cases h

end EventWorkers

/-- What one step does to the bit and the registrations of one event. -/
inductive CellStep (pc : Pc) (p : ContextPtr) (e : Event) :
    Bool × List Registration → Bool × List Registration → Prop where
  | same {b : Bool} {l : List Registration} : CellStep pc p e (b, l) (b, l)
  | opened {l : List Registration} {c : AddCall} {op : EpollOp} {w : Option Waiter} :
      pc = .addLocked c op p → c.event = e →
      CellStep pc p e (false, l) (true, { waiter := w } :: l)
  | triggered {l : List Registration} {es : List Event} {more : List Report} {ws : List Waiter} :
      pc = .idleTrigger p e es more →
      CellStep pc p e (true, l)
        (true, l.modifyHead fun r => { r with enqueued := r.enqueued ++ ws })
  | removed {l : List Registration} {cause : Cause} {ws : List Waiter} :
      CellStep pc p e (true, l) (false, l.modifyHead fun r =>
        { r with enqueued := r.enqueued ++ ws, removed := some cause })

namespace Shared

variable {sh sh' : Shared} {t : Tid} {pc pc' : Pc}

/-- The bit and the registrations of one event. -/
def cell (sh : Shared) (p : ContextPtr) (e : Event) : Bool × List Registration :=
  ((sh.io.contexts p).m_events.has e, sh.log p e)

theorem Steps.cell (ht : sh.io.TableOk) {p : ContextPtr} (hp : p < sh.io.allocated) (e : Event)
    (h : Steps sh t pc sh' pc') : CellStep pc p e (sh.cell p e) (sh'.cell p e) := by
  have hremoved : ∀ {k : Removal} {cause : Cause} {fd : Nat} {at_ : RemovePc} {o sh'},
      RemoveSteps sh t k cause fd at_ sh' o → CellStep pc p e (sh.cell p e) (sh'.cell p e) := by
    intro k cause fd at_ o sh' h
    cases h with
    | locked hl =>
      rename_i q r io
      have hcells := Removal.locked_cells hl
      by_cases hpq : p = q
      · subst q
        simp only [Shared.cell, hcells.bits e]
        cases hm : (sh.io.contexts p).m_events.has e with
        | false => simpa [Log.removed, Threads.log_at_self, hm] using CellStep.same
        | true =>
          cases hsel : k.selects e with
          | false => simpa [Log.removed, Threads.log_at_self, hsel] using CellStep.same
          | true => simpa [Log.removed, Threads.log_at_self, hsel, hm] using CellStep.removed
      · simp only [Shared.cell, hcells.only.others p hpq, Log.removed, Threads.log_at_other _ _ hpq]
        exact .same
    | _ => exact .same
  cases h with
  | addGrow hg =>
    have hr := (IOManager.growContext_resized ht hg).1
    simp only [Shared.cell, hr.old p hp]
    exact .same
  | addLocked hl =>
    rename_i c op q r io
    rcases IOManager.addEventLocked_ok_iff.mp hl with ⟨_, rfl, rfl⟩ | ⟨hm, _, _, _, rfl, rfl⟩
    · exact .same
    · by_cases hpq : p = q
      · subst q
        by_cases he : c.event = e
        · subst e
          simpa [Shared.cell, IOManager.added, IOManager.setContext, hm, Log.opened,
            Threads.log_at_self] using CellStep.opened rfl rfl
        · simpa [Shared.cell, IOManager.added, IOManager.setContext, Log.opened,
            Threads.log_at_self, he, Ne.symm he] using CellStep.same
      · simp only [Shared.cell, (IOManager.added_onlyAt sh.io op q c).others p hpq, if_true,
          Log.opened, Threads.log_at_other _ _ hpq]
        exact .same
  | removeStep h => exact hremoved h
  | removeReturn h => exact hremoved h
  | deleteStep h => exact hremoved h
  | deleteReturn h => exact hremoved h
  | idleTrigger h =>
    rename_i q e' es more io
    have hevents := (IOManager.handOver_sameView h).events p
    have hm := (IOManager.handOver_ok_iff.mp h).1
    by_cases hpq : p = q
    · subst q
      by_cases he : e = e'
      · subst e'
        simpa [Shared.cell, hevents, hm, Log.triggered, Threads.log_at_self] using
          CellStep.triggered rfl
      · simpa [Shared.cell, hevents, Log.triggered, Threads.log_at_self, he] using CellStep.same
    · simp only [Shared.cell, hevents, Log.triggered, Threads.log_at_other _ _ hpq]
      exact .same
  | @idleReset q e' _ _ =>
    simp only [Shared.cell, (IOManager.resetContext_sameView sh.io q e').events p]
    exact .same
  | _ => exact .same

/-- A pointer that the step stores for `epoll` is one the thread had. -/
theorem Steps.entries (h : Steps sh t pc sh' pc') {fd : Nat} {ev : EpollEvent}
    (hev : sh'.io.epoll fd = some ev) : ev.ptr ∈ pc.pointers ∨ sh.io.epoll fd = some ev := by
  have honly : ∀ {p}, IOManager.OnlyAt sh.io p sh'.io → p ∈ pc.pointers →
      ev.ptr ∈ pc.pointers ∨ sh.io.epoll fd = some ev := by
    intro p hat hp
    rcases hat.entries fd ev hev with rfl | hold
    · exact Or.inl hp
    · exact Or.inr hold
  cases h with
  | addGrow hg =>
    obtain ⟨_, rfl⟩ := IOManager.growContext_ok_iff.mp hg
    rw [show sh.io.epoll = _ from ((IOManager.fillNull_filled _ _ _).rest.epoll).symm]
    exact Or.inr hev
  | addLocked hl =>
    rename_i c op p r io
    rcases IOManager.addEventLocked_ok_iff.mp hl with ⟨_, _, rfl⟩ | ⟨_, _, _, _, _, rfl⟩
    · exact Or.inr hev
    · exact honly (IOManager.added_onlyAt _ _ _ _) (List.mem_singleton_self p)
  | removeStep h =>
    cases h with
    | locked hl => exact honly (Removal.locked_cells hl).only (List.mem_singleton_self _)
    | _ => exact Or.inr hev
  | deleteStep h =>
    cases h with
    | locked hl =>
      exact honly (Removal.locked_cells hl).only
        (List.mem_append_left _ (List.mem_singleton_self _))
    | _ => exact Or.inr hev
  | removeReturn h | deleteReturn h =>
    cases h <;> exact Or.inr hev
  | idleTrigger ht =>
    exact honly (IOManager.handOver_onlyAt ht) (List.mem_cons_self (a := _) (l := _))
  | _ => exact Or.inr hev

/-- Only registrations of contexts that the thread points to are written. -/
theorem Steps.log_other (h : Steps sh t pc sh' pc') {p : ContextPtr} (hp : p ∉ pc.pointers) :
    sh'.log p = sh.log p := by
  have hne : ∀ {q}, q ∈ pc.pointers → p ≠ q := by
    rintro q hq rfl
    exact hp hq
  cases h with
  | addLocked hl =>
    dsimp only
    split
    · exact Threads.log_at_other _ _ (hne (List.mem_singleton_self _))
    · rfl
  | removeStep h =>
    cases h with
    | locked hl => exact Threads.log_at_other _ _ (hne (List.mem_singleton_self _))
    | _ => rfl
  | deleteStep h =>
    cases h with
    | locked hl =>
      exact Threads.log_at_other _ _ (hne (List.mem_append_left _ (List.mem_singleton_self _)))
    | _ => rfl
  | removeReturn h | deleteReturn h =>
    cases h <;> rfl
  | idleTrigger ht => exact Threads.log_at_other _ _ (hne (by simp [Pc.pointers]))
  | _ => rfl

/-- A thread leaves its window by the section of its `delEvent`. -/
theorem Steps.window (haims : pc.Aims sh.io) {p : ContextPtr} {e : Event}
    (hfind : sh.io.findContext (sh.io.contexts p).m_fd = .ok (some p))
    (hw : pc.window = some (p, e)) (h : Steps sh t pc sh' pc') :
    pc'.window = some (p, e) ∨ (sh'.io.contexts p).m_events.has e = false := by
  cases h with
  | idleReset | idleDel =>
    cases hw
    exact Or.inl rfl
  | deleteStep h =>
    obtain ⟨hfd, hat⟩ := haims.target _ _ _ _ _ _ rfl
    cases h with
    | found hf =>
      cases hw
      exact Or.inl rfl
    | lock hfree =>
      cases hw
      exact Or.inl rfl
    | locked hl =>
      cases hw
      rename_i q r io
      obtain rfl := hat q (List.mem_singleton_self q)
      refine Or.inr ?_
      rw [(Removal.locked_cells hl).bits e]
      simp [Removal.selects]
  | deleteReturn h =>
    obtain ⟨hfd, _⟩ := haims.target _ _ _ _ _ _ rfl
    cases h with
    | missing hf =>
      cases hw
      rw [hfd, hfind] at hf
      cases hf
    | unlock => cases hw
  | _ => cases hw

theorem Steps.window_entered (h : Steps sh t pc sh' pc') {p : ContextPtr} {e : Event}
    (hw : pc'.window = some (p, e)) :
    pc.window = some (p, e) ∨ ∃ es more, pc = .idleTrigger p e es more := by
  have hprocess : ∀ {p more es}, (Pc.process p more es).window = none := by
    intro p more es
    cases es <;> rfl
  have hnext : ∀ {more}, (Pc.nextReport more).window = none := by
    intro more
    cases more <;> rfl
  cases h with
  | idleTrigger ht =>
    cases hw
    exact Or.inr ⟨_, _, rfl⟩
  | idleReset | idleDel => exact Or.inl hw
  | deleteStep h =>
    cases h with
    | found | lock => exact Or.inl hw
    | locked => cases hw
  | idleContinue | idleEnd =>
    rw [hnext] at hw
    cases hw
  | idleUnlock | idleDecrement =>
    rw [hprocess] at hw
    cases hw
  | _ => cases hw

theorem Steps.older (ht : sh.io.TableOk) (h : Steps sh t pc sh' pc') :
    sh.io.allocated ≤ sh'.io.allocated ∧
      ∀ q < sh.io.allocated, (sh'.io.contexts q).m_fd = (sh.io.contexts q).m_fd := by
  rcases h.table with hsame | ⟨c, p, _, hgr, _⟩
  · exact ⟨Nat.le_of_eq hsame.allocated.symm, fun q _ => hsame.fd q⟩
  · have hr := (IOManager.growContext_resized ht hgr).1
    exact ⟨hr.grows, fun q hq => congrArg FdContext.m_fd (hr.old q hq)⟩

theorem Steps.newer (ht : sh.io.TableOk) (h : Steps sh t pc sh' pc') {p : ContextPtr}
    (hold : sh.io.allocated ≤ p) (hp : p < sh'.io.allocated) :
    (sh'.io.contexts p).m_events = .NONE ∧
      sh'.io.contextAt (sh'.io.contexts p).m_fd = .ok p := by
  rcases h.table with hsame | ⟨c, q, _, hgr, _⟩
  · exact absurd (hsame.allocated ▸ hp) (Nat.not_lt.mpr hold)
  · have hr := (IOManager.growContext_resized ht hgr).1
    obtain ⟨j, hj, hctx⟩ := hr.placed p hold hp
    refine ⟨hr.unused p hold hp, ?_⟩
    rw [hctx]
    exact IOManager.contextAt_ok_iff.mpr hj

/-- The thread's own position stays consistent, judged by the contexts before the step. -/
theorem Steps.aims (hok : pc.Aims sh.io) (ht : sh.io.TableOk)
    (hplaced : ∀ p < sh.io.allocated, sh.io.contextAt (sh.io.contexts p).m_fd = .ok p)
    (h : Steps sh t pc sh' pc') (hgrow : ∀ c, pc ≠ .addGrow c) : pc'.Aims sh.io := by
  have hfind : ∀ {fd p}, sh.io.findContext fd = .ok (some p) → p < sh.io.allocated := by
    intro fd p hf
    exact (ht.of_contextAt (IOManager.findContext_some_iff.mp hf).2).1
  have hplain : ∀ {pc' : Pc}, pc'.Plain → pc'.pointers ⊆ pc.pointers → pc'.Aims sh.io :=
    fun hp hsub => ⟨fun q hq => hok.pointers q (hsub hq),
      fun p e es more fd at_ hpc => absurd hpc (hp p e es more fd at_)⟩
  cases h with
  | addGrow => exact absurd rfl (hgrow _)
  | addFound hf => exact ⟨by simpa [Pc.pointers] using hfind hf, by simp⟩
  | addMissing => exact hplain (by simp [Pc.Plain]) (by simp [Pc.pointers])
  | addOp | addLock | idleLock | idleSkip | idleDispatch | idleTrigger | idleReset =>
    exact hplain (by simp [Pc.Plain]) (List.Subset.refl _)
  | addLocked | addUnlock | removeReturn =>
    exact hplain (by simp [Pc.Plain]) (by simp [Pc.pointers])
  | removeStep h =>
    cases h with
    | found hf => exact ⟨by simpa [Pc.pointers, RemovePc.pointers] using hfind hf, by simp⟩
    | lock | locked => exact hplain (by simp [Pc.Plain]) (List.Subset.refl _)
  | idleContinue | idleEnd =>
    refine hplain (Pc.plain_nextReport _) ?_
    rw [Pc.pointers_nextReport]
    exact List.subset_cons_self _ _
  | idleUnlock | idleDecrement =>
    refine hplain (Pc.plain_process _ _ _) ?_
    rw [Pc.pointers_process]
    exact List.Subset.refl _
  | idleDel =>
    refine ⟨hok.pointers, ?_⟩
    rintro p e es more fd at_ ⟨⟩
    exact ⟨rfl, by simp [RemovePc.pointers]⟩
  | deleteReturn =>
    exact hplain (by simp [Pc.Plain]) (fun q hq => List.mem_append_right _ hq)
  | deleteStep h =>
    obtain ⟨hfd, hat⟩ := hok.target _ _ _ _ _ _ rfl
    cases h with
    | found hf =>
      rename_i p e es more fd q
      have hp := hok.pointers p (by simp [Pc.pointers])
      have hq := (IOManager.findContext_some_iff.mp hf).2
      rw [hfd, hplaced p hp] at hq
      cases hq
      refine ⟨by simpa [Pc.pointers, RemovePc.pointers] using hok.pointers, ?_⟩
      rintro p' e' es' more' fd' at_ ⟨⟩
      exact ⟨hfd, by simp [RemovePc.pointers]⟩
    | lock | locked =>
      refine ⟨hok.pointers, ?_⟩
      rintro p' e' es' more' fd' at_ ⟨⟩
      exact ⟨hfd, hat⟩

end Shared

theorem Pc.Aims.mono {io io' : IOManager} {pc : Pc} (h : pc.Aims io)
    (hgrows : io.allocated ≤ io'.allocated)
    (hfd : ∀ p < io.allocated, (io'.contexts p).m_fd = (io.contexts p).m_fd) : pc.Aims io' := by
  refine ⟨fun p hp => Nat.lt_of_lt_of_le (h.pointers p hp) hgrows, ?_⟩
  rintro p e es more fd at_ rfl
  rw [hfd p (h.pointers p (by simp [Pc.pointers]))]
  exact h.target p e es more fd at_ rfl

namespace Threads

/-- Contexts are found under their descriptors, and all pointers are to contexts. -/
structure Located (s : Threads) : Prop where
  table : s.TableInv
  placed : ∀ p < s.io.allocated, s.io.contextAt (s.io.contexts p).m_fd = .ok p
  entries : ∀ fd ev, s.io.epoll fd = some ev → ev.ptr < s.io.allocated
  aims : ∀ t, (s.pc t).Aims s.io

variable {s s' : Threads} {t : Tid} {a : Act}

theorem Located.run (hi : s.Located) (hg : ¬ s.Shrinks (.run t)) (h : s.exec (.run t) = .ok s') :
    s'.Located := by
  have htab := hi.table.exec (a := .run t) trivial h
  have hkept := (hi.table.keeps_entry hg h).2
  obtain ⟨sh, pc, hs, rfl⟩ := steps_of_run h
  have haims := hs.aims (hi.aims t) hi.table.table hi.placed
  have hentries : ∀ fd ev, sh.io.epoll fd = some ev → ev.ptr < s.io.allocated := by
    intro fd ev hev
    rcases hs.entries hev with hp | hold
    · exact (hi.aims t).pointers _ hp
    · exact hi.entries fd ev hold
  have hio := hs.older hi.table.table
  refine ⟨htab, fun p hp => ?_, fun fd ev hev => Nat.lt_of_lt_of_le (hentries fd ev hev) hio.1,
    fun u => ?_⟩
  · change sh.io.contextAt (sh.io.contexts p).m_fd = .ok p
    by_cases hold : p < s.io.allocated
    · rw [hio.2 p hold]
      exact hkept _ _ (hi.placed p hold)
    · exact (hs.newer hi.table.table (Nat.le_of_not_lt hold) hp).2
  · by_cases hu : u = t
    · subst u
      simp only [Function.update_self]
      by_cases hgrow : ∃ c, s.pc t = .addGrow c
      · obtain ⟨c, hpc⟩ := hgrow
        rw [hpc] at hs
        cases hs with
        | addGrow hgr =>
          obtain ⟨_, hlt⟩ := IOManager.growContext_resized hi.table.table hgr
          exact ⟨by simpa [Pc.pointers] using hlt, by simp⟩
      · exact (haims fun c hc => hgrow ⟨c, hc⟩).mono hio.1 hio.2
    · simp only [Function.update_of_ne hu]
      exact (hi.aims u).mono hio.1 hio.2

theorem Located.started (hi : s.Located) {pc : Pc} (hpc : pc.Aims s.io)
    (h : s.start t pc = .ok s') (htab : s'.TableInv) : s'.Located := by
  obtain ⟨_, rfl⟩ := start_ok_iff.mp h
  refine ⟨htab, hi.placed, hi.entries, fun u => ?_⟩
  by_cases hu : u = t
  · subst u
    simpa using hpc
  · simpa [hu] using hi.aims u

theorem Located.exec (hi : s.Located) (ha : s.Allowed a) (hf : a.Fits) (hg : ¬ s.Shrinks a)
    (h : s.exec a = .ok s') : s'.Located := by
  have htab := hi.table.exec hf h
  cases a with
  | run t => exact hi.run hg h
  | addEvent t c => exact hi.started ⟨by simp [Pc.pointers], by simp⟩ h htab
  | remove t k fd =>
    exact hi.started ⟨by simp [Pc.pointers, RemovePc.pointers], by simp⟩ h htab
  | report t reports =>
    exact hi.started ⟨reported_allocated hi.entries ha, fun p e es more fd at_ hpc =>
      absurd hpc (Pc.plain_nextReport reports p e es more fd at_)⟩ h htab

end Threads

namespace EventWorkers

variable {s s' : EventWorkers}

/-- At most the newest registration is in force, and it is while the bit is set. -/
def CellSound (c : Bool × List Registration) : Prop :=
  if c.1 then ∃ r rest, c.2 = r :: rest ∧ r.removed = none ∧ ∀ x ∈ rest, x.removed.isSome = true
  else ∀ x ∈ c.2, x.removed.isSome = true

structure Sound (s : EventWorkers) : Prop where
  located : s.Located
  owners : s.OwnersOk
  unused : ∀ p, s.io.allocated ≤ p → ∀ e, s.log p e = []
  cells : ∀ p < s.io.allocated, ∀ e, CellSound (s.cell p e)
  windows : ∀ t p e, (s.pc t).window = some (p, e) → s.dispatched t + 1 = (s.log p e).length
  pending : ∀ p e r rest, s.log p e = r :: rest → r.removed = none → r.enqueued ≠ [] →
    ∃ t, (s.pc t).window = some (p, e)
  started : ∀ p e n, 0 < s.started p e n →
    ∃ r, registration (s.log p e) n = some r ∧ r.removed.isSome = true

/-- A task is started while the thread that made it runnable has still to delete
the registration. -/
def Early (s : EventWorkers) : Act → Prop
  | .thread _ => False
  | .start _ p e n => ∃ u, (s.pc u).window = some (p, e) ∧ s.dispatched u = n
  | .startInside _ _ _ _ => True

/-- An event is registered while a thread has still to delete the registration it
has dispatched. -/
def Intrudes (s : EventWorkers) (a : Act) : Prop :=
  ∃ t c op p u, a = .thread (.run t) ∧ s.pc t = .addLocked c op p ∧
    (s.io.contexts p).m_events.has c.event = false ∧ (s.pc u).window = some (p, c.event)

def Act.Fits : Act → Prop
  | .thread a => a.Fits
  | .start _ _ _ _ | .startInside _ _ _ _ => True

instance : DecidablePred Act.Fits
  | .thread a => inferInstanceAs (Decidable a.Fits)
  | .start _ _ _ _ | .startInside _ _ _ _ => inferInstanceAs (Decidable True)

def Act.tid : Act → Tid
  | .thread a => a.tid
  | .start t _ _ _ | .startInside t _ _ _ => t

structure Ordered (s : EventWorkers) (a : Act) : Prop where
  fits : a.Fits
  growth : ∀ a', a = .thread a' → ¬ s.Shrinks a'
  early : ¬ s.Early a
  intrudes : ¬ s.Intrudes a
  release : ∀ a', a = .thread a' → s.toThreads.KeepsMutex a'

section Numbers

variable {l : List Registration} {r : Registration} {n : Nat}

theorem registration_cons (h : n < l.length) : registration (r :: l) n = registration l n := by
  unfold registration
  rw [List.reverse_cons, List.getElem?_append_left (by simpa using h)]

theorem registration_head : registration (r :: l) l.length = some r := by
  unfold registration
  rw [List.reverse_cons, List.getElem?_append_right (by simp)]
  simp

theorem registration_lt (h : registration l n = some r) : n < l.length := by
  have hlt := (List.getElem?_eq_some_iff.mp h).1
  simpa using hlt

theorem registration_mem (h : registration l n = some r) : r ∈ l :=
  List.mem_reverse.mp (List.mem_of_getElem? h)

theorem registration_modifyHead (f : Registration → Registration) (h : registration l n = some r) :
    ∃ r', registration (l.modifyHead f) n = some r' ∧ (r' = r ∨ r' = f r) := by
  cases l with
  | nil => exact absurd (registration_lt h) (Nat.not_lt_zero n)
  | cons x rest =>
    rw [List.modifyHead_cons]
    rcases Nat.lt_succ_iff_lt_or_eq.mp (registration_lt h) with hlt | rfl
    · rw [registration_cons hlt] at h ⊢
      exact ⟨r, h, Or.inl rfl⟩
    · rw [registration_head] at h ⊢
      cases h
      exact ⟨_, rfl, Or.inr rfl⟩

end Numbers

section Cells

variable {pc : Pc} {p : ContextPtr} {e : Event} {c c' : Bool × List Registration}

theorem CellSound.step (hc : CellSound c) (h : CellStep pc p e c c') : CellSound c' := by
  cases h with
  | same => exact hc
  | opened => exact ⟨_, _, rfl, rfl, hc⟩
  | triggered =>
    obtain ⟨r, rest, rfl, hr, hrest⟩ := hc
    exact ⟨_, _, rfl, hr, hrest⟩
  | removed =>
    obtain ⟨r, rest, rfl, _, hrest⟩ := hc
    exact List.forall_mem_cons.mpr ⟨rfl, hrest⟩

theorem removed_kept (h : CellStep pc p e c c') {n : Nat} {r : Registration}
    (hr : registration c.2 n = some r) (hrem : r.removed.isSome = true) :
    ∃ r', registration c'.2 n = some r' ∧ r'.removed.isSome = true := by
  cases h with
  | same => exact ⟨r, hr, hrem⟩
  | opened => exact ⟨r, (registration_cons (registration_lt hr)).trans hr, hrem⟩
  | triggered | removed =>
    obtain ⟨r', hr', rfl | rfl⟩ := registration_modifyHead _ hr
    · exact ⟨_, hr', hrem⟩
    · exact ⟨_, hr', by first | exact hrem | rfl⟩

theorem length_step (h : CellStep pc p e c c') : c'.2.length = c.2.length ∨
    c.1 = false ∧ ∃ call op, pc = .addLocked call op p ∧ call.event = e := by
  cases h with
  | same => exact Or.inl rfl
  | opened hpc he => exact Or.inr ⟨rfl, _, _, hpc, he⟩
  | triggered | removed => exact Or.inl (List.length_modifyHead ..)

/-- The newest registration is in force and handed over: nothing happened to it,
or it has just been triggered. -/
theorem unremoved_step (h : CellStep pc p e c c') (hs : CellSound c') {r : Registration}
    {rest : List Registration} (hl : c'.2 = r :: rest) (hr : r.removed = none)
    (he : r.enqueued ≠ []) :
    c'.1 = true ∧ (c.2 = r :: rest ∨ ∃ es more, pc = .idleTrigger p e es more) := by
  have hset : c'.1 = true := by
    by_contra hb
    rw [CellSound, if_neg hb, hl] at hs
    have hrem := hs r List.mem_cons_self
    rw [hr] at hrem
    cases hrem
  refine ⟨hset, ?_⟩
  cases h with
  | same => exact Or.inl hl
  | opened =>
    cases hl
    exact absurd rfl he
  | triggered hpc => exact Or.inr ⟨_, _, hpc⟩
  | removed => cases hset

end Cells

section Step

variable {a : FiberAsync.Act} {t : Tid} {p : ContextPtr} {e : Event} {n : Nat} {es : List Event}
  {more : List Report}

theorem Sound.found (hi : s.Sound) (hp : p < s.io.allocated) :
    s.io.findContext (s.io.contexts p).m_fd = .ok (some p) :=
  IOManager.findContext_of_contextAt hi.located.table.small (hi.located.placed p hp)

theorem Sound.lt_allocated (hi : s.Sound) (h : s.log p e ≠ []) : p < s.io.allocated := by
  by_contra hle
  exact h (hi.unused p (Nat.le_of_not_lt hle) e)

theorem Sound.begin (hi : s.Sound) {u : Threads} {pc : Pc} (hu : s.toThreads.start t pc = .ok u)
    (hw : pc.window = none) (hloc : u.Located) (hown : u.OwnersOk) :
    Sound { u with started := s.started, dispatched := s.dispatched } := by
  obtain ⟨hout, rfl⟩ := Threads.start_ok_iff.mp hu
  have hpc : ∀ v, (Function.update s.pc t pc v).window = (s.pc v).window := by
    intro v
    by_cases hv : v = t
    · subst v
      rw [Function.update_self, hout, hw]
      rfl
    · rw [Function.update_of_ne hv]
  refine ⟨hloc, hown, hi.unused, hi.cells, fun v p e hv => ?_, fun p e r rest hl hr he => ?_,
    hi.started⟩
  · exact hi.windows v p e ((hpc v).symm.trans hv)
  · obtain ⟨v, hv⟩ := hi.pending p e r rest hl hr he
    exact ⟨v, (hpc v).trans hv⟩

theorem dispatches_of_ne {u : Tid} (hu : u ≠ t) :
    s.dispatches (.run t) u = s.dispatched u := by
  cases hpc : s.pc t <;> simp [dispatches, hpc, hu]

theorem dispatches_self (hpc : s.pc t = .idleTrigger p e es more) :
    s.dispatches (.run t) t = (s.log p e).length - 1 := by
  simp [dispatches, hpc]

theorem dispatches_window (hw : (s.pc t).window = some (p, e)) :
    s.dispatches (.run t) t = s.dispatched t := by
  cases hpc : s.pc t with
  | idleTrigger p e es more =>
    rw [hpc] at hw
    cases hw
  | _ => simp [dispatches, hpc]

theorem CellSound.cons_of_set {l : List Registration} (h : CellSound (true, l)) :
    ∃ r rest, l = r :: rest ∧ r.removed = none := by
  obtain ⟨r, rest, hl, hr, _⟩ := h
  exact ⟨r, rest, hl, hr⟩

theorem Sound.run (hi : s.Sound) (hg : s.Ordered (.thread (.run t))) {u : Threads}
    (hu : s.toThreads.exec (.run t) = .ok u) :
    Sound { u with started := s.started, dispatched := s.dispatches (.run t) } := by
  have hloc := hi.located.run (hg.growth _ rfl) hu
  have hown := hi.owners.run (fun p more hpc => hg.release _ rfl t p more rfl hpc) hu
  obtain ⟨sh, pc, hs, rfl⟩ := Threads.steps_of_run hu
  have haims := hi.located.aims t
  have hcell : ∀ p < s.io.allocated, ∀ e,
      CellStep (s.pc t) p e (s.cell p e) (sh.cell p e) := fun p hp e =>
    hs.cell hi.located.table.table hp e
  have hgrows := (hs.older hi.located.table.table).1
  have hlog : ∀ p, s.io.allocated ≤ p → sh.log p = s.log p := fun p hp =>
    hs.log_other fun hin => Nat.not_lt.mpr hp (haims.pointers p hin)
  have hcells : ∀ p < s.io.allocated, ∀ e, CellSound (sh.cell p e) := fun p hp e =>
    (hi.cells p hp e).step (hcell p hp e)
  have hlength : ∀ v p e, (s.pc v).window = some (p, e) →
      (sh.log p e).length = (s.log p e).length ∧ s.log p e ≠ [] := by
    intro v p e hv
    have hne : s.log p e ≠ [] := by
      intro hnil
      have hnum := hi.windows v p e hv
      rw [hnil] at hnum
      simp at hnum
    refine ⟨?_, hne⟩
    rcases length_step (hcell p (hi.lt_allocated hne) e) with h | ⟨hb, c, op, hpc, rfl⟩
    · exact h
    · exact absurd ⟨t, c, op, p, v, rfl, hpc, hb, hv⟩ hg.intrudes
  refine ⟨hloc, hown, ?_, ?_, ?_, ?_, ?_⟩
  · intro p hp e
    have hp' := Nat.le_trans hgrows hp
    exact (congrFun (hlog p hp') e).trans (hi.unused p hp' e)
  · intro p hp e
    by_cases hold : p < s.io.allocated
    · exact hcells p hold e
    · have hle := Nat.le_of_not_lt hold
      have hnone := (hs.newer hi.located.table.table hle hp).1
      have hempty : sh.log p e = [] := (congrFun (hlog p hle) e).trans (hi.unused p hle e)
      change CellSound (sh.cell p e)
      simp [Shared.cell, hnone, hempty, CellSound]
  · intro v p e hv
    change s.dispatches (.run t) v + 1 = (sh.log p e).length
    by_cases hvt : v = t
    · subst v
      simp only [Function.update_self] at hv
      rcases hs.window_entered hv with hold | ⟨es, more, hpc⟩
      · rw [dispatches_window hold, (hlength t p e hold).1]
        exact hi.windows t p e hold
      · have hp : p < s.io.allocated := haims.pointers p (by simp [hpc, Pc.pointers])
        have hlen : (sh.log p e).length = (s.log p e).length := by
          rcases length_step (hcell p hp e) with h | ⟨_, c, op, hc, _⟩
          · exact h
          · rw [hpc] at hc
            cases hc
        rw [dispatches_self hpc, hlen]
        have hset : (s.io.contexts p).m_events.has e = true := by
          rw [hpc] at hs
          cases hs with
          | idleTrigger ht => exact (IOManager.handOver_ok_iff.mp ht).1
        have hsound := hi.cells p hp e
        rw [Shared.cell, hset] at hsound
        obtain ⟨r, rest, hl, _⟩ := hsound.cons_of_set
        simp [hl]
    · simp only [Function.update_of_ne hvt] at hv
      rw [dispatches_of_ne hvt, (hlength v p e hv).1]
      exact hi.windows v p e hv
  · intro p e r rest hl hr he
    change sh.log p e = r :: rest at hl
    change ∃ v, (Function.update s.pc t pc v).window = some (p, e)
    have hp : p < s.io.allocated := by
      by_contra hle
      rw [hlog p (Nat.le_of_not_lt hle), hi.unused p (Nat.le_of_not_lt hle)] at hl
      cases hl
    have hsound := hcells p hp e
    obtain ⟨hset, hold | ⟨es, more, hpc⟩⟩ := unremoved_step (hcell p hp e) hsound hl hr he
    · obtain ⟨v, hv⟩ := hi.pending p e r rest hold hr he
      by_cases hvt : v = t
      · subst v
        rcases hs.window haims (hi.found hp) hv with hstay | hclear
        · exact ⟨t, by rwa [Function.update_self]⟩
        · exact absurd (hclear.symm.trans hset) (by simp)
      · exact ⟨v, by rwa [Function.update_of_ne hvt]⟩
    · refine ⟨t, ?_⟩
      rw [Function.update_self]
      rw [hpc] at hs
      cases hs
      rfl
  · intro p e n hn
    obtain ⟨r, hr, hrem⟩ := hi.started p e n hn
    have hne : s.log p e ≠ [] := by
      intro hnil
      rw [hnil] at hr
      cases hr
    exact removed_kept (hcell p (hi.lt_allocated hne) e) hr hrem

theorem Sound.thread (hi : s.Sound) (ha : s.toThreads.Allowed a) (hg : s.Ordered (.thread a))
    {u : Threads} (hu : s.toThreads.exec a = .ok u) :
    Sound { u with started := s.started, dispatched := s.dispatches a } := by
  have hloc := hi.located.exec ha hg.fits (hg.growth a rfl) hu
  cases a with
  | run t => exact hi.run hg hu
  | addEvent t c => exact hi.begin hu rfl hloc (hi.owners.start rfl hu)
  | remove t k fd => exact hi.begin hu rfl hloc (hi.owners.start rfl hu)
  | report t reports =>
    exact hi.begin hu (by cases reports <;> rfl) hloc
      (hi.owners.start (Pc.region_nextReport reports) hu)

theorem start_ok_iff : s.exec (.start t p e n) = .ok s' ↔
    (s.pc t = .outside ∧ s.Queued p e n) ∧ s' = s.withStarted p e n := by
  simp only [exec]
  split
  · rename_i hq
    simp [hq, eq_comm]
  · rename_i hq
    simp [hq]

theorem started_of_ne {q : ContextPtr} {e' : Event} {m : Nat} (h : ¬ (q = p ∧ e' = e ∧ m = n)) :
    (s.withStarted p e n).started q e' m = s.started q e' m := by
  unfold withStarted
  by_cases hq : q = p
  · subst q
    by_cases he : e' = e
    · subst e'
      have hm : m ≠ n := fun hm => h ⟨rfl, rfl, hm⟩
      simp [hm]
    · simp [he]
  · simp [hq]

/-- A task that is started outside of all windows has its registration removed. -/
theorem Sound.queued (hi : s.Sound) (hq : s.Queued p e n)
    (hno : ∀ u, (s.pc u).window = some (p, e) → s.dispatched u ≠ n) :
    ∃ r, registration (s.log p e) n = some r ∧ r.removed.isSome = true := by
  obtain ⟨r, hr, hlt⟩ := hq
  refine ⟨r, hr, ?_⟩
  by_contra hnone
  rw [Option.not_isSome_iff_eq_none] at hnone
  have hne : s.log p e ≠ [] := by
    intro hnil
    rw [hnil] at hr
    cases hr
  have hsound := hi.cells p (hi.lt_allocated hne) e
  unfold CellSound Shared.cell at hsound
  split at hsound
  · obtain ⟨x, rest, hl, hx, hrest⟩ := hsound
    change s.log p e = x :: rest at hl
    rw [hl] at hr
    rcases Nat.lt_succ_iff_lt_or_eq.mp (registration_lt hr) with hlt' | rfl
    · rw [registration_cons hlt'] at hr
      have hrem := hrest r (registration_mem hr)
      rw [hnone] at hrem
      cases hrem
    · rw [registration_head] at hr
      cases hr
      have henq : r.enqueued ≠ [] := by
        intro hnil
        rw [hnil] at hlt
        exact Nat.not_lt_zero _ hlt
      obtain ⟨u, hu⟩ := hi.pending p e r rest hl hnone henq
      have hnum := hi.windows u p e hu
      rw [hl, List.length_cons, Nat.add_right_cancel_iff] at hnum
      exact hno u hu hnum
  · have hrem := hsound r (registration_mem hr)
    rw [hnone] at hrem
    cases hrem

theorem Sound.step (hi : s.Sound) {b : Act} (hg : s.Ordered b) (h : system.step s b s') :
    s'.Sound := by
  obtain ⟨ha, hexec⟩ := h
  cases b with
  | thread a =>
    obtain ⟨u, hu, hs'⟩ := bind_eq_ok.mp hexec
    cases hs'
    exact hi.thread ha hg hu
  | start t p e n =>
    obtain ⟨hq, rfl⟩ := start_ok_iff.mp hexec
    refine ⟨hi.located, hi.owners, hi.unused, hi.cells, hi.windows, hi.pending, fun q e' k hk => ?_⟩
    by_cases hx : q = p ∧ e' = e ∧ k = n
    · obtain ⟨rfl, rfl, rfl⟩ := hx
      exact hi.queued hq.2 fun u hu hd => hg.early ⟨u, hu, hd⟩
    · refine hi.started q e' k ?_
      rwa [show s.started q e' k = _ from (started_of_ne hx).symm]
  | startInside => exact absurd trivial hg.early

end Step

theorem initial_sound : initial.Sound := by
  have hloc : initial.Located := by
    refine ⟨Threads.initial_tableInv, fun p hp => ?_, fun fd ev hev => ?_, fun t => ?_⟩
    · obtain ⟨j, hj, hc⟩ := IOManager.initial_placed hp
      change IOManager.initial.contextAt (IOManager.initial.contexts p).m_fd = .ok p
      rw [hc]
      exact hj
    · exact (IOManager.initial_eventsOk.back fd ev hev).1
    · exact ⟨by simp [initial, Threads.initial, Pc.pointers], by simp [initial, Threads.initial]⟩
  refine ⟨hloc, Threads.initial_ownersOk, fun _ _ _ => rfl, fun p hp e => ?_, ?_, ?_, ?_⟩
  · obtain ⟨j, _, hc⟩ := IOManager.initial_placed hp
    have hnone : (initial.io.contexts p).m_events = .NONE := by
      change (IOManager.initial.contexts p).m_events = .NONE
      rw [hc]
    simp only [Shared.cell, hnone, EventMask.has_NONE]
    exact fun x hx => by cases hx
  · intro t p e hw
    cases hw
  · intro p e r rest hl
    cases hl
  · intro p e n hn
    exact absurd hn (Nat.not_lt_zero _)

/-- What a woken waiter relies on. -/
structure Reregisters (s : EventWorkers) : Prop where
  removed : ∀ p e n, 0 < s.started p e n →
    ∃ r, registration (s.log p e) n = some r ∧ r.removed.isSome = true
  /-- `addEvent` throws for a registration that is newer than those of all waiters
  that have started -/
  throws : ∀ t c op p io, s.pc t = .addLocked c op p →
    s.io.addEventLocked op p c = .ok (.logicError, io) →
      ∀ n, 0 < s.started p c.event n → n + 1 < (s.log p c.event).length
  /-- the `delEvent` of a dispatch takes the registration that was dispatched -/
  deletes : ∀ t p e es more fd q, s.pc t = .idleDeleting p e es more fd (.locked q) →
    q = p ∧ ((s.io.contexts p).m_events.has e = true →
      s.dispatched t + 1 = (s.log p e).length)

theorem Sound.reregisters (hi : s.Sound) : s.Reregisters := by
  refine ⟨hi.started, ?_, ?_⟩
  · intro t c op p io hpc hthrow n hn
    have hset : (s.io.contexts p).m_events.has c.event = true := by
      rcases IOManager.addEventLocked_ok_iff.mp hthrow with ⟨hm, _⟩ | ⟨_, _, _, _, hr, _⟩
      · exact hm
      · cases hr
    have hp : p < s.io.allocated := (hi.located.aims t).pointers p (by simp [hpc, Pc.pointers])
    have hsound := hi.cells p hp c.event
    rw [Shared.cell, hset] at hsound
    obtain ⟨x, rest, hl, hx⟩ := hsound.cons_of_set
    obtain ⟨r, hr, hrem⟩ := hi.started p c.event n hn
    rw [hl] at hr ⊢
    rcases Nat.lt_succ_iff_lt_or_eq.mp (registration_lt hr) with hlt | rfl
    · exact Nat.succ_lt_succ hlt
    · rw [registration_head] at hr
      cases hr
      rw [hx] at hrem
      cases hrem
  · intro t p e es more fd q hpc
    have htarget := (hi.located.aims t).target p e es more fd _ hpc
    refine ⟨htarget.2 q (List.mem_singleton_self q), fun _ => hi.windows t p e ?_⟩
    rw [hpc]
    rfl

/-- If no task is started before the thread that made it has cleared the bit, no
event is registered while a thread is between its `triggerEvent` and the section of its
`delEvent` for it, and no dispatch frees a mutex that is held, then a waiter can
re-register as soon as it runs, and the sections of a context do not overlap. -/
theorem waiter_can_reregister {tr : List (Move EventWorkers Act)} (hr : Run system initial tr s)
    (hg : ∀ m ∈ tr, m.pre.Ordered m.act) : s.Reregisters ∧ s.Exclusive := by
  have hi := hr.invariant_of_guard Sound Ordered (fun hi hg hs => hi.step hg hs) initial_sound hg
  exact ⟨hi.reregisters, hi.owners.exclusive⟩

/-- `addEvent(5, READ, cb)` by a thread with scheduler 0. -/
def readCall (cb : Callback) : AddCall := ⟨5, .READ, some cb, ⟨some 0, 0, true⟩⟩

def calls (l : List FiberAsync.Act) : List Act := l.map .thread

/-- The event is registered, reported, and triggered by thread 0. -/
def triggered : List Act :=
  calls (.addEvent 0 (readCall 0) :: List.replicate 5 (.run 0) ++
    .report 0 [(5, EPOLLIN)] :: List.replicate 4 (.run 0))

/-- Thread 1 starts the task at once, and the task registers the event again. -/
def startedEarly : List Act :=
  triggered ++ .start 1 5 .READ 0 :: calls (.addEvent 1 (readCall 1) :: List.replicate 3 (.run 1))

/-- Thread 2 deletes the registration that is being dispatched and makes a new one. -/
def replaced : List Act :=
  triggered ++ calls (.remove 2 (.delEvent .READ) 5 :: List.replicate 4 (.run 2) ++
    .addEvent 2 (readCall 1) :: List.replicate 5 (.run 2) ++ List.replicate 4 (.run 0))

/-- Thread 1 cancels the event, and thread 2 starts the task before the section of
thread 1 has cleared the bit. -/
def startedInside : List Act :=
  calls (.addEvent 0 (readCall 0) :: List.replicate 5 (.run 0) ++
    [.remove 1 (.cancelEvent .READ) 5, .run 1, .run 1]) ++ [.startInside 2 1 5 .READ]

theorem waiter_cannot_reregister :
    (∃ tr s, Run system initial tr s ∧ tr.map Move.act = startedEarly ∧
      s.started 5 .READ 0 = 1 ∧ (s.log 5 .READ).map Registration.removed = [none] ∧
      s.pc 1 = .addLocked (readCall 1) .MOD 5 ∧
      s.io.addEventLocked .MOD 5 (readCall 1) = .ok (.logicError, s.io)) ∧
    (∃ tr s, Run system initial tr s ∧ tr.map Move.act = replaced ∧
      s.pc 0 = .idleDeleting 5 .READ [] [] 5 (.locked 5) ∧ s.dispatched 0 = 0 ∧
      (s.log 5 .READ).map Registration.removed = [none, some .delete] ∧
      (s.io.contexts 5).m_events.has .READ = true) ∧
    ∃ tr s, Run system initial tr s ∧ tr.map Move.act = startedInside ∧
      s.pc 1 = .remove (.cancelEvent .READ) 5 (.locked 5) ∧ s.started 5 .READ 0 = 1 ∧
      (s.log 5 .READ).map Registration.removed = [none] := by
  refine ⟨?_, ?_, ?_⟩
  · have hrun : (traceAll next initial startedEarly).map (fun r =>
        (r.2.started 5 .READ 0, (r.2.log 5 .READ).map Registration.removed, r.2.pc 1,
          (r.2.io.contexts 5).m_events.has .READ)) =
        some (1, [none], .addLocked (readCall 1) .MOD 5, true) := by decide +kernel
    obtain ⟨tr, s, hr, hacts, hobs⟩ := Run.exists_of_traceAll next next_sound _ hrun
    simp only [Prod.mk.injEq] at hobs
    obtain ⟨hstarted, hlog, hpc, hset⟩ := hobs
    exact ⟨tr, s, hr, hacts, hstarted, hlog, hpc,
      IOManager.addEventLocked_ok_iff.mpr (Or.inl ⟨hset, rfl, rfl⟩)⟩
  · have hrun : (traceAll next initial replaced).map (fun r =>
        (r.2.pc 0, r.2.dispatched 0, (r.2.log 5 .READ).map Registration.removed,
          (r.2.io.contexts 5).m_events.has .READ)) =
        some (.idleDeleting 5 .READ [] [] 5 (.locked 5), 0, [none, some .delete], true) := by
      decide +kernel
    obtain ⟨tr, s, hr, hacts, hobs⟩ := Run.exists_of_traceAll next next_sound _ hrun
    simp only [Prod.mk.injEq] at hobs
    exact ⟨tr, s, hr, hacts, hobs⟩
  · have hrun : (traceAll next initial startedInside).map (fun r =>
        (r.2.pc 1, r.2.started 5 .READ 0, (r.2.log 5 .READ).map Registration.removed)) =
        some (.remove (.cancelEvent .READ) 5 (.locked 5), 1, [none]) := by decide +kernel
    obtain ⟨tr, s, hr, hacts, hobs⟩ := Run.exists_of_traceAll next next_sound _ hrun
    simp only [Prod.mk.injEq] at hobs
    exact ⟨tr, s, hr, hacts, hobs⟩

/-- Thread 1 starts the task when the dispatch of thread 0 is over, registers the
event again, and starts the task that the cancellation of thread 0 makes. -/
def startedAfter : List Act :=
  triggered ++ calls (List.replicate 7 (.run 0)) ++
    .start 1 5 .READ 0 :: calls (.addEvent 1 (readCall 1) :: List.replicate 5 (.run 1) ++
      .run 0 :: .remove 0 (.cancelEvent .READ) 5 :: List.replicate 4 (.run 0)) ++
    [.start 1 5 .READ 1]

/-- What is left of `Ordered` when only the threads of `b` make calls. -/
def orderly (s : EventWorkers) (b : List Tid) (a : Act) : Bool :=
  decide (a.tid ∈ b) && decide a.Fits && match a with
  | .thread (.run t) => s.toThreads.keepsMutex (.run t) && match s.pc t with
    | .addGrow c => s.io.m_fdContexts.length ≤ c.fd * 3 / 2
    | .addLocked c _ p => (s.io.contexts p).m_events.has c.event ||
      b.all fun u => (s.pc u).window ≠ some (p, c.event)
    | _ => true
  | .thread _ => true
  | .start _ p e n => b.all fun u => (s.pc u).window ≠ some (p, e) || s.dispatched u ≠ n
  | .startInside _ _ _ _ => false

section Orderly

variable {b : List Tid} {a : Act}

theorem within_exec (hw : s.Within b) (h : s.orderly b a = true) (hs : s.exec a = .ok s') :
    s'.Within b := by
  simp only [orderly, Bool.and_eq_true, decide_eq_true_eq] at h
  obtain ⟨⟨hb, _⟩, _⟩ := h
  cases a with
  | thread a =>
    obtain ⟨s₁, hs₁, hs'⟩ := bind_eq_ok.mp hs
    cases hs'
    exact Threads.Within.exec hw hb hs₁
  | start t p e n =>
    obtain ⟨_, rfl⟩ := start_ok_iff.mp hs
    exact hw
  | startInside => simp_all

theorem ordered_of_orderly (hw : s.Within b) (h : s.orderly b a = true) : s.Ordered a := by
  have hin : ∀ {u p e}, (s.pc u).window = some (p, e) → u ∈ b := by
    intro u p e hu
    by_contra hb
    rw [hw u hb] at hu
    cases hu
  simp only [orderly, Bool.and_eq_true, decide_eq_true_eq] at h
  obtain ⟨⟨_, hfits⟩, h⟩ := h
  refine ⟨hfits, ?_, ?_, ?_, ?_⟩
  · rintro a rfl ⟨t, c, rfl, hpc, hlt⟩
    dsimp only at h
    rw [hpc] at h
    exact absurd hlt (Nat.not_lt.mpr (of_decide_eq_true (Bool.and_eq_true_iff.mp h).2))
  · intro hearly
    cases a with
    | thread => exact hearly
    | start t p e n =>
      obtain ⟨u, hu, hn⟩ := hearly
      have htest := List.all_eq_true.mp h u (hin hu)
      simp [hu, hn] at htest
    | startInside => cases h
  · rintro ⟨t, c, op, p, u, rfl, hpc, hm, hu⟩
    dsimp only at h
    rw [hpc] at h
    simp only [hm, Bool.false_or, Bool.and_eq_true] at h
    have htest := List.all_eq_true.mp h.2 u (hin hu)
    simp [hu] at htest
  · rintro a rfl t p more rfl hpc
    exact Threads.keepsMutex_sound (Bool.and_eq_true_iff.mp h).1 t p more rfl hpc

end Orderly

theorem waiter_can_reregister_after : ∃ tr s, Run system initial tr s ∧
    tr.map Move.act = startedAfter ∧ s.started 5 .READ 0 = 1 ∧ s.started 5 .READ 1 = 1 ∧
    (s.log 5 .READ).map Registration.removed = [some .cancel, some .dispatch] ∧
    s.Reregisters ∧ s.Exclusive := by
  have hrun : (traceAll next initial startedAfter).map (fun r =>
      (r.1.all fun m => m.pre.orderly [0, 1] m.act, r.2.started 5 .READ 0, r.2.started 5 .READ 1,
        (r.2.log 5 .READ).map Registration.removed)) =
      some (true, 1, 1, [some .cancel, some .dispatch]) := by decide +kernel
  obtain ⟨tr, s, hr, hacts, hobs⟩ := Run.exists_of_traceAll next next_sound _ hrun
  simp only [Prod.mk.injEq] at hobs
  obtain ⟨horderly, hstarted, hstarted', hlog⟩ := hobs
  have horderly : ∀ m ∈ tr, m.pre.orderly [0, 1] m.act = true := List.all_eq_true.mp horderly
  refine ⟨tr, s, hr, hacts, hstarted, hstarted', hlog, waiter_can_reregister hr fun m hm => ?_⟩
  have keeps : ∀ {s : EventWorkers} {a s'}, s.Within [0, 1] → s.orderly [0, 1] a = true →
      system.step s a s' → s'.Within [0, 1] := fun hw h hs => within_exec hw h hs.2
  have hw := (hr.invariant_at_of_guard (fun s => s.Within [0, 1])
    (fun s a => s.orderly [0, 1] a = true) keeps (fun _ _ => rfl) horderly hm).1
  exact ordered_of_orderly hw (horderly m hm)

end EventWorkers

end FiberAsync
