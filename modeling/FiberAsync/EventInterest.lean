import FiberAsync.IOManager

/-!
# Contexts and the interest list

In every state an API call can leave behind, a context has events exactly when
the interest list holds its descriptor, and then `data.ptr` is that context. So
two contexts with events never share a descriptor, even when the table has been
resized in between.
-/

namespace FiberAsync

set_option autoImplicit false

open Results

namespace IOManager

structure EventsOk (io : IOManager) : Prop where
  table : io.TableOk
  listed : ∀ p < io.allocated, (io.contexts p).m_events ≠ .NONE →
    (io.contexts p).m_fd ≤ INT_MAX ∧ ∃ b, io.epoll (io.contexts p).m_fd = some ⟨b, p⟩
  back : ∀ fd ev, io.epoll fd = some ev → ev.ptr < io.allocated ∧
    (io.contexts ev.ptr).m_fd = fd ∧ (io.contexts ev.ptr).m_events ≠ .NONE

/-- The two states agree on everything the invariant reads. -/
structure SameView (io io' : IOManager) : Prop where
  allocated : io'.allocated = io.allocated
  table : io'.m_fdContexts = io.m_fdContexts
  epoll : io'.epoll = io.epoll
  fd : ∀ p, (io'.contexts p).m_fd = (io.contexts p).m_fd
  events : ∀ p, (io'.contexts p).m_events = (io.contexts p).m_events

variable {io io' : IOManager} {p : ContextPtr} {fd : Nat} {e : Event}

theorem SameView.refl (io : IOManager) : SameView io io :=
  ⟨rfl, rfl, rfl, fun _ => rfl, fun _ => rfl⟩

theorem SameView.of_count (io : IOManager) (n : BitVec 64) :
    SameView io { io with m_pendingEventCount := n } :=
  ⟨rfl, rfl, rfl, fun _ => rfl, fun _ => rfl⟩

theorem SameView.trans {io₁ io₂ io₃ : IOManager} (h : SameView io₁ io₂) (h' : SameView io₂ io₃) :
    SameView io₁ io₃ :=
  ⟨h'.allocated.trans h.allocated, h'.table.trans h.table, h'.epoll.trans h.epoll,
    fun p => (h'.fd p).trans (h.fd p), fun p => (h'.events p).trans (h.events p)⟩

theorem SameView.tableOk (h : SameView io io') (ht : io.TableOk) : io'.TableOk := by
  intro j o ho
  rw [h.table] at ho
  obtain ⟨p, hp, hlt, hfd⟩ := ht j o ho
  exact ⟨p, hp, h.allocated ▸ hlt, (h.fd p).trans hfd⟩

theorem SameView.eventsOk (h : SameView io io') (hi : EventsOk io) : EventsOk io' := by
  refine ⟨h.tableOk hi.table, ?_, ?_⟩
  · intro p hp hm
    rw [h.allocated] at hp
    rw [h.events] at hm
    rw [h.fd, h.epoll]
    exact hi.listed p hp hm
  · intro fd ev hev
    rw [h.epoll] at hev
    rw [h.allocated, h.fd, h.events]
    exact hi.back fd ev hev

theorem resetContext_sameView (io : IOManager) (p : ContextPtr) (e : Event) :
    SameView io (io.resetContext p e) := by
  refine ⟨rfl, rfl, rfl, ?_, ?_⟩ <;>
  · intro q
    by_cases hq : q = p
    · subst q
      simp [resetContext, setContext]
    · simp [resetContext, setContext, hq]

theorem triggerEvent_sameView (h : io.triggerEvent p e = .ok io') : SameView io io' := by
  obtain ⟨_, w, _, rfl⟩ := triggerEvent_ok_iff.mp h
  have hs := resetContext_sameView io p e
  exact ⟨hs.allocated, hs.table, hs.epoll, hs.fd, hs.events⟩

theorem handOver_sameView (h : io.handOver p e = .ok io') : SameView io io' := by
  obtain ⟨_, w, _, rfl⟩ := handOver_ok_iff.mp h
  exact ⟨rfl, rfl, rfl, fun _ => rfl, fun _ => rfl⟩

theorem triggerCounted_sameView (h : io.triggerCounted p e = .ok io') : SameView io io' := by
  rcases triggerCounted_ok_iff.mp h with ⟨_, rfl⟩ | ⟨io₁, ht, rfl⟩
  · exact .refl _
  · have hs := triggerEvent_sameView ht
    exact ⟨hs.allocated, hs.table, hs.epoll, hs.fd, hs.events⟩

theorem setContext_tableOk (h : io.TableOk) {ctx : FdContext}
    (hfd : ctx.m_fd = (io.contexts p).m_fd) : (io.setContext p ctx).TableOk := by
  intro j o ho
  obtain ⟨q, hq, hlt, hm⟩ := h j o ho
  refine ⟨q, hq, hlt, ?_⟩
  by_cases hqp : q = p
  · subst q
    simp [setContext, hfd, hm]
  · simp [setContext, hqp, hm]

/-- A context and the entry of its descriptor are overwritten together. -/
structure Rewritten (io : IOManager) (p : ContextPtr) (ctx : FdContext)
    (entry : Option EpollEvent) (io' : IOManager) : Prop where
  allocated : io'.allocated = io.allocated
  table : io'.m_fdContexts = io.m_fdContexts
  contexts : io'.contexts = Function.update io.contexts p ctx
  epoll : io'.epoll = Function.update io.epoll ctx.m_fd entry
  fd : ctx.m_fd = (io.contexts p).m_fd

theorem Rewritten.eventsOk {ctx : FdContext} {entry : Option EpollEvent}
    (h : Rewritten io p ctx entry io') (hi : EventsOk io) (hp : p < io.allocated)
    (howner : ∀ ev, io.epoll ctx.m_fd = some ev → ev.ptr = p)
    (hset : ctx.m_events ≠ .NONE → ctx.m_fd ≤ INT_MAX ∧ ∃ b, entry = some ⟨b, p⟩)
    (hclear : ctx.m_events = .NONE → entry = none) : EventsOk io' := by
  refine ⟨?_, ?_, ?_⟩
  · have ht := setContext_tableOk (p := p) hi.table h.fd
    intro j o ho
    rw [h.table] at ho
    obtain ⟨q, hq, hlt, hm⟩ := ht j o ho
    exact ⟨q, hq, h.allocated ▸ hlt, by rw [h.contexts]; exact hm⟩
  · intro q hq hm
    rw [h.allocated] at hq
    rw [h.contexts] at hm ⊢
    rw [h.epoll]
    by_cases hqp : q = p
    · subst q
      rw [Function.update_self] at hm ⊢
      rw [Function.update_self]
      exact hset hm
    · rw [Function.update_of_ne hqp] at hm ⊢
      obtain ⟨hle, b, hb⟩ := hi.listed q hq hm
      have hne : (io.contexts q).m_fd ≠ ctx.m_fd := by
        intro heq
        exact hqp (howner _ (heq ▸ hb))
      rw [Function.update_of_ne hne]
      exact ⟨hle, b, hb⟩
  · intro fd ev hev
    rw [h.epoll] at hev
    rw [h.allocated, h.contexts]
    by_cases hfd : fd = ctx.m_fd
    · subst fd
      rw [Function.update_self] at hev
      have hm : ctx.m_events ≠ .NONE := by
        intro hz
        rw [hclear hz] at hev
        cases hev
      obtain ⟨_, b, hb⟩ := hset hm
      rw [hb] at hev
      cases hev
      rw [Function.update_self]
      exact ⟨hp, rfl, hm⟩
    · rw [Function.update_of_ne hfd] at hev
      obtain ⟨hlt, hm, hne⟩ := hi.back fd ev hev
      have hep : ev.ptr ≠ p := by
        intro heq
        exact hfd (by rw [← hm, heq, h.fd])
      rw [Function.update_of_ne hep]
      exact ⟨hlt, hm, hne⟩

theorem EventsOk.owner (hi : EventsOk io) (hp : p < io.allocated)
    (hm : (io.contexts p).m_events ≠ .NONE) {ev : EpollEvent}
    (hev : io.epoll (io.contexts p).m_fd = some ev) : ev.ptr = p := by
  obtain ⟨_, b, hb⟩ := hi.listed p hp hm
  rw [hb] at hev
  cases hev
  rfl

theorem EventsOk.unique (hi : EventsOk io) {q : ContextPtr} (hp : p < io.allocated)
    (hq : q < io.allocated) (hpm : (io.contexts p).m_events ≠ .NONE)
    (hqm : (io.contexts q).m_events ≠ .NONE)
    (hfd : (io.contexts p).m_fd = (io.contexts q).m_fd) : p = q := by
  obtain ⟨_, b, hb⟩ := hi.listed p hp hpm
  exact hi.owner hq hqm (hfd ▸ hb)

theorem has_ne_NONE {m : EventMask} (h : m.has e = true) : m ≠ .NONE :=
  (EventMask.ne_NONE_iff m).mpr ⟨e, h⟩

theorem dropped_rewritten (hfd : (io.contexts p).m_fd = fd) :
    Rewritten io p { io.contexts p with m_events := (io.contexts p).m_events.erase e }
      (if (io.contexts p).m_events.erase e ≠ .NONE then
        some ⟨((io.contexts p).m_events.erase e).bits, p⟩ else none) (io.dropped p fd e) :=
  ⟨rfl, rfl, rfl, by rw [← hfd]; rfl, rfl⟩

theorem dropped_eventsOk (hi : EventsOk io) (hp : p < io.allocated)
    (hfd : (io.contexts p).m_fd = fd) (hm : (io.contexts p).m_events.has e = true) :
    EventsOk (io.dropped p fd e) := by
  refine (dropped_rewritten hfd).eventsOk hi hp (fun ev => hi.owner hp (has_ne_NONE hm)) ?_ ?_
  · intro hne
    exact ⟨(hi.listed p hp (has_ne_NONE hm)).1, _, if_pos hne⟩
  · intro hz
    exact if_neg (by simpa using hz)

theorem added_eventsOk (hi : EventsOk io) (hp : p < io.allocated) {c : AddCall}
    (hfd : (io.contexts p).m_fd = c.fd) (hle : c.fd ≤ INT_MAX)
    (hop : (io.addOp p).accepts (io.epoll c.fd) = true) :
    EventsOk (io.added (io.addOp p) p c) := by
  have hr : Rewritten io p
      ({ io.contexts p with m_events := (io.contexts p).m_events.insert c.event }.setEventContext
        c.eventContext c.event)
      (some ⟨((io.contexts p).m_events.insert c.event).bits ||| EPOLLET, p⟩)
      (io.added (io.addOp p) p c) := by
    refine ⟨rfl, rfl, rfl, ?_, by simp⟩
    have hst : ∀ ev, (io.addOp p).stored ev = some ev := by
      intro ev
      unfold addOp
      split <;> rfl
    simp [added, setContext, hst, hfd]
  refine hr.eventsOk hi hp ?_ ?_ ?_
  · intro ev hev
    simp only [FdContext.setEventContext_fd] at hev
    by_cases hz : (io.contexts p).m_events = .NONE
    · have hadd : io.addOp p = .ADD := by simp [addOp, hz]
      rw [hadd, ← hfd, hev] at hop
      cases hop
    · exact hi.owner hp hz hev
  · intro _
    simp only [FdContext.setEventContext_fd]
    exact ⟨hfd ▸ hle, _, rfl⟩
  · intro hz
    have hins := congrArg (fun m => m.has c.event) hz
    simp at hins

theorem cleared_eventsOk (hi : EventsOk io) (hp : p < io.allocated)
    (hfd : (io.contexts p).m_fd = fd) (hm : (io.contexts p).m_events ≠ .NONE) :
    EventsOk (io.cleared p fd) := by
  have hr : Rewritten io p { io.contexts p with m_events := .NONE } none (io.cleared p fd) :=
    ⟨rfl, rfl, rfl, by rw [← hfd]; rfl, rfl⟩
  exact hr.eventsOk hi hp (fun ev => hi.owner hp hm) (fun h => absurd rfl h) (fun _ => rfl)

theorem ResizedTo.eventsOk {size : Nat} (h : ResizedTo io size io') (hi : EventsOk io) :
    EventsOk io' := by
  refine ⟨h.tableOk hi.table, ?_, ?_⟩
  · intro p hp hm
    by_cases hlt : p < io.allocated
    · rw [h.old p hlt] at hm ⊢
      rw [h.rest.epoll]
      exact hi.listed p hlt hm
    · exact absurd (h.unused p (Nat.le_of_not_lt hlt) hp) hm
  · intro fd ev hev
    rw [h.rest.epoll] at hev
    obtain ⟨hlt, hm⟩ := hi.back fd ev hev
    rw [h.old ev.ptr hlt]
    exact ⟨Nat.lt_of_lt_of_le hlt h.grows, hm⟩

theorem setContext_self_eq {ctx : FdContext} (h : ctx = io.contexts p) :
    io.setContext p ctx = io := by
  simp [setContext, h]

/-- `fd_ctx->m_fd = fd` after a growth writes the value that is already there. -/
theorem growContext_eq (ht : io.TableOk) (h : io.growContext fd = .ok (p, io')) :
    io' = io.contextResize (fd * 3 / 2) ∧ p < io'.allocated ∧ (io'.contexts p).m_fd = fd := by
  obtain ⟨hp, rfl⟩ := growContext_ok_iff.mp h
  have hr := contextResize_resizedTo ht (fd * 3 / 2)
  obtain ⟨hlt, hm⟩ := (hr.tableOk ht).of_contextAt hp
  have hself : ∀ ctx : FdContext, ctx.m_fd = fd → { ctx with m_fd := fd } = ctx := by
    rintro ctx rfl
    rfl
  rw [setContext_self_eq (hself _ hm)]
  exact ⟨rfl, hlt, hm⟩

theorem growContext_resized (ht : io.TableOk) (h : io.growContext fd = .ok (p, io')) :
    ResizedTo io (fd * 3 / 2) io' ∧ p < io'.allocated := by
  obtain ⟨rfl, hlt, _⟩ := growContext_eq ht h
  exact ⟨contextResize_resizedTo ht _, hlt⟩

theorem growContext_contextResize (ht : io.TableOk) (hfd : 2 ≤ fd) :
    ∃ p, io.growContext fd = .ok (p, io.contextResize (fd * 3 / 2)) ∧
      (io.contextResize (fd * 3 / 2)).contextAt fd = .ok p := by
  have hr := contextResize_resizedTo ht (fd * 3 / 2)
  have hlt : fd < (io.contextResize (fd * 3 / 2)).m_fdContexts.length := by
    rw [hr.length]
    omega
  obtain ⟨p, hp, _⟩ := (hr.tableOk ht).contextAt_of_lt hlt
  have hg := growContext_ok_iff.mpr ⟨hp, rfl⟩
  obtain ⟨hio, _⟩ := growContext_eq ht hg
  rw [hio] at hg
  exact ⟨p, hg, hp⟩

theorem initial_resizedTo : ∃ io₀ : IOManager, EventsOk io₀ ∧
    io₀.m_pendingEventCount = 0 ∧ io₀.allocated = 0 ∧ ResizedTo io₀ 32 initial := by
  let io₀ : IOManager :=
    { contexts := fun _ => { m_fd := 0 }, allocated := 0, m_fdContexts := []
      m_pendingEventCount := 0, epoll := fun _ => none, tasks := [] }
  have ht : io₀.TableOk := fun j o h => by simp [io₀] at h
  refine ⟨io₀, ⟨ht, ?_, ?_⟩, rfl, rfl, contextResize_resizedTo ht 32⟩
  · intro p hp
    exact absurd hp (Nat.not_lt_zero _)
  · intro fd ev hev
    simp [io₀] at hev

theorem initial_eventsOk : EventsOk initial := by
  obtain ⟨io₀, h₀, _, _, hr⟩ := initial_resizedTo
  exact hr.eventsOk h₀

theorem initial_placed {p : ContextPtr} (hp : p < initial.allocated) :
    ∃ j : Nat, initial.contextAt j = .ok p ∧ initial.contexts p = { m_fd := j } := by
  obtain ⟨_, _, _, _, hr⟩ := initial_resizedTo
  obtain ⟨j, hj, hc⟩ := hr.placed p (by omega) hp
  exact ⟨j, contextAt_ok_iff.mpr hj, hc⟩

theorem initial_epoll (fd : Nat) : initial.epoll fd = none := by
  obtain ⟨io₀, h₀, _, halloc, hr⟩ := initial_resizedTo
  rw [hr.rest.epoll]
  cases hev : io₀.epoll fd with
  | none => rfl
  | some ev =>
    have hlt := (h₀.back fd ev hev).1
    rw [halloc] at hlt
    exact absurd hlt (Nat.not_lt_zero _)

end IOManager

end FiberAsync
