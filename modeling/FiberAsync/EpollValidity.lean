import FiberAsync.DispatchWindows
import FiberAsync.EventAccounting

/-!
# Every `epoll_ctl` on one descriptor

When all calls are for one descriptor, the table never shrinks, so there is one
context for it, and the interest list holds the descriptor exactly while the
context has events. An operation is then refused only if it was chosen before
the mutex was taken and the context has got its first event, or lost its last
one, since.
-/

namespace FiberAsync

set_option autoImplicit false

open Runs Results

namespace IOManager

variable {io io' : IOManager} {p q : ContextPtr} {fd : Nat} {e : Event} {op : EpollOp}

/-- The manager of a process that registers events of one descriptor only. -/
structure OneFd (fd : Nat) (io : IOManager) : Prop where
  events : EventsOk io
  placed : ∀ p < io.allocated, io.contextAt (io.contexts p).m_fd = .ok p
  length : io.m_fdContexts.length = 32 ∨ 32 ≤ fd ∧ io.m_fdContexts.length = fd * 3 / 2
  only : ∀ fd' ev, io.epoll fd' = some ev → fd' = fd

/-- A context made for the descriptor. -/
def IsFor (io : IOManager) (fd : Nat) (p : ContextPtr) : Prop :=
  p < io.allocated ∧ (io.contexts p).m_fd = fd

theorem OneFd.unique (hi : OneFd fd io) (hp : io.IsFor fd p) (hq : io.IsFor fd q) : p = q := by
  have hat := hi.placed p hp.1
  rw [hp.2, ← hq.2, hi.placed q hq.1] at hat
  cases hat
  rfl

theorem OneFd.listed_iff (hi : OneFd fd io) (hp : io.IsFor fd p) :
    (io.epoll fd).isSome = true ↔ (io.contexts p).m_events ≠ .NONE := by
  constructor
  · intro hsome
    obtain ⟨ev, hev⟩ := Option.isSome_iff_exists.mp hsome
    obtain ⟨hlt, hfd, hm⟩ := hi.events.back fd ev hev
    rwa [hi.unique hp ⟨hlt, hfd⟩]
  · intro hm
    obtain ⟨_, b, hb⟩ := hi.events.listed p hp.1 hm
    rw [hp.2] at hb
    simp [hb]

theorem OneFd.accepts_iff (hi : OneFd fd io) (hp : io.IsFor fd p) (hop : op ≠ .DEL) :
    op.accepts (io.epoll fd) = true ↔ op = io.addOp p := by
  have hl := hi.listed_iff hp
  unfold addOp
  cases op with
  | ADD =>
    rw [EpollOp.accepts, Option.isNone_iff_eq_none, ← Option.not_isSome_iff_eq_none, hl]
    split
    · rename_i hm
      simp [hm]
    · rename_i hm
      simpa using hm
  | MOD =>
    rw [EpollOp.accepts, hl]
    split
    · rename_i hm
      simp [hm]
    · rename_i hm
      simpa using hm
  | DEL => exact absurd rfl hop

/-- Contexts stay allocated, for the descriptor they were made for. -/
def Keeps (io io' : IOManager) : Prop := ∀ fd p, io.IsFor fd p → io'.IsFor fd p

theorem SameTable.keeps (hs : SameTable io io') : Keeps io io' :=
  fun _ p hp => ⟨hs.allocated ▸ hp.1, (hs.fd p).trans hp.2⟩

theorem ResizedTo.keeps {size : Nat} (h : ResizedTo io size io') : Keeps io io' :=
  fun _ p hp => ⟨Nat.lt_of_lt_of_le hp.1 h.grows, by rw [h.old p hp.1]; exact hp.2⟩

theorem OneFd.section_ (hi : OneFd fd io) (hp : io.IsFor fd p) (hs : SameTable io io')
    (hok : EventsOk io') (hat : OnlyAt io p io') : OneFd fd io' := by
  refine ⟨hok, fun q hq => ?_, hs.table ▸ hi.length, fun fd' ev hev => ?_⟩
  · have hold := hi.placed q (hs.allocated ▸ hq)
    rw [contextAt_ok_iff] at hold ⊢
    rw [hs.fd, hs.table]
    exact hold
  · rcases hat.entries fd' ev hev with hptr | hold
    · obtain ⟨_, hfd, _⟩ := hok.back fd' ev hev
      rw [hptr, hs.fd, hp.2] at hfd
      exact hfd.symm
    · exact hi.only fd' ev hold

theorem OneFd.grow (hi : OneFd fd io) (hfd : 32 ≤ fd) (h : io.growContext fd = .ok (p, io')) :
    OneFd fd io' ∧ io'.IsFor fd p := by
  obtain ⟨hr, hlt⟩ := growContext_resized hi.events.table h
  obtain ⟨_, _, hm⟩ := growContext_eq hi.events.table h
  have hle : io.m_fdContexts.length ≤ fd * 3 / 2 := by
    rcases hi.length with hlen | ⟨_, hlen⟩ <;> omega
  refine ⟨⟨hr.eventsOk hi.events, fun q hq => ?_, Or.inr ⟨hfd, hr.length⟩, fun fd' ev hev => ?_⟩,
    hlt, hm⟩
  · rw [contextAt_ok_iff]
    by_cases hold : q < io.allocated
    · have hat := contextAt_ok_iff.mp (hi.placed q hold)
      have hlen := (List.getElem?_eq_some_iff.mp hat).1
      rw [hr.old q hold, hr.kept _ (by omega) hlen]
      exact hat
    · obtain ⟨j, hj, hctx⟩ := hr.placed q (Nat.le_of_not_lt hold) hq
      rw [hctx]
      exact hj
  · rw [hr.rest.epoll] at hev
    exact hi.only fd' ev hev

theorem OneFd.find (hi : OneFd fd io) (h : io.findContext fd = .ok (some p)) : io.IsFor fd p :=
  hi.events.of_findContext h

theorem initial_oneFd (fd : Nat) : OneFd fd initial := by
  refine ⟨initial_eventsOk, fun p hp => ?_, Or.inl initial_length, fun fd' ev hev => ?_⟩
  · obtain ⟨j, hj, hc⟩ := initial_placed hp
    rw [hc]
    exact hj
  · rw [initial_epoll] at hev
    cases hev

theorem contextAt_fault {f : Fault} (h : io.contextAt fd = .error f) : TableFault f := by
  unfold contextAt at h
  split at h <;> cases h
  · exact Or.inr rfl
  · exact Or.inl rfl

/-- A descriptor that is not found needs a larger table than the first one. -/
theorem OneFd.missing (hi : OneFd fd io) (h : io.findContext fd = .ok none) : 32 ≤ fd := by
  rcases hi.length with hlen | ⟨hfd, _⟩
  · by_contra hlt
    have hin : fd < io.m_fdContexts.length := by omega
    obtain ⟨p, _, hp⟩ := findContext_of_lt hi.events.table (by rw [hlen]; decide) hin
    rw [h] at hp
    cases hp
  · exact hfd

theorem OneFd.addLocked (hi : OneFd fd io) {c : AddCall} {r : Outcome} (hfd : c.fd = fd)
    (hle : fd ≤ INT_MAX) (hp : io.IsFor fd p) (hop : op ≠ .DEL)
    (h : io.addEventLocked op p c = .ok (r, io')) : OneFd fd io' := by
  subst hfd
  rcases addEventLocked_ok_iff.mp h with ⟨_, _, rfl⟩ | ⟨_, _, _, ha, _, heq⟩
  · exact hi
  · obtain rfl := (hi.accepts_iff hp hop).mp ha
    exact hi.section_ hp (addEventLocked_sameTable h)
      (addEventLocked_drifts hi.events hp.1 hp.2 hle h).ok (heq ▸ added_onlyAt io _ p c)

theorem OneFd.handOver (hi : OneFd fd io) (hp : io.IsFor fd p)
    (h : io.handOver p e = .ok io') : OneFd fd io' :=
  hi.section_ hp (handOver_sameView h).sameTable
    ((handOver_sameView h).eventsOk hi.events) (handOver_onlyAt h)

theorem OneFd.reset (hi : OneFd fd io) (hp : io.IsFor fd p) (e : Event) :
    OneFd fd (io.resetContext p e) :=
  have hview := resetContext_sameView io p e
  hi.section_ hp hview.sameTable (hview.eventsOk hi.events) (resetContext_onlyAt io p e)

theorem findContext_fault {f : Fault} (h : io.findContext fd = .error f) : TableFault f := by
  unfold findContext at h
  split at h
  · rcases bind_eq_error.mp h with h | ⟨_, _, h⟩
    · exact contextAt_fault h
    · cases h
  · cases h

theorem growContext_fault {f : Fault} (h : io.growContext fd = .error f) : TableFault f := by
  rcases bind_eq_error.mp h with h | ⟨_, _, h⟩
  · exact contextAt_fault h
  · cases h

theorem epollCtl_refused_iff {ev : EpollEvent} :
    io.epollCtl op fd ev = .error .epollCtl ↔ ¬ op.accepts (io.epoll fd) = true := by
  unfold epollCtl
  split <;> rename_i h <;> simp [h]

/-- The section of `addEvent` is refused for its operation, with its checks passed. -/
theorem addEventLocked_epollCtl_iff {c : AddCall} :
    io.addEventLocked op p c = .error .epollCtl ↔ (io.contexts p).m_events.has c.event = false ∧
      (io.contexts p).getEventContext c.event = {} ∧
      (c.cb = none → c.caller.running = true) ∧ ¬ op.accepts (io.epoll c.fd) = true := by
  unfold addEventLocked
  dsimp only
  split
  · rename_i hm
    simp [hm]
  · rename_i hm
    split
    · rename_i hs
      simp [hs]
    · rename_i hs
      split
      · rename_i hr
        have hno : ¬ (c.cb = none → c.caller.running = true) := by simpa using hr
        simp [hno]
      · rename_i hr
        have hrun : c.cb = none → c.caller.running = true := by simpa using hr
        constructor
        · intro h
          refine ⟨by simpa using hm, not_not.mp hs, hrun, ?_⟩
          rcases bind_eq_error.mp h with h | ⟨_, _, h⟩
          · have hno := epollCtl_refused_iff.mp h
            exact hno
          · cases h
        · intro h
          exact bind_eq_error.mpr (Or.inl (epollCtl_refused_iff.mpr h.2.2.2))

end IOManager

theorem Removal.locked_eventsOk {k : Removal} {io io' : IOManager} {p : ContextPtr} {fd : Nat}
    {r : Outcome} (hi : io.EventsOk) (hp : io.IsFor fd p) (h : k.locked io p fd = .ok (r, io')) :
    io'.EventsOk := by
  cases k with
  | delEvent e => exact (IOManager.delEventLocked_drifts hi hp.1 hp.2 h).ok
  | cancelEvent e => exact (IOManager.cancelEventLocked_drifts hi hp.1 hp.2 h).ok
  | cancelAll => exact (IOManager.cancelAllLocked_drifts hi hp.1 hp.2 h).ok

/-- The operations chosen under the mutex are never refused. -/
theorem Removal.locked_ne_epollCtl {k : Removal} {io : IOManager} {p : ContextPtr} {fd : Nat}
    (hi : io.OneFd fd) (hp : io.IsFor fd p) : k.locked io p fd ≠ .error .epollCtl := by
  have hdrop : ∀ {io' : IOManager} {e : Event}, io'.epoll = io.epoll →
      (io.contexts p).m_events ≠ .NONE → io'.dropEvent p fd e ≠ .error .epollCtl := by
    intro io' e hsame hm h
    have hsome := hsame ▸ (hi.listed_iff hp).mpr hm
    rw [IOManager.dropEvent_ok_iff.mpr ⟨hsome, rfl⟩] at h
    cases h
  have htrigger : ∀ {io' : IOManager} {e : Event}, io'.triggerEvent p e ≠ .error .epollCtl := by
    intro io' e h
    rcases IOManager.triggerEvent_fault h with ⟨hf, _⟩ | ⟨hf, _⟩ <;> cases hf
  have hcounted : ∀ {io' : IOManager} {e : Event}, io'.triggerCounted p e ≠ .error .epollCtl :=
    fun h => htrigger (IOManager.triggerCounted_fault h).2
  cases k with
  | delEvent e =>
    intro h
    simp only [locked, IOManager.delEventLocked] at h
    split at h
    · rename_i hm
      rcases bind_eq_error.mp h with h | ⟨_, _, h⟩
      · exact hdrop rfl (IOManager.has_ne_NONE hm) h
      · cases h
    · cases h
  | cancelEvent e =>
    intro h
    simp only [locked, IOManager.cancelEventLocked] at h
    split at h
    · rename_i hm
      rcases bind_eq_error.mp h with h | ⟨io₁, ht, h⟩
      · exact htrigger h
      · rcases bind_eq_error.mp h with h | ⟨_, _, h⟩
        · exact hdrop (IOManager.triggerEvent_sameView ht).epoll (IOManager.has_ne_NONE hm) h
        · cases h
    · cases h
  | cancelAll =>
    intro h
    simp only [locked, IOManager.cancelAllLocked] at h
    split at h
    · cases h
    · rename_i hm
      rcases bind_eq_error.mp h with h | ⟨io₁, h₁, h⟩
      · exact hcounted h
      · rcases bind_eq_error.mp h with h | ⟨io₂, h₂, h⟩
        · exact hcounted h
        · have hs := (IOManager.triggerCounted_sameView h₁).trans
            (IOManager.triggerCounted_sameView h₂)
          have hsome := hs.epoll ▸ (hi.listed_iff hp).mpr hm
          rcases bind_eq_error.mp h with h | ⟨_, _, h⟩
          · exact IOManager.epollCtl_refused_iff.mp h hsome
          · cases h

namespace Pc

/-- The thread is in a call for the descriptor, or processes reports of it. -/
structure At (fd : Nat) (io : IOManager) (pc : Pc) : Prop where
  adding : ∀ c, pc.adding = some c → c.fd = fd ∧ fd ≤ INT_MAX
  growing : ∀ c, pc = .addGrow c → 32 ≤ fd
  pointers : ∀ p ∈ pc.pointers, io.IsFor fd p
  removing : ∀ k fd' at_, pc = .remove k fd' at_ → fd' = fd
  deleting : ∀ p e es more fd' at_, pc = .idleDeleting p e es more fd' at_ → fd' = fd
  op : ∀ c op p, pc = .addLock c op p ∨ pc = .addLocked c op p → op ≠ .DEL

theorem At.keeps {fd : Nat} {io io' : IOManager} {pc : Pc} (h : pc.At fd io)
    (hk : io.Keeps io') : pc.At fd io' :=
  ⟨h.adding, h.growing, fun p hp => hk fd p (h.pointers p hp), h.removing, h.deleting, h.op⟩

theorem nextReport_ne_remove (more : List Report) (k : Removal) (fd : Nat) (at_ : RemovePc) :
    nextReport more ≠ .remove k fd at_ := by
  cases more <;> simp [nextReport]

theorem process_ne_remove (p : ContextPtr) (more : List Report) (es : List Event) (k : Removal)
    (fd : Nat) (at_ : RemovePc) : process p more es ≠ .remove k fd at_ := by
  cases es <;> simp [process]

theorem at_of_pointers {fd : Nat} {io : IOManager} {pc : Pc} (hplain : pc.Plain)
    (hadding : pc.adding = none) (hremove : ∀ k fd' at_, pc ≠ .remove k fd' at_)
    (hp : ∀ p ∈ pc.pointers, io.IsFor fd p) : pc.At fd io := by
  refine ⟨by simp [hadding], ?_, hp, fun k fd' at_ h => absurd h (hremove k fd' at_),
    fun p e es more fd' at_ h => absurd h (hplain p e es more fd' at_), ?_⟩
  · rintro c rfl
    cases hadding
  · rintro c op p (rfl | rfl) <;> cases hadding

end Pc

namespace Shared

variable {sh sh' : Shared} {t : Tid} {fd : Nat} {pc pc' : Pc}

theorem Steps.keeps (ht : sh.io.TableOk) (h : Steps sh t pc sh' pc') : sh.io.Keeps sh'.io := by
  rcases h.table with hsame | ⟨c, p, _, hg, _⟩
  · exact hsame.keeps
  · exact (IOManager.growContext_resized ht hg).1.keeps

theorem RemoveSteps.oneFd {k : Removal} {cause : Cause} {at_ : RemovePc} {o : Option RemovePc}
    (hi : sh.io.OneFd fd) (hp : ∀ p ∈ at_.pointers, sh.io.IsFor fd p)
    (h : RemoveSteps sh t k cause fd at_ sh' o) :
    sh'.io.OneFd fd ∧ ∀ at', o = some at' → ∀ p ∈ at'.pointers, sh'.io.IsFor fd p := by
  cases h with
  | found hf =>
    refine ⟨hi, ?_⟩
    rintro at' ⟨⟩ p hin
    rw [List.mem_singleton.mp hin]
    exact hi.find hf
  | missing => exact ⟨hi, by simp⟩
  | lock hfree =>
    refine ⟨hi, ?_⟩
    rintro at' ⟨⟩
    exact hp
  | locked hl =>
    have hp' := hp _ (List.mem_singleton_self _)
    have hs := Removal.locked_sameTable hl
    refine ⟨hi.section_ hp' hs (Removal.locked_eventsOk hi.events hp' hl)
      (Removal.locked_cells hl).only, ?_⟩
    rintro at' ⟨⟩ p hin
    rw [List.mem_singleton.mp hin]
    exact hs.keeps fd _ hp'
  | unlock => exact ⟨hi, by simp⟩

theorem Steps.oneFd (hi : sh.io.OneFd fd) (hat : pc.At fd sh.io) (h : Steps sh t pc sh' pc') :
    sh'.io.OneFd fd ∧ pc'.At fd sh'.io := by
  have hidle : ∀ {pc' : Pc}, pc'.Plain → pc'.adding = none →
      (∀ k fd' at_, pc' ≠ .remove k fd' at_) → pc'.pointers ⊆ pc.pointers → pc'.At fd sh.io :=
    fun hplain ha hr hsub => Pc.at_of_pointers hplain ha hr fun p hp => hat.pointers p (hsub hp)
  cases h with
  | addFound hf =>
    obtain ⟨rfl, hle⟩ := hat.adding _ rfl
    refine ⟨hi, fun c hc => hat.adding c hc, by simp, ?_, by simp, by simp, by simp⟩
    intro p hp
    rw [List.mem_singleton.mp hp]
    exact hi.find hf
  | addMissing hf =>
    obtain ⟨rfl, hle⟩ := hat.adding _ rfl
    refine ⟨hi, fun c hc => hat.adding c hc, ?_, by simp [Pc.pointers], by simp, by simp, by simp⟩
    exact fun _ _ => hi.missing hf
  | addGrow hg =>
    obtain ⟨rfl, hle⟩ := hat.adding _ rfl
    obtain ⟨hi', hp'⟩ := hi.grow (hat.growing _ rfl) hg
    refine ⟨hi', fun c hc => hat.adding c hc, by simp, ?_, by simp, by simp, by simp⟩
    intro p hp
    rw [List.mem_singleton.mp hp]
    exact hp'
  | addOp =>
    refine ⟨hi, fun c hc => hat.adding c hc, by simp, hat.pointers, by simp, by simp, ?_⟩
    rintro c op p (hc | hc) <;> cases hc
    unfold IOManager.addOp
    split <;> simp
  | addLock hfree =>
    refine ⟨hi, fun c hc => hat.adding c hc, by simp, hat.pointers, by simp, by simp, ?_⟩
    rintro c op p (hc | hc) <;> cases hc
    exact hat.op _ _ _ (Or.inl rfl)
  | addLocked hl =>
    rename_i c op p r io
    obtain ⟨hfd, hle⟩ := hat.adding _ rfl
    have hp := hat.pointers p (List.mem_singleton_self _)
    exact ⟨hi.addLocked hfd hle hp (hat.op _ _ _ (Or.inr rfl)) hl,
      Pc.at_of_pointers (by simp [Pc.Plain]) rfl (by simp) (by simp [Pc.pointers])⟩
  | addUnlock =>
    exact ⟨hi, Pc.at_of_pointers (by simp [Pc.Plain]) rfl (by simp) (by simp [Pc.pointers])⟩
  | removeReturn h =>
    obtain rfl := hat.removing _ _ _ rfl
    obtain ⟨hi', _⟩ := h.oneFd hi hat.pointers
    exact ⟨hi', Pc.at_of_pointers (by simp [Pc.Plain]) rfl (by simp) (by simp [Pc.pointers])⟩
  | removeStep h =>
    obtain rfl := hat.removing _ _ _ rfl
    obtain ⟨hi', hp⟩ := h.oneFd hi hat.pointers
    refine ⟨hi', by simp [Pc.adding], by simp, hp _ rfl, ?_, by simp, by simp⟩
    rintro k fd' at_ ⟨⟩
    rfl
  | idleLock | idleSkip | idleDispatch =>
    exact ⟨hi, hidle (by simp [Pc.Plain]) rfl (by simp) (List.Subset.refl _)⟩
  | idleContinue | idleEnd =>
    refine ⟨hi, hidle (Pc.plain_nextReport _) (by simp) (Pc.nextReport_ne_remove _) ?_⟩
    rw [Pc.pointers_nextReport]
    exact List.subset_cons_self _ _
  | idleUnlock =>
    refine ⟨hi, hidle (Pc.plain_process _ _ _) (by simp) (Pc.process_ne_remove _ _ _) ?_⟩
    rw [Pc.pointers_process]
    exact List.Subset.refl _
  | idleDecrement =>
    have hi' : ({ sh.io with m_pendingEventCount := sh.io.m_pendingEventCount - 1 } :
        IOManager).OneFd fd :=
      ⟨⟨hi.events.table, hi.events.listed, hi.events.back⟩, hi.placed, hi.length, hi.only⟩
    refine ⟨hi', (hidle (Pc.plain_process _ _ _) (by simp) (Pc.process_ne_remove _ _ _) ?_).keeps
      (fun _ _ h => h)⟩
    rw [Pc.pointers_process]
    exact List.Subset.refl _
  | idleTrigger ht =>
    rename_i p e es more io
    have hpc : (Pc.idleReset p e es more).At fd sh.io :=
      hidle (by simp [Pc.Plain]) rfl (by simp) (List.Subset.refl _)
    exact ⟨hi.handOver (hat.pointers p (by simp [Pc.pointers])) ht,
      hpc.keeps (IOManager.handOver_sameView ht).sameTable.keeps⟩
  | idleReset =>
    rename_i p e es more
    have hpc : (Pc.idleDel p e es more).At fd sh.io :=
      hidle (by simp [Pc.Plain]) rfl (by simp) (List.Subset.refl _)
    exact ⟨hi.reset (hat.pointers p (by simp [Pc.pointers])) e,
      hpc.keeps (IOManager.resetContext_sameView sh.io p e).sameTable.keeps⟩
  | idleDel =>
    rename_i p e es more
    have hp := hat.pointers p (by simp [Pc.pointers])
    refine ⟨hi, by simp [Pc.adding], by simp, hat.pointers, by simp, ?_, by simp⟩
    rintro p' e' es' more' fd' at_ ⟨⟩
    exact hp.2
  | deleteStep h =>
    obtain rfl := hat.deleting _ _ _ _ _ _ rfl
    obtain ⟨hi', hp⟩ := h.oneFd hi fun p hp => hat.pointers p (List.mem_append_left _ hp)
    have hk := (RemoveSteps.sameTable h).keeps
    refine ⟨hi', by simp [Pc.adding], by simp, fun p hin => ?_, by simp, ?_, by simp⟩
    · rcases List.mem_append.mp hin with hin | hin
      · exact hp _ rfl p hin
      · exact hk _ p (hat.pointers p (List.mem_append_right _ hin))
    · rintro p' e' es' more' fd' at_ ⟨⟩
      rfl
  | deleteReturn h =>
    obtain rfl := hat.deleting _ _ _ _ _ _ rfl
    obtain ⟨hi', _⟩ := h.oneFd hi fun p hp => hat.pointers p (List.mem_append_left _ hp)
    have hk := (RemoveSteps.sameTable h).keeps
    exact ⟨hi', Pc.at_of_pointers (by simp [Pc.Plain]) rfl (by simp) fun p hin =>
      hk _ p (hat.pointers p (List.mem_append_right _ hin))⟩

end Shared

/-- The call is for the descriptor; reports are of descriptors that are registered. -/
def Act.On (fd : Nat) : Act → Prop
  | .addEvent _ c => c.fd = fd
  | .remove _ _ fd' => fd' = fd
  | .report _ _ | .run _ => True

namespace Threads

structure OneFd (fd : Nat) (s : Threads) : Prop where
  io : s.io.OneFd fd
  pcs : ∀ t, (s.pc t).At fd s.io

/-- The thread is in the section of an `addEvent` whose checks pass, with an
operation that is no longer the one it would choose. -/
def Stale (s : Threads) (a : Act) : Prop :=
  ∃ t c op p, a = .run t ∧ s.pc t = .addLocked c op p ∧
    (s.io.contexts p).m_events.has c.event = false ∧
    (s.io.contexts p).getEventContext c.event = {} ∧
    (c.cb = none → c.caller.running = true) ∧ op ≠ s.io.addOp p

/-- The thread has chosen an operation for the context and not yet issued it. -/
def Chooses (s : Threads) (u : Tid) (p : ContextPtr) : Prop :=
  ∃ c op, s.pc u = .addLock c op p ∨ s.pc u = .addLocked c op p

/-- The next section of the thread registers the first event of the context, or
removes its last one. -/
def Flips (s : Threads) (t : Tid) (p : ContextPtr) : Prop :=
  (∃ c op, s.pc t = .addLocked c op p ∧ (s.io.contexts p).m_events = .NONE) ∨
  ∃ k : Removal, ((∃ fd, s.pc t = .remove k fd (.locked p)) ∨
      ∃ q e es more fd, k = .delEvent e ∧ s.pc t = .idleDeleting q e es more fd (.locked p)) ∧
    (s.io.contexts p).m_events ≠ .NONE ∧
      ∀ e, (s.io.contexts p).m_events.has e = true → k.selects e = true

/-- The step makes the choice of another thread out of date. -/
def Outdates (s : Threads) (a : Act) : Prop :=
  ∃ t u p, a = .run t ∧ u ≠ t ∧ s.Chooses u p ∧ s.Flips t p

/-- Every operation that is chosen and not yet issued is the right one. -/
def Current (s : Threads) : Prop :=
  ∀ u c op p, s.pc u = .addLock c op p ∨ s.pc u = .addLocked c op p → op = s.io.addOp p

variable {s s' : Threads} {a : Act} {fd : Nat}

theorem initial_oneFd (fd : Nat) : OneFd fd initial :=
  ⟨IOManager.initial_oneFd fd,
    fun _ => Pc.at_of_pointers (by simp [initial, Pc.Plain]) rfl (by simp [initial])
      (by simp [initial, Pc.pointers])⟩

theorem OneFd.started (hi : s.OneFd fd) {t : Tid} {pc : Pc} (hpc : pc.At fd s.io)
    (h : s.start t pc = .ok s') : s'.OneFd fd := by
  obtain ⟨_, rfl⟩ := start_ok_iff.mp h
  refine ⟨hi.io, fun u => ?_⟩
  by_cases hu : u = t
  · subst u
    simpa using hpc
  · simpa [hu] using hi.pcs u

theorem OneFd.exec (hi : s.OneFd fd) (hon : a.On fd) (ha : s.Allowed a)
    (h : s.exec a = .ok s') : s'.OneFd fd := by
  cases a with
  | addEvent t c =>
    obtain rfl := hon
    refine hi.started ⟨?_, by simp, by simp [Pc.pointers], by simp, by simp, by simp⟩ h
    rintro c' ⟨⟩
    exact ⟨rfl, ha⟩
  | remove t k fd' =>
    obtain rfl := hon
    refine hi.started ⟨by simp [Pc.adding], by simp, by simp [Pc.pointers, RemovePc.pointers], ?_,
      by simp, by simp⟩ h
    rintro k' fd₁ at_ ⟨⟩
    rfl
  | report t reports =>
    refine hi.started (Pc.at_of_pointers (Pc.plain_nextReport _) (by simp)
      (Pc.nextReport_ne_remove _) fun p hp => ?_) h
    rw [Pc.pointers_nextReport] at hp
    obtain ⟨r, hr, rfl⟩ := List.mem_map.mp hp
    obtain ⟨fd', ev, hev, hptr⟩ := ha r hr
    obtain ⟨hlt, hfd, _⟩ := hi.io.events.back fd' ev hev.1
    rw [← hptr]
    exact ⟨hlt, hfd.trans (hi.io.only fd' ev hev.1)⟩
  | run t =>
    obtain ⟨sh, pc, hs, rfl⟩ := steps_of_run h
    obtain ⟨hio, hpc⟩ := hs.oneFd hi.io (hi.pcs t)
    refine ⟨hio, fun u => ?_⟩
    by_cases hu : u = t
    · subst u
      simpa using hpc
    · simpa [hu] using (hi.pcs u).keeps (hs.keeps hi.io.events.table)

/-- An `epoll_ctl` is refused exactly for a stale choice. -/
theorem OneFd.epollCtl_iff (hi : s.OneFd fd) :
    s.exec a = .error (.fault .epollCtl) ↔ s.Stale a := by
  constructor
  · intro h
    obtain ⟨t, rfl, hf⟩ := fault_of_exec h
    have hat := hi.pcs t
    have hpointer := hat.pointers
    generalize hpc : s.pc t = pc at hf hat hpointer
    have htable : ¬ IOManager.TableFault .epollCtl := by
      rintro (hf | hf) <;> cases hf
    cases hf with
    | addFind hf | removeFind hf | deleteFind hf =>
      exact absurd (IOManager.findContext_fault hf) htable
    | addGrow hf => exact absurd (IOManager.growContext_fault hf) htable
    | idleTrigger hf =>
      rcases IOManager.handOver_fault hf with ⟨hf, _⟩ | ⟨hf, _⟩ <;> cases hf
    | removeLocked hf =>
      obtain rfl := hat.removing _ _ _ rfl
      exact absurd hf (Removal.locked_ne_epollCtl hi.io (hpointer _ (List.mem_singleton_self _)))
    | deleteLocked hf =>
      obtain rfl := hat.deleting _ _ _ _ _ _ rfl
      exact absurd hf (Removal.locked_ne_epollCtl hi.io (hpointer _ (by simp [Pc.pointers,
        RemovePc.pointers])))
    | addLocked hf =>
      obtain ⟨hm, hs, hrun, hop⟩ := IOManager.addEventLocked_epollCtl_iff.mp hf
      obtain ⟨rfl, _⟩ := hat.adding _ rfl
      refine ⟨t, _, _, _, rfl, hpc, hm, hs, hrun, fun heq => hop ?_⟩
      exact (hi.io.accepts_iff (hpointer _ (List.mem_singleton_self _))
        (hat.op _ _ _ (Or.inr rfl))).mpr heq
  · rintro ⟨t, c, op, p, rfl, hpc, hm, hs, hrun, hop⟩
    have hat := hi.pcs t
    rw [hpc] at hat
    obtain ⟨rfl, _⟩ := hat.adding c rfl
    rw [ne_eq, ← hi.io.accepts_iff (hat.pointers p (List.mem_singleton_self _))
      (hat.op _ _ _ (Or.inr rfl))] at hop
    have hf := IOManager.addEventLocked_epollCtl_iff.mpr ⟨hm, hs, hrun, hop⟩
    simp [Threads.exec, Shared.step, hpc, hf, orStop, bind_eq_error]

theorem addOp_congr {io io' : IOManager} {q : ContextPtr}
    (h : (io'.contexts q).m_events = .NONE ↔ (io.contexts q).m_events = .NONE) :
    io'.addOp q = io.addOp q := by
  unfold IOManager.addOp
  exact if_congr (not_congr h) rfl rfl

/-- A section that removes some events and leaves others, or finds none. -/
theorem removed_addOp {k : Removal} {io io' : IOManager} {p q : ContextPtr} {fd : Nat}
    {r : Outcome} (h : k.locked io p fd = .ok (r, io'))
    (hno : q = p → (io.contexts p).m_events ≠ .NONE →
      ∃ e, (io.contexts p).m_events.has e = true ∧ ¬ k.selects e = true) :
    io'.addOp q = io.addOp q := by
  have hcells := Removal.locked_cells h
  by_cases hq : q = p
  · subst q
    apply addOp_congr
    constructor
    · intro hz
      by_contra hm
      obtain ⟨e, he, hk⟩ := hno rfl hm
      have hbit := hcells.bits e
      rw [hz, he] at hbit
      simp [hk] at hbit
    · intro hz
      rw [EventMask.eq_NONE_iff]
      intro e
      rw [hcells.bits e, hz]
      simp
  · apply addOp_congr
    rw [hcells.only.others q hq]

theorem added_addOp {io io' : IOManager} {op : EpollOp} {p q : ContextPtr} {c : AddCall}
    {r : Outcome} (h : io.addEventLocked op p c = .ok (r, io'))
    (hno : q = p → (io.contexts p).m_events ≠ .NONE) : io'.addOp q = io.addOp q := by
  rcases IOManager.addEventLocked_ok_iff.mp h with ⟨_, _, rfl⟩ | ⟨_, _, _, _, _, rfl⟩
  · rfl
  · apply addOp_congr
    by_cases hq : q = p
    · subst q
      refine iff_of_false (fun hz => ?_) (hno rfl)
      have hins := congrArg (fun m => m.has c.event) hz
      simp [IOManager.added, IOManager.setContext] at hins
    · rw [(IOManager.added_onlyAt io op p c).others q hq]

theorem OneFd.addOp_kept (hi : s.OneFd fd) {t : Tid} {q : ContextPtr} {sh : Shared} {pc : Pc}
    (h : Shared.Steps s.toShared t (s.pc t) sh pc) (hq : q < s.io.allocated)
    (hno : ¬ s.Flips t q) : sh.io.addOp q = s.io.addOp q := by
  generalize hpc : s.pc t = pc₀ at h
  have hleft : ∀ {k : Removal} {p}, (q = p → ((∃ fd, s.pc t = .remove k fd (.locked p)) ∨
      ∃ q e es more fd, k = .delEvent e ∧ s.pc t = .idleDeleting q e es more fd (.locked p))) →
      q = p → (s.io.contexts p).m_events ≠ .NONE →
        ∃ e, (s.io.contexts p).m_events.has e = true ∧ ¬ k.selects e = true := by
    rintro k p hwhere rfl hm
    by_contra hall
    refine hno (Or.inr ⟨k, hwhere rfl, hm, fun e he => ?_⟩)
    by_contra hk
    exact hall ⟨e, he, hk⟩
  cases h with
  | addGrow hg =>
    have hr := (IOManager.growContext_resized hi.io.events.table hg).1
    apply addOp_congr
    rw [hr.old q hq]
  | addLocked hl =>
    refine added_addOp hl ?_
    rintro rfl hm
    exact hno (Or.inl ⟨_, _, hpc, hm⟩)
  | removeStep h =>
    cases h with
    | locked hl => exact removed_addOp hl (hleft fun hqp => Or.inl ⟨_, hpc⟩)
    | _ => rfl
  | removeReturn h =>
    cases h <;> rfl
  | deleteStep h =>
    cases h with
    | locked hl => exact removed_addOp hl (hleft fun hqp => Or.inr ⟨_, _, _, _, _, rfl, hpc⟩)
    | _ => rfl
  | deleteReturn h =>
    cases h <;> rfl
  | idleTrigger ht =>
    apply addOp_congr
    rw [(IOManager.handOver_sameView ht).events q]
  | @idleReset p e _ _ =>
    apply addOp_congr
    rw [(IOManager.resetContext_sameView s.io p e).events q]
  | _ => rfl

theorem Chooses.lt_allocated (hi : s.OneFd fd) {u : Tid} {q : ContextPtr} (h : s.Chooses u q) :
    q < s.io.allocated := by
  obtain ⟨c, op, hpc⟩ := h
  have hat := (hi.pcs u).pointers q
  rcases hpc with hpc | hpc <;> rw [hpc] at hat <;> exact (hat (List.mem_singleton_self q)).1

theorem Current.started (hc : s.Current) {t : Tid} {pc : Pc}
    (hpc : ∀ c op p, pc ≠ .addLock c op p ∧ pc ≠ .addLocked c op p)
    (h : s.start t pc = .ok s') : s'.Current := by
  obtain ⟨_, rfl⟩ := start_ok_iff.mp h
  intro u c op p hu
  by_cases hut : u = t
  · subst u
    simp only [Function.update_self] at hu
    exact absurd hu (not_or.mpr (hpc c op p))
  · simp only [Function.update_of_ne hut] at hu
    exact hc u c op p hu

theorem Current.step (hc : s.Current) (hi : s.OneFd fd) (hno : ¬ s.Outdates a)
    (h : s.exec a = .ok s') : s'.Current := by
  cases a with
  | addEvent t c => exact hc.started (by simp) h
  | remove t k fd' => exact hc.started (by simp) h
  | report t reports =>
    exact hc.started (by cases reports <;> simp [Pc.nextReport]) h
  | run t =>
    obtain ⟨sh, pc, hs, rfl⟩ := steps_of_run h
    intro u c op p hu
    by_cases hut : u = t
    · subst u
      simp only [Function.update_self] at hu
      have hadding : pc.adding = some c := by rcases hu with rfl | rfl <;> rfl
      generalize hpc : s.pc t = pc₀ at hs
      cases hs with
      | addOp =>
        rcases hu with hu | hu <;> cases hu
        rfl
      | addLock hfree =>
        rcases hu with hu | hu <;> cases hu
        exact hc t c op p (Or.inl hpc)
      | idleContinue | idleEnd => simp at hadding
      | idleUnlock | idleDecrement => simp at hadding
      | _ => rcases hu with hu | hu <;> cases hu
    · simp only [Function.update_of_ne hut] at hu
      have hchooses : s.Chooses u p := ⟨c, op, hu⟩
      have hflips : ¬ s.Flips t p := fun hf => hno ⟨t, u, p, rfl, hut, hchooses, hf⟩
      exact (hc u c op p hu).trans
        (hi.addOp_kept hs (hchooses.lt_allocated hi) hflips).symm

/-- On one open descriptor, an `epoll_ctl` is refused only in the section of an
`addEvent` whose operation is out of date; and no operation gets out of date in
a run in which no section registers the first event of the context, or removes
its last one, while another thread has chosen its operation and waits. -/
theorem epollCtl_valid {tr : List (Move Threads Act)} (hr : Run system initial tr s)
    (hon : ∀ m ∈ tr, m.act.On fd) :
    (∀ a, s.exec a = .error (.fault .epollCtl) ↔ s.Stale a) ∧
      ((∀ m ∈ tr, ¬ m.pre.Outdates m.act) → ∀ a, s.exec a ≠ .error (.fault .epollCtl)) := by
  have keeps₁ : ∀ {s a s'}, OneFd fd s → a.On fd → system.step s a s' → OneFd fd s' :=
    fun hi hg hs => hi.exec hg hs.1 hs.2
  have hinv := hr.invariant_of_guard (OneFd fd) (fun _ a => a.On fd) keeps₁ (initial_oneFd fd) hon
  refine ⟨fun a => hinv.epollCtl_iff, fun hno a h => ?_⟩
  have hstart : initial.Current := fun u c op p hu => by rcases hu with hu | hu <;> cases hu
  have keeps : ∀ {s a s'}, OneFd fd s ∧ Current s → a.On fd ∧ ¬ s.Outdates a →
      system.step s a s' → OneFd fd s' ∧ Current s' :=
    fun hi hg hs => ⟨keeps₁ hi.1 hg.1 hs, hi.2.step hi.1 hg.2 hs.2⟩
  obtain ⟨_, hcurrent⟩ := hr.invariant_of_guard (fun s => OneFd fd s ∧ Current s)
    (fun s a => a.On fd ∧ ¬ s.Outdates a) keeps ⟨initial_oneFd fd, hstart⟩
    (fun m hm => ⟨hon m hm, hno m hm⟩)
  obtain ⟨t, c, op, p, _, hpc, _, _, _, hop⟩ := hinv.epollCtl_iff.mp h
  exact hop (hcurrent t c op p (Or.inr hpc))

/-- Two threads register `READ` and `WRITE` of a fresh descriptor; both choose
`EPOLL_CTL_ADD`. -/
def twoAdds : List Act :=
  let c (event : Event) : AddCall := ⟨5, event, some 0, ⟨some 0, 0, true⟩⟩
  [.addEvent 0 (c .READ), .addEvent 1 (c .WRITE), .run 0, .run 1, .run 0, .run 1, .run 0, .run 0,
    .run 0, .run 1]

theorem second_add_refused : ∃ tr s, Run system initial tr s ∧ tr.map Move.act = twoAdds ∧
    (∀ m ∈ tr, m.act.On 5) ∧ (s.io.epoll 5).isSome = true ∧
    s.exec (.run 1) = .error (.fault .epollCtl) := by
  have hrun : (traceAll next initial twoAdds).map (fun r =>
      ((r.2.io.epoll 5).isSome, errorOf (r.2.exec (.run 1)))) =
      some (true, some (.fault .epollCtl)) := by decide +kernel
  obtain ⟨tr, s, hr, hacts, hobs⟩ := Run.exists_of_traceAll next next_sound _ hrun
  obtain ⟨hlisted, hfault⟩ := Prod.mk.inj hobs
  have hall : ∀ a ∈ twoAdds, a.On 5 := by simp [twoAdds, Act.On]
  refine ⟨tr, s, hr, hacts, fun m hm => ?_, hlisted, errorOf_eq_some.mp hfault⟩
  exact hall _ (hacts ▸ List.mem_map_of_mem hm)

section Within

variable {b : List Tid}

/-- The test of `Flips`, for a context that the thread is at. -/
def mayFlip (s : Threads) (t : Tid) (p : ContextPtr) : Bool :=
  match s.pc t with
  | .addLocked _ _ _ => (s.io.contexts p).m_events = .NONE
  | .remove k _ (.locked _) => [Event.READ, Event.WRITE].all fun e =>
    !(s.io.contexts p).m_events.has e || k.selects e
  | .idleDeleting _ _ _ _ _ (.locked _) => true
  | _ => false

/-- What is left of the condition on `Outdates` when only the threads of `b` make calls. -/
def choosesInTime (s : Threads) (b : List Tid) : Act → Bool
  | .run t => b.all fun u => decide (u = t) || match s.pc u with
    | .addLock _ _ p | .addLocked _ _ p => !s.mayFlip t p
    | _ => true
  | _ => true

theorem mayFlip_of_flips {t : Tid} {p : ContextPtr} (h : s.Flips t p) : s.mayFlip t p = true := by
  unfold mayFlip
  rcases h with ⟨c, op, hpc, hm⟩ | ⟨k, ⟨fd, hpc⟩ | ⟨q, e, es, more, fd, _, hpc⟩, _, hall⟩
  · rw [hpc]
    exact decide_eq_true hm
  · rw [hpc]
    refine List.all_eq_true.mpr fun e _ => ?_
    cases he : (s.io.contexts p).m_events.has e with
    | false => rfl
    | true => exact hall e he
  · rw [hpc]

theorem Within.not_outdates (hs : s.Within b) (h : s.choosesInTime b a = true) :
    ¬ s.Outdates a := by
  rintro ⟨t, u, p, rfl, hu, ⟨c, op, hpc⟩, hflips⟩
  have hub : u ∈ b := by
    by_contra hub
    rw [hs u hub] at hpc
    rcases hpc with hpc | hpc <;> cases hpc
  have htest := List.all_eq_true.mp h u hub
  have hmay := mayFlip_of_flips hflips
  rcases hpc with hpc | hpc <;> simp [hpc, hu, hmay] at htest

end Within

/-- Thread 1 chooses its operation for WRITE, and waits while thread 0 registers READ in
vain once more. Then both events are cancelled. -/
def addsInTurn : List Act :=
  let c (event : Event) : AddCall := ⟨5, event, some 0, ⟨some 0, 0, true⟩⟩
  .addEvent 0 (c .READ) :: List.replicate 5 (.run 0) ++
    [.addEvent 1 (c .WRITE), .run 1, .run 1] ++
    .addEvent 0 (c .READ) :: List.replicate 5 (.run 0) ++ List.replicate 3 (.run 1) ++
    .remove 0 .cancelAll 5 :: List.replicate 4 (.run 0)

theorem epollCtl_valid_in_turn : ∃ tr s, Run system initial tr s ∧
    tr.map Move.act = addsInTurn ∧ s.io.epoll 5 = none ∧
    (∀ a, s.exec a = .error (.fault .epollCtl) ↔ s.Stale a) ∧
    ∀ a, s.exec a ≠ .error (.fault .epollCtl) := by
  have hrun : (traceAll next initial addsInTurn).map (fun r =>
      (r.1.all fun m => m.pre.choosesInTime [0, 1] m.act, r.2.io.epoll 5)) =
      some (true, none) := by decide +kernel
  obtain ⟨tr, s, hr, hacts, hobs⟩ := Run.exists_of_traceAll next next_sound _ hrun
  obtain ⟨htime, hend⟩ := Prod.mk.inj hobs
  have hacts' : ∀ m ∈ tr, m.act ∈ addsInTurn := fun m hm => hacts ▸ List.mem_map_of_mem hm
  have hall : ∀ a ∈ addsInTurn, a.On 5 ∧ a.tid ∈ [0, 1] := by simp [addsInTurn, Act.On, Act.tid]
  have hwithin := within_of_run hr fun m hm => (hall _ (hacts' m hm)).2
  obtain ⟨hiff, hsafe⟩ := epollCtl_valid hr fun m hm => (hall _ (hacts' m hm)).1
  exact ⟨tr, s, hr, hacts, hend, hiff, hsafe fun m hm =>
    (hwithin m hm).not_outdates (List.all_eq_true.mp htime m hm)⟩

end Threads

end FiberAsync
