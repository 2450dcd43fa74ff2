import FiberAsync.TimerDeadlines

/-!
# Deadlines and announcements

`refresh` and the loop of `listExpiredCb` insert without a call of
`OnTimerInsertedAtFront`. Each of them starts a period again at a later time, so
no deadline moves forward to where nobody was told of it; `add_timer` and
`reset` follow `m_tickled`, which `getNextTimer` clears.
-/

namespace FiberAsync

set_option autoImplicit false

open Runs TimerManager

/-- The period of the timer started at `now` or before. -/
def Timer.StartedBy (t : Timer) (now : Millis) : Prop :=
  ∃ start ≤ now, t.m_next.toNat = start.toNat + t.m_ms.toNat

namespace Timer

variable {t : Timer} {now now' : Millis}

theorem StartedBy.mono (h : t.StartedBy now) (hle : now ≤ now') : t.StartedBy now' := by
  obtain ⟨start, hstart, hnext⟩ := h
  exact ⟨start, BitVec.le_trans hstart hle, hnext⟩

theorem startedBy_add {ms start : Millis} (hms : t.m_ms = ms) (hnext : t.m_next = start + ms)
    (hle : start ≤ now) (hfits : start.toNat + ms.toNat < 2 ^ 64) : t.StartedBy now := by
  refine ⟨start, hle, ?_⟩
  rw [hnext, hms, BitVec.toNat_add, Nat.mod_eq_of_lt hfits]

/-- A period that starts again at `now` ends no earlier. -/
theorem StartedBy.le_restart (h : t.StartedBy now)
    (hfits : now.toNat + t.m_ms.toNat < 2 ^ 64) : t.m_next ≤ now + t.m_ms := by
  obtain ⟨start, hstart, hnext⟩ := h
  rw [BitVec.le_def] at hstart ⊢
  rw [BitVec.toNat_add, Nat.mod_eq_of_lt hfits, hnext]
  exact Nat.add_le_add_right hstart _

theorem StartedBy.start (h : t.StartedBy now) : t.m_next - t.m_ms ≤ now := by
  obtain ⟨start, hstart, hnext⟩ := h
  have heq : t.m_next = start + t.m_ms := by
    apply BitVec.eq_of_toNat_eq
    rw [BitVec.toNat_add, ← hnext, Nat.mod_eq_of_lt t.m_next.isLt]
  rw [heq, BitVec.add_sub_cancel]
  exact hstart

end Timer

namespace TimerManager

/-- What an operation at the time `now` does with the timers `l` that are in the
set or taken out of it, which are then `l'`. It calls `OnTimerInsertedAtFront`
`front` times. -/
structure Advances (now : Millis) (m : TimerManager) (l : List TimerPtr) (m' : TimerManager)
    (l' : List TimerPtr) (front : Nat) : Prop where
  started : ∀ i ∈ l', (m'.heap i).StartedBy now
  follows : m'.m_tickled = false → ∀ i ∈ l', ∃ e ∈ l, (m.heap e).m_next ≤ (m'.heap i).m_next
  tickled : m'.m_tickled.toNat = m.m_tickled.toNat + front

variable {m m' : TimerManager} {l l' out : List TimerPtr} {i : TimerPtr} {t : Timer}
  {now : Millis}

theorem Advances.trans {m'' : TimerManager} {l'' : List TimerPtr} {now' : Millis}
    {front front' : Nat} (h : Advances now m l m' l' front)
    (h' : Advances now' m' l' m'' l'' front') : Advances now' m l m'' l'' (front + front') := by
  have hcount := h.tickled
  have hcount' := h'.tickled
  refine ⟨h'.started, fun hquiet i hi => ?_, by omega⟩
  have hmiddle : m'.m_tickled = false := by
    rw [hquiet, Bool.toNat_false] at hcount'
    apply Bool.toNat_eq_zero.mp
    omega
  obtain ⟨e', he', hle'⟩ := h'.follows hquiet i hi
  obtain ⟨e, he, hle⟩ := h.follows hmiddle e' he'
  exact ⟨e, he, BitVec.le_trans hle hle'⟩

theorem Advances.of_same (hstart : ∀ i ∈ l, (m.heap i).StartedBy now)
    (hsub : ∀ i ∈ l', i ∈ l ∧ m'.heap i = m.heap i) (hm : m'.m_tickled = m.m_tickled) :
    Advances now m l m' l' 0 := by
  refine ⟨fun i hi => ?_, fun _ i hi => ?_, by rw [hm]; rfl⟩
  · obtain ⟨hl, hheap⟩ := hsub i hi
    rw [hheap]
    exact hstart i hl
  · obtain ⟨hl, hheap⟩ := hsub i hi
    rw [hheap]
    exact ⟨i, hl, BitVec.le_refl _⟩

theorem Advances.of_restart (hstart : ∀ i ∈ l, (m.heap i).StartedBy now) (hi : i ∈ l)
    (hms : t.m_ms = (m.heap i).m_ms) (hnext : t.m_next = now + (m.heap i).m_ms)
    (hfits : now.toNat + (m.heap i).m_ms.toNat < 2 ^ 64)
    (hsub : ∀ j ∈ l', j ∈ l) (hheap : m'.heap = (m.setTimer i t).heap)
    (hm : m'.m_tickled = m.m_tickled) : Advances now m l m' l' 0 := by
  refine ⟨fun j hj => ?_, fun _ j hj => ⟨j, hsub j hj, ?_⟩, by rw [hm]; rfl⟩
  · rw [hheap]
    by_cases hji : j = i
    · subst j
      rw [setTimer_heap_self]
      exact Timer.startedBy_add hms hnext (BitVec.le_refl _) hfits
    · rw [setTimer_heap_of_ne hji]
      exact hstart j (hsub j hj)
  · rw [hheap]
    by_cases hji : j = i
    · subst j
      rw [setTimer_heap_self, hnext]
      exact (hstart i hi).le_restart hfits
    · rw [setTimer_heap_of_ne hji]
      exact BitVec.le_refl _

theorem addTimerLocked_tickled (m : TimerManager) (i : TimerPtr) :
    (m.addTimerLocked i).2.m_tickled.toNat =
      m.m_tickled.toNat + (m.addTimerLocked i).1.toNat := by
  unfold addTimerLocked insertTimer
  cases m.m_tickled <;> simp

/-- A timer that is inserted without an announcement, while there has been none,
has another one before it. -/
theorem StoreInv.before_added (h : StoreInv m [i])
    (hm : (m.addTimerLocked i).2.m_tickled = false) :
    ∃ e ∈ m.m_timers, (m.heap e).m_next ≤ (m.heap i).m_next := by
  have hins := h.insert
  have hmem : i ∈ (m.insertTimer i).m_timers := h.perm_insert.mem_iff.mpr List.mem_cons_self
  have hfront : (m.insertTimer i).m_timers.head? ≠ some i := by
    intro hhead
    have hfind := hins.find_of_mem hmem
    unfold TimerManager.addTimerLocked at hm
    dsimp only at hm
    rw [hhead, hfind] at hm
    simp at hm
  have hsorted := hins.sorted
  have hperm := h.perm_insert
  cases hlist : (m.insertTimer i).m_timers with
  | nil =>
    rw [hlist] at hmem
    cases hmem
  | cons e rest =>
    rw [hlist] at hmem hfront hsorted hperm
    have hne : e ≠ i := fun heq => hfront (by rw [heq]; rfl)
    have he : e ∈ m.m_timers :=
      (List.mem_cons.mp (hperm.mem_iff.mp List.mem_cons_self)).resolve_left hne
    have hi : i ∈ rest := (List.mem_cons.mp hmem).resolve_left hne.symm
    have hlt : m.key e < m.key i := (List.pairwise_cons.mp hsorted).1 i hi
    exact ⟨e, he, Timer.m_next_le_of_key_le (le_of_lt hlt)⟩

/-- A timer is put into the set of `m`, which holds no others than `m₀` did. -/
theorem StoreInv.addTimerLocked_advances {m₀ : TimerManager} (h : StoreInv m [i])
    (hstart : ∀ j ∈ m₀.m_timers, (m₀.heap j).StartedBy now) (hi : (m.heap i).StartedBy now)
    (hsub : ∀ j ∈ m.m_timers, j ∈ m₀.m_timers ∧ m.heap j = m₀.heap j)
    (hm : m.m_tickled = m₀.m_tickled) :
    Advances now m₀ m₀.m_timers (m.addTimerLocked i).2 (m.addTimerLocked i).2.m_timers
      (m.addTimerLocked i).1.toNat := by
  have hcases : ∀ j ∈ (m.addTimerLocked i).2.m_timers, j = i ∨ j ∈ m.m_timers :=
    fun j hj => List.mem_cons.mp (h.perm_insert.mem_iff.mp hj)
  have hheap : (m.addTimerLocked i).2.heap = m.heap := rfl
  refine ⟨fun j hj => ?_, fun hquiet j hj => ?_, hm ▸ addTimerLocked_tickled m i⟩
  · rw [hheap]
    rcases hcases j hj with rfl | hj
    · exact hi
    · obtain ⟨hj₀, heq⟩ := hsub j hj
      rw [heq]
      exact hstart j hj₀
  · rw [hheap]
    rcases hcases j hj with rfl | hj
    · obtain ⟨e, he, hle⟩ := h.before_added hquiet
      obtain ⟨he₀, heq⟩ := hsub e he
      exact ⟨e, he₀, heq ▸ hle⟩
    · obtain ⟨hj₀, heq⟩ := hsub j hj
      exact ⟨j, hj₀, heq ▸ BitVec.le_refl _⟩

theorem takeExpired_tickled (m : TimerManager) (c : ExpireCall) :
    (m.takeExpired c).2.m_tickled = m.m_tickled := by
  unfold takeExpired
  split
  · rfl
  split
  · rfl
  dsimp only
  split <;> rfl

theorem takeExpired_advances (hstart : ∀ i ∈ m.m_timers, (m.heap i).StartedBy now)
    (c : ExpireCall) : Advances now m m.m_timers (m.takeExpired c).2
    ((m.takeExpired c).2.m_timers ++ (m.takeExpired c).1) 0 := by
  obtain ⟨htimers, hheap, _, _⟩ := m.takeExpired_spec c
  refine Advances.of_same hstart (fun j hj => ⟨?_, congrFun hheap j⟩) (takeExpired_tickled m c)
  rw [← htimers]
  exact List.perm_append_comm.mem_iff.mp hj

section Operations

variable (h : StoreInv m []) (hstart : ∀ i ∈ m.m_timers, (m.heap i).StartedBy now)
include h hstart

theorem add_timer_advances {c : TimerCall} (ha : m.Allowed (.add_timer c))
    (hc : (Timer.new c.address c.ms c.cb c.recurring c.now).StartedBy now) :
    Advances now m m.m_timers (m.add_timer c).2 (m.add_timer c).2.m_timers
      (m.add_timer c).1.toNat := by
  have hself : (m.newTimer c).heap m.created =
      Timer.new c.address c.ms c.cb c.recurring c.now := Function.update_self _ _ _
  apply (h.newTimer ha).addTimerLocked_advances hstart (hself ▸ hc) _ rfl
  intro j hj
  have hne : j ≠ m.created := Nat.ne_of_lt (h.numbered j (h.owned_timer hj))
  exact ⟨hj, Function.update_of_ne hne _ _⟩

theorem cancel_advances (hi : i ∈ m.live) {b : Bool} (hc : m.cancel i = .ok (b, m')) :
    Advances now m m.m_timers m' m'.m_timers 0 := by
  by_cases hcb : (m.heap i).m_cb.isSome
  · rw [h.cancel_of_mem (h.mem_of_isSome hi hcb) hcb] at hc
    cases hc
    refine Advances.of_same hstart (fun j hj => ?_) rfl
    obtain ⟨hne, hj⟩ := h.nodup_timers.mem_erase_iff.mp hj
    exact ⟨hj, setTimer_heap_of_ne hne⟩
  · rw [cancel_of_none (Option.not_isSome_iff_eq_none.mp hcb)] at hc
    cases hc
    exact .of_same hstart (fun j hj => ⟨hj, rfl⟩) rfl

theorem refresh_advances (hi : i ∈ m.live)
    (hfits : i ∈ m.m_timers → now.toNat + (m.heap i).m_ms.toNat < 2 ^ 64) :
    Advances now m m.m_timers (m.refresh i now).2 (m.refresh i now).2.m_timers 0 := by
  rcases h.refresh_cases hi now with ⟨⟨hmem, _⟩, heq⟩ | ⟨_, heq⟩
  · have hsub : ∀ j ∈ (m.rearm i (m.refreshed i now)).m_timers, j ∈ m.m_timers :=
      fun j hj => (mem_rearm (t := m.refreshed i now) h hmem rfl).mp hj
    rw [heq]
    exact .of_restart (t := m.refreshed i now) hstart hmem rfl rfl (hfits hmem) hsub rfl rfl
  · rw [heq]
    exact .of_same hstart (fun j hj => ⟨hj, rfl⟩) rfl

theorem reset_advances (hi : i ∈ m.live) {ms seen : Millis} {from_now : Bool}
    (hfits : i ∈ m.m_timers → (if from_now then now else
      (m.heap i).m_next - (m.heap i).m_ms).toNat + ms.toNat < 2 ^ 64) :
    Advances now m m.m_timers (m.reset i ms from_now seen now).2
      (m.reset i ms from_now seen now).2.m_timers (m.reset i ms from_now seen now).1.2.toNat := by
  rcases h.reset_spec hi ms from_now seen now with ⟨b, heq⟩ | ⟨hmem, r, rfl, heq⟩
  · rw [heq]
    exact .of_same hstart (fun j hj => ⟨hj, rfl⟩) rfl
  · have hinv := (h.erase hmem).rekey (t := m.restarted i ms from_now now) rfl
    have hrestart : (m.restarted i ms from_now now).StartedBy now := by
      apply Timer.startedBy_add rfl rfl _ (hfits hmem)
      cases from_now with
      | true => exact BitVec.le_refl _
      | false => exact (hstart i hmem).start
    rw [heq]
    apply hinv.addTimerLocked_advances hstart _ _ rfl
    · rw [setTimer_heap_self]
      exact hrestart
    · intro j hj
      obtain ⟨hne, hj⟩ := h.nodup_timers.mem_erase_iff.mp hj
      exact ⟨hj, setTimer_heap_of_ne hne⟩

end Operations

theorem deliver_advances {e : Expiry} (h : StoreInv e.manager (i :: out)) (hclock : e.clock = now)
    (hticks : e.ticks = [])
    (hstart : ∀ j ∈ e.manager.m_timers ++ i :: out, (e.manager.heap j).StartedBy now)
    (hfits : (e.manager.heap i).m_recurring = true →
      now.toNat + (e.manager.heap i).m_ms.toNat < 2 ^ 64) :
    Advances now e.manager (e.manager.m_timers ++ i :: out) (e.deliver i).manager
      ((e.deliver i).manager.m_timers ++ out) 0 := by
  have hi : i ∈ e.manager.m_timers ++ i :: out := by simp
  cases hrec : (e.manager.heap i).m_recurring with
  | true =>
    have hnow : (e.rearmed i).m_next = now + (e.manager.heap i).m_ms := by
      unfold Expiry.rearmed
      rw [hticks, hclock]
      rfl
    have hperm := (h.rekey (t := e.rearmed i) rfl).perm_insert
    rw [Expiry.deliver_recurring hrec]
    refine .of_restart (t := e.rearmed i) hstart hi rfl hnow (hfits hrec) (fun j hj => ?_) rfl rfl
    exact List.perm_middle.symm.mem_iff.mp ((hperm.append_right out).mem_iff.mp hj)
  | false =>
    rw [Expiry.deliver_oneShot hrec]
    have hdisjoint := (List.nodup_cons.mp (List.perm_middle.nodup_iff.mp h.nodup)).1
    refine .of_same hstart (fun j hj => ?_) rfl
    have hne : j ≠ i := fun heq => hdisjoint (heq ▸ hj)
    exact ⟨List.perm_middle.mem_iff.mpr (List.mem_cons_of_mem i hj), setTimer_heap_of_ne hne⟩

end TimerManager

def TimerPc.rest : TimerPc → List TimerPtr
  | delivering _ rest => rest
  | out | adding _ | reading _ _ | expiring _ _ | resetting _ => []

namespace TimerThreads

/-- The timers that the thread in the loop of `listExpiredCb` has still to deliver. -/
def taken (s : TimerThreads) : List TimerPtr := s.writer.elim [] fun t => (s.pc t).rest

def pending (s : TimerThreads) : List TimerPtr := s.manager.m_timers ++ s.taken

/-- The step calls `OnTimerInsertedAtFront`. -/
def announces (mv : Move TimerThreads TimerAct) : Bool :=
  match mv.act with
  | .add t =>
    match mv.pre.pc t with
    | .adding c => (mv.pre.manager.add_timer c).1
    | _ => false
  | .restart t =>
    match mv.pre.pc t with
    | .resetting c =>
      (mv.pre.manager.reset c.timer c.ms c.from_now c.seen mv.pre.clock).1.2
    | _ => false
  | _ => false

/-- The start and the length of a period whose end the step computes. -/
def period (s : TimerThreads) : TimerAct → Option (Millis × Millis)
  | .add_timer _ _ ms _ _ => some (s.clock, ms)
  | .refresh i =>
    if i ∈ s.manager.m_timers then some (s.clock, (s.manager.heap i).m_ms) else none
  | .restart t =>
    match s.pc t with
    | .resetting c =>
      let timer := s.manager.heap c.timer
      let start := if c.from_now then s.clock else timer.m_next - timer.m_ms
      if c.timer ∈ s.manager.m_timers then some (start, c.ms) else none
    | _ => none
  | .deliver t =>
    match s.pc t with
    | .delivering _ (i :: _) =>
      if (s.manager.heap i).m_recurring then some (s.clock, (s.manager.heap i).m_ms) else none
    | _ => none
  | _ => none

/-- A deadline that the step computes does not overflow. -/
def Fits (s : TimerThreads) (a : TimerAct) : Prop :=
  ∀ p ∈ s.period a, p.1.toNat + p.2.toNat < 2 ^ 64

instance (s : TimerThreads) (a : TimerAct) : Decidable (s.Fits a) :=
  Option.decidableForallMem _

/-- Every period has started, also that of a timer not yet inserted. -/
structure StartedOk (s : TimerThreads) : Prop where
  pending : ∀ i ∈ s.pending, (s.manager.heap i).StartedBy s.clock
  adding : ∀ t c, s.pc t = .adding c →
    (Timer.new c.address c.ms c.cb c.recurring c.now).StartedBy s.clock

variable {s s' : TimerThreads} {a : TimerAct} {t u : Tid} {pc : TimerPc}

theorem taken_of_free (hw : s.writer = none) : s.taken = [] := by
  unfold taken
  rw [hw]
  rfl

theorem pending_of_free (hw : s.writer = none) : s.pending = s.manager.m_timers := by
  unfold pending
  rw [taken_of_free hw, List.append_nil]

theorem taken_of_delivering {cbs : List (Option Callback)} {rest : List TimerPtr}
    (hw : s.writer = some t) (hpc : s.pc t = .delivering cbs rest) : s.taken = rest := by
  unfold taken
  rw [hw, Option.elim_some, hpc]
  rfl

theorem taken_setPc (hrest : pc.rest = (s.pc t).rest) : (s.setPc t pc).taken = s.taken := by
  unfold taken
  apply congrArg (Option.elim s.writer [])
  funext u
  by_cases hut : u = t
  · subst u
    rw [setPc_self, hrest]
  · rw [setPc_of_ne hut]

/-- At any moment the set is in order, with the rest of a batch taken out of it. -/
theorem SectionOk.store (h : s.SectionOk) : StoreInv s.manager s.taken := by
  cases hw : s.writer with
  | none =>
    rw [taken_of_free hw]
    exact reachable_inv (h.free hw)
  | some t =>
    obtain ⟨m, c, cbs, out, rest, hm, hpc, hbatch, hloop⟩ := h.held t hw
    obtain ⟨clock, hclock⟩ := hloop []
    have hinv := (reachable_inv hm).batch c
    rw [hbatch] at hinv
    have hafter := Expiry.deliverAll_rest
      (e := ⟨(m.takeExpired c).2, c.cbs, c.clock, c.ticks ++ []⟩) hinv
    rw [hclock] at hafter
    rw [taken_of_delivering hw hpc]
    exact hafter

theorem SectionOk.free_inv (h : s.SectionOk) (hw : s.writer = none) : StoreInv s.manager [] :=
  reachable_inv (h.free hw)

theorem advances_of_taken {l out : List TimerPtr} {front : Nat} (hl : s.taken = l)
    (hout : s'.taken = out) (h : Advances s.clock s.manager (s.manager.m_timers ++ l) s'.manager
      (s'.manager.m_timers ++ out) front) :
    Advances s.clock s.manager s.pending s'.manager s'.pending front := by
  unfold pending
  rw [hl, hout]
  exact h

theorem advances_of_free {front : Nat} (hw : s.writer = none) (hw' : s'.writer = none)
    (h : Advances s.clock s.manager s.manager.m_timers s'.manager s'.manager.m_timers front) :
    Advances s.clock s.manager s.pending s'.manager s'.pending front := by
  rw [pending_of_free hw, pending_of_free hw']
  exact h

theorem StartedOk.advances_of_same (hst : s.StartedOk) (hm : s'.manager = s.manager)
    (ht : s'.taken = s.taken) :
    Advances s.clock s.manager s.pending s'.manager s'.pending 0 := by
  have hp : s'.pending = s.pending := by
    unfold TimerThreads.pending
    rw [hm, ht]
  exact .of_same hst.pending (fun i hi => ⟨hp ▸ hi, by rw [hm]⟩) (by rw [hm])

theorem advances (h : s.SectionOk) (hst : s.StartedOk) (hfits : s.Fits a)
    (hne : a ≠ .getNextTimer) (hs : s.next a = some s') :
    Advances s.clock s.manager s.pending s'.manager s'.pending (announces ⟨s, a, s'⟩).toNat := by
  have hstart : s.writer = none → ∀ i ∈ s.manager.m_timers,
      (s.manager.heap i).StartedBy s.clock :=
    fun hw i hi => hst.pending i ((pending_of_free hw).symm ▸ hi)
  cases a with
  | tick now =>
    obtain ⟨hle, heq⟩ := Option.ite_none_right_eq_some.mp hs
    cases heq
    exact hst.advances_of_same rfl rfl
  | add_timer t address ms cb recurring =>
    obtain ⟨hpc, rfl⟩ := enter_eq_some hs
    exact hst.advances_of_same rfl (taken_setPc (by rw [hpc]; rfl))
  | listExpiredCb t cbs =>
    obtain ⟨hpc, rfl⟩ := enter_eq_some hs
    exact hst.advances_of_same rfl (taken_setPc (by rw [hpc]; rfl))
  | check t =>
    obtain ⟨cbs, now_ms, pc, hpc, hw, hor, rfl⟩ := check_eq_some hs
    have hrest : pc.rest = (s.pc t).rest := by
      rw [hpc]
      rcases hor with rfl | rfl <;> rfl
    exact hst.advances_of_same rfl (taken_setPc hrest)
  | add t =>
    obtain ⟨c, m, hpc, hw, hm, rfl⟩ := add_eq_some hs
    obtain ⟨ha, r, hexec⟩ := TimerManager.next_sound hm
    cases hexec
    have hadv := add_timer_advances (h.free_inv hw) (hstart hw) ha (hst.adding t c hpc)
    unfold announces
    simp only [hpc]
    exact advances_of_free hw hw hadv
  | expire t nowAddress =>
    obtain ⟨cbs, now_ms, hpc, hw, rfl⟩ := expire_eq_some hs
    refine advances_of_taken (taken_of_free hw) (taken_of_delivering rfl setPc_self) ?_
    rw [List.append_nil]
    exact takeExpired_advances (hstart hw) (s.expireCall cbs now_ms nowAddress)
  | deliver t =>
    rcases deliver_eq_some hs with ⟨cbs, i, rest, hpc, rfl⟩ | ⟨cbs, hpc, rfl⟩
    · have hw := h.exclusive t cbs _ hpc
      have htaken := taken_of_delivering hw hpc
      have hinv := h.store
      have hold := hst.pending
      unfold pending at hold
      rw [htaken] at hinv hold
      have hlater : (s.manager.heap i).m_recurring = true →
          s.clock.toNat + (s.manager.heap i).m_ms.toNat < 2 ^ 64 := by
        intro hrec
        apply hfits (s.clock, (s.manager.heap i).m_ms)
        simp only [period, hpc, hrec]
        rfl
      refine advances_of_taken htaken (taken_of_delivering hw setPc_self) ?_
      exact deliver_advances (e := ⟨s.manager, cbs, s.clock, []⟩) hinv rfl rfl hold hlater
    · have htaken := taken_of_delivering (h.exclusive t cbs _ hpc) hpc
      exact hst.advances_of_same rfl ((taken_of_free rfl).trans htaken.symm)
  | cancel i =>
    obtain ⟨m, hw, hm, rfl⟩ := locked_eq_some hs
    obtain ⟨ha, r, hexec⟩ := TimerManager.next_sound hm
    obtain ⟨b, hcancel, _⟩ := exec_cancel_iff.mp hexec
    exact advances_of_free hw hw (cancel_advances (h.free_inv hw) (hstart hw) ha hcancel)
  | refresh i =>
    obtain ⟨m, hw, hm, rfl⟩ := locked_eq_some hs
    obtain ⟨ha, r, hexec⟩ := TimerManager.next_sound hm
    cases hexec
    have hlater : i ∈ s.manager.m_timers →
        s.clock.toNat + (s.manager.heap i).m_ms.toNat < 2 ^ 64 :=
      fun hmem => hfits (s.clock, (s.manager.heap i).m_ms) (if_pos hmem)
    exact advances_of_free hw hw (refresh_advances (h.free_inv hw) (hstart hw) ha hlater)
  | reset t i ms from_now =>
    rcases reset_eq_some hs with ⟨hpc, _, ⟨_, rfl⟩ | ⟨_, rfl⟩⟩
    · exact hst.advances_of_same rfl rfl
    · exact hst.advances_of_same rfl (taken_setPc (by rw [hpc]; rfl))
  | restart t =>
    obtain ⟨c, m, hpc, hw, hm, rfl⟩ := restart_eq_some hs
    obtain ⟨ha, r, hexec⟩ := TimerManager.next_sound hm
    cases hexec
    have hlater : c.timer ∈ s.manager.m_timers → (if c.from_now then s.clock else
        (s.manager.heap c.timer).m_next - (s.manager.heap c.timer).m_ms).toNat + c.ms.toNat <
          2 ^ 64 := by
      intro hmem
      apply hfits (_, c.ms)
      simp only [period, hpc]
      exact if_pos hmem
    unfold announces
    simp only [hpc]
    exact advances_of_free hw hw (reset_advances (h.free_inv hw) (hstart hw) ha hlater)
  | getNextTimer => exact absurd rfl hne
  | release i =>
    obtain ⟨m, hw, hm, rfl⟩ := locked_eq_some hs
    obtain ⟨ha, r, hexec⟩ := TimerManager.next_sound hm
    cases hexec
    exact advances_of_free hw hw (.of_same (hstart hw) (fun j hj => ⟨hj, rfl⟩) rfl)

theorem next_getNextTimer (hs : s.next .getNextTimer = some s') :
    s.writer = none ∧ s' = { s with manager := { s.manager with m_tickled := false } } := by
  obtain ⟨m, hw, hm, rfl⟩ := locked_eq_some hs
  obtain ⟨-, r, hexec⟩ := TimerManager.next_sound hm
  cases hexec
  rw [getNextTimer_manager]
  exact ⟨hw, rfl⟩

theorem adding_of_step {c : TimerCall} (hs : s.next a = some s') (hpc : s'.pc t = .adding c) :
    s.pc t = .adding c ∨ s.period a = some (c.now, c.ms) ∧ c.now = s.clock := by
  have hmoved : ∀ {u : Tid} {pc : TimerPc}, (∀ c, pc ≠ .adding c) →
      (s.setPc u pc).pc t = .adding c → s.pc t = .adding c := by
    intro u pc hne heq
    by_cases htu : t = u
    · subst u
      rw [setPc_self] at heq
      exact absurd heq (hne c)
    · rwa [setPc_of_ne htu] at heq
  cases stepped hs with
  | tick => exact Or.inl hpc
  | add_timer hout =>
    rename_i u address ms cb recurring
    by_cases htu : t = u
    · subst u
      rw [setPc_self] at hpc
      cases hpc
      exact Or.inr ⟨rfl, rfl⟩
    · rw [setPc_of_ne htu] at hpc
      exact Or.inl hpc
  | listExpiredCb | compared => exact Or.inl (hmoved (by simp) hpc)
  | kept => exact Or.inl hpc
  | check _ _ hor =>
    apply Or.inl (hmoved _ hpc)
    rcases hor with rfl | rfl <;> simp
  | add | restart => exact Or.inl (hmoved (by simp) hpc)
  | expire => exact Or.inl (hmoved (by simp) hpc)
  | deliver => exact Or.inl (hmoved (by simp) hpc)
  | leave => exact Or.inl (hmoved (by simp) hpc)
  | locked => exact Or.inl hpc

theorem clock_le (hs : s.next a = some s') : s.clock ≤ s'.clock := by
  cases stepped hs with
  | tick hle => exact hle
  | _ => exact BitVec.le_refl _

theorem initial_startedOk (start : Millis) : (initial start).StartedOk where
  pending := fun _ h => by cases h
  adding := fun _ _ h => by cases h

theorem StartedOk.step (h : s.SectionOk) (hst : s.StartedOk) (hfits : s.Fits a)
    (hs : s.next a = some s') : s'.StartedOk := by
  have hle := clock_le hs
  refine ⟨fun i hi => ?_, fun t c hpc => ?_⟩
  · by_cases hquery : a = .getNextTimer
    · subst a
      obtain ⟨hw, rfl⟩ := next_getNextTimer hs
      exact hst.pending i hi
    · exact ((advances h hst hfits hquery hs).started i hi).mono hle
  · rcases adding_of_step hs hpc with hpc | ⟨hperiod, hnow⟩
    · exact (hst.adding t c hpc).mono hle
    · have hlt := hfits (c.now, c.ms) hperiod
      refine ⟨c.now, hnow ▸ hle, ?_⟩
      change (c.ms + c.now).toNat = c.now.toNat + c.ms.toNat
      rw [BitVec.toNat_add, Nat.add_comm, Nat.mod_eq_of_lt hlt]

/-- Between two calls of `getNextTimer` the deadlines only move back, up to what
has been announced. -/
theorem run_advances {tr : List (Move TimerThreads TimerAct)} (hr : Run system s tr s')
    (h : s.SectionOk) (hst : s.StartedOk) (hfits : ∀ mv ∈ tr, mv.pre.Fits mv.act)
    (hnone : ∀ mv ∈ tr, mv.act ≠ .getNextTimer) :
    Advances s'.clock s.manager s.pending s'.manager s'.pending (tr.countP announces) := by
  induction hr with
  | nil => exact hst.advances_of_same rfl rfl
  | @cons s s₁ s' a tr hstep _ ih =>
    obtain ⟨hfit, hfits⟩ := List.forall_mem_cons.mp hfits
    obtain ⟨hne, hnone⟩ := List.forall_mem_cons.mp hnone
    have hfirst := advances h hst hfit hne hstep
    have hrest := ih (h.step hstep) (hst.step h hfit hstep) hfits hnone
    have hcount : List.countP announces (⟨s, a, s₁⟩ :: tr) =
        (announces ⟨s, a, s₁⟩).toNat + tr.countP announces := by
      rw [List.countP_cons, Nat.add_comm]
      cases announces ⟨s, a, s₁⟩ <;> rfl
    rw [hcount]
    exact hfirst.trans hrest

end TimerThreads

namespace TimerManager

/-- The smallest deadline of `m` is smaller than that of `m₀`, or only `m` has one. -/
def Earlier (m m₀ : TimerManager) : Prop :=
  ∃ i ∈ m.m_timers, ∀ j ∈ m₀.m_timers, (m.heap i).m_next < (m₀.heap j).m_next

end TimerManager

namespace TimerThreads

variable {s : TimerThreads} {start : Millis} {tr : List (Move TimerThreads TimerAct)}

/-- In a run whose deadlines do not overflow: when the smallest deadline is
smaller than at the last call of `getNextTimer`, there has been an announcement
since; and there is at most one between two of these calls. -/
theorem earlier_announced (hr : Run system (initial start) tr s)
    (hfits : ∀ mv ∈ tr, mv.pre.Fits mv.act) :
    (∀ before query after, tr = before ++ query :: after → query.act = .getNextTimer →
      (∀ mv ∈ after, mv.act ≠ .getNextTimer) → s.manager.Earlier query.pre.manager →
      ∃ mv ∈ after, announces mv) ∧
    ∀ before between after, tr = before ++ between ++ after →
      (∀ mv ∈ between, mv.act ≠ .getNextTimer) → between.countP announces ≤ 1 := by
  have keeps : ∀ {s a s'}, SectionOk s ∧ StartedOk s → s.Fits a → system.step s a s' →
      SectionOk s' ∧ StartedOk s' :=
    fun hs hfit hstep => ⟨hs.1.step hstep, hs.2.step hs.1 hfit hstep⟩
  have hinitial : SectionOk (initial start) ∧ StartedOk (initial start) :=
    ⟨initial_sectionOk start, initial_startedOk start⟩
  constructor
  · intro before query after htr hquery hnone hearlier
    subst tr
    obtain ⟨hbefore, hstep, hafter⟩ := hr.split_at
    have hpre := hbefore.invariant_of_guard _ _ keeps hinitial
      (fun mv hmv => hfits mv (by simp [hmv]))
    have hpost := keeps hpre (hfits query (by simp)) hstep
    have hadv := run_advances hafter hpost.1 hpost.2 (fun mv hmv => hfits mv (by simp [hmv])) hnone
    rw [hquery] at hstep
    obtain ⟨hw, heq⟩ := next_getNextTimer hstep
    have hpending : query.post.pending = query.pre.manager.m_timers := by
      rw [heq]
      exact pending_of_free hw
    have hheap : query.post.manager.heap = query.pre.manager.heap := by rw [heq]
    have hcleared : query.post.manager.m_tickled = false := by rw [heq]
    by_contra hquiet
    have hzero : after.countP announces = 0 := by
      apply List.countP_eq_zero.mpr
      exact fun mv hmv hann => hquiet ⟨mv, hmv, hann⟩
    have htickled : s.manager.m_tickled = false := by
      apply Bool.toNat_eq_zero.mp
      rw [hadv.tickled, hzero, hcleared]
      rfl
    obtain ⟨i, hi, hlt⟩ := hearlier
    obtain ⟨e, he, hle⟩ := hadv.follows htickled i (List.mem_append_left _ hi)
    rw [hpending] at he
    rw [hheap] at hle
    exact absurd (hlt e he) (BitVec.not_lt.mpr hle)
  · intro before between after htr hnone
    subst tr
    obtain ⟨s₂, hfront, _⟩ := hr.split
    obtain ⟨s₁, hbefore, hbetween⟩ := hfront.split
    have hpre := hbefore.invariant_of_guard _ _ keeps hinitial
      (fun mv hmv => hfits mv (by simp [hmv]))
    have hadv := run_advances hbetween hpre.1 hpre.2 (fun mv hmv => hfits mv (by simp [hmv])) hnone
    have hle := Bool.toNat_le s₂.manager.m_tickled
    have hcount := hadv.tickled
    omega

/-- A timer in ten seconds and, after `getNextTimer`, one in three seconds. -/
theorem earlier_announced_second : ∃ before query after s,
    Run system (initial 7200000) (before ++ query :: after) s ∧
    before.map Move.act = [.add_timer 0 16 10000 (some 0) false, .add 0] ∧
    query.act = .getNextTimer ∧
    after.map Move.act = [.add_timer 0 32 3000 (some 1) false, .add 0] ∧
    s.manager.Earlier query.pre.manager ∧ ∃ mv ∈ after, announces mv := by
  have hrun : (traceAll next (initial 7200000) [.add_timer 0 16 10000 (some 0) false, .add 0,
      .getNextTimer, .add_timer 0 32 3000 (some 1) false, .add 0]).map (fun r =>
        (r.1.all (fun mv => mv.pre.Fits mv.act),
          (r.2.manager.m_timers, (r.2.manager.heap 1).m_next),
          r.1[2]?.map fun mv => (mv.pre.manager.m_timers, (mv.pre.manager.heap 0).m_next))) =
      some (true, ([1, 0], 7203000), some ([0], 7210000)) := by decide +kernel
  obtain ⟨tr, s, hr, hacts, hobs⟩ := Run.exists_of_traceAll next next_sound _ hrun
  simp only [Prod.mk.injEq] at hobs
  obtain ⟨hfits, ⟨htimers, hnext⟩, hobs⟩ := hobs
  obtain ⟨query, hget, heq⟩ := Option.map_eq_some_iff.mp hobs
  obtain ⟨hold, hdeadline⟩ := Prod.mk.inj heq
  have htr : tr = tr.take 2 ++ query :: tr.drop 3 := eq_take_append_drop hget
  have hact : query.act = .getNextTimer := (Option.some.inj (act_of_getElem hget hacts)).symm
  have hafter : (tr.drop 3).map Move.act = [.add_timer 0 32 3000 (some 1) false, .add 0] := by
    rw [List.map_drop, hacts]
    rfl
  have hearlier : s.manager.Earlier query.pre.manager := by
    refine ⟨1, by rw [htimers]; simp, fun j hj => ?_⟩
    rw [hold, List.mem_singleton] at hj
    rw [hj, hnext, hdeadline]
    decide
  have hnone : ∀ mv ∈ tr.drop 3, mv.act ≠ .getNextTimer := by
    intro mv hmv heq
    have hmem := List.mem_map_of_mem (f := Move.act) hmv
    rw [hafter, heq] at hmem
    simp at hmem
  have hall : ∀ mv ∈ tr, mv.pre.Fits mv.act := by simpa using hfits
  have hlaw := (earlier_announced hr hall).1 _ query _ htr hact hnone hearlier
  refine ⟨tr.take 2, query, tr.drop 3, s, htr ▸ hr, ?_, hact, hafter, hearlier, hlaw⟩
  rw [List.map_take, hacts]
  rfl

end TimerThreads

end FiberAsync
