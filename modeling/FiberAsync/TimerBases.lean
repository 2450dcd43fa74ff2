import FiberAsync.TimerFrames

/-!
# Where deadlines come from

The reading of the clock that a period was counted from is not stored: it is
the difference of `m_next` and `m_ms`. Over any run it is the last reading that
was taken for the timer, because every write of `m_next` or `m_ms` either adds
the period to a new reading or keeps the difference.
-/

namespace FiberAsync

set_option autoImplicit false

open Runs TimerManager

namespace Timer

/-- The `start` that `reset(ms, false)` recovers. -/
def base (t : Timer) : Millis := t.m_next - t.m_ms

theorem next_eq_iff (t : Timer) (b : Millis) : t.m_next = b + t.m_ms ↔ t.base = b := by
  unfold base
  constructor
  · intro h
    rw [h, BitVec.add_sub_cancel]
  · intro h
    rw [← h, BitVec.sub_add_cancel]

/-- The timer with another period counted from the same reading. -/
def withPeriod (t : Timer) (ms : Millis) : Timer := { t with m_ms := ms, m_next := t.base + ms }

theorem withPeriod_self (t : Timer) : t.withPeriod t.m_ms = t := by
  unfold withPeriod
  rw [← (t.next_eq_iff t.base).mpr rfl]

theorem withPeriod_twice (t : Timer) (ms ms' : Millis) :
    (t.withPeriod ms).withPeriod ms' = t.withPeriod ms' := by
  simp [withPeriod, base]

end Timer

/-- The last reading in a list of readings taken for timers. -/
def latest (i : TimerPtr) (readings : List (TimerPtr × Millis)) : Option Millis :=
  ((readings.filter fun x => x.1 = i).map Prod.snd).getLast?

section Latest

variable {i j : TimerPtr} {now : Millis} {l l' : List (TimerPtr × Millis)}

theorem latest_append : latest i (l ++ l') = (latest i l').or (latest i l) := by
  simp [latest, List.getLast?_append]

theorem latest_nil : latest i [] = none := rfl

theorem latest_self : latest i [(i, now)] = some now := by simp [latest]

theorem latest_of_ne (h : j ≠ i) : latest j [(i, now)] = none := by simp [latest, Ne.symm h]

end Latest

/-- Every pending timer counts from its last reading, or it was pending before
and counts from where it did. -/
def Follows (m : TimerManager) (readings : List (TimerPtr × Millis)) (m' : TimerManager) : Prop :=
  ∀ i ∈ m'.m_timers, latest i readings = some (m'.heap i).base ∨
    latest i readings = none ∧ i ∈ m.m_timers ∧ (m'.heap i).base = (m.heap i).base

namespace Follows

variable {m m' m₁ m₂ : TimerManager} {r r' : List (TimerPtr × Millis)} {i : TimerPtr}
  {now : Millis}

theorem trans (h : Follows m r m₁) (h' : Follows m₁ r' m₂) : Follows m (r ++ r') m₂ := by
  intro i hi
  rw [latest_append]
  rcases h' i hi with hlast | ⟨hnone, hmem, hbase⟩
  · rw [hlast]
    exact Or.inl rfl
  · rw [hnone, Option.none_or, hbase]
    exact h i hmem

theorem of_sub (h : ∀ j ∈ m'.m_timers, j ∈ m.m_timers ∧ m'.heap j = m.heap j) :
    Follows m [] m' := by
  intro j hj
  obtain ⟨hmem, hheap⟩ := h j hj
  exact Or.inr ⟨latest_nil, hmem, by rw [hheap]⟩

theorem of_reading (hself : (m'.heap i).base = now)
    (h : ∀ j ∈ m'.m_timers, j ≠ i → j ∈ m.m_timers ∧ m'.heap j = m.heap j) :
    Follows m [(i, now)] m' := by
  intro j hj
  by_cases hji : j = i
  · subst j
    rw [latest_self, hself]
    exact Or.inl rfl
  · obtain ⟨hmem, hheap⟩ := h j hj hji
    exact Or.inr ⟨latest_of_ne hji, hmem, by rw [hheap]⟩

/-- One timer that was pending has a new deadline and period with the old difference. -/
theorem of_base (hi : i ∈ m.m_timers) (hself : (m'.heap i).base = (m.heap i).base)
    (h : ∀ j ∈ m'.m_timers, j ≠ i → j ∈ m.m_timers ∧ m'.heap j = m.heap j) :
    Follows m [] m' := by
  intro j hj
  refine Or.inr ⟨latest_nil, ?_⟩
  by_cases hji : j = i
  · subst j
    exact ⟨hi, hself⟩
  · obtain ⟨hmem, hheap⟩ := h j hj hji
    exact ⟨hmem, by rw [hheap]⟩

end Follows

namespace Expiry

variable {e : Expiry} {i : TimerPtr} {out : List TimerPtr}

/-- The readings with which one turn of the loop arms timers again. -/
def reading (e : Expiry) (i : TimerPtr) : List (TimerPtr × Millis) :=
  if (e.manager.heap i).m_recurring then [(i, e.ticks.headD e.clock)] else []

def readings (e : Expiry) : List TimerPtr → List (TimerPtr × Millis)
  | [] => []
  | i :: out => e.reading i ++ (e.deliver i).readings out

theorem deliver_follows (h : StoreInv e.manager (i :: out)) :
    Follows e.manager (e.reading i) (e.deliver i).manager := by
  have hout : i ∉ e.manager.m_timers := fun hi => h.not_mem_out hi List.mem_cons_self
  have hrest : ∀ j ∈ (e.deliver i).manager.m_timers, j ≠ i →
      j ∈ e.manager.m_timers ∧ (e.deliver i).manager.heap j = e.manager.heap j :=
    fun j hj hne => ⟨(deliver_mem_imp hj).resolve_left hne, deliver_heap hne⟩
  unfold reading
  cases hrec : (e.manager.heap i).m_recurring with
  | true =>
    rw [if_pos rfl]
    refine .of_reading ?_ hrest
    rw [deliver_recurring hrec, insertTimer_heap, setTimer_heap_self, ← Timer.next_eq_iff]
    rfl
  | false =>
    rw [if_neg Bool.false_ne_true]
    refine .of_sub fun j hj => hrest j hj ?_
    rintro rfl
    rw [deliver_oneShot hrec] at hj
    exact hout hj

theorem deliverAll_follows (h : StoreInv e.manager out) :
    Follows e.manager (e.readings out) (e.deliverAll out).manager := by
  induction out generalizing e with
  | nil => exact .of_sub fun j hj => ⟨hj, rfl⟩
  | cons i out ih => exact (deliver_follows h).trans (ih (deliver_inv h))

end Expiry

namespace TimerManager

variable {m m' : TimerManager} {i j : TimerPtr} {op : TimerOp}

/-- The readings of the clock that an operation counts periods from. A refresh or
a reset of a timer without a callback takes none. -/
def readings (mv : Move TimerManager TimerOp) : List (TimerPtr × Millis) :=
  match mv.act with
  | .add_timer c => [(mv.pre.created, c.now)]
  | .refresh i now => if (mv.pre.heap i).m_cb.isSome then [(i, now)] else []
  | .reset i _ from_now _ now =>
    if (mv.pre.heap i).m_cb.isSome ∧ from_now then [(i, now)] else []
  | .listExpiredCb c =>
    let r := mv.pre.takeExpired c
    Expiry.readings ⟨r.2, c.cbs, c.clock, c.ticks⟩ r.1
  | .cancel _ | .getNextTimer _ | .release _ => []

theorem base_restarted (m : TimerManager) (i : TimerPtr) (ms : Millis) (from_now : Bool)
    (now : Millis) : (m.restarted i ms from_now now).base =
      if from_now then now else (m.heap i).base := by
  rw [← Timer.next_eq_iff]
  rfl

section Operations

variable (h : StoreInv m [])
include h

theorem add_timer_follows {c : TimerCall} (ha : m.Allowed (.add_timer c)) :
    Follows m [(m.created, c.now)] (m.add_timer c).2 := by
  have hself : (m.add_timer c).2.heap m.created =
      Timer.new c.address c.ms c.cb c.recurring c.now := Function.update_self _ _ _
  have hperm : (m.add_timer c).2.m_timers.Perm (m.created :: m.m_timers) :=
    (h.newTimer ha).perm_insert
  refine .of_reading ?_ ?_
  · rw [hself, ← Timer.next_eq_iff]
    exact BitVec.add_comm _ _
  · intro j hj hne
    exact ⟨(List.mem_cons.mp (hperm.mem_iff.mp hj)).resolve_left hne, Function.update_of_ne hne _ _⟩

theorem refresh_follows (hi : i ∈ m.live) (now : Millis) :
    Follows m (if (m.heap i).m_cb.isSome then [(i, now)] else []) (m.refresh i now).2 := by
  rcases h.refresh_cases hi now with ⟨⟨hmem, hcb⟩, _⟩ | ⟨hnone, heq⟩
  · have hleaves := h.refresh_leaves hmem hcb now
    rw [if_pos hcb]
    refine .of_reading ?_ hleaves.rest
    rw [hleaves.heap, ← Timer.next_eq_iff]
    rfl
  · rw [hnone, heq]
    exact .of_sub fun j hj => ⟨hj, rfl⟩

theorem reset_follows (hi : i ∈ m.live) (ms : Millis) (from_now : Bool) (seen now : Millis) :
    Follows m (if (m.heap i).m_cb.isSome ∧ from_now then [(i, now)] else [])
      (m.reset i ms from_now seen now).2 := by
  by_cases hcb : (m.heap i).m_cb.isSome
  · have hmem := h.mem_of_isSome hi hcb
    cases from_now with
    | true =>
      have hgo : ms ≠ seen ∨ true = true := Or.inr rfl
      have hleaves := h.reset_leaves hmem hcb hgo now
      rw [if_pos ⟨hcb, rfl⟩]
      refine .of_reading ?_ hleaves.rest
      rw [hleaves.heap, base_restarted, if_pos rfl]
    | false =>
      rw [if_neg (fun hand => Bool.false_ne_true hand.2)]
      by_cases hseen : ms = seen
      · rw [reset_early hseen]
        exact .of_sub fun j hj => ⟨hj, rfl⟩
      · have hgo : ms ≠ seen ∨ false = true := Or.inl hseen
        have hleaves := h.reset_leaves hmem hcb hgo now
        refine .of_base hmem ?_ hleaves.rest
        rw [hleaves.heap, base_restarted, if_neg Bool.false_ne_true]
  · rw [if_neg (fun hand => hcb hand.1), reset_of_none (Option.not_isSome_iff_eq_none.mp hcb)]
    exact .of_sub fun j hj => ⟨hj, rfl⟩

theorem cancel_follows (hi : i ∈ m.live) {b : Bool} (heq : m.cancel i = .ok (b, m')) :
    Follows m [] m' := by
  rcases h.cancel_cases hi heq with ⟨_, _, hleaves⟩ | ⟨_, _, rfl⟩
  · refine .of_sub fun j hj => hleaves.rest j hj ?_
    rintro rfl
    exact hleaves.mem.mp hj
  · exact .of_sub fun j hj => ⟨hj, rfl⟩

theorem listExpiredCb_follows (c : ExpireCall) :
    Follows m (Expiry.readings ⟨(m.takeExpired c).2, c.cbs, c.clock, c.ticks⟩ (m.takeExpired c).1)
      (m.listExpiredCb c).manager := by
  have htaken : Follows m [] (m.takeExpired c).2 := by
    obtain ⟨htimers, hheap, _, _⟩ := m.takeExpired_spec c
    refine .of_sub fun j hj => ⟨?_, by rw [hheap]⟩
    rw [← htimers]
    exact List.mem_append_right _ hj
  exact htaken.trans (Expiry.deliverAll_follows (h.batch c))

theorem step_follows (hs : system.step m op m') : Follows m (readings ⟨m, op, m'⟩) m' := by
  obtain ⟨ha, r, hexec⟩ := hs
  cases op with
  | add_timer c =>
    cases hexec
    exact add_timer_follows h ha
  | cancel i =>
    obtain ⟨b, heq, _⟩ := exec_cancel_iff.mp hexec
    exact cancel_follows h ha heq
  | refresh i now =>
    cases hexec
    exact refresh_follows h ha now
  | reset i ms from_now seen now =>
    cases hexec
    exact reset_follows h ha ms from_now seen now
  | listExpiredCb c =>
    cases hexec
    exact listExpiredCb_follows h c
  | getNextTimer now =>
    cases hexec
    rw [getNextTimer_manager]
    exact .of_sub fun j hj => ⟨hj, rfl⟩
  | release i =>
    cases hexec
    exact .of_sub fun j hj => ⟨hj, rfl⟩

end Operations

theorem run_follows {tr : List (Move TimerManager TimerOp)} (h : Run system m tr m')
    (hm : StoreInv m []) : Follows m (tr.flatMap readings) m' := by
  induction h with
  | nil => exact .of_sub fun j hj => ⟨hj, rfl⟩
  | cons hstep _ ih => exact (step_follows hm hstep).trans (ih (step_effect hm hstep).inv)

/-- A call `reset(ms, false)` by a thread that no other one interferes with. -/
def resetKeeping (m : TimerManager) (i : TimerPtr) (ms now : Millis) : TimerManager :=
  (m.reset i ms false (m.heap i).m_ms now).2

/-- Calls `reset(ms, false)` on one timer, with the clock at each. -/
def resetSeries (m : TimerManager) (i : TimerPtr) (calls : List (Millis × Millis)) :
    TimerManager :=
  calls.foldl (fun m c => m.resetKeeping i c.1 c.2) m

/-- Nothing but the period of one pending timer, and the deadline with it, differs. -/
structure Reperiods (m : TimerManager) (i : TimerPtr) (ms : Millis) (m' : TimerManager) : Prop where
  inv : StoreInv m' []
  timers : ∀ j, j ∈ m'.m_timers ↔ j ∈ m.m_timers
  heap : m'.heap = Function.update m.heap i (((m.heap i).withPeriod ms))

namespace Reperiods

variable {m₁ m₂ : TimerManager} {ms : Millis}

theorem refl (h : StoreInv m []) : Reperiods m i (m.heap i).m_ms m := by
  refine ⟨h, fun _ => Iff.rfl, ?_⟩
  rw [Timer.withPeriod_self, Function.update_eq_self]

theorem trans {ms' : Millis} (h : Reperiods m i ms m₁) (h' : Reperiods m₁ i ms' m₂) :
    Reperiods m i ms' m₂ := by
  refine ⟨h'.inv, fun j => (h'.timers j).trans (h.timers j), ?_⟩
  rw [h'.heap, h.heap, Function.update_self, Function.update_idem, Timer.withPeriod_twice]

theorem callback (h : Reperiods m i ms m₁) (hcb : (m.heap i).m_cb.isSome) :
    (m₁.heap i).m_cb.isSome := by
  rw [h.heap, Function.update_self]
  exact hcb

/-- The order of the set is decided by the keys. -/
theorem unique (h₁ : Reperiods m i ms m₁) (h₂ : Reperiods m i ms m₂) :
    m₁.heap = m₂.heap ∧ m₁.m_timers = m₂.m_timers := by
  have hheap : m₁.heap = m₂.heap := h₁.heap.trans h₂.heap.symm
  refine ⟨hheap, OrderedSet.Sorted.eq_of_mem_iff h₁.inv.sorted ?_ ?_⟩
  · have hkey : m₁.key = m₂.key := by
      unfold key
      rw [hheap]
    rw [hkey]
    exact h₂.inv.sorted
  · exact fun j => (h₁.timers j).trans (h₂.timers j).symm

end Reperiods

section Series

variable (h : StoreInv m [])
include h

theorem resetKeeping_reperiods (hmem : i ∈ m.m_timers) (hcb : (m.heap i).m_cb.isSome)
    (ms now : Millis) : Reperiods m i ms (m.resetKeeping i ms now) := by
  unfold resetKeeping
  by_cases hms : ms = (m.heap i).m_ms
  · rw [reset_early hms, hms]
    exact .refl h
  · rw [h.reset_restarts hmem hcb (Or.inl hms)]
    have hinv := (h.erase hmem).rekey (t := m.restarted i ms false now) rfl
    exact ⟨hinv.addTimerLocked, fun j => mem_rearm h hmem rfl, rfl⟩

theorem resetSeries_reperiods (hmem : i ∈ m.m_timers) (hcb : (m.heap i).m_cb.isSome)
    (calls : List (Millis × Millis)) : ∃ ms, Reperiods m i ms (m.resetSeries i calls) := by
  induction calls using List.reverseRecOn with
  | nil => exact ⟨_, .refl h⟩
  | append_singleton calls c ih =>
    obtain ⟨ms, hseries⟩ := ih
    have hlast := resetKeeping_reperiods hseries.inv ((hseries.timers i).mpr hmem)
      (hseries.callback hcb) c.1 c.2
    unfold resetSeries at *
    rw [List.foldl_concat]
    exact ⟨c.1, hseries.trans hlast⟩

omit h in
theorem resetSeries_of_none (hcb : (m.heap i).m_cb = none) (calls : List (Millis × Millis)) :
    m.resetSeries i calls = m := by
  induction calls with
  | nil => rfl
  | cons c calls ih =>
    unfold resetSeries at *
    rw [List.foldl_cons, resetKeeping, reset_of_none hcb]
    exact ih

theorem resetSeries_last (hi : i ∈ m.live) (calls : List (Millis × Millis)) (ms now now' : Millis) :
    ((m.resetSeries i calls).resetKeeping i ms now).heap = (m.resetKeeping i ms now').heap ∧
      ((m.resetSeries i calls).resetKeeping i ms now).m_timers =
        (m.resetKeeping i ms now').m_timers := by
  by_cases hcb : (m.heap i).m_cb.isSome
  · have hmem := h.mem_of_isSome hi hcb
    obtain ⟨_, hseries⟩ := resetSeries_reperiods h hmem hcb calls
    have hlast := resetKeeping_reperiods hseries.inv ((hseries.timers i).mpr hmem)
      (hseries.callback hcb) ms now
    exact (hseries.trans hlast).unique (resetKeeping_reperiods h hmem hcb ms now')
  · have hnone := Option.not_isSome_iff_eq_none.mp hcb
    rw [resetSeries_of_none hnone, resetKeeping, resetKeeping, reset_of_none hnone,
      reset_of_none hnone]
    exact ⟨rfl, rfl⟩

end Series

/-- After any sequence of operations, every pending timer counts its period from
the last reading taken for it, and a series of calls `reset(ms, false)` leaves
the timers and the set as its last call alone does. -/
theorem deadline_history {tr : List (Move TimerManager TimerOp)} {now : Millis}
    (h : Run system (.new now) tr m) :
    (∀ i ∈ m.m_timers, ∃ base, latest i (tr.flatMap readings) = some base ∧
      (m.heap i).m_next = base + (m.heap i).m_ms) ∧
    ∀ i ∈ m.live, ∀ (calls : List (Millis × Millis)) (ms now₁ now₂ : Millis),
      ((m.resetSeries i calls).resetKeeping i ms now₁).heap = (m.resetKeeping i ms now₂).heap ∧
        ((m.resetSeries i calls).resetKeeping i ms now₁).m_timers =
          (m.resetKeeping i ms now₂).m_timers := by
  have hinv := h.invariant (fun m => StoreInv m []) (fun hm hs => (step_effect hm hs).inv)
    (new_inv now)
  constructor
  · intro i hi
    rcases run_follows h (new_inv now) i hi with hlast | ⟨_, hmem, _⟩
    · exact ⟨_, hlast, ((m.heap i).next_eq_iff _).mpr rfl⟩
    · cases hmem
  · exact fun i hi => resetSeries_last hinv hi

/-- A refreshed timer with a new period, and a recurring one armed again. -/
def countingFrom : List TimerOp :=
  [.add_timer ⟨16, 5, some 0, false, 10⟩, .add_timer ⟨32, 1, some 1, true, 0⟩, .refresh 0 20,
    .reset 0 (~~~0) false 5 30, .listExpiredCb ⟨[], 15, false, 48, 16, [17]⟩]

theorem deadline_history_two : ∃ tr m, Run system (.new 0) tr m ∧
    tr.map Move.act = countingFrom ∧ m.m_timers = [1, 0] ∧ m.live = [1, 0] ∧
    (∀ i ∈ m.m_timers, ∃ base, latest i (tr.flatMap readings) = some base ∧
      (m.heap i).m_next = base + (m.heap i).m_ms) ∧
    ∀ i ∈ m.live, ∀ (calls : List (Millis × Millis)) (ms now₁ now₂ : Millis),
      ((m.resetSeries i calls).resetKeeping i ms now₁).heap = (m.resetKeeping i ms now₂).heap ∧
        ((m.resetSeries i calls).resetKeeping i ms now₁).m_timers =
          (m.resetKeeping i ms now₂).m_timers := by
  have hrun : (traceAll next (.new 0) countingFrom).map (fun r => (r.2.m_timers, r.2.live)) =
      some ([1, 0], [1, 0]) := by decide +kernel
  obtain ⟨tr, m, hr, hacts, hobs⟩ := Run.exists_of_traceAll next next_sound _ hrun
  obtain ⟨htimers, hlive⟩ := Prod.mk.inj hobs
  obtain ⟨hbase, hseries⟩ := deadline_history hr
  exact ⟨tr, m, hr, hacts, htimers, hlive, hbase, hseries⟩

end TimerManager

end FiberAsync
