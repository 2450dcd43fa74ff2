import FiberAsync.DueTimers
import FiberAsync.TimerFrames

/-!
# What one call of `listExpiredCb` makes of the set

The call cuts the set at one place. The batch before the cut is erased at once
and then delivered in order, and the loop puts the recurring timers of the batch
back under new deadlines while the rest of the batch is still out.
-/

namespace FiberAsync

set_option autoImplicit false

open Runs TimerManager

namespace Expiry

variable {e : Expiry} {out : List TimerPtr} {i j : TimerPtr}

/-- The readings of the clock that the rest of the loop can take. -/
def later (e : Expiry) : List Millis := e.clock :: e.ticks

theorem headD_mem_later : e.ticks.headD e.clock ∈ e.later := by
  unfold later
  cases e.ticks with
  | nil => exact List.mem_cons_self
  | cons now ticks => exact List.mem_cons_of_mem _ List.mem_cons_self

theorem deliver_later : ∀ now ∈ (e.deliver i).later, now ∈ e.later := by
  intro now hnow
  unfold deliver at hnow
  dsimp only at hnow
  split at hnow
  · rcases List.mem_cons.mp hnow with rfl | hnow
    · exact headD_mem_later
    · exact List.mem_cons_of_mem _ (List.mem_of_mem_tail hnow)
  · exact hnow

theorem deliver_perm (h : StoreInv e.manager (i :: out)) :
    (e.deliver i).manager.m_timers.Perm
      (e.manager.m_timers ++ [i].filter fun j => (e.manager.heap j).m_recurring) := by
  cases hrec : (e.manager.heap i).m_recurring with
  | true =>
    rw [deliver_recurring hrec, List.filter_cons_of_pos (by simp [hrec]), List.filter_nil]
    have hinsert := (h.rekey (t := e.rearmed i) rfl).perm_insert
    exact hinsert.trans (List.perm_append_singleton _ _).symm
  | false =>
    rw [deliver_oneShot hrec, List.filter_cons_of_neg (by simp [hrec]), List.filter_nil,
      List.append_nil, setTimer_m_timers]

theorem deliverAll_perm (h : StoreInv e.manager out) :
    (e.deliverAll out).manager.m_timers.Perm
      (e.manager.m_timers ++ out.filter fun j => (e.manager.heap j).m_recurring) := by
  induction out generalizing e with
  | nil =>
    rw [List.filter_nil, List.append_nil]
    exact .refl _
  | cons i out ih =>
    have hsame : (out.filter fun j => ((e.deliver i).manager.heap j).m_recurring) =
        out.filter fun j => (e.manager.heap j).m_recurring := by
      apply List.filter_congr
      intro j hj
      rw [deliver_keeps.recurring j (h.numbered j (h.owned j (by simp [hj])))]
    have hrest := ih (deliver_inv h)
    rw [hsame] at hrest
    refine hrest.trans (((deliver_perm h).append_right _).trans ?_)
    rw [List.append_assoc, ← List.filter_append]
    exact .refl _

theorem deliverAll_recurring (h : out.Nodup) (hi : i ∈ out)
    (hrec : (e.manager.heap i).m_recurring = true) : ∃ now ∈ e.later,
      (e.deliverAll out).manager.heap i =
        { e.manager.heap i with m_next := now + (e.manager.heap i).m_ms } := by
  induction out generalizing e with
  | nil => cases hi
  | cons j out ih =>
    obtain ⟨hj, hout⟩ := List.nodup_cons.mp h
    rcases List.mem_cons.mp hi with rfl | hi
    · refine ⟨_, headD_mem_later, (deliverAll_heap hj).trans ?_⟩
      rw [deliver_recurring hrec, insertTimer_heap, setTimer_heap_self]
      rfl
    · have hne : i ≠ j := fun heq => hj (heq ▸ hi)
      have hsame : (e.deliver j).manager.heap i = e.manager.heap i := deliver_heap hne
      rw [← hsame] at hrec
      obtain ⟨now, hnow, hheap⟩ := ih hout hi hrec
      rw [hsame] at hheap
      exact ⟨now, deliver_later now hnow, hheap⟩

theorem deliverAll_oneShot (h : out.Nodup) (hi : i ∈ out)
    (hone : (e.manager.heap i).m_recurring = false) :
    (e.deliverAll out).manager.heap i = { e.manager.heap i with m_cb := none } := by
  induction out generalizing e with
  | nil => cases hi
  | cons j out ih =>
    obtain ⟨hj, hout⟩ := List.nodup_cons.mp h
    rcases List.mem_cons.mp hi with rfl | hi
    · refine (deliverAll_heap hj).trans ?_
      rw [deliver_oneShot hone, setTimer_heap_self]
      rfl
    · have hne : i ≠ j := fun heq => hj (heq ▸ hi)
      have hsame : (e.deliver j).manager.heap i = e.manager.heap i := deliver_heap hne
      rw [← hsame] at hone
      rw [← hsame]
      exact ih hout hi hone

end Expiry

namespace TimerManager

variable {m : TimerManager} {c : ExpireCall} {batch rest : List TimerPtr} {i : TimerPtr}

/-- The call cuts the set into a batch that it delivers and a rest that it leaves. -/
structure Splits (m : TimerManager) (c : ExpireCall) (batch rest : List TimerPtr) : Prop where
  timers : m.m_timers = batch ++ rest
  once : (batch ++ rest).Nodup
  in_order : batch.Pairwise fun i j => (m.heap i).m_next ≤ (m.heap j).m_next
  delivered : (m.listExpiredCb c).cbs = c.cbs ++ batch.map fun i => (m.heap i).m_cb
  due : (m.detectClockRollover c.now_ms).1 = false → ∀ i ∈ batch, (m.heap i).m_next ≤ c.now_ms
  /-- unless the set was filled after the call had found it empty -/
  rollover : (m.detectClockRollover c.now_ms).1 = true →
    (c.sawEmpty = true → m.m_timers = []) → rest = []
  left : ∀ i ∈ rest, (m.listExpiredCb c).manager.heap i = m.heap i
  rearmed : ∀ i ∈ batch, (m.heap i).m_recurring = true → ∃ now ∈ c.clock :: c.ticks,
    (m.listExpiredCb c).manager.heap i = { m.heap i with m_next := now + (m.heap i).m_ms }
  spent : ∀ i ∈ batch, (m.heap i).m_recurring = false →
    i ∉ (m.listExpiredCb c).manager.m_timers ∧
      (m.listExpiredCb c).manager.heap i = { m.heap i with m_cb := none }
  /-- what is in the set afterwards, each once and in the order of the comparator -/
  kept : (m.listExpiredCb c).manager.m_timers.Perm
    (rest ++ batch.filter fun i => (m.heap i).m_recurring)
  sorted : (m.listExpiredCb c).manager.m_timers.Pairwise fun i j =>
    (m.listExpiredCb c).manager.before i j = true

theorem takeExpired_rest_of_rollover (hroll : (m.detectClockRollover c.now_ms).1 = true)
    (hseen : c.sawEmpty = true → m.m_timers = []) : (m.takeExpired c).2.m_timers = [] := by
  have happend := (m.takeExpired_spec c).timers
  cases hc : c.sawEmpty with
  | true =>
    rw [hseen hc] at happend
    exact (List.append_eq_nil_iff.mp happend).2
  | false =>
    rw [takeExpired_of_rollover hc hroll] at happend
    exact List.append_right_eq_self.mp happend

theorem StoreInv.splits (h : StoreInv m []) (c : ExpireCall) :
    m.Splits c (m.takeExpired c).1 (m.takeExpired c).2.m_timers := by
  obtain ⟨htimers, hheap, _, _⟩ := m.takeExpired_spec c
  have hbatch := h.batch c
  have hnodup := h.nodup_timers
  have hsorted := h.sorted
  rw [← htimers] at hnodup hsorted
  obtain ⟨honce, _, hdisjoint⟩ := List.nodup_append.mp hnodup
  have hperm := Expiry.deliverAll_perm
    (e := ⟨(m.takeExpired c).2, c.cbs, c.clock, c.ticks⟩) hbatch
  simp only [hheap] at hperm
  constructor
  · exact htimers.symm
  · exact hnodup
  · exact (List.pairwise_append.mp hsorted).1.imp
      fun hlt => Timer.m_next_le_of_key_le (le_of_lt hlt)
  · exact listExpiredCb_cbs h c
  · exact fun hroll i hi => le_of_takeExpired hroll hi
  · exact takeExpired_rest_of_rollover
  · intro i hi
    exact listExpiredCb_heap fun hin => hdisjoint i hin i hi rfl
  · intro i hi hrec
    obtain ⟨now, hnow, heq⟩ := Expiry.deliverAll_recurring
      (e := ⟨(m.takeExpired c).2, c.cbs, c.clock, c.ticks⟩) honce hi (by rw [hheap]; exact hrec)
    rw [hheap] at heq
    exact ⟨now, hnow, heq⟩
  · intro i hi hone
    have heq := Expiry.deliverAll_oneShot
      (e := ⟨(m.takeExpired c).2, c.cbs, c.clock, c.ticks⟩) honce hi (by rw [hheap]; exact hone)
    rw [hheap] at heq
    exact ⟨not_mem_of_taken h hi hone, heq⟩
  · exact hperm
  · exact (h.listExpiredCb c).consistent.sorted

/-- In every reachable state and for all readings of the clock, a call cuts the set in two,
and what it delivers are the callbacks that the timers were added with. -/
theorem listExpiredCb_splits {now : Millis} {tr : List (Move TimerManager TimerOp)}
    (hr : Run system (.new now) tr m) (c : ExpireCall) : ∃ batch rest, m.Splits c batch rest ∧
      (∀ i ∈ batch, ∃ mv ∈ tr, ∃ call, mv.act = .add_timer call ∧ mv.pre.created = i ∧
        (m.heap i).m_cb = call.cb) ∧
      ((∀ mv ∈ tr, mv.act.HasCallback) → ∀ i ∈ batch, (m.heap i).m_cb.isSome) := by
  have hm := reachable_inv ⟨_, tr, ⟨now, rfl⟩, hr⟩
  refine ⟨_, _, hm.splits c, fun i hi => ?_, fun hcb i hi => ?_⟩
  · exact (run_callback hr (new_inv now) (taken_mem hi)).resolve_left fun hold => nomatch hold.1
  · exact run_callback_isSome hr hcb i (taken_mem hi)

theorem listExpiredCb_splits_two : ∃ tr m, Run system (.new 0) tr m ∧
    tr.map Move.act = twoTimers.take 3 ∧
    ∃ batch rest, m.Splits ⟨[], 15, false, 48, 16, [~~~0]⟩ batch rest ∧ batch ++ rest = [0, 1] ∧
      ∀ i ∈ batch, (m.heap i).m_cb.isSome := by
  have hrun : (traceAll next (.new 0) (twoTimers.take 3)).map (fun r => r.2.m_timers) =
      some [0, 1] := by decide +kernel
  obtain ⟨tr, m, hr, hacts, htimers⟩ := Run.exists_of_traceAll next next_sound _ hrun
  obtain ⟨batch, rest, hsplit, _, hsome⟩ := listExpiredCb_splits hr ⟨[], 15, false, 48, 16, [~~~0]⟩
  refine ⟨tr, m, hr, hacts, batch, rest, hsplit, hsplit.timers.symm.trans htimers, hsome ?_⟩
  intro mv hmv
  have hall : (twoTimers.take 3).all fun op => op.HasCallback := by decide
  exact of_decide_eq_true (List.all_eq_true.mp hall _ (hacts ▸ List.mem_map_of_mem hmv))

/-- `add_timer` takes an empty callback, and `listExpiredCb` delivers it. -/
theorem empty_callback_delivered : ∃ tr m, Run system (.new 0) tr m ∧
    tr.map Move.act = [.add_timer ⟨16, 5, none, false, 10⟩] ∧
    (m.listExpiredCb ⟨[], 15, false, 48, 15, []⟩).cbs = [none] := by
  have hrun : (traceAll next (.new 0) [.add_timer ⟨16, 5, none, false, 10⟩]).map (fun r =>
      (r.2.listExpiredCb ⟨[], 15, false, 48, 15, []⟩).cbs) = some [none] := by decide +kernel
  obtain ⟨tr, m, hr, hacts, hcbs⟩ := Run.exists_of_traceAll next next_sound _ hrun
  exact ⟨tr, m, hr, hacts, hcbs⟩

end TimerManager

end FiberAsync
