import FiberAsync.TimerDeadlines

/-!
# Which timers a call of `listExpiredCb` delivers

The batch ends at `upper_bound(now_timer)`, and the comparator breaks the tie of
equal deadlines by address. A timer that is due at the very reading of the clock
is therefore delivered only if its object does not lie above `now_timer`, while
the early return and `getNextTimer` count it as due.
-/

namespace FiberAsync

set_option autoImplicit false

open Runs

namespace TimerManager

variable {m m' : TimerManager} {c c' : ExpireCall} {i : TimerPtr}

/-- The call is made on the manager by one thread, and takes no rollover for it. -/
structure Calls (m : TimerManager) (c : ExpireCall) : Prop where
  sawEmpty : c.sawEmpty = m.m_timers.isEmpty
  steady : (m.detectClockRollover c.now_ms).1 = false

/-- The same timers with the same deadlines, wherever their objects lie. -/
structure SameDeadlines (m m' : TimerManager) : Prop where
  timers : m'.m_timers.Perm m.m_timers
  m_next : ∀ i ∈ m.m_timers, (m'.heap i).m_next = (m.heap i).m_next

/-- The call delivers every timer that is due. `getNextTimer` returns zero exactly
if the call delivers a callback, and no other addresses would deliver more. -/
structure DeliversDue (m : TimerManager) (c : ExpireCall) : Prop where
  due : ∀ i ∈ m.m_timers, (m.heap i).m_next ≤ c.now_ms → i ∈ (m.takeExpired c).1
  asks : (m.getNextTimer c.now_ms).1 = 0 ↔ (m.listExpiredCb c).cbs ≠ c.cbs
  alike : ∀ m' c', Reachable system m' → m'.Calls c' → m.SameDeadlines m' →
    c'.now_ms = c.now_ms → ∀ i ∈ (m'.takeExpired c').1, i ∈ (m.takeExpired c).1

/-- A timer whose deadline is the reading itself lies above `now_timer`. -/
def TiedAbove (m : TimerManager) (c : ExpireCall) : Prop :=
  ∃ i ∈ m.m_timers, (m.heap i).m_next = c.now_ms ∧ c.nowAddress < (m.heap i).address

instance (m : TimerManager) (c : ExpireCall) : Decidable (m.TiedAbove c) :=
  List.decidableBEx _ _

/-- A call takes out the timers up to `now_timer` in the order of the set. -/
theorem StoreInv.mem_takeExpired_iff (h : StoreInv m []) (hc : m.Calls c) :
    i ∈ (m.takeExpired c).1 ↔
      i ∈ m.m_timers ∧ m.key i ≤ (Timer.ofNext c.nowAddress c.now_ms).key := by
  have habove : ∀ e, Timer.Comparator (some (Timer.ofNext c.nowAddress c.now_ms))
      (some (m.heap e)) = true ↔ (Timer.ofNext c.nowAddress c.now_ms).key < m.key e :=
    fun e => Timer.comparator_iff _ _
  unfold takeExpired
  rw [hc.sawEmpty]
  cases heq : m.m_timers with
  | nil => simp
  | cons first rest =>
    simp only [List.isEmpty_cons, Bool.false_eq_true, if_false, hc.steady, not_false_eq_true,
      true_and]
    split
    case isTrue hlate =>
      -- the early return: the first deadline is not reached
      refine iff_of_false List.not_mem_nil ?_
      rintro ⟨hi, hle⟩
      have hfirst := h.first_le heq (heq.symm ▸ hi)
      have hnext := Timer.m_next_le_of_key_le (le_trans hfirst hle)
      exact absurd hlate (BitVec.not_lt.mpr hnext)
    case isFalse =>
      rw [← heq]
      exact h.sorted.mem_upperBound_iff habove

/-- Nothing is delivered before its deadline, and of what is due only the timers tied above. -/
theorem StoreInv.mem_takeExpired_iff_due (h : StoreInv m []) (hc : m.Calls c) :
    i ∈ (m.takeExpired c).1 ↔ i ∈ m.m_timers ∧ (m.heap i).m_next ≤ c.now_ms ∧
      ¬ ((m.heap i).m_next = c.now_ms ∧ c.nowAddress < (m.heap i).address) := by
  rw [h.mem_takeExpired_iff hc, key, Timer.key_le_iff, and_congr_right_iff]
  intro _
  change (m.heap i).m_next < c.now_ms ∨
    (m.heap i).m_next = c.now_ms ∧ (m.heap i).address ≤ c.nowAddress ↔ _
  rw [BitVec.lt_def, BitVec.le_def, ← BitVec.toNat_inj]
  omega

theorem StoreInv.getNextTimer_eq_zero_iff (h : StoreInv m []) {now : Millis} :
    (m.getNextTimer now).1 = 0 ↔ ∃ i ∈ m.m_timers, (m.heap i).m_next ≤ now := by
  unfold getNextTimer
  cases heq : m.m_timers with
  | nil => simp
  | cons first rest =>
    dsimp only
    by_cases hdue : now ≥ (m.heap first).m_next
    · rw [if_pos hdue]
      exact iff_of_true rfl ⟨first, List.mem_cons_self, hdue⟩
    · rw [if_neg hdue]
      have hlt := BitVec.not_le.mp hdue
      refine iff_of_false (fun hzero => ?_) ?_
      · have hsame : (m.heap first).m_next = now := by
          rw [BitVec.sub_eq_iff_eq_add.mp hzero, zero_add]
        exact hdue (BitVec.le_of_eq hsame)
      · rintro ⟨i, hi, hle⟩
        have hfirst := Timer.m_next_le_of_key_le (h.first_le heq (heq.symm ▸ hi))
        exact hdue (BitVec.le_trans hfirst hle)

theorem StoreInv.cbs_ne_iff (h : StoreInv m []) :
    (m.listExpiredCb c).cbs ≠ c.cbs ↔ ∃ i, i ∈ (m.takeExpired c).1 := by
  rw [listExpiredCb_cbs h c, Ne, List.append_right_eq_self, List.map_eq_nil_iff]
  exact ⟨List.exists_mem_of_ne_nil _, fun ⟨_, hi⟩ => List.ne_nil_of_mem hi⟩

/-- Without a tie above, the batch is what is due, and no address matters. -/
theorem StoreInv.deliversDue (h : StoreInv m []) (hc : m.Calls c) (htied : ¬ m.TiedAbove c) :
    m.DeliversDue c := by
  have hmem : ∀ i, i ∈ (m.takeExpired c).1 ↔
      i ∈ m.m_timers ∧ (m.heap i).m_next ≤ c.now_ms := by
    intro i
    rw [h.mem_takeExpired_iff_due hc]
    exact ⟨fun hi => ⟨hi.1, hi.2.1⟩, fun hi => ⟨hi.1, hi.2, fun htie => htied ⟨i, hi.1, htie⟩⟩⟩
  refine ⟨fun i hi hle => (hmem i).mpr ⟨hi, hle⟩, ?_, fun m' c' hm' hc' hsame hnow i hi => ?_⟩
  · rw [h.getNextTimer_eq_zero_iff, h.cbs_ne_iff]
    exact exists_congr fun i => (hmem i).symm
  · obtain ⟨hi', hle, _⟩ := ((reachable_inv hm').mem_takeExpired_iff_due hc').mp hi
    have hi := hsame.timers.mem_iff.mp hi'
    rw [hsame.m_next i hi, hnow] at hle
    exact (hmem i).mpr ⟨hi, hle⟩

/-- In any reachable state and for any addresses: a call that sees no rollover
delivers the due timers exactly if none of them is tied above `now_timer`. -/
theorem deliversDue_iff (hm : Reachable system m) (hc : m.Calls c) :
    m.DeliversDue c ↔ ¬ m.TiedAbove c := by
  have hinv := reachable_inv hm
  constructor
  · rintro hdue ⟨i, hi, hnext, haddress⟩
    have htaken := hdue.due i hi (BitVec.le_of_eq hnext)
    exact ((hinv.mem_takeExpired_iff_due hc).mp htaken).2.2 ⟨hnext, haddress⟩
  · exact hinv.deliversDue hc

instance (m : TimerManager) (c : ExpireCall) : Decidable (m.Calls c) :=
  decidable_of_iff (c.sawEmpty = m.m_timers.isEmpty ∧ (m.detectClockRollover c.now_ms).1 = false)
    ⟨fun h => ⟨h.1, h.2⟩, fun h => ⟨h.sawEmpty, h.steady⟩⟩

/-- One timer, due in a tenth of a second, whose object lies at the address 64. -/
def oneTimer : List TimerOp := [.add_timer ⟨64, 100, some 0, false, 7200000⟩]

/-- A call at the moment when it is due. -/
def callAt (nowAddress : Nat) : ExpireCall := ⟨[], 7200100, false, nowAddress, 7200100, []⟩

theorem deliversDue_iff_below : ∃ tr m, Run system (.new 7200000) tr m ∧
    tr.map Move.act = oneTimer ∧ m.m_timers = [0] ∧ m.Calls (callAt 80) ∧
    (m.DeliversDue (callAt 80) ↔ ¬ m.TiedAbove (callAt 80)) ∧ ¬ m.TiedAbove (callAt 80) := by
  have hrun : (traceAll next (.new 7200000) oneTimer).map (fun r =>
      (r.2.m_timers, decide (r.2.Calls (callAt 80)), decide (r.2.TiedAbove (callAt 80)))) =
      some ([0], true, false) := by decide +kernel
  obtain ⟨tr, m, hr, hacts, hobs⟩ := Run.exists_of_traceAll next next_sound _ hrun
  simp only [Prod.mk.injEq] at hobs
  obtain ⟨htimers, hcalls, htied⟩ := hobs
  have hc := of_decide_eq_true hcalls
  exact ⟨tr, m, hr, hacts, htimers, hc, deliversDue_iff ⟨_, tr, ⟨_, rfl⟩, hr⟩ hc,
    of_decide_eq_false htied⟩

/-- The same call with `now_timer` at the address 48 delivers nothing, though
`getNextTimer` returns zero. -/
theorem due_timer_left : ∃ tr m, Run system (.new 7200000) tr m ∧
    tr.map Move.act = oneTimer ∧ m.Calls (callAt 48) ∧ (m.getNextTimer 7200100).1 = 0 ∧
    (m.takeExpired (callAt 48)).1 = [] ∧ (m.takeExpired (callAt 80)).1 = [0] ∧
    ¬ m.DeliversDue (callAt 48) := by
  have hrun : (traceAll next (.new 7200000) oneTimer).map (fun r =>
      ((r.2.m_timers, (r.2.heap 0).m_next), decide (r.2.Calls (callAt 48)),
        (r.2.getNextTimer 7200100).1, (r.2.takeExpired (callAt 48)).1,
        (r.2.takeExpired (callAt 80)).1)) =
      some (([0], 7200100), true, 0, [], [0]) := by decide +kernel
  obtain ⟨tr, m, hr, hacts, hobs⟩ := Run.exists_of_traceAll next next_sound _ hrun
  simp only [Prod.mk.injEq] at hobs
  obtain ⟨⟨htimers, hnext⟩, hcalls, hasks, hnone, hall⟩ := hobs
  refine ⟨tr, m, hr, hacts, of_decide_eq_true hcalls, hasks, hnone, hall, fun hdue => ?_⟩
  have hi : 0 ∈ m.m_timers := by rw [htimers]; exact List.mem_cons_self
  have htaken := hdue.due 0 hi (BitVec.le_of_eq hnext)
  rw [hnone] at htaken
  cases htaken

end TimerManager

end FiberAsync
