import FiberAsync.DueTimers
import FiberAsync.TimedWorkers

/-!
# The timeout of `epoll_wait`

`idle()` narrows the 64 bits of `getNextTimer` to an `int` before it takes the
minimum with `MAX_TIMEOUT`. A remaining time of 2^31 ms and more loses its upper
bits there, and unless the lower ones happen to give 5000 or more the wait is
too short, or, below zero, without end.
-/

namespace FiberAsync

set_option autoImplicit false

open Runs

namespace Wait

variable {since r : Millis}

/-- The remaining time, which is not the mark of an empty set, is below
`MAX_TIMEOUT` as an `int` although it is not below 2^31. -/
def Narrows (r : Millis) : Prop :=
  2 ^ 31 ≤ r.toNat ∧ r ≠ ~~~0 ∧ (r.toNat % 2 ^ 32 < 5000 ∨ 2 ^ 31 ≤ r.toNat % 2 ^ 32)

instance (r : Millis) : Decidable (Narrows r) := inferInstanceAs (Decidable (_ ∧ _ ∧ _))

theorem ofNext_empty (since : Millis) : (ofNext since (~~~0)).timeout = 5000 := rfl

/-- The minimum is the one of the 64-bit numbers unless the narrowing shows. -/
theorem ofNext_eq_min_iff :
    (ofNext since r).timeout = min (r.toNat : Int) MAX_TIMEOUT ↔ ¬ Narrows r := by
  unfold MAX_TIMEOUT Narrows
  by_cases hmark : r = ~~~0
  · subst r
    exact iff_of_true rfl fun h => h.2.1 rfl
  · have htimeout : (ofNext since r).timeout = min (r.setWidth 32).toInt 5000 := by
      unfold ofNext MAX_TIMEOUT
      rw [if_neg hmark]
    have hint := BitVec.toInt_eq_toNat_cond (r.setWidth 32)
    rw [BitVec.toNat_setWidth] at hint
    have hlt := r.isLt
    rw [htimeout, and_iff_right (show r ≠ ~~~0 from hmark)]
    split at hint <;> omega

end Wait

namespace TimerManager

variable {m : TimerManager} {now : Millis}

/-- The timeout of `epoll_wait` after a `getNextTimer` that reads the clock as `now`. -/
def epollTimeout (m : TimerManager) (now : Millis) : Int :=
  (Wait.ofNext now (m.getNextTimer now).1).timeout

/-- The wait is bounded and does not miss the earliest deadline. -/
structure WaitsForNext (m : TimerManager) (now : Millis) : Prop where
  nonneg : 0 ≤ m.epollTimeout now
  bounded : m.epollTimeout now ≤ 5000
  future : ∀ i ∈ m.m_timers, (∀ j ∈ m.m_timers, (m.heap i).m_next ≤ (m.heap j).m_next) →
    now < (m.heap i).m_next →
    m.epollTimeout now = min (((m.heap i).m_next.toNat : Int) - now.toNat) 5000
  due : m.epollTimeout now = 0 ↔ ∃ i ∈ m.m_timers, (m.heap i).m_next ≤ now
  none : m.m_timers = [] → m.epollTimeout now = 5000

/-- The earliest deadline lies ahead by a time that does not survive as an `int`. -/
def NarrowsNext (m : TimerManager) (now : Millis) : Prop :=
  ∃ first ∈ m.m_timers.head?, now < (m.heap first).m_next ∧
    Wait.Narrows ((m.heap first).m_next - now)

theorem toNat_remaining {next : Millis} (h : now < next) :
    ((next - now).toNat : Int) = (next.toNat : Int) - now.toNat := by
  have hsub : (next - now).toNat = next.toNat - now.toNat :=
    BitVec.toNat_sub_of_le (BitVec.le_of_lt h)
  rw [BitVec.lt_def] at h
  omega

section Sorted

variable (h : StoreInv m [])
include h

theorem StoreInv.epollTimeout_of_due (hdue : ∃ i ∈ m.m_timers, (m.heap i).m_next ≤ now) :
    m.epollTimeout now = 0 := by
  unfold epollTimeout
  rw [h.getNextTimer_eq_zero_iff.mpr hdue]
  rfl

omit h in
theorem epollTimeout_of_empty (hempty : m.m_timers = []) : m.epollTimeout now = 5000 := by
  unfold epollTimeout getNextTimer
  simp only [hempty]
  exact Wait.ofNext_empty now

omit h in
theorem epollTimeout_of_future {first : TimerPtr} {rest : List TimerPtr}
    (hset : m.m_timers = first :: rest) (hlt : now < (m.heap first).m_next) :
    m.epollTimeout now = (Wait.ofNext now ((m.heap first).m_next - now)).timeout := by
  unfold epollTimeout getNextTimer
  simp only [hset]
  rw [if_neg (BitVec.not_le.mpr hlt)]

theorem StoreInv.earliest_eq {first i : TimerPtr} {rest : List TimerPtr}
    (hset : m.m_timers = first :: rest) (hi : i ∈ m.m_timers)
    (hleast : ∀ j ∈ m.m_timers, (m.heap i).m_next ≤ (m.heap j).m_next) :
    (m.heap i).m_next = (m.heap first).m_next := by
  have hfirst : first ∈ m.m_timers := hset.symm ▸ List.mem_cons_self
  have hle := hleast first hfirst
  have hge := Timer.m_next_le_of_key_le (h.first_le hset hi)
  exact BitVec.le_antisymm hle hge

theorem StoreInv.waitsForNext (hwide : ¬ m.NarrowsNext now) : m.WaitsForNext now := by
  by_cases hdue : ∃ i ∈ m.m_timers, (m.heap i).m_next ≤ now
  · have hzero := h.epollTimeout_of_due hdue
    obtain ⟨j, hj, hle⟩ := hdue
    refine ⟨hzero.ge, hzero.le.trans (by decide), fun i hi hleast hlt => ?_,
      iff_of_true hzero ⟨j, hj, hle⟩, fun hempty => ?_⟩
    · have hbefore := BitVec.le_trans (hleast j hj) hle
      exact absurd hlt (BitVec.not_lt.mpr hbefore)
    · rw [hempty] at hj
      cases hj
  cases hset : m.m_timers with
  | nil =>
    have hmax : m.epollTimeout now = 5000 := epollTimeout_of_empty hset
    refine ⟨by omega, by omega, fun i hi => ?_, iff_of_false (by omega) hdue, fun _ => hmax⟩
    rw [hset] at hi
    cases hi
  | cons first rest =>
    have hfirst : first ∈ m.m_timers := hset.symm ▸ List.mem_cons_self
    have hlt : now < (m.heap first).m_next :=
      BitVec.not_le.mp fun hle => hdue ⟨first, hfirst, hle⟩
    have hmin : m.epollTimeout now =
        min (((m.heap first).m_next.toNat : Int) - now.toNat) 5000 := by
      rw [epollTimeout_of_future hset hlt, ← toNat_remaining hlt]
      refine Wait.ofNext_eq_min_iff.mpr fun hnarrow => hwide ⟨first, ?_, hlt, hnarrow⟩
      rw [hset]
      rfl
    have hpos := BitVec.lt_def.mp hlt
    refine ⟨by omega, by omega, fun i hi hleast _ => ?_, iff_of_false (by omega) hdue,
      fun hempty => ?_⟩
    · rw [h.earliest_eq hset hi hleast]
      exact hmin
    · rw [hset] at hempty
      cases hempty

end Sorted

/-- For every reachable set of timers and every reading of the clock. -/
theorem waitsForNext_iff (hm : Reachable system m) (now : Millis) :
    m.WaitsForNext now ↔ ¬ m.NarrowsNext now := by
  have hinv := reachable_inv hm
  constructor
  · intro hwaits hnarrows
    obtain ⟨first, hhead, hlt, hnarrow⟩ := hnarrows
    obtain ⟨rest, hset⟩ : ∃ rest, m.m_timers = first :: rest := List.head?_eq_some_iff.mp hhead
    have hfirst : first ∈ m.m_timers := hset.symm ▸ List.mem_cons_self
    have hleast : ∀ j ∈ m.m_timers, (m.heap first).m_next ≤ (m.heap j).m_next :=
      fun j hj => Timer.m_next_le_of_key_le (hinv.first_le hset hj)
    have hmin := hwaits.future first hfirst hleast hlt
    rw [epollTimeout_of_future hset hlt, ← toNat_remaining hlt] at hmin
    exact Wait.ofNext_eq_min_iff.mp hmin hnarrow
  · exact hinv.waitsForNext

theorem waitsForNext_iff_oneTimer : ∃ tr m, Run system (.new 7200000) tr m ∧
    tr.map Move.act = oneTimer ∧ (m.WaitsForNext 7200000 ↔ ¬ m.NarrowsNext 7200000) ∧
    m.epollTimeout 7200000 = 100 := by
  have hrun : (traceAll next (.new 7200000) oneTimer).map
      (fun r => r.2.epollTimeout 7200000) = some 100 := by decide +kernel
  obtain ⟨tr, m, hr, hacts, htimeout⟩ := Run.exists_of_traceAll next next_sound _ hrun
  exact ⟨tr, m, hr, hacts, waitsForNext_iff ⟨_, tr, ⟨_, rfl⟩, hr⟩ _, htimeout⟩

/-- A timer of 2^31 ms makes the wait endless, one of 2^32 ms makes it a busy loop. -/
theorem long_timer_narrowed : (∃ tr m, Run system (.new 7200000) tr m ∧
      tr.map Move.act = [.add_timer ⟨64, 0x80000000, some 0, false, 7200000⟩] ∧
      m.epollTimeout 7200000 = -2147483648 ∧ ¬ m.WaitsForNext 7200000) ∧
    ∃ tr m, Run system (.new 7200000) tr m ∧
      tr.map Move.act = [.add_timer ⟨64, 0x100000000, some 0, false, 7200000⟩] ∧
      (∀ i ∈ m.m_timers, 7200000 < (m.heap i).m_next) ∧
      m.epollTimeout 7200000 = 0 ∧ ¬ m.WaitsForNext 7200000 := by
  constructor
  · have hrun : (traceAll next (.new 7200000)
        [.add_timer ⟨64, 0x80000000, some 0, false, 7200000⟩]).map
        (fun r => r.2.epollTimeout 7200000) = some (-2147483648) := by decide +kernel
    obtain ⟨tr, m, hr, hacts, htimeout⟩ := Run.exists_of_traceAll next next_sound _ hrun
    refine ⟨tr, m, hr, hacts, htimeout, fun hwaits => ?_⟩
    have hnonneg := hwaits.nonneg
    rw [htimeout] at hnonneg
    exact absurd hnonneg (by decide)
  · have hrun : (traceAll next (.new 7200000)
        [.add_timer ⟨64, 0x100000000, some 0, false, 7200000⟩]).map
        (fun r => (r.2.epollTimeout 7200000,
          decide (∀ i ∈ r.2.m_timers, 7200000 < (r.2.heap i).m_next))) = some (0, true) := by
      decide +kernel
    obtain ⟨tr, m, hr, hacts, hobs⟩ := Run.exists_of_traceAll next next_sound _ hrun
    obtain ⟨htimeout, hfuture⟩ := Prod.mk.inj hobs
    have hfuture := of_decide_eq_true hfuture
    refine ⟨tr, m, hr, hacts, hfuture, htimeout, fun hwaits => ?_⟩
    obtain ⟨i, hi, hle⟩ := hwaits.due.mp htimeout
    exact BitVec.not_lt.mpr hle (hfuture i hi)

end TimerManager

end FiberAsync
