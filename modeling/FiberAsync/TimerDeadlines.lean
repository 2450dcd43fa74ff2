import FiberAsync.TimerThreads

/-!
# Deadlines and overtaken readings

A thread that is overtaken between its reading and the write lock finds a later
reading in `m_previousTime`. The clock then seems to have run backwards, and
within an hour after its zero the test for a rollover takes that for one,
because `m_previousTime - 60 * 60 * 1000` wraps around. No timer fires early
exactly as long as this does not happen.
-/

namespace FiberAsync

set_option autoImplicit false

open Runs TimerManager

namespace TimerThreads

/-- A call takes out for delivery, and delivers, only callbacks of timers whose
deadline the clock has reached. -/
def OnTime (s : TimerThreads) : TimerAct → Prop
  | .expire t nowAddress => ∀ cbs now_ms, s.pc t = .expiring cbs now_ms →
    ∀ i ∈ (s.manager.takeExpired (s.expireCall cbs now_ms nowAddress)).1,
      (s.manager.heap i).m_next ≤ s.clock
  | .deliver t => ∀ cbs i rest, s.pc t = .delivering cbs (i :: rest) →
    (s.manager.heap i).m_next ≤ s.clock
  | _ => True

/-- A reading is used after a later one has been recorded, less than an hour
after the zero of the clock or more than an hour before the recorded one, while
a pending timer is not due. -/
def Overtaken (s : TimerThreads) : TimerAct → Prop
  | .expire t _ => ∃ cbs now_ms, s.pc t = .expiring cbs now_ms ∧
    now_ms < s.manager.m_previousTime ∧
    (s.manager.m_previousTime.toNat < 3600000 ∨
      now_ms.toNat + 3600000 < s.manager.m_previousTime.toNat) ∧
    ∃ i ∈ s.manager.m_timers, s.clock < (s.manager.heap i).m_next
  | _ => False

end TimerThreads

namespace TimerManager

variable {m : TimerManager} {c : ExpireCall} {i : TimerPtr}

theorem detectClockRollover_iff (m : TimerManager) (now_ms : Millis) :
    (m.detectClockRollover now_ms).1 = true ↔ now_ms < m.m_previousTime ∧
      (m.m_previousTime.toNat < 3600000 ∨ now_ms.toNat + 3600000 < m.m_previousTime.toNat) := by
  have hsub : (m.m_previousTime - 60 * 60 * 1000).toNat =
      (2 ^ 64 - 3600000 + m.m_previousTime.toNat) % 2 ^ 64 := BitVec.toNat_sub _ _
  have hlt := m.m_previousTime.isLt
  unfold detectClockRollover
  simp only [decide_eq_true_eq, BitVec.lt_def, hsub]
  omega

theorem takeExpired_of_rollover (hc : c.sawEmpty = false)
    (h : (m.detectClockRollover c.now_ms).1 = true) : (m.takeExpired c).1 = m.m_timers := by
  unfold takeExpired
  rw [hc]
  split
  · rename_i hs
    cases hs
  · split
    · rename_i hempty
      exact hempty.symm
    · simp only [h]
      rfl

theorem le_of_takeExpired (h : (m.detectClockRollover c.now_ms).1 = false)
    (hi : i ∈ (m.takeExpired c).1) : (m.heap i).m_next ≤ c.now_ms := by
  unfold takeExpired at hi
  split at hi
  · cases hi
  split at hi
  · cases hi
  simp only [h] at hi
  split at hi
  · cases hi
  · have hcomp := OrderedSet.not_above_of_mem hi
    have hlt : ¬ (Timer.ofNext c.nowAddress c.now_ms).key < (m.heap i).key := by
      intro hlt
      have habove := (Timer.comparator_iff _ _).mpr hlt
      exact Bool.false_ne_true (hcomp.symm.trans habove)
    exact Timer.m_next_le_of_key_le (not_lt.mp hlt)

end TimerManager

namespace TimerThreads

variable {s s' : TimerThreads} {a : TimerAct} {t u : Tid} {pc : TimerPc}

def ReadingsOk (s : TimerThreads) : Prop :=
  ∀ t now_ms, (s.pc t).now_ms = some now_ms → now_ms ≤ s.clock

theorem initial_readingsOk (start : Millis) : (initial start).ReadingsOk :=
  fun _ _ h => by cases h

theorem ReadingsOk.setPc (h : s.ReadingsOk)
    (hpc : ∀ now_ms, pc.now_ms = some now_ms → now_ms ≤ s.clock) : (s.setPc t pc).ReadingsOk := by
  intro u now_ms hu
  by_cases ht : u = t
  · subst u
    rw [setPc_self] at hu
    exact hpc now_ms hu
  · rw [setPc_of_ne ht] at hu
    exact h u now_ms hu

theorem ReadingsOk.lapse (h : s.ReadingsOk) (t : Tid) (pc : TimerPc) (hpc : pc.now_ms = none) :
    (s.setPc t pc).ReadingsOk := by
  apply h.setPc
  intro now_ms hnow
  rw [hpc] at hnow
  cases hnow

theorem ReadingsOk.step (h : s.ReadingsOk) (hs : s.next a = some s') : s'.ReadingsOk := by
  cases stepped hs with
  | tick hle => exact fun t now_ms hpc => BitVec.le_trans (h t now_ms hpc) hle
  | add_timer hpc => exact h.lapse _ _ rfl
  | listExpiredCb hpc =>
    apply h.setPc
    intro now_ms hnow
    cases hnow
    exact BitVec.le_refl _
  | check hpc hw hor =>
    apply h.setPc
    intro now_ms hnow
    apply h _ now_ms
    rw [hpc]
    rcases hor with rfl | rfl
    · cases hnow
    · exact hnow
  | add hpc hw hm | restart hpc hw hm =>
    have hm' : ReadingsOk { s with manager := _ } := h
    exact hm'.lapse _ _ rfl
  | expire hpc hw => exact h.lapse _ (.delivering _ _) rfl
  | deliver hpc => exact h.lapse _ (.delivering _ _) rfl
  | leave hpc => exact h.lapse _ .out rfl
  | kept | locked => exact h
  | compared hpc => exact h.lapse _ _ rfl

/-- The timers that a call has still to deliver are due. -/
def DueOk (s : TimerThreads) : Prop :=
  ∀ t cbs rest, s.pc t = .delivering cbs rest →
    ∀ i ∈ rest, (s.manager.heap i).m_next ≤ s.clock

theorem initial_dueOk (start : Millis) : (initial start).DueOk := fun _ _ _ h => by cases h

/-- An expired batch is due when the reading is not taken for a rollover, and
the rest of a batch that is being delivered has been due from its start. -/
theorem onTime_iff (h : s.ReadingsOk) (hdue : s.DueOk) : s.OnTime a ↔ ¬ s.Overtaken a := by
  cases a with
  | expire t nowAddress =>
    constructor
    · intro hon hover
      obtain ⟨cbs, now_ms, hpc, hlt, hwrap, i, hi, hearly⟩ := hover
      have hroll := (s.manager.detectClockRollover_iff now_ms).mpr ⟨hlt, hwrap⟩
      have hall : (s.manager.takeExpired (s.expireCall cbs now_ms nowAddress)).1 =
          s.manager.m_timers := takeExpired_of_rollover rfl hroll
      have hle := hon cbs now_ms hpc i (hall ▸ hi)
      exact absurd hearly (Nat.not_lt.mpr hle)
    · intro hover cbs now_ms hpc i hi
      cases hroll : (s.manager.detectClockRollover now_ms).1 with
      | false =>
        have hle := le_of_takeExpired (c := s.expireCall cbs now_ms nowAddress) hroll hi
        exact BitVec.le_trans hle (h t now_ms (by rw [hpc]; rfl))
      | true =>
        obtain ⟨hlt, hwrap⟩ := (s.manager.detectClockRollover_iff now_ms).mp hroll
        have hmem : i ∈ s.manager.m_timers := by
          rw [← (s.manager.takeExpired_spec _).timers]
          exact List.mem_append_left _ hi
        apply Nat.not_lt.mp
        intro hearly
        exact hover ⟨cbs, now_ms, hpc, hlt, hwrap, i, hmem, hearly⟩
  | deliver t =>
    constructor
    · exact fun _ hover => hover
    · intro _ cbs i rest hpc
      exact hdue t cbs _ hpc i List.mem_cons_self
  | _ => exact ⟨fun _ hover => hover, fun _ => trivial⟩

theorem SectionOk.dueOk_of_free (h : s.SectionOk) (hw : s.writer = none) : s.DueOk :=
  fun t cbs rest hpc => absurd hpc (h.not_delivering hw t cbs rest)

theorem DueOk.step (hdue : s.DueOk) (hr : s.ReadingsOk) (h : s.SectionOk)
    (hover : ¬ s.Overtaken a) (hs : s.next a = some s') : s'.DueOk := by
  have h' := h.step hs
  have hon := (onTime_iff hr hdue).mpr hover
  cases stepped hs with
  | tick hle => exact fun t cbs rest hpc i hi => BitVec.le_trans (hdue t cbs rest hpc i hi) hle
  | kept => exact hdue
  | add_timer hpc | listExpiredCb hpc | compared hpc =>
    intro u cbs rest hu
    apply hdue u cbs rest
    rwa [setPc_of_ne] at hu
    intro hut
    rw [hut, setPc_self] at hu
    cases hu
  | check hpc hw | add hpc hw | restart hpc hw | locked hw => exact h'.dueOk_of_free hw
  | expire hpc hw =>
    rename_i t nowAddress cbs now_ms
    intro u cbs' rest hu i hi
    by_cases hut : u = t
    · rw [hut] at hu
      cases setPc_self.symm.trans hu
      change ((s.manager.takeExpired _).2.heap i).m_next ≤ s.clock
      rw [(s.manager.takeExpired_spec _).heap]
      exact hon cbs now_ms hpc i hi
    · exact absurd ((setPc_of_ne hut).symm.trans hu) (h.not_delivering hw u cbs' rest)
  | deliver hpc =>
    rename_i t cbs i rest
    intro u cbs' rest' hu j hj
    by_cases hut : u = t
    · rw [hut] at hu
      cases setPc_self.symm.trans hu
      have hne : j ≠ i := fun heq => (List.nodup_cons.mp (h.nodup hpc)).1 (heq ▸ hj)
      change ((Expiry.deliver ⟨s.manager, cbs, s.clock, []⟩ i).manager.heap j).m_next ≤ s.clock
      rw [Expiry.deliver_heap hne]
      exact hdue t cbs _ hpc j (List.mem_cons_of_mem i hj)
    · -- two threads are not in the loop at once
      have hwriter := h.exclusive u cbs' rest' ((setPc_of_ne hut).symm.trans hu)
      rw [h.exclusive t cbs _ hpc] at hwriter
      exact absurd (Option.some.inj hwriter).symm hut
  | leave hpc => exact h'.dueOk_of_free rfl

/-- In a run, from any start of the clock, no call delivers the callback of a
timer that is not due exactly when no thread is overtaken. -/
theorem onTime_run_iff {tr : List (Move TimerThreads TimerAct)} {start : Millis}
    (h : Run system (initial start) tr s) :
    (∀ m ∈ tr, m.pre.OnTime m.act) ↔ ∀ m ∈ tr, ¬ m.pre.Overtaken m.act := by
  apply h.forall_iff_guard (fun s => s.ReadingsOk ∧ s.SectionOk ∧ s.DueOk)
    (fun s a => ¬ s.Overtaken a)
  · intro s a s' hs hover hstep
    obtain ⟨hr, hsection, hdue⟩ := hs
    exact ⟨hr.step hstep, hsection.step hstep, hdue.step hr hsection hover hstep⟩
  · exact fun hs _ => onTime_iff hs.1 hs.2.2
  · exact ⟨initial_readingsOk start, initial_sectionOk start, initial_dueOk start⟩

/-- The step takes no reading for a rollover. -/
def inOrder (s : TimerThreads) : TimerAct → Bool
  | .expire t _ =>
    match (s.pc t).now_ms with
    | some now_ms => !(s.manager.detectClockRollover now_ms).1
    | none => true
  | _ => true

theorem not_overtaken (h : s.inOrder a = true) : ¬ s.Overtaken a := by
  cases a with
  | expire t nowAddress =>
    intro hover
    obtain ⟨cbs, now_ms, hpc, hlt, hwrap, _⟩ := hover
    have hroll := (s.manager.detectClockRollover_iff now_ms).mpr ⟨hlt, hwrap⟩
    unfold inOrder at h
    simp [hpc, TimerPc.now_ms, hroll] at h
  | _ => exact fun hover => hover

/-- Two hours after the zero of the clock, thread 2 overtakes thread 1 with a later
reading and delivers the timer that is due; the other one is left to wait. -/
def overtaken : List TimerAct :=
  [.add_timer 0 16 5 (some 0) false, .add 0, .add_timer 0 32 1000000 (some 1) false, .add 0,
    .tick 7200005, .listExpiredCb 1 [], .check 1, .tick 7200006, .listExpiredCb 2 [], .check 2,
    .expire 2 48, .deliver 2, .deliver 2, .expire 1 64]

theorem onTime_run_iff_overtaken : ∃ tr s, Run system (initial 7200000) tr s ∧
    tr.map Move.act = overtaken ∧ s.manager.m_timers.length = 1 ∧
    s.pc 1 = .delivering [] [] ∧ ∀ m ∈ tr, m.pre.OnTime m.act := by
  have hrun : (traceAll next (initial 7200000) overtaken).map (fun r =>
      (r.2.manager.m_timers.length, r.2.pc 1, r.1.all fun m => m.pre.inOrder m.act)) =
      some (1, .delivering [] [], true) := by decide +kernel
  obtain ⟨tr, s, hr, hacts, hobs⟩ := Run.exists_of_traceAll next next_sound _ hrun
  simp only [Prod.mk.injEq] at hobs
  obtain ⟨hpending, hpc, hnone⟩ := hobs
  refine ⟨tr, s, hr, hacts, hpending, hpc, (onTime_run_iff hr).mpr fun m hm => ?_⟩
  exact not_overtaken (List.all_eq_true.mp hnone m hm)

/-- One second after the zero of the clock, a timer is set for a thousand
seconds later. Thread 1 reads the clock, thread 2 reads it one millisecond
later and is the first to take the write lock. -/
def overtaking : List TimerAct :=
  [.add_timer 0 16 1000000 (some 0) false, .add 0, .listExpiredCb 1 [], .check 1, .tick 1001,
    .listExpiredCb 2 [], .check 2, .expire 2 32, .deliver 2, .expire 1 48, .deliver 1]

theorem overtaken_fires_early : ∃ tr s, Run system (initial 1000) tr s ∧
    tr.map Move.act = overtaking ∧ s.clock = 1001 ∧ (s.manager.heap 0).m_next = 1001000 ∧
    s.pc 1 = .delivering [some 0] [] ∧ ∃ m ∈ tr, ¬ m.pre.OnTime m.act := by
  have hrun : (traceAll next (initial 1000) overtaking).map (fun r =>
      ((r.2.clock, (r.2.manager.heap 0).m_next), r.2.pc 1,
        r.1.any fun m => m.act = .deliver 1 && m.pre.pc 1 = .delivering [] [0] &&
          m.pre.clock < (m.pre.manager.heap 0).m_next)) =
      some ((1001, 1001000), .delivering [some 0] [], true) := by decide +kernel
  obtain ⟨tr, s, hr, hacts, hobs⟩ := Run.exists_of_traceAll next next_sound _ hrun
  simp only [Prod.mk.injEq] at hobs
  obtain ⟨⟨hclock, hnext⟩, hpc, hany⟩ := hobs
  obtain ⟨m, hm, hearly⟩ := List.any_eq_true.mp hany
  simp only [Bool.and_eq_true, decide_eq_true_eq] at hearly
  obtain ⟨⟨hact, hloop⟩, hlt⟩ := hearly
  refine ⟨tr, s, hr, hacts, hclock, hnext, hpc, m, hm, fun hon => ?_⟩
  rw [hact] at hon
  exact absurd hlt (Nat.not_lt.mpr (hon [] 0 [] hloop))

end TimerThreads

end FiberAsync
