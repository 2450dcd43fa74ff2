import FiberAsync.TimedWorkers

/-!
# Sleeping past the earliest timer

The wait of a worker is computed from the earliest deadline, and an earlier one
is announced through the tickle pipe, once: `m_tickled` keeps the next ones
quiet until some worker calls `getNextTimer`. So the others may rely on a worker
that is on its way to that call, unless it takes a task first.
-/

namespace FiberAsync

set_option autoImplicit false

open Runs Counting TimerManager

namespace Wait

variable {w : Wait} {m_next m_next' : Millis}

theorem EndsBy.mono (h : w.EndsBy m_next) (hle : m_next ≤ m_next') : w.EndsBy m_next' := by
  rw [BitVec.le_def] at hle
  rcases h with hzero | ⟨hpos, hend⟩
  · exact Or.inl hzero
  · exact Or.inr ⟨hpos, by omega⟩

end Wait

namespace TimerManager

variable {m : TimerManager} {now : Millis} {i : TimerPtr}

/-- The time to the earliest deadline is not negative as an `int`. -/
def InReach (m : TimerManager) (now : Millis) : Prop :=
  ∀ i ∈ m.m_timers.head?, now < (m.heap i).m_next →
    0 ≤ (((m.heap i).m_next - now).setWidth 32).toInt

instance (m : TimerManager) (now : Millis) : Decidable (m.InReach now) :=
  Option.decidableForallMem _

theorem endsBy_ofNext {first : Millis} (hlt : now < first)
    (hreach : 0 ≤ ((first - now).setWidth 32).toInt) :
    (Wait.ofNext now (first - now)).EndsBy first := by
  have hdist : (first - now).toNat = first.toNat - now.toNat :=
    BitVec.toNat_sub_of_le (BitVec.le_of_lt hlt)
  rw [BitVec.lt_def] at hlt
  unfold Wait.ofNext Wait.EndsBy Wait.MAX_TIMEOUT
  dsimp only
  by_cases hmax : first - now = ~~~0
  · have hfar : (first - now).toNat = 2 ^ 64 - 1 := by rw [hmax]; rfl
    rw [if_pos hmax, show ((6000 : Millis).setWidth 32).toInt = 6000 from rfl]
    omega
  · rw [if_neg hmax]
    have hcut : ((first - now).setWidth 32).toInt ≤ (first - now).toNat := by
      have hmod := Nat.mod_le (first - now).toNat (2 ^ 32)
      rw [BitVec.toInt_eq_toNat_cond, BitVec.toNat_setWidth]
      split <;> omega
    omega

theorem StoreInv.getNextTimer_endsBy (h : StoreInv m []) (hreach : m.InReach now)
    (hi : i ∈ m.m_timers) :
    (Wait.ofNext now (m.getNextTimer now).1).EndsBy (m.heap i).m_next := by
  unfold TimerManager.getNextTimer
  cases heq : m.m_timers with
  | nil =>
    rw [heq] at hi
    cases hi
  | cons first rest =>
    have hle := Timer.m_next_le_of_key_le (h.first_le heq hi)
    dsimp only
    by_cases hdue : now ≥ (m.heap first).m_next
    · rw [if_pos hdue]
      exact Or.inl rfl
    · rw [if_neg hdue]
      have hlt := BitVec.not_le.mp hdue
      exact (endsBy_ofNext hlt (hreach first (by rw [heq]; rfl) hlt)).mono hle

end TimerManager

namespace TimedPc

/-- The widest reading of being on the way to `getNextTimer`: in `idle()` outside
`epoll_wait`, or back in the run loop with no task taken since. -/
def returning : TimedPc → Bool
  | scan idled => idled
  | tickle found _ => found.isNone
  | hungry | entering | returned _ | listing _ | posting _ _ _ | draining | leaving => true
  | execute _ | waiting _ => false

/-- It gives up its wait, the reading of the pipe or the way to `getNextTimer`. -/
def Leaves (onWay : TimedPc → Prop) (old new : TimedPc) : Prop :=
  (old.wait?.isSome ∨ old = draining ∨ onWay old) ∧ new.wait? = none ∧ ¬ onWay new

end TimedPc

namespace TimedWorkers

variable {τ : Type} (onWay : TimedPc → Prop) (tid : τ → Tid) (s : TimedWorkers τ)

/-- A thread that is there in `tickle()` writes to the pipe. -/
def Writes (at_ : Option TicklePc) : Prop :=
  at_ = some .write ∨ at_ = some .check ∧ s.hasIdleThreads = true

/-- While a worker is in `epoll_wait` and a timer is set: some wait ends by the
earliest deadline, a byte is unread, one is about to be written, or a worker is
on the way to `getNextTimer`. -/
def Watched : Prop :=
  (∃ l, (s.worker l).wait?.isSome) → s.timers.manager.m_timers ≠ [] →
    (∃ l w, s.worker l = .waiting w ∧
      ∀ i ∈ s.timers.manager.m_timers, w.EndsBy (s.timers.manager.heap i).m_next) ∨
    0 < s.pipe ∨
    ((∃ t, s.Writes (s.caller t)) ∨ ∃ l, s.Writes (s.worker l).tickling) ∨
    ∃ l, onWay (s.worker l)

/-- The wait of the worker ends by every deadline, also those that
`listExpiredCb` has taken out of the set and may put back. -/
def Covers (l : τ) : Prop :=
  ∃ w, s.worker l = .waiting w ∧ ∀ i ∈ s.timers.pending, w.EndsBy (s.timers.manager.heap i).m_next

/-- Another worker waits, no other wait is short enough or `m_tickled` is set,
and nothing else would lead to a call of `getNextTimer`. -/
structure LastToLook (l : τ) : Prop where
  asleep : ∃ l', l' ≠ l ∧ (s.worker l').wait?.isSome
  late : s.timers.manager.m_tickled = true ∨ ∀ l', l' ≠ l → ¬ s.Covers l'
  pipe : s.pipe = 0 ∨ s.worker l = .draining
  callers : ∀ t, s.caller t = none
  workers : ∀ l', l' ≠ l → ¬ onWay (s.worker l')

/-- The last worker that would look at the timers turns to something else. -/
def Deserts (mv : Move (TimedWorkers τ) (Act τ)) : Prop :=
  ∃ l, (mv.pre.worker l).Leaves onWay (mv.post.worker l) ∧ mv.pre.LastToLook onWay l

/-- The step's part in the timers. -/
def timerAct : Act τ → Option TimerAct
  | .timer _ a => some a
  | .run l nowAddress =>
    match s.worker l with
    | .entering => some .getNextTimer
    | .returned _ => some (.listExpiredCb (tid l) [])
    | .listing _ => (s.timers.pc (tid l)).listAct (tid l) nowAddress
    | _ => none
  | .add_task _ _ | .tickle _ | .wake _ | .timeout _ | .interrupt _ => none

/-- A deadline that the step computes does not overflow, and a timeout that it
asks for is not negative as an `int`. -/
def Regular (a : Act τ) : Prop :=
  (∀ ta ∈ s.timerAct tid a, s.timers.Fits ta) ∧
    (s.timerAct tid a = some .getNextTimer → s.timers.manager.InReach s.timers.clock)

/-- Something leads to a call of `getNextTimer`. -/
def Alert : Prop := 0 < s.pipe ∨ (∃ t, s.caller t ≠ none) ∨ ∃ l, onWay (s.worker l)

/-- A wait is short enough, and the next front will be announced. -/
def Minded : Prop := s.timers.manager.m_tickled = false ∧ ∃ l, s.Covers l

def Attended : Prop := s.Alert onWay ∨ (∀ l, (s.worker l).wait? = none) ∨ s.Minded

structure SleepInv [Fintype τ] : Prop where
  sections : s.timers.SectionOk
  started : s.timers.StartedOk
  /-- the counter counts the workers in `idle()` -/
  count : s._idleThreadCount = total Finset.univ TimedPc.counted s.worker
  attended : s.Attended onWay

variable {onWay tid s} {s' : TimedWorkers τ} {a : Act τ} {l : τ}

theorem waiting_of_wait? {pc : TimedPc} (h : pc.wait?.isSome) : ∃ w, pc = .waiting w := by
  cases pc with
  | waiting w => exact ⟨w, rfl⟩
  | _ => cases h

theorem SleepInv.watched [Fintype τ] (h : s.SleepInv onWay) : s.Watched onWay := by
  intro ⟨l, hl⟩ _
  obtain ⟨w, hw⟩ := waiting_of_wait? hl
  rcases h.attended with (hpipe | ⟨t, ht⟩ | hway) | hnone | ⟨_, l', w', hw', hcover⟩
  · exact Or.inr (Or.inl hpipe)
  · refine Or.inr (Or.inr (Or.inl (Or.inl ⟨t, ?_⟩)))
    cases hat : s.caller t with
    | none => exact absurd hat ht
    | some at_ =>
      cases at_ with
      | write => exact Or.inl rfl
      | check =>
        -- the worker in `epoll_wait` is counted
        have hone := weight_le_total TimedPc.counted s.worker (Finset.mem_univ l)
        rw [← h.count, hw] at hone
        exact Or.inr ⟨rfl, decide_eq_true hone⟩
  · exact Or.inr (Or.inr (Or.inr hway))
  · rw [hnone l] at hl
    cases hl
  · exact Or.inl ⟨l', w', hw', fun i hi => hcover i (List.mem_append_left _ hi)⟩

theorem initial_sleepInv [Fintype τ] (start : Millis) :
    (initial start : TimedWorkers τ).SleepInv onWay where
  sections := TimerThreads.initial_sectionOk start
  started := TimerThreads.initial_startedOk start
  count := ((total_eq_zero_iff _ _).mpr fun _ _ => rfl).symm
  attended := Or.inr (Or.inl fun _ => rfl)

theorem Covers.advance (h : s.Covers l) (hworker : s'.worker l = s.worker l)
    (hlater : ∀ i ∈ s'.timers.pending, ∃ e ∈ s.timers.pending,
      (s.timers.manager.heap e).m_next ≤ (s'.timers.manager.heap i).m_next) : s'.Covers l := by
  obtain ⟨w, hw, hcover⟩ := h
  refine ⟨w, hworker.trans hw, fun i hi => ?_⟩
  obtain ⟨e, he, hle⟩ := hlater i hi
  exact (hcover e he).mono hle

theorem listAct_quiet {t : Tid} {nowAddress : Nat} {before after : TimerThreads}
    {p : TimerPc} {ta : TimerAct} (h : p.listAct t nowAddress = some ta) :
    ta ≠ .getNextTimer ∧ TimerThreads.announces ⟨before, ta, after⟩ = false := by
  cases p with
  | out | adding | resetting => cases h
  | reading | expiring | delivering =>
    cases h
    exact ⟨by simp, rfl⟩

theorem tickle_pipe (s : TimedWorkers τ) (at_ : TicklePc) : ∃ pipe edge, s.pipe ≤ pipe ∧
    (s.tickle at_).1 = { s with pipe := pipe, edge := edge } := by
  cases at_ with
  | check => exact ⟨s.pipe, s.edge, Nat.le_refl _, rfl⟩
  | write => exact ⟨s.pipe + 1, true, Nat.le_succ _, rfl⟩

/-- What the step does with the timers announces nothing, and is not a call of `getNextTimer`. -/
def Quiet (tid : τ → Tid) (s : TimedWorkers τ) (a : Act τ) (s' : TimedWorkers τ) : Prop :=
  s'.timers = s.timers ∨ ∃ ta, s.timerAct tid a = some ta ∧ ta ≠ .getNextTimer ∧
    s.timers.next ta = some s'.timers ∧ TimerThreads.announces ⟨s.timers, ta, s'.timers⟩ = false

/-- While nothing has been announced, a wait that was short enough stays so. -/
theorem Quiet.follows (hq : s.Quiet tid a s') (hsec : s.timers.SectionOk)
    (hst : s.timers.StartedOk) (hreg : s.Regular tid a) :
    s'.timers.manager.m_tickled = s.timers.manager.m_tickled ∧
      (s.timers.manager.m_tickled = false → ∀ l, s'.worker l = s.worker l →
        s.Covers l → s'.Covers l) := by
  rcases hq with hsame | ⟨ta, hta, hne, hnext, hquiet⟩
  · rw [hsame]
    refine ⟨rfl, fun _ l hworker hcover => hcover.advance hworker fun i hi => ?_⟩
    rw [hsame] at hi ⊢
    exact ⟨i, hi, BitVec.le_refl _⟩
  · have hadv := TimerThreads.advances hsec hst (hreg.1 ta hta) hne hnext
    rw [hquiet] at hadv
    have htickled : s'.timers.manager.m_tickled = s.timers.manager.m_tickled := by
      have hcount := hadv.tickled
      rw [Bool.toNat_false, Nat.add_zero] at hcount
      revert hcount
      cases s'.timers.manager.m_tickled <;> cases s.timers.manager.m_tickled <;> simp
    exact ⟨htickled, fun hclear l hworker hcover =>
      hcover.advance hworker (hadv.follows (htickled.trans hclear))⟩

/-- A step beside the workers keeps the timers attended if it keeps what is due. -/
theorem Attended.beside (h : s.Attended onWay) (hworker : s'.worker = s.worker)
    (hpipe : s.pipe ≤ s'.pipe) (hcaller : ∀ t, s.caller t ≠ none → s'.caller t ≠ none)
    (htickled : s'.timers.manager.m_tickled = s.timers.manager.m_tickled)
    (hcovers : s.timers.manager.m_tickled = false → ∀ l, s'.worker l = s.worker l →
      s.Covers l → s'.Covers l) : s'.Attended onWay := by
  rcases h with (hpos | ⟨t, ht⟩ | hway) | hnone | ⟨hclear, l, hcover⟩
  · exact Or.inl (Or.inl (Nat.lt_of_lt_of_le hpos hpipe))
  · exact Or.inl (Or.inr (Or.inl ⟨t, hcaller t ht⟩))
  · exact Or.inl (Or.inr (Or.inr (hworker ▸ hway)))
  · exact Or.inr (Or.inl (hworker ▸ hnone))
  · have hsame : s'.worker l = s.worker l := by rw [hworker]
    exact Or.inr (Or.inr ⟨htickled.trans hclear, l, hcovers hclear l hsame hcover⟩)

theorem attended_of_caller {t : Tid} (h : s.caller t ≠ none) : s.Attended onWay :=
  Or.inl (Or.inr (Or.inl ⟨t, h⟩))

theorem setCaller_keeps {t : Tid} (ht : s.caller t = none) (at_ : Option TicklePc) (u : Tid)
    (hu : s.caller u ≠ none) : Function.update s.caller t at_ u ≠ none := by
  have hne : u ≠ t := fun heq => hu (heq ▸ ht)
  rwa [Function.update_of_ne hne]

/-- A thread in `tickle()` writes, or nobody is in `epoll_wait`. -/
theorem SleepInv.tickle [Fintype τ] (hs : s.SleepInv onWay) {t : Tid} {at_ : TicklePc}
    (ht : s.caller t = some at_) :
    ((s.tickle at_).1.setCaller t (s.tickle at_).2).Attended onWay := by
  cases at_ with
  | write => exact Or.inl (Or.inl (Nat.succ_pos _))
  | check =>
    cases hidle : s.hasIdleThreads with
    | true =>
      apply attended_of_caller (t := t)
      simp [TimedWorkers.tickle, setCaller, hidle]
    | false =>
      have hzero : s._idleThreadCount = 0 := by simpa [hasIdleThreads] using hidle
      have hnone := (total_eq_zero_iff _ _).mp (hs.count.symm.trans hzero)
      right
      left
      intro l
      have hout := hnone l (Finset.mem_univ l)
      change (s.worker l).wait? = none
      cases hl : s.worker l with
      | waiting w =>
        rw [hl] at hout
        cases hout
      | _ => rfl

theorem SleepInv.timers_step [Fintype τ] (hs : s.SleepInv onWay) (hreg : s.Regular tid a)
    {timers : TimerThreads} (h : timers = s.timers ∨ ∃ ta, s.timerAct tid a = some ta ∧
      s.timers.next ta = some timers) : timers.SectionOk ∧ timers.StartedOk := by
  rcases h with hsame | ⟨ta, hta, hnext⟩
  · rw [hsame]
    exact ⟨hs.sections, hs.started⟩
  · exact ⟨hs.sections.step hnext, hs.started.step hs.sections (hreg.1 ta hta) hnext⟩

theorem Quiet.timers (hq : s.Quiet tid a s') : s'.timers = s.timers ∨
    ∃ ta, s.timerAct tid a = some ta ∧ s.timers.next ta = some s'.timers :=
  hq.imp_right fun ⟨ta, hta, _, hnext, _⟩ => ⟨ta, hta, hnext⟩

/-- A thread's step with the timers is announced, or leaves them attended. -/
theorem SleepInv.stepTimers [Fintype τ] (hs : s.SleepInv onWay) {t : Tid} {ta : TimerAct}
    (hreg : s.Regular tid (.timer t ta)) (h : s.stepTimers t ta = some s') :
    s'.SleepInv onWay := by
  obtain ⟨⟨ht, hne, _⟩, h⟩ := Option.ite_none_right_eq_some.mp h
  obtain ⟨timers, hnext, h⟩ := Option.map_eq_some_iff.mp h
  have hact : s.timerAct tid (.timer t ta) = some ta := rfl
  obtain ⟨hsections, hstarted⟩ := hs.timers_step hreg (Or.inr ⟨ta, hact, hnext⟩)
  dsimp only at h
  split at h
  case isTrue =>
    subst h
    exact ⟨hsections, hstarted, hs.count, attended_of_caller (t := t) (by simp [setCaller])⟩
  case isFalse hquiet =>
    subst h
    have hq : s.Quiet tid (.timer t ta) { s with timers } :=
      Or.inr ⟨ta, hact, hne, hnext, by simpa using hquiet⟩
    obtain ⟨htickled, hcovers⟩ := hq.follows hs.sections hs.started hreg
    exact ⟨hsections, hstarted, hs.count,
      hs.attended.beside rfl (Nat.le_refl _) (fun _ => id) htickled hcovers⟩

section Workers

variable [DecidableEq τ] {pc : TimedPc} {nowAddress : Nat}

/-- A worker goes to a place other than `epoll_wait`. -/
structure Shifts (s : TimedWorkers τ) (l : τ) (pc : TimedPc) (s' : TimedWorkers τ) : Prop where
  worker : s'.worker = Function.update s.worker l pc
  caller : s'.caller = s.caller
  awake : pc.wait? = none
  count : s'._idleThreadCount = s._idleThreadCount + pc.counted - (s.worker l).counted
  pipe : s.pipe ≤ s'.pipe ∨ s.worker l = .draining

theorem shifts_setPc (hawake : pc.wait? = none) (hcount : pc.counted = (s.worker l).counted) :
    s.Shifts l pc (s.setPc l pc) :=
  ⟨rfl, rfl, hawake, by rw [hcount, Nat.add_sub_cancel]; rfl, Or.inl (Nat.le_refl _)⟩

theorem Shifts.tickled {at_ : TicklePc} (hawake : pc.wait? = none)
    (hcount : pc.counted = (s.worker l).counted) : s.Shifts l pc ((s.tickle at_).1.setPc l pc) := by
  obtain ⟨pipe, edge, hle, heq⟩ := tickle_pipe s at_
  rw [heq]
  exact ⟨rfl, rfl, hawake, by rw [hcount, Nat.add_sub_cancel]; rfl, Or.inl hle⟩

theorem quiet_tickled (at_ : TicklePc) : s.Quiet tid a ((s.tickle at_).1.setPc l pc) := by
  obtain ⟨pipe, edge, _, heq⟩ := tickle_pipe s at_
  rw [heq]
  exact Or.inl rfl

theorem counted_withTask (found : Option QueuedTask) : (TimedPc.withTask found).counted = 0 := by
  cases found <;> rfl

theorem awake_withTask (found : Option QueuedTask) : (TimedPc.withTask found).wait? = none := by
  cases found <;> rfl

theorem counted_afterScan (r : Scan) : (TimedPc.afterScan r).counted = 0 := by
  unfold TimedPc.afterScan
  split
  · rfl
  · exact counted_withTask r.task

theorem awake_afterScan (r : Scan) : (TimedPc.afterScan r).wait? = none := by
  unfold TimedPc.afterScan
  split
  · rfl
  · exact awake_withTask r.task

theorem list_shifts {tickled : Bool} (hl : s.worker l = .listing tickled)
    (h : s.list tid l tickled nowAddress = some s') :
    ∃ pc, s.Shifts l pc s' ∧ s.Quiet tid (.run l nowAddress) s' := by
  obtain ⟨ta, hta, h⟩ := Option.bind_eq_some_iff.mp h
  obtain ⟨timers, htimers, rfl⟩ := Option.map_eq_some_iff.mp h
  have hquiet : ta ≠ .getNextTimer ∧ TimerThreads.announces ⟨s.timers, ta, timers⟩ = false :=
    listAct_quiet hta
  have hact : s.timerAct tid (.run l nowAddress) = some ta := by
    simp only [timerAct, hl]
    exact hta
  refine ⟨_, ⟨rfl, rfl, ?_, ?_, Or.inl (Nat.le_refl _)⟩,
    Or.inr ⟨ta, hact, hquiet.1, htimers, hquiet.2⟩⟩
  · split <;> rfl
  · rw [hl]
    split <;> rfl

/-- A step of a worker is its call of `getNextTimer`, or takes it to a place
other than `epoll_wait`. -/
theorem shifts_of_run (h : s.runWorker tid l nowAddress = some s') :
    (s.worker l = .entering ∧ ∃ timers, s.timers.next .getNextTimer = some timers ∧
      s' = { s.setPc l (.waiting (.ofNext s.timers.clock
        (s.timers.manager.getNextTimer s.timers.clock).1)) with timers }) ∨
    ∃ pc, s.Shifts l pc s' ∧ s.Quiet tid (.run l nowAddress) s' := by
  unfold runWorker at h
  split at h
  case h_1 hl =>
    cases h
    exact Or.inr ⟨_, ⟨rfl, rfl, awake_afterScan _, by rw [hl, counted_afterScan]; rfl,
      Or.inl (Nat.le_refl _)⟩, Or.inl rfl⟩
  case h_2 found at_ hl =>
    right
    split at h
    case h_1 s₁ rest hres =>
      have hsame : s₁ = (s.tickle at_).1 := by rw [hres]
      cases h
      rw [hsame]
      exact ⟨_, .tickled rfl (by rw [hl]; rfl), quiet_tickled at_⟩
    case h_2 s₁ hres =>
      have hsame : s₁ = (s.tickle at_).1 := by rw [hres]
      cases h
      rw [hsame]
      exact ⟨_, .tickled (awake_withTask found) (by rw [hl, counted_withTask]; rfl),
        quiet_tickled at_⟩
  case h_3 hl =>
    cases h
    exact Or.inr ⟨_, shifts_setPc rfl (by rw [hl]; rfl), Or.inl rfl⟩
  case h_4 hl =>
    cases h
    exact Or.inr ⟨_, ⟨rfl, rfl, rfl, by rw [hl]; rfl, Or.inl (Nat.le_refl _)⟩, Or.inl rfl⟩
  case h_5 hl =>
    obtain ⟨timers, htimers, rfl⟩ := Option.map_eq_some_iff.mp h
    exact Or.inl ⟨hl, timers, htimers, rfl⟩
  case h_6 => cases h
  case h_7 tickled hl =>
    obtain ⟨timers, htimers, rfl⟩ := Option.map_eq_some_iff.mp h
    have hact : s.timerAct tid (.run l nowAddress) = some (.listExpiredCb (tid l) []) := by
      simp only [timerAct, hl]
    exact Or.inr ⟨_, ⟨rfl, rfl, rfl, by rw [hl]; rfl, Or.inl (Nat.le_refl _)⟩,
      Or.inr ⟨_, hact, by simp, htimers, rfl⟩⟩
  case h_8 tickled hl => exact Or.inr (list_shifts hl h)
  case h_9 tickled cb cbs hl =>
    cases h
    exact Or.inr ⟨_, ⟨rfl, rfl, rfl, by rw [hl]; rfl, Or.inl (Nat.le_refl _)⟩, Or.inl rfl⟩
  case h_10 tickled cbs at_ hl =>
    cases h
    exact Or.inr ⟨_, .tickled rfl (by rw [hl]; rfl), quiet_tickled at_⟩
  case h_11 tickled hl =>
    cases h
    refine Or.inr ⟨_, shifts_setPc ?_ ?_, Or.inl rfl⟩
    · split <;> rfl
    · rw [hl]
      split <;> rfl
  case h_12 hl =>
    cases h
    exact Or.inr ⟨_, ⟨rfl, rfl, rfl, by rw [hl]; rfl, Or.inr hl⟩, Or.inl rfl⟩
  case h_13 hl =>
    cases h
    exact Or.inr ⟨_, ⟨rfl, rfl, rfl, by rw [hl]; rfl, Or.inl (Nat.le_refl _)⟩, Or.inl rfl⟩

namespace Shifts

theorem self (hs : s.Shifts l pc s') : s'.worker l = pc := by
  rw [hs.worker, Function.update_self]

theorem other {l' : τ} (hs : s.Shifts l pc s') (hl : l' ≠ l) : s'.worker l' = s.worker l' := by
  rw [hs.worker, Function.update_of_ne hl]

/-- A worker that turns to something else and is not the last one to look leaves
the timers attended. -/
theorem attended_of_not_last (hs : s.Shifts l pc s') (hlast : ¬ s.LastToLook onWay l)
    (htickled : s'.timers.manager.m_tickled = s.timers.manager.m_tickled)
    (hcovers : s.timers.manager.m_tickled = false →
      ∀ l', s'.worker l' = s.worker l' → s.Covers l' → s'.Covers l') : s'.Attended onWay := by
  by_contra hnot
  unfold Attended Alert at hnot
  push Not at hnot
  obtain ⟨⟨hpipe, hcallers, hway⟩, ⟨l₁, hasleep⟩, hminded⟩ := hnot
  have hne : l₁ ≠ l := by
    intro heq
    subst l₁
    rw [hs.self] at hasleep
    exact hasleep hs.awake
  apply hlast
  refine ⟨⟨l₁, hne, ?_⟩, ?_, ?_, ?_, ?_⟩
  · rw [hs.other hne] at hasleep
    exact Option.isSome_iff_ne_none.mpr hasleep
  · by_contra hearly
    push Not at hearly
    obtain ⟨hclear, l', hl', hcover⟩ := hearly
    have hfalse : s.timers.manager.m_tickled = false := by simpa using hclear
    exact hminded ⟨htickled.trans hfalse, l', hcovers hfalse l' (hs.other hl') hcover⟩
  · rcases hs.pipe with hle | hdrain
    · exact Or.inl (by omega)
    · exact Or.inr hdrain
  · intro t
    rw [← hs.caller]
    exact hcallers t
  · intro l' hl'
    rw [← hs.other hl']
    exact hway l'

theorem attended (hs : s.Shifts l pc s') (h : s.Attended onWay)
    (hstay : (s.worker l).Leaves onWay pc → ¬ s.LastToLook onWay l)
    (htickled : s'.timers.manager.m_tickled = s.timers.manager.m_tickled)
    (hcovers : s.timers.manager.m_tickled = false →
      ∀ l', s'.worker l' = s.worker l' → s.Covers l' → s'.Covers l') : s'.Attended onWay := by
  by_cases hleave : (s.worker l).Leaves onWay pc
  · exact hs.attended_of_not_last (hstay hleave) htickled hcovers
  by_cases hway : onWay pc
  · exact Or.inl (Or.inr (Or.inr ⟨l, by rw [hs.self]; exact hway⟩))
  -- the worker is not one that anything rests on
  have hold : ¬ ((s.worker l).wait?.isSome ∨ s.worker l = .draining ∨ onWay (s.worker l)) :=
    fun hold => hleave ⟨hold, hs.awake, hway⟩
  push Not at hold
  obtain ⟨hawake, hdrain, hold⟩ := hold
  rcases h with (hpipe | ⟨t, ht⟩ | ⟨l', hl'⟩) | hnone | ⟨hclear, l', hcover⟩
  · exact Or.inl (Or.inl (Nat.lt_of_lt_of_le hpipe (hs.pipe.resolve_right hdrain)))
  · exact Or.inl (Or.inr (Or.inl ⟨t, by rw [hs.caller]; exact ht⟩))
  · have hne : l' ≠ l := fun heq => hold (heq ▸ hl')
    exact Or.inl (Or.inr (Or.inr ⟨l', by rw [hs.other hne]; exact hl'⟩))
  · right
    left
    intro l'
    by_cases heq : l' = l
    · subst l'
      rw [hs.self]
      exact hs.awake
    · rw [hs.other heq]
      exact hnone l'
  · have hne : l' ≠ l := by
      intro heq
      subst l'
      obtain ⟨w, hw, _⟩ := hcover
      rw [hw] at hawake
      exact hawake rfl
    exact Or.inr (Or.inr ⟨htickled.trans hclear, l', hcovers hclear l' (hs.other hne) hcover⟩)

end Shifts

/-- A worker that has called `getNextTimer` covers the timers. -/
theorem attended_of_getNextTimer {timers : TimerThreads} (hsec : s.timers.SectionOk)
    (hreach : s.timers.manager.InReach s.timers.clock)
    (htimers : s.timers.next .getNextTimer = some timers) :
    Attended onWay { s.setPc l (.waiting (.ofNext s.timers.clock
      (s.timers.manager.getNextTimer s.timers.clock).1)) with timers } := by
  obtain ⟨hw, rfl⟩ := TimerThreads.next_getNextTimer htimers
  refine Or.inr (Or.inr ⟨rfl, l, _, Function.update_self _ _ _, fun i hi => ?_⟩)
  have hi : i ∈ s.timers.manager.m_timers ++ s.timers.taken := hi
  rw [TimerThreads.taken_of_free hw, List.append_nil] at hi
  exact (hsec.free_inv hw).getNextTimer_endsBy hreach hi

variable [Fintype τ]

theorem Shifts.counted (hs : s.Shifts l pc s')
    (hcount : s._idleThreadCount = total Finset.univ TimedPc.counted s.worker) :
    s'._idleThreadCount = total Finset.univ TimedPc.counted s'.worker := by
  have htotal := total_update TimedPc.counted s.worker (Finset.mem_univ l) pc
  rw [hs.worker, hs.count, hcount]
  omega

theorem SleepInv.shift (hs : s.SleepInv onWay) (hreg : s.Regular tid a)
    (hstay : ¬ Deserts onWay ⟨s, a, s'⟩) (hshift : s.Shifts l pc s')
    (hq : s.Quiet tid a s') : s'.SleepInv onWay := by
  obtain ⟨hsections, hstarted⟩ := hs.timers_step hreg hq.timers
  obtain ⟨htickled, hcovers⟩ := hq.follows hs.sections hs.started hreg
  refine ⟨hsections, hstarted, hshift.counted hs.count,
    hshift.attended hs.attended (fun hleaves hlast => hstay ⟨l, ?_, hlast⟩) htickled hcovers⟩
  change TimedPc.Leaves onWay (s.worker l) (s'.worker l)
  rw [hshift.self]
  exact hleaves

theorem SleepInv.run (hs : s.SleepInv onWay)
    (hreg : s.Regular tid (.run l nowAddress)) (hstay : ¬ Deserts onWay ⟨s, .run l nowAddress, s'⟩)
    (h : s.runWorker tid l nowAddress = some s') : s'.SleepInv onWay := by
  rcases shifts_of_run h with ⟨hl, timers, htimers, rfl⟩ | ⟨pc, hshift, hq⟩
  · have hact : s.timerAct tid (.run l nowAddress) = some .getNextTimer := by
      simp only [timerAct, hl]
    obtain ⟨hsections, hstarted⟩ := hs.timers_step hreg (Or.inr ⟨_, hact, htimers⟩)
    have hcount := total_update_same (s := Finset.univ) TimedPc.counted s.worker l
      (c := .waiting (.ofNext s.timers.clock (s.timers.manager.getNextTimer s.timers.clock).1))
      (by rw [hl]; rfl)
    exact ⟨hsections, hstarted, hs.count.trans hcount.symm,
      attended_of_getNextTimer hs.sections (hreg.2 hact) htimers⟩
  · exact hs.shift hreg hstay hshift hq

theorem SleepInv.return_ (hs : s.SleepInv onWay) {edge : Bool} (hreg : s.Regular tid a)
    (hstay : ¬ Deserts onWay ⟨s, a, { s.setPc l pc with edge }⟩)
    (hwait : (s.worker l).wait?.isSome) (hawake : pc.wait? = none) (hcounted : pc.counted = 1) :
    SleepInv onWay { s.setPc l pc with edge } := by
  obtain ⟨w, hw⟩ := waiting_of_wait? hwait
  have hcount : s._idleThreadCount = s._idleThreadCount + pc.counted - (s.worker l).counted := by
    rw [hw, hcounted]
    exact (Nat.add_sub_cancel _ 1).symm
  exact hs.shift hreg hstay ⟨rfl, rfl, hawake, hcount, Or.inl (Nat.le_refl _)⟩ (Or.inl rfl)

theorem SleepInv.step (hs : s.SleepInv onWay)
    (hreg : s.Regular tid a) (hstay : ¬ Deserts onWay ⟨s, a, s'⟩)
    (h : s.next tid a = some s') : s'.SleepInv onWay := by
  cases a with
  | timer t ta => exact hs.stepTimers hreg h
  | add_task t task =>
    obtain ⟨ht, heq⟩ := Option.ite_none_right_eq_some.mp h
    cases heq
    have hkeeps := setCaller_keeps ht (s.push task).2
    exact ⟨hs.sections, hs.started, hs.count, hs.attended.beside rfl (Nat.le_refl _) hkeeps rfl
      fun _ _ _ hcover => hcover⟩
  | tickle t =>
    simp only [next] at h
    split at h
    case h_1 at_ ht =>
      cases h
      obtain ⟨pipe, edge, _, heq⟩ := tickle_pipe s at_
      have hattended := hs.tickle ht
      rw [heq] at hattended ⊢
      exact ⟨hs.sections, hs.started, hs.count, hattended⟩
    case h_2 => cases h
  | run l nowAddress => exact hs.run hreg hstay h
  | wake l | timeout l | interrupt l =>
    obtain ⟨hwait, heq⟩ := Option.ite_none_right_eq_some.mp h
    cases heq
    first
    | exact hs.return_ hreg hstay hwait.1 rfl rfl
    | exact hs.return_ hreg hstay hwait rfl rfl

/-- With any number of workers, and whatever counts as being on the way to
`getNextTimer`: the timers are watched in every state of a run in which no step
overflows a deadline, asks for a timeout out of reach or deserts them. -/
theorem watched_run {start : Millis} {tr : List (Move (TimedWorkers τ) (Act τ))}
    (hr : Run (system tid) (initial start) tr s) (hreg : ∀ mv ∈ tr, mv.pre.Regular tid mv.act)
    (hstay : ∀ mv ∈ tr, ¬ Deserts onWay mv) : s.Watched onWay := by
  have hs : s.SleepInv onWay := by
    apply hr.invariant_of_guard (fun s => s.SleepInv onWay)
      (fun s a => s.Regular tid a ∧ ∀ s', s.next tid a = some s' → ¬ Deserts onWay ⟨s, a, s'⟩)
      (fun hs hg hstep => hs.step hg.1 (hg.2 _ hstep) hstep) (initial_sleepInv start)
    intro mv hmv
    refine ⟨hreg mv hmv, fun s' hs' => ?_⟩
    have hpost : mv.post = s' := Option.some.inj ((hr.step_of_mem hmv).symm.trans hs')
    rw [← hpost]
    exact hstay mv hmv
  exact hs.watched

end Workers

/-- The thread, other than a worker, that takes the step. -/
def Act.thread : Act τ → Option Tid
  | .timer t _ | .add_task t _ | .tickle t => some t
  | .run _ _ | .wake _ | .timeout _ | .interrupt _ => none

theorem caller_of_step [DecidableEq τ] {t : Tid} (h : s.next tid a = some s')
    (ht : a.thread ≠ some t) : s'.caller t = s.caller t := by
  cases a with
  | timer u ta =>
    have hne : t ≠ u := fun heq => ht (by rw [heq]; rfl)
    obtain ⟨_, h⟩ := Option.ite_none_right_eq_some.mp h
    obtain ⟨timers, _, h⟩ := Option.map_eq_some_iff.mp h
    dsimp only at h
    split at h <;> subst h
    · exact Function.update_of_ne hne _ _
    · rfl
  | add_task u task =>
    have hne : t ≠ u := fun heq => ht (by rw [heq]; rfl)
    obtain ⟨_, heq⟩ := Option.ite_none_right_eq_some.mp h
    cases heq
    exact Function.update_of_ne hne _ _
  | tickle u =>
    have hne : t ≠ u := fun heq => ht (by rw [heq]; rfl)
    simp only [next] at h
    split at h
    case h_1 at_ _ =>
      cases h
      obtain ⟨pipe, edge, _, heq⟩ := tickle_pipe s at_
      rw [heq]
      exact Function.update_of_ne hne _ _
    case h_2 => cases h
  | run l nowAddress =>
    rcases shifts_of_run h with ⟨_, timers, _, rfl⟩ | ⟨pc, hshift, _⟩
    · rfl
    · rw [hshift.caller]
  | wake l | timeout l | interrupt l =>
    obtain ⟨_, heq⟩ := Option.ite_none_right_eq_some.mp h
    cases heq
    rfl

theorem caller_of_run [DecidableEq τ] {start : Millis} {tr : List (Move (TimedWorkers τ) (Act τ))}
    {acts : List (Act τ)} {t : Tid} (hr : Run (system tid) (initial start) tr s)
    (hacts : tr.map Move.act = acts) (ht : ∀ a ∈ acts, a.thread ≠ some t) : s.caller t = none := by
  refine hr.invariant_of_guard (fun s => s.caller t = none) (fun _ a => a.thread ≠ some t)
    (fun hs hg hstep => (caller_of_step hstep hg).trans hs) rfl fun mv hmv => ht _ ?_
  rw [← hacts]
  exact List.mem_map_of_mem hmv

instance (onWay : TimedPc → Prop) [DecidablePred onWay] (old new : TimedPc) :
    Decidable (old.Leaves onWay new) :=
  inferInstanceAs (Decidable (_ ∧ _ ∧ _))

instance (tid : τ → Tid) (s : TimedWorkers τ) (a : Act τ) : Decidable (s.Regular tid a) :=
  @instDecidableAnd _ _ (Option.decidableForallMem _) inferInstance

/-- The worker with the given thread takes its next steps. -/
def goes {τ : Type} (l : τ) (n : Nat) : List (Act τ) := List.replicate n (.run l 48)

/-- Thread 7 adds a timer and writes to the pipe. -/
def announced (ms : Millis) : List (Act Bool) :=
  [.timer 7 (.add_timer 7 16 ms (some 0) false), .timer 7 (.add 7), .tickle 7, .tickle 7]

/-- Both workers wait, and the one that a new timer wakes goes back to wait for it. -/
def rewaited : List (Act Bool) :=
  goes false 3 ++ goes true 3 ++ announced 100 ++ [.wake true] ++ goes true 10

def threadOf (l : Bool) : Tid := if l then 2 else 1

theorem watched_run_rewaited : ∃ tr s, Run (system threadOf) (initial 7200000) tr s ∧
    tr.map Move.act = rewaited ∧ s.worker false = .waiting ⟨7200000, 5000⟩ ∧
    s.worker true = .waiting ⟨7200000, 100⟩ ∧ s.timers.manager.m_timers = [0] ∧
    s.Watched fun pc => pc.returning = true := by
  have hrun : (traceAll (next threadOf) (initial 7200000) rewaited).map (fun r =>
      ((r.1.all fun mv => decide (mv.pre.Regular threadOf mv.act)),
        (r.1.all fun mv => decide (∀ l, ¬ (mv.pre.worker l).Leaves (fun pc => pc.returning = true)
          (mv.post.worker l))), r.2.worker false, r.2.worker true, r.2.timers.manager.m_timers)) =
      some (true, true, .waiting ⟨7200000, 5000⟩, .waiting ⟨7200000, 100⟩, [0]) := by
    decide +kernel
  obtain ⟨tr, s, hr, hacts, hobs⟩ := Run.exists_of_traceAll _ (next_sound _) _ hrun
  simp only [Prod.mk.injEq] at hobs
  obtain ⟨hreg, hstay, hfalse, htrue, htimers⟩ := hobs
  refine ⟨tr, s, hr, hacts, hfalse, htrue, htimers, watched_run hr (fun mv hmv => ?_) ?_⟩
  · exact of_decide_eq_true (List.all_eq_true.mp hreg mv hmv)
  · intro mv hmv hdeserts
    obtain ⟨l, hleaves, _⟩ := hdeserts
    exact of_decide_eq_true (List.all_eq_true.mp hstay mv hmv) l hleaves

/-- A task is pushed while both workers are on their way to wait, and nobody is
told. The one that a new timer wakes empties the pipe and takes the task. -/
def deserted : List (Act Bool) :=
  goes false 1 ++ goes true 1 ++ [.add_task 8 (.ofCb 3 (-1)), .tickle 8] ++ goes false 2 ++
    goes true 2 ++ announced 100 ++ [.wake true] ++ goes true 8

/-- A timer in 2 ^ 31 milliseconds, set before the worker waits. -/
def unreached : List (Act Unit) :=
  [.timer 7 (.add_timer 7 16 2147483648 (some 0) false), .timer 7 (.add 7), .tickle 7] ++ goes () 3

/-- The threads that `deserted` and `unreached` name are out of `tickle()`, and so are all. -/
theorem callers_out [DecidableEq τ] {start : Millis} {tr : List (Move (TimedWorkers τ) (Act τ))}
    {acts : List (Act τ)} (hr : Run (system tid) (initial start) tr s)
    (hacts : tr.map Move.act = acts) (hnamed : ∀ a ∈ acts, ∀ u ∈ a.thread, u = 7 ∨ u = 8)
    (hseven : s.caller 7 = none) (height : s.caller 8 = none) (t : Tid) : s.caller t = none := by
  by_cases ht : t = 7 ∨ t = 8
  · rcases ht with rfl | rfl
    · exact hseven
    · exact height
  · exact caller_of_run hr hacts fun a ha heq => ht (hnamed a ha t heq)

/-- The only deadline, and no worker or thread that would look at it in time. -/
theorem not_watched {m_next : Millis} (hasleep : (s.worker l).wait?.isSome)
    (hset : s.timers.manager.m_timers.map (fun i => (s.timers.manager.heap i).m_next) = [m_next])
    (hpipe : s.pipe = 0) (hcaller : ∀ t, s.caller t = none)
    (hworker : ∀ l, (s.worker l).tickling = none ∧ ¬ onWay (s.worker l) ∧
      ∀ w, s.worker l = .waiting w → ¬ w.EndsBy m_next) : ¬ s.Watched onWay := by
  intro hwatched
  obtain ⟨i, hi, rfl⟩ := List.mem_map.mp (hset.symm ▸ List.mem_cons_self)
  have hwrites : ∀ at_, at_ = none → ¬ s.Writes at_ := by
    intro at_ hat
    subst at_
    simp [Writes]
  rcases hwatched ⟨l, hasleep⟩ (List.ne_nil_of_mem hi) with
    ⟨l, w, hl, hend⟩ | hpos | (⟨t, ht⟩ | ⟨l, hl⟩) | ⟨l, hl⟩
  · exact (hworker l).2.2 w hl (hend i hi)
  · omega
  · exact hwrites _ (hcaller t) ht
  · exact hwrites _ (hworker l).1 hl
  · exact (hworker l).2.1 hl

/-- Even if a worker counts as on its way until it takes a task. -/
theorem timers_unwatched :
    (∃ tr s, Run (system threadOf) (initial 7200000) tr s ∧ tr.map Move.act = deserted ∧
      ¬ s.Watched fun pc => pc.returning = true) ∧
    ∃ tr s, Run (system fun _ : Unit => 1) (initial 7200000) tr s ∧
      tr.map Move.act = unreached ∧ ¬ s.Watched fun pc => pc.returning = true := by
  constructor
  · have hrun : (traceAll (next threadOf) (initial 7200000) deserted).map (fun r =>
        (r.2.worker false, r.2.worker true,
          decide (r.2.caller 7 = none ∧ r.2.caller 8 = none ∧ r.2.pipe = 0),
          r.2.timers.manager.m_timers.map fun i => (r.2.timers.manager.heap i).m_next)) =
        some (.waiting ⟨7200000, 5000⟩, .execute ⟨0, .ofCb 3 (-1)⟩, true, [7200100]) := by
      decide +kernel
    obtain ⟨tr, s, hr, hacts, hobs⟩ := Run.exists_of_traceAll _ (next_sound _) _ hrun
    simp only [Prod.mk.injEq] at hobs
    obtain ⟨hfalse, htrue, hquiet, hset⟩ := hobs
    obtain ⟨hseven, height, hpipe⟩ := of_decide_eq_true hquiet
    have hcaller := callers_out hr hacts (by decide) hseven height
    refine ⟨tr, s, hr, hacts, not_watched (l := false) (by rw [hfalse]; rfl) hset hpipe hcaller ?_⟩
    intro l
    cases l
    · rw [hfalse]
      refine ⟨rfl, by simp [TimedPc.returning], fun w hw => ?_⟩
      cases hw
      decide
    · rw [htrue]
      exact ⟨rfl, by simp [TimedPc.returning], fun w hw => by cases hw⟩
  · have hrun : (traceAll (next fun _ : Unit => 1) (initial 7200000) unreached).map (fun r =>
        (r.2.worker (), decide (r.2.caller 7 = none ∧ r.2.caller 8 = none ∧ r.2.pipe = 0),
          r.2.timers.manager.m_timers.map fun i => (r.2.timers.manager.heap i).m_next)) =
        some (.waiting ⟨7200000, -2147483648⟩, true, [2154683648]) := by
      decide +kernel
    obtain ⟨tr, s, hr, hacts, hobs⟩ := Run.exists_of_traceAll _ (next_sound _) _ hrun
    simp only [Prod.mk.injEq] at hobs
    obtain ⟨hworker, hquiet, hset⟩ := hobs
    obtain ⟨hseven, height, hpipe⟩ := of_decide_eq_true hquiet
    have hcaller := callers_out hr hacts (by decide) hseven height
    refine ⟨tr, s, hr, hacts, not_watched (l := ()) (by rw [hworker]; rfl) hset hpipe hcaller ?_⟩
    intro _
    rw [hworker]
    refine ⟨rfl, by simp [TimedPc.returning], fun w hw => ?_⟩
    cases hw
    decide

end TimedWorkers

end FiberAsync
