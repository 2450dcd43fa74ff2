import FiberAsync.HookPrograms
import FiberAsync.TimerExpiry

/-!
# How long a sleep is

`sleep`, `usleep` and `nanosleep` convert what is asked for to milliseconds in
an `unsigned int`, an `unsigned int` and an `int`, and `add_timer` adds the
result to the clock in 64 bits. Nobody keeps a pointer to the timer, so it stays
as it was armed until a call of `listExpiredCb` takes it.
-/

namespace FiberAsync

set_option autoImplicit false

open Runs Programs TimerManager

/-- The readings of the clock in an operation, in their order. -/
def TimerOp.clockReadings : TimerOp → List Millis
  | add_timer c => [c.now]
  | refresh _ now | getNextTimer now => [now]
  | reset _ _ from_now _ now => if from_now then [now] else []
  | listExpiredCb c => c.now_ms :: c.clock :: c.ticks
  | cancel _ | release _ => []

/-- The clock does not go back, and no call takes a reading for a rollover. -/
structure SteadyClock (start : Millis) (tr : List (Move TimerManager TimerOp)) : Prop where
  readings : (start :: tr.flatMap fun mv => mv.act.clockReadings).Pairwise (· ≤ ·)
  rollover : ∀ mv ∈ tr, ∀ c, mv.act = .listExpiredCb c →
    (mv.pre.detectClockRollover c.now_ms).1 = false

namespace TimerManager

variable {m m' : TimerManager} {op : TimerOp} {i : TimerPtr} {m_next : Millis}

/-- The timer is a one-shot one with that deadline, or has been delivered. -/
structure Awaits (i : TimerPtr) (m_next : Millis) (m : TimerManager) : Prop where
  inv : StoreInv m []
  created : i < m.created
  oneShot : (m.heap i).m_recurring = false
  deadline : i ∈ m.m_timers → (m.heap i).m_next = m_next

theorem Awaits.step (h : Awaits i m_next m) (ht : op.target ≠ some i)
    (hs : system.step m op m') : Awaits i m_next m' := by
  have heff := step_effect h.inv hs
  refine ⟨heff.inv, h.created.trans_le heff.keeps.created,
    (heff.keeps.recurring i h.created).trans h.oneShot, fun hmem => ?_⟩
  by_cases hop : ∃ c, op = .listExpiredCb c
  · obtain ⟨c, rfl⟩ := hop
    obtain ⟨_, r, hexec⟩ := hs
    cases hexec
    have hleft : i ∉ (m.takeExpired c).1 :=
      fun htaken => not_mem_of_taken h.inv htaken h.oneShot hmem
    rw [listExpiredCb_heap hleft]
    exact h.deadline (listExpiredCb_mem_imp hmem)
  · have hop : ∀ c, op ≠ .listExpiredCb c := fun c heq => hop ⟨c, heq⟩
    obtain ⟨hback, hforth⟩ := mem_of_op h.inv hs hop h.created
    have hbefore := hback hmem
    rw [(hforth ht hbefore).2]
    exact h.deadline hbefore

/-- A timer that nobody operates on is not delivered before its deadline. -/
theorem Awaits.not_early {tr : List (Move TimerManager TimerOp)} (h : Awaits i m_next m)
    (hrun : Run system m tr m') (ht : ∀ mv ∈ tr, mv.act.target ≠ some i)
    (hroll : ∀ mv ∈ tr, ∀ c, mv.act = .listExpiredCb c →
      (mv.pre.detectClockRollover c.now_ms).1 = false) :
    ∀ mv ∈ tr, ∀ c, mv.act = .listExpiredCb c → i ∈ (mv.pre.takeExpired c).1 →
      m_next ≤ c.now_ms := by
  intro mv hmv c hact htaken
  have hpre := (hrun.invariant_at_of_guard (Awaits i m_next) (fun _ op => op.target ≠ some i)
    (fun hs hg hstep => hs.step hg hstep) h ht hmv).1
  rw [← hpre.deadline (taken_mem htaken)]
  exact le_of_takeExpired (hroll mv hmv c hact) htaken

end TimerManager

inductive SleepCall where
  | sleep (seconds : BitVec 32)
  | usleep (usec : BitVec 32)
  | nanosleep (req rem : Ptr)
  deriving DecidableEq, Repr

/-- What a hook-enabled fiber finds when it calls one of them: the memory, where
the timer is allocated, the callback that wakes it, and the clock. -/
structure SleepEnv where
  timespec : Ptr → Timespec
  address : Nat
  cb : Callback
  now : Millis

namespace SleepEnv

variable (E : SleepEnv)

def timer (ms : Millis) : TimerCall := ⟨E.address, ms, some E.cb, false, E.now⟩

def answer (m : TimerManager) : (r : HookReq) → Except Unit (r.Ans × TimerManager)
  | .hookEnable => .ok (true, m)
  | .timespec req => .ok (E.timespec req, m)
  | .outside (.add_timer ms) => .ok ((), (m.add_timer (E.timer ms)).2)
  | .outside .yield => .ok ((), m)
  | _ => .error ()

end SleepEnv

namespace SleepCall

variable (E : SleepEnv)

def program : SleepCall → HookProg (Returned Int)
  | sleep seconds => Hooked.sleep seconds
  | usleep usec => Hooked.usleep usec
  | nanosleep req rem => Hooked.nanosleep req rem

/-- `*req` is a duration. -/
def Valid : SleepCall → Prop
  | sleep _ | usleep _ => True
  | nanosleep req _ => 0 ≤ (E.timespec req).tv_sec.toInt ∧ (E.timespec req).tv_nsec.toNat < 10 ^ 9

/-- The whole milliseconds that are asked for. -/
def requested : SleepCall → Nat
  | sleep seconds => seconds.toNat * 1000
  | usleep usec => usec.toNat / 1000
  | nanosleep req _ =>
    (E.timespec req).tv_sec.toNat * 1000 + (E.timespec req).tv_nsec.toNat / 1000000

/-- The 32-bit number that is widened for `add_timer`. -/
def narrowed : SleepCall → Int
  | sleep seconds => (seconds * 1000).toNat
  | usleep usec => (usec / 1000).toNat
  | nanosleep req _ =>
    let t := E.timespec req
    ((t.tv_sec * 1000 + (t.tv_nsec.sdiv 1000).sdiv 1000).setWidth 32).toInt

/-- What is asked for fits into the type it is computed in. -/
def Fits : SleepCall → Prop
  | sleep seconds => seconds.toNat * 1000 < 2 ^ 32
  | usleep _ => True
  | nanosleep req _ =>
    (E.timespec req).tv_sec.toNat * 1000 + (E.timespec req).tv_nsec.toNat / 1000000 < 2 ^ 31

/-- The call, made by a fiber of an IOManager with any timers. -/
def Arms (c : SleepCall) (m m' : TimerManager) : Prop :=
  Reachable system m ∧ (∀ i ∈ m.live, (m.heap i).address ≠ E.address) ∧
    c.program.exec E.answer m = .ok (.ok 0, m')

/-- No conversion changes the duration, and the timer is neither armed with a
shorter one nor delivered before the clock has advanced by it, whatever becomes
of the other timers. -/
structure SleepsLongEnough (c : SleepCall) : Prop where
  exact : c.narrowed E = c.requested E
  delay : ∀ m m', c.Arms E m m' →
    m.created ∈ m'.m_timers ∧ c.requested E ≤ (m'.heap m.created).m_ms.toNat
  wakes : ∀ m m' tr m'', c.Arms E m m' → Run system m' tr m'' → SteadyClock E.now tr →
    (∀ mv ∈ tr, mv.act.target ≠ some m.created) → ∀ mv ∈ tr, ∀ e, mv.act = .listExpiredCb e →
    m.created ∈ (mv.pre.takeExpired e).1 → E.now.toNat + c.requested E ≤ e.now_ms.toNat

variable {E} {c : SleepCall} {m m' : TimerManager}

theorem exec_program (c : SleepCall) (m : TimerManager) : c.program.exec E.answer m =
    .ok (.ok 0, (m.add_timer (E.timer (.ofInt 64 (c.narrowed E)))).2) := by
  have hwiden : ∀ x : BitVec 32, x.setWidth 64 = .ofInt 64 x.toNat := by
    intro x
    rw [BitVec.ofInt_natCast, BitVec.ofNat_toNat]
  cases c with
  | sleep seconds =>
    change Except.ok (_, (m.add_timer (E.timer ((seconds * 1000).setWidth 64))).2) = _
    rw [hwiden]
    rfl
  | usleep usec =>
    change Except.ok (_, (m.add_timer (E.timer ((usec / 1000).setWidth 64))).2) = _
    rw [hwiden]
    rfl
  | nanosleep req rem => rfl

/-- Nothing is lost in the conversions exactly if the result fits. -/
theorem narrowed_eq_iff (hv : c.Valid E) : c.narrowed E = c.requested E ↔ c.Fits E := by
  cases c with
  | sleep seconds =>
    have hmul : (seconds * 1000).toNat = seconds.toNat * 1000 % 2 ^ 32 := BitVec.toNat_mul _ _
    change ((seconds * 1000).toNat : Int) = (seconds.toNat * 1000 : Nat) ↔
      seconds.toNat * 1000 < 2 ^ 32
    rw [hmul]
    omega
  | usleep usec =>
    refine iff_of_true ?_ trivial
    exact congrArg Nat.cast (BitVec.toNat_udiv (x := usec) (y := 1000))
  | nanosleep req rem =>
    have hnsec := hv.2
    have hmicro := sdiv_thousand_toNat (x := (E.timespec req).tv_nsec) (by omega)
    have hmilli := sdiv_thousand_toNat (x := (E.timespec req).tv_nsec.sdiv 1000) (by omega)
    rw [hmicro, Nat.div_div_eq_div_mul] at hmilli
    have hsum : (((E.timespec req).tv_sec * 1000 +
        ((E.timespec req).tv_nsec.sdiv 1000).sdiv 1000).setWidth 32).toNat =
        ((E.timespec req).tv_sec.toNat * 1000 + (E.timespec req).tv_nsec.toNat / 1000000) %
          2 ^ 32 := by
      have hmul : ((E.timespec req).tv_sec * 1000).toNat =
          (E.timespec req).tv_sec.toNat * 1000 % 2 ^ 64 := BitVec.toNat_mul _ _
      rw [BitVec.toNat_setWidth, BitVec.toNat_add, hmul, hmilli]
      omega
    have hint := BitVec.toInt_eq_toNat_cond (((E.timespec req).tv_sec * 1000 +
      ((E.timespec req).tv_nsec.sdiv 1000).sdiv 1000).setWidth 32)
    rw [hsum] at hint
    unfold narrowed requested Fits
    dsimp only
    split at hint <;> omega

theorem Fits.lt (h : c.Fits E) : c.requested E < 2 ^ 32 := by
  cases c with
  | sleep seconds => exact h
  | usleep usec =>
    have husec := usec.isLt
    change usec.toNat / 1000 < 2 ^ 32
    omega
  | nanosleep req rem => exact lt_trans h (by decide)

/-- The deadline of the timer that the call arms, when nothing was lost before. -/
theorem deadline_eq (h : c.Fits E) (hv : c.Valid E) :
    (E.timer (.ofInt 64 (c.narrowed E))).ms.toNat = c.requested E ∧
      (Timer.new E.address (.ofInt 64 (c.narrowed E)) (some E.cb) false E.now).m_next.toNat =
        (c.requested E + E.now.toNat) % 2 ^ 64 := by
  have hms : (BitVec.ofInt 64 (c.narrowed E)).toNat = c.requested E := by
    rw [(narrowed_eq_iff hv).mpr h, BitVec.ofInt_natCast, BitVec.toNat_ofNat]
    exact Nat.mod_eq_of_lt (lt_trans h.lt (by decide))
  refine ⟨hms, ?_⟩
  change (BitVec.ofInt 64 (c.narrowed E) + E.now).toNat = _
  rw [BitVec.toNat_add, hms]

theorem Arms.eq (h : c.Arms E m m') :
    m' = (m.add_timer (E.timer (.ofInt 64 (c.narrowed E)))).2 := by
  have hexec := h.2.2
  rw [exec_program] at hexec
  cases hexec
  rfl

theorem Arms.heap (h : c.Arms E m m') : m'.heap m.created =
    .new E.address (.ofInt 64 (c.narrowed E)) (some E.cb) false E.now := by
  rw [h.eq]
  exact Function.update_self _ _ _

theorem Arms.step (h : c.Arms E m m') :
    system.step m (.add_timer (E.timer (.ofInt 64 (c.narrowed E)))) m' := by
  rw [h.eq]
  exact ⟨h.2.1, _, rfl⟩

theorem Arms.mem (h : c.Arms E m m') : m.created ∈ m'.m_timers := by
  have hperm := ((reachable_inv h.1).newTimer
    (c := E.timer (.ofInt 64 (c.narrowed E))) h.2.1).perm_insert
  rw [h.eq]
  exact hperm.mem_iff.mpr List.mem_cons_self

theorem Arms.awaits (h : c.Arms E m m') :
    Awaits m.created (m'.heap m.created).m_next m' := by
  refine ⟨(step_effect (reachable_inv h.1) h.step).inv, ?_, ?_, fun _ => rfl⟩
  · rw [h.eq]
    exact Nat.lt_succ_self _
  · rw [h.heap]
    rfl

theorem sleepsLongEnough_of_fits (hv : c.Valid E) (h : c.Fits E)
    (hnow : E.now.toNat + c.requested E < 2 ^ 64) : c.SleepsLongEnough E := by
  obtain ⟨hms, hnext⟩ := deadline_eq h hv
  refine ⟨(narrowed_eq_iff hv).mpr h, fun m m' harms => ⟨harms.mem, ?_⟩, ?_⟩
  · rw [harms.heap]
    exact hms.ge
  · intro m m' tr m'' harms hrun hclock htarget mv hmv e hact htaken
    have hle := harms.awaits.not_early hrun htarget hclock.rollover mv hmv e hact htaken
    rw [harms.heap, BitVec.le_def, hnext, Nat.mod_eq_of_lt (by omega)] at hle
    omega

/-- The call on a manager without timers, and `listExpiredCb` right after it. -/
def atOnce (E : SleepEnv) : ExpireCall := ⟨[], E.now, false, E.address, E.now, []⟩

/-- The call on a manager without timers. -/
def onlyTimer (E : SleepEnv) (c : SleepCall) : TimerManager :=
  ((TimerManager.new E.now).add_timer (E.timer (.ofInt 64 (c.narrowed E)))).2

theorem arms_new (E : SleepEnv) (c : SleepCall) : c.Arms E (.new E.now) (onlyTimer E c) :=
  ⟨⟨_, [], ⟨E.now, rfl⟩, .nil _⟩, (fun _ hi => nomatch hi), exec_program c _⟩

theorem onlyTimer_steady : ((onlyTimer E c).detectClockRollover E.now).1 = false := by
  change decide (E.now < E.now ∧ _) = false
  simp

theorem onlyTimer_calls : (onlyTimer E c).Calls (atOnce E) where
  sawEmpty := rfl
  steady := onlyTimer_steady

theorem atOnce_steadyClock : SteadyClock E.now [⟨onlyTimer E c, .listExpiredCb (atOnce E),
    ((onlyTimer E c).listExpiredCb (atOnce E)).manager⟩] := by
  constructor
  · simp [TimerOp.clockReadings, atOnce]
  · intro mv hmv e hact
    cases List.mem_singleton.mp hmv
    cases hact
    exact onlyTimer_steady

theorem fits_of_sleepsLongEnough (hv : c.Valid E) (h : c.SleepsLongEnough E) :
    c.Fits E ∧ E.now.toNat + c.requested E < 2 ^ 64 := by
  have hfits := (narrowed_eq_iff hv).mp h.exact
  refine ⟨hfits, Nat.lt_of_not_le fun hle => ?_⟩
  -- the sum wraps around, and the only timer is due at once
  have harms := arms_new E c
  have hnext := (deadline_eq hfits hv).2
  have hbound := hfits.lt
  have hnow := E.now.isLt
  have hdue : ((onlyTimer E c).heap 0).m_next < E.now := by
    rw [BitVec.lt_def, show (onlyTimer E c).heap 0 = _ from harms.heap, hnext]
    omega
  have htaken : 0 ∈ ((onlyTimer E c).takeExpired (atOnce E)).1 :=
    (harms.awaits.inv.mem_takeExpired_iff_due onlyTimer_calls).mpr
      ⟨harms.mem, BitVec.le_of_lt hdue, fun htie => absurd htie.1 (BitVec.ne_of_lt hdue)⟩
  have hstep : system.step (onlyTimer E c) (.listExpiredCb (atOnce E))
      ((onlyTimer E c).listExpiredCb (atOnce E)).manager := ⟨trivial, _, rfl⟩
  have hearly := h.wakes _ _ _ _ harms (.single hstep) atOnce_steadyClock
    (by simp [TimerOp.target]) _ (List.mem_singleton_self _) _ rfl htaken
  change E.now.toNat + c.requested E ≤ E.now.toNat at hearly
  omega

/-- For every argument, every reading of the clock and every run that follows. -/
theorem sleepsLongEnough_iff (hv : c.Valid E) : c.SleepsLongEnough E ↔
    c.Fits E ∧ E.now.toNat + c.requested E < 2 ^ 64 :=
  ⟨fits_of_sleepsLongEnough hv, fun h => sleepsLongEnough_of_fits hv h.1 h.2⟩

/-- Every `req` points to the same duration. -/
def envAt (tv_sec tv_nsec : BitVec 64) (now : Millis) : SleepEnv :=
  ⟨fun _ => ⟨tv_sec, tv_nsec⟩, 64, 0, now⟩

theorem sleepsLongEnough_iff_second :
    (SleepCall.nanosleep 0 0).Valid (envAt 1 500000000 7200000) ∧
    ((SleepCall.nanosleep 0 0).SleepsLongEnough (envAt 1 500000000 7200000) ↔
      (SleepCall.nanosleep 0 0).Fits (envAt 1 500000000 7200000) ∧ 7200000 + 1500 < 2 ^ 64) :=
  ⟨⟨by decide, by decide⟩, sleepsLongEnough_iff ⟨by decide, by decide⟩⟩

/-- `sleep(4294968)`, almost fifty days, is over after 704 ms. A `nanosleep` of
2147484 s, on a machine that is up for 3000000 s, is over at once. -/
theorem long_sleeps_cut :
    (SleepCall.requested (envAt 0 0 7200000) (.sleep 4294968) = 4294968000 ∧
      0 ∈ ((onlyTimer (envAt 0 0 7200000) (.sleep 4294968)).takeExpired
        ⟨[], 7200704, false, 96, 7200704, []⟩).1 ∧
      ¬ (SleepCall.sleep 4294968).SleepsLongEnough (envAt 0 0 7200000)) ∧
    (SleepCall.nanosleep 0 0).Valid (envAt 2147484 0 3000000000) ∧
      0 ∈ ((onlyTimer (envAt 2147484 0 3000000000) (.nanosleep 0 0)).takeExpired
        ⟨[], 3000000000, false, 96, 3000000000, []⟩).1 ∧
      ¬ (SleepCall.nanosleep 0 0).SleepsLongEnough (envAt 2147484 0 3000000000) := by
  refine ⟨⟨by decide, by decide +kernel, fun h => ?_⟩, ⟨by decide, by decide⟩, by decide +kernel,
    fun h => ?_⟩
  · exact absurd h.exact (by decide +kernel)
  · exact absurd h.exact (by decide +kernel)

end SleepCall

end FiberAsync
