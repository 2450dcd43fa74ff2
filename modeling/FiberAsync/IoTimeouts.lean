import FiberAsync.Hook
import FiberAsync.SleepDurations

/-!
# The timeout of do_io

One call of `do_io` from `retry` on, with the timers of the IOManager and the
clock. `addConditionTimer` is not part of the repository: it is taken to be
`add_timer` with a one-shot timer. A worker that has got the callback from
`listExpiredCb` runs it later, `tinfo->cnacelled` first and `cancelEvent` then.
`addEvent` returns nothing but 0. Other code uses the other timers and may
trigger the event at any time.
-/

namespace FiberAsync

set_option autoImplicit false

open Runs Results TimerManager

inductive TimedIoPc where
  /-- at `retry`, or in the loop after it -/
  | attempt
  /-- `EAGAIN`: the condition timer is next -/
  | arm
  | addEvent
  | suspended
  /-- resumed, about to call `timer->cancel()` -/
  | resumed
  /-- about to read `tinfo->cnacelled` -/
  | check
  /-- `return n`, at that time -/
  | returned (r : Returned Nat) (now : Millis)
  /-- `errno = tinfo->cnacelled; return -1` -/
  | timedOut (e : Errno)
  deriving DecidableEq, Repr

namespace TimedIoPc

/-- `do_io` has returned, and dropped its `tinfo`. -/
def ended : TimedIoPc → Bool
  | returned _ _ | timedOut _ => true
  | _ => false

/-- How many steps the fiber takes until it looks at `tinfo->cnacelled`. -/
def rank : TimedIoPc → Nat
  | addEvent => 4
  | suspended => 3
  | resumed => 2
  | check => 1
  | _ => 0

end TimedIoPc

structure TimedIo where
  timers : TimerManager
  clock : Millis
  /-- `to` -/
  timeout : Millis
  pc : TimedIoPc
  timer : Option TimerPtr
  /-- of `*tinfo`; `none` is the value 0 -/
  cnacelled : Option Errno
  /-- the event is registered, with the fiber to resume -/
  registered : Bool
  /-- the fiber has been scheduled -/
  woken : Bool
  /-- the copies of the callback that nobody has run yet -/
  handed : Nat
  /-- a callback is about to call `cancelEvent` -/
  cancelling : Bool
  /-- what the call is judged by: its start, the results of the underlying call,
  and whether timers were delivered after the timeout -/
  start : Millis
  results : List (Returned Nat)
  late : Bool

inductive TimedIoAct where
  | tick (now : Millis)
  | result (r : Returned Nat)
  /-- the condition timer, allocated at that address -/
  | arm (address : Nat)
  /-- `addEvent`, then `yield` -/
  | addEvent
  /-- the event is triggered -/
  | event
  | deliver (c : ExpireCall)
  | callback
  | cancelEvent
  | resume
  | cancel
  | check
  /-- other code operates on its timers -/
  | timer (op : TimerOp)
  deriving DecidableEq, Repr

/-- What the threads do with a call by themselves. -/
def TimedIoAct.own : TimedIoAct → Bool
  | addEvent | callback | cancelEvent | resume | cancel | check => true
  | _ => false

/-- A result that ends the call. -/
def Final (r : Returned Nat) : Prop := r ≠ .error .EINTR ∧ r ≠ .error .EAGAIN

instance (r : Returned Nat) : Decidable (Final r) := by
  unfold Final
  infer_instance

namespace TimedIo

def begin_ (timers : TimerManager) (clock timeout : Millis) : TimedIo where
  timers := timers
  clock := clock
  timeout := timeout
  pc := .attempt
  timer := none
  cnacelled := none
  registered := false
  woken := false
  handed := 0
  cancelling := false
  start := clock
  results := []
  late := false

variable (s : TimedIo)

/-- When the call has to be over. -/
def due : Nat := s.start.toNat + s.timeout.toNat

def result (r : Returned Nat) : TimedIo :=
  match (IoEntry.wait s.timeout).after r with
  | .returns r => { s with pc := .returned r s.clock, results := s.results ++ [r] }
  | .retry => { s with results := s.results ++ [r] }
  | .suspend _ => { s with pc := .arm, results := s.results ++ [r] }

def timerCall (address : Nat) : TimerCall := ⟨address, s.timeout, some 0, false, s.clock⟩

def arm (address : Nat) : Option TimedIo :=
  if s.timeout ≠ -1 then
    if s.timers.Allowed (.add_timer (s.timerCall address)) then
      some { s with
        pc := .addEvent
        timers := (s.timers.add_timer (s.timerCall address)).2
        timer := some s.timers.created }
    else none
  else some { s with pc := .addEvent, timer := none }

def triggered : TimedIo := { s with registered := false, woken := true }

/-- `listExpiredCb` takes the timer of the call. -/
def takes (c : ExpireCall) : Bool := s.timer.any fun i => i ∈ (s.timers.takeExpired c).1

def deliver (c : ExpireCall) : TimedIo :=
  { s with
    timers := (s.timers.listExpiredCb c).manager
    handed := s.handed + (s.takes c).toNat
    late := s.late || (!s.pc.ended && s.due ≤ c.now_ms.toNat) }

/-- The callback, up to its call of `cancelEvent`. -/
def callback : TimedIo :=
  if s.pc.ended ∨ s.cnacelled.isSome then { s with handed := s.handed - 1 }
  else { s with handed := s.handed - 1, cnacelled := some .ETIMEDOUT, cancelling := true }

def cancelEvent : TimedIo :=
  if s.registered then { s.triggered with cancelling := false } else { s with cancelling := false }

def cancel : Option TimedIo :=
  match s.timer with
  | none => some { s with pc := .check }
  | some i => (s.timers.cancel i).toOption.map fun r => { s with pc := .check, timers := r.2 }

def check : TimedIo :=
  match s.cnacelled with
  | some e => { s with pc := .timedOut e }
  | none => { s with pc := .attempt, timer := none }

/-- The operation is not on the timer of the call, to which nobody else has a pointer. -/
def foreign (op : TimerOp) : Bool :=
  match op with
  | .listExpiredCb _ => false
  | _ => s.timer.all fun i => op.target ≠ some i ∧ op ≠ .release i

def exec : TimedIoAct → Option TimedIo
  | .tick now => if s.clock ≤ now then some { s with clock := now } else none
  | .result r => if s.pc = .attempt then some (s.result r) else none
  | .arm address => if s.pc = .arm then s.arm address else none
  | .addEvent =>
    if s.pc = .addEvent then some { s with pc := .suspended, registered := true } else none
  | .event => if s.registered then some s.triggered else none
  | .deliver c => if c.now_ms ≤ s.clock then some (s.deliver c) else none
  | .callback => if 0 < s.handed then some s.callback else none
  | .cancelEvent => if s.cancelling then some s.cancelEvent else none
  | .resume =>
    if s.pc = .suspended ∧ s.woken then some { s with pc := .resumed, woken := false } else none
  | .cancel => if s.pc = .resumed then s.cancel else none
  | .check => if s.pc = .check then some s.check else none
  | .timer op =>
    if s.foreign op then (s.timers.next op).map fun timers => { s with timers } else none

def system : System TimedIo TimedIoAct where
  init s := ∃ timers clock timeout, Reachable TimerManager.system timers ∧ timeout ≠ -1 ∧
    s = .begin_ timers clock timeout
  step s a t := s.exec a = some t

theorem step_of_exec {s s' : TimedIo} {a : TimedIoAct} (h : s.exec a = some s') :
    system.step s a s' := h

/-- The call ends with `ETIMEDOUT` as soon as the threads have gone on: no
result, event or delivery is waited for. -/
def Leads : Prop :=
  ∃ tr t, Run (system.restrict fun _ a => a.own = true) s tr t ∧ t.pc = .timedOut .ETIMEDOUT

/-- The call so far does with its timeout what it should. -/
structure Honours (s : TimedIo) : Prop where
  /-- it returns the first result that ends it, before the timeout -/
  first : ∀ r now, s.pc = .returned r now → now.toNat < s.due ∧ Final r ∧
    ∃ rs, s.results = rs ++ [r] ∧ ∀ x ∈ rs, ¬ Final x
  at_once : ∀ r ∈ s.results, Final r → ∃ now, s.pc = .returned r now
  /-- it does not time out before timers were delivered after the timeout -/
  timedOut : ∀ e, s.pc = .timedOut e → e = .ETIMEDOUT ∧ s.late = true
  /-- and after the first such delivery it does -/
  ends : s.late = true → s.Leads

/-- `listExpiredCb` finds the timer of the call and takes it. -/
def Expires (c : ExpireCall) : Prop :=
  c.sawEmpty = false ∧ ∃ i ∈ s.timer, i ∈ s.timers.m_timers ∧
    ((s.timers.detectClockRollover c.now_ms).1 = true ∨ (s.timers.heap i).m_next ≤ c.now_ms ∧
      ¬ ((s.timers.heap i).m_next = c.now_ms ∧ c.nowAddress < (s.timers.heap i).address))

/-- The timer of the call runs. -/
def Runs : Prop := ∃ i ∈ s.timer, i ∈ s.timers.m_timers

/-- What keeps the timeout: a result that ends the call comes before it; the
deadline of a timer does not wrap around; no reading that is taken for a
rollover delivers the timer early, and the first call of `listExpiredCb` after
the timeout delivers it; the callback finds the event registered, and is run
before the fiber looks at what it writes. -/
def Guarded : TimedIoAct → Prop
  | .result r => Final r → s.clock.toNat < s.due
  | .arm _ => s.clock.toNat + s.timeout.toNat < 2 ^ 64
  | .deliver c =>
    ((s.timers.detectClockRollover c.now_ms).1 = true → s.Runs → s.due ≤ c.now_ms.toNat) ∧
      (s.late = false → s.pc.ended = false → s.due ≤ c.now_ms.toNat → s.Expires c)
  | .cancelEvent => s.pc ≠ .addEvent
  | .check => s.handed = 0 ∨ s.cnacelled.isSome = true
  | _ => True

instance (c : ExpireCall) : Decidable (s.Expires c) := by
  unfold Expires
  infer_instance

instance : Decidable s.Runs := by
  unfold Runs
  infer_instance

instance (a : TimedIoAct) : Decidable (s.Guarded a) := by
  cases a <;> unfold Guarded <;> infer_instance

end TimedIo

namespace TimerManager

variable {m m' : TimerManager} {op : TimerOp} {i : TimerPtr} {due : Nat} {armed : Bool}
  {c : ExpireCall}

/-- A one-shot timer to which somebody has a pointer, and which is not delivered too early. -/
structure OwnTimer (i : TimerPtr) (due : Nat) (armed : Bool) (m : TimerManager) : Prop where
  live : i ∈ m.live
  awaits : ∃ m_next, Awaits i m_next m ∧ due ≤ m_next.toNat
  armed : i ∈ m.m_timers ↔ armed = true
  callback : i ∈ m.m_timers → (m.heap i).m_cb.isSome

theorem OwnTimer.step (h : OwnTimer i due armed m) (hop : ∀ c, op ≠ .listExpiredCb c)
    (ht : op.target ≠ some i) (hr : op ≠ .release i) (hs : system.step m op m') :
    OwnTimer i due armed m' := by
  obtain ⟨m_next, hawaits, hle⟩ := h.awaits
  obtain ⟨hback, hforth⟩ := mem_of_op hawaits.inv hs hop hawaits.created
  refine ⟨live_of_op hawaits.inv hs hr h.live, ⟨m_next, hawaits.step ht hs, hle⟩, ?_,
    step_callback_isSome hawaits.inv hs hawaits.created h.callback⟩
  rw [← h.armed]
  exact ⟨hback, fun hmem => (hforth ht hmem).1⟩

theorem OwnTimer.listExpiredCb (h : OwnTimer i due armed m) (c : ExpireCall) :
    OwnTimer i due (armed && !decide (i ∈ (m.takeExpired c).1)) (m.listExpiredCb c).manager := by
  obtain ⟨m_next, hawaits, hle⟩ := h.awaits
  have hs : system.step m (.listExpiredCb c) (m.listExpiredCb c).manager := ⟨trivial, _, rfl⟩
  refine ⟨live_of_op hawaits.inv hs (by simp) h.live,
    ⟨m_next, hawaits.step (by simp [TimerOp.target]) hs, hle⟩, ?_,
    step_callback_isSome hawaits.inv hs hawaits.created h.callback⟩
  have hnodup := hawaits.inv.nodup_timers
  rw [← (m.takeExpired_spec c).timers] at hnodup
  have hmem := h.armed
  rw [← (m.takeExpired_spec c).timers, List.mem_append] at hmem
  rw [listExpiredCb_mem hawaits.inv c hawaits.created hawaits.oneShot, Bool.and_eq_true, ← hmem,
    Bool.not_eq_true', decide_eq_false_iff_not]
  constructor
  · intro hrest
    exact ⟨Or.inr hrest, fun htaken => (List.nodup_append.mp hnodup).2.2 i htaken i hrest rfl⟩
  · intro hin
    exact hin.1.resolve_left hin.2

theorem OwnTimer.cancel (h : OwnTimer i due armed m) :
    ∃ b m', m.cancel i = .ok (b, m') ∧ OwnTimer i due false m' := by
  obtain ⟨m_next, hawaits, hle⟩ := h.awaits
  obtain ⟨b, m', hcancel, heff⟩ := cancel_effect hawaits.inv h.live
  have hs : system.step m (.cancel i) m' := ⟨h.live, .bool b, exec_cancel_iff.mpr ⟨b, hcancel, rfl⟩⟩
  have hout : i ∉ m'.m_timers := by
    rcases hawaits.inv.cancel_cases h.live hcancel with ⟨_, _, hleaves⟩ | ⟨hnone, _, rfl⟩
    · exact hleaves.mem.mp
    · intro hmem
      have hsome := h.callback hmem
      rw [hnone] at hsome
      cases hsome
  refine ⟨b, m', hcancel, live_of_op hawaits.inv hs (by simp) h.live,
    ⟨m_next, ⟨heff.inv, ?_, ?_, fun hmem => absurd hmem hout⟩, hle⟩, by simp [hout],
    fun hmem => absurd hmem hout⟩
  · exact hawaits.created.trans_le heff.keeps.created
  · exact (heff.keeps.recurring i hawaits.created).trans hawaits.oneShot

/-- The timer that `add_timer` has just armed, unless its deadline has wrapped around. -/
theorem StoreInv.ownTimer (h : StoreInv m []) {call : TimerCall}
    (ha : m.Allowed (.add_timer call)) (hone : call.recurring = false) (hcb : call.cb.isSome)
    (hdue : due ≤ (call.ms + call.now).toNat) :
    OwnTimer m.created due true (m.add_timer call).2 := by
  have hs : system.step m (.add_timer call) (m.add_timer call).2 := ⟨ha, _, rfl⟩
  have hheap : (m.add_timer call).2.heap m.created =
      .new call.address call.ms call.cb call.recurring call.now := Function.update_self _ _ _
  refine ⟨List.mem_cons_self, ⟨call.ms + call.now,
    ⟨(step_effect h hs).inv, Nat.lt_succ_self _, ?_, fun _ => ?_⟩, hdue⟩, ?_, fun _ => ?_⟩
  · rw [hheap]
    exact hone
  · rw [hheap]
    rfl
  · have hperm : (m.add_timer call).2.m_timers.Perm (m.created :: m.m_timers) :=
      (h.newTimer ha).perm_insert
    exact iff_of_true (hperm.mem_iff.mpr List.mem_cons_self) rfl
  · rw [hheap]
    exact hcb

end TimerManager

namespace TimedIo

variable {s s' : TimedIo} {a : TimedIoAct} {c : ExpireCall}

/-- How far a delivered callback has come: nothing is delivered, or it is to be
run, or it has been run, up to its call of `cancelEvent` at least. -/
def Told (late : Bool) (handed : Nat) (cnacelled : Option Errno) (cancelling : Bool) : Prop :=
  late = false ∧ handed = 0 ∧ cnacelled = none ∧ cancelling = false ∨
  late = true ∧ handed = 1 ∧ cnacelled = none ∧ cancelling = false ∨
  late = true ∧ handed = 0 ∧ cnacelled = some .ETIMEDOUT

/-- `timer` is the timer of the current round. -/
def Owns (s : TimedIo) (armed : Bool) : Prop :=
  ∃ i, s.timer = some i ∧ OwnTimer i s.due armed s.timers

def Phase (s : TimedIo) : TimedIoPc → Prop
  | .attempt | .arm => s.late = false ∧ s.timer = none ∧ s.registered = false ∧ s.woken = false
  | .addEvent =>
    s.Owns (!s.late) ∧ s.registered = false ∧ s.woken = false ∧
      (s.cnacelled.isSome = true → s.cancelling = true)
  | .suspended =>
    s.Owns (!s.late) ∧ s.woken = !s.registered ∧
      (s.cnacelled.isSome = true → s.cancelling = true ∨ s.woken = true)
  | .resumed => s.Owns (!s.late) ∧ s.registered = false ∧ s.woken = false
  | .check => s.Owns false ∧ s.registered = false ∧ s.woken = false
  | .returned _ _ => s.late = false
  | .timedOut e => s.late = true ∧ e = .ETIMEDOUT

/-- Which results there have been. -/
def Log (s : TimedIo) : TimedIoPc → Prop
  | .returned r now =>
    now.toNat < s.due ∧ Final r ∧ ∃ rs, s.results = rs ++ [r] ∧ ∀ x ∈ rs, ¬ Final x
  | _ => ∀ x ∈ s.results, ¬ Final x

structure Inv (s : TimedIo) : Prop where
  store : StoreInv s.timers []
  timeout : s.timeout ≠ -1
  begun : s.start ≤ s.clock
  told : s.pc.ended = false → Told s.late s.handed s.cnacelled s.cancelling
  log : s.Log s.pc
  phase : s.Phase s.pc

theorem begin_inv {timers : TimerManager} {clock timeout : Millis}
    (h : Reachable TimerManager.system timers) (ht : timeout ≠ -1) :
    Inv (begin_ timers clock timeout) where
  store := reachable_inv h
  timeout := ht
  begun := BitVec.le_refl _
  told := fun _ => Or.inl ⟨rfl, rfl, rfl, rfl⟩
  log := fun _ hx => nomatch hx
  phase := ⟨rfl, rfl, rfl, rfl⟩

theorem result_of_final {r : Returned Nat} (h : Final r) :
    s.result r = { s with pc := .returned r s.clock, results := s.results ++ [r] } := by
  unfold result
  rcases r with (_ | _ | _ | _ | code) | n
  · exact absurd rfl h.1
  · exact absurd rfl h.2
  all_goals rfl

theorem result_of_not_final {r : Returned Nat} (h : ¬ Final r) :
    s.result r = { s with results := s.results ++ [r] } ∨
      s.result r = { s with pc := .arm, results := s.results ++ [r] } := by
  unfold Final at h
  by_cases hintr : r = .error .EINTR
  · rw [hintr]
    exact Or.inl rfl
  · have hagain : r = .error .EAGAIN := by simpa [hintr] using h
    rw [hagain]
    exact Or.inr rfl

theorem takes_iff {i : TimerPtr} (hi : s.timer = some i) :
    s.takes c = decide (i ∈ (s.timers.takeExpired c).1) := by
  unfold takes
  rw [hi]
  rfl

theorem takes_of_none (ht : s.timer = none) : s.takes c = false := by
  unfold takes
  rw [ht]
  rfl

theorem Owns.deliver {armed : Bool} (howns : s.Owns armed) (c : ExpireCall) :
    (s.deliver c).Owns (armed && !s.takes c) := by
  obtain ⟨i, hi, hown⟩ := howns
  rw [takes_iff hi]
  exact ⟨i, hi, hown.listExpiredCb c⟩

theorem Owns.takes_le {armed : Bool} (howns : s.Owns armed) (htakes : s.takes c = true) :
    armed = true := by
  obtain ⟨i, hi, hown⟩ := howns
  rw [takes_iff hi] at htakes
  exact hown.armed.mp (taken_mem (of_decide_eq_true htakes))

theorem Owns.not_takes (howns : s.Owns false) : s.takes c = false :=
  Bool.eq_false_iff.mpr fun htakes => absurd (howns.takes_le htakes) (by decide)

theorem deliver_late_of_ended (hended : s.pc.ended = true) : (s.deliver c).late = s.late := by
  change (s.late || (!s.pc.ended && _)) = _
  rw [hended]
  exact Bool.or_false _

/-- Without a timer to take, a guarded call is not the first after the timeout. -/
theorem late_of_unarmed (hout : ∀ i, s.timer = some i → i ∉ s.timers.m_timers)
    (hg : s.Guarded (.deliver c)) : (s.deliver c).late = s.late := by
  change (s.late || (!s.pc.ended && decide (s.due ≤ c.now_ms.toNat))) = s.late
  cases hlate : s.late with
  | true => rfl
  | false =>
    cases hover : s.pc.ended with
    | true => rfl
    | false =>
      have hsoon : ¬ s.due ≤ c.now_ms.toNat := by
        intro hdue
        obtain ⟨_, i, hi, hmem, _⟩ := hg.2 hlate hover hdue
        exact hout i hi hmem
      simp [hsoon]

section Steps

variable (h : Inv s)
include h

theorem result_inv (hpc : s.pc = .attempt) {r : Returned Nat}
    (hg : Final r → s.clock.toNat < s.due) : Inv (s.result r) := by
  obtain ⟨hstore, ht, hbegun, htold, hlog, hphase⟩ := h
  rw [hpc] at htold hlog hphase
  have hlog : ∀ x ∈ s.results, ¬ Final x := hlog
  by_cases hr : Final r
  · rw [result_of_final hr]
    exact ⟨hstore, ht, hbegun, nofun, ⟨hg hr, hr, _, rfl, hlog⟩, hphase.1⟩
  · have hlog : ∀ x ∈ s.results ++ [r], ¬ Final x := by
      intro x hx
      rcases List.mem_append.mp hx with hx | hx
      · exact hlog x hx
      · exact List.mem_singleton.mp hx ▸ hr
    rcases result_of_not_final hr with heq | heq
    · rw [heq]
      refine ⟨hstore, ht, hbegun, fun _ => htold rfl, ?_, ?_⟩
      · change Log _ s.pc
        rw [hpc]
        exact hlog
      · change Phase _ s.pc
        rw [hpc]
        exact hphase
    · rw [heq]
      exact ⟨hstore, ht, hbegun, fun _ => htold rfl, hlog, hphase⟩

theorem arm_inv (hpc : s.pc = .arm) {address : Nat}
    (hg : s.clock.toNat + s.timeout.toNat < 2 ^ 64) (harm : s.arm address = some s') : Inv s' := by
  obtain ⟨hstore, ht, hbegun, htold, hlog, hphase⟩ := h
  rw [hpc] at htold hlog hphase
  obtain ⟨hlate, _, hregistered, hwoken⟩ := hphase
  unfold arm at harm
  rw [if_pos ht] at harm
  obtain ⟨ha, heq⟩ := Option.ite_none_right_eq_some.mp harm
  cases heq
  have hsum : (s.timeout + s.clock).toNat = s.timeout.toNat + s.clock.toNat := by
    rw [BitVec.toNat_add]
    exact Nat.mod_eq_of_lt (by omega)
  have hdue : s.due ≤ (s.timeout + s.clock).toNat := by
    have hle := BitVec.le_def.mp hbegun
    unfold due
    omega
  have hown := hstore.ownTimer ha rfl rfl hdue
  have htold := htold rfl
  refine ⟨(step_effect hstore ⟨ha, _, rfl⟩).inv, ht, hbegun, fun _ => htold, hlog, ?_⟩
  have hnone : s.cnacelled = none := by
    rcases htold with hquiet | hexpired | hexpired
    · exact hquiet.2.2.1
    · exact hexpired.2.2.1
    · exact absurd (hlate.symm.trans hexpired.1) Bool.false_ne_true
  have howns : ∃ i, some s.timers.created = some i ∧
      OwnTimer i s.due (!s.late) (s.timers.add_timer (s.timerCall address)).2 := by
    rw [hlate]
    exact ⟨_, rfl, hown⟩
  exact ⟨howns, hregistered, hwoken, fun hsome => by simp [hnone] at hsome⟩

/-- A guarded call takes the timer exactly if the call of `do_io` has to be over. -/
theorem takes_of_armed (howns : s.Owns true) (hlate : s.late = false) (hover : s.pc.ended = false)
    (hg : s.Guarded (.deliver c)) : s.takes c = decide (s.due ≤ c.now_ms.toNat) := by
  obtain ⟨i, hi, hown⟩ := howns
  obtain ⟨m_next, hawaits, hle⟩ := hown.awaits
  have hmem := hown.armed.mpr rfl
  rw [takes_iff hi, decide_eq_decide]
  constructor
  · intro htaken
    by_cases hroll : (s.timers.detectClockRollover c.now_ms).1 = true
    · exact hg.1 hroll ⟨i, hi, hmem⟩
    · have hnext := le_of_takeExpired (Bool.eq_false_iff.mpr hroll) htaken
      rw [hawaits.deadline hmem] at hnext
      exact hle.trans (BitVec.le_def.mp hnext)
  · intro hdue
    obtain ⟨hseen, j, hj, _, hexpires⟩ := hg.2 hlate hover hdue
    cases hi.symm.trans hj
    by_cases hroll : (s.timers.detectClockRollover c.now_ms).1 = true
    · rw [takeExpired_of_rollover hseen hroll]
      exact hmem
    · have hcalls : s.timers.Calls c := by
        refine ⟨?_, Bool.eq_false_iff.mpr hroll⟩
        rw [hseen, List.isEmpty_eq_false_iff.mpr (List.ne_nil_of_mem hmem)]
      have hdue := hexpires.resolve_left hroll
      exact (h.store.mem_takeExpired_iff_due hcalls).mpr ⟨hmem, hdue.1, hdue.2⟩

/-- A delivery in a round whose timer runs, or has been delivered. -/
theorem deliver_waiting (hover : s.pc.ended = false) (howns : s.Owns (!s.late))
    (hg : s.Guarded (.deliver c)) :
    Told (s.deliver c).late (s.deliver c).handed s.cnacelled s.cancelling ∧
      (s.deliver c).Owns (!(s.deliver c).late) := by
  have hdeliver := howns.deliver c
  have htold := h.told hover
  have hlater : (s.deliver c).late = (s.late || decide (s.due ≤ c.now_ms.toNat)) := by
    change (s.late || (!s.pc.ended && _)) = _
    rw [hover]
    rfl
  have hhanded : (s.deliver c).handed = s.handed + (s.takes c).toNat := rfl
  rw [hlater, hhanded]
  cases hlate : s.late with
  | true =>
    rw [hlate] at htold howns hdeliver
    rw [howns.not_takes] at hdeliver ⊢
    exact ⟨htold, hdeliver⟩
  | false =>
    rw [hlate] at htold howns hdeliver
    have htakes := takes_of_armed h howns hlate hover hg
    have hquiet := htold.resolve_right (by simp)
    rw [htakes] at hdeliver ⊢
    refine ⟨?_, hdeliver⟩
    by_cases hdue : s.due ≤ c.now_ms.toNat
    · exact Or.inr (Or.inl ⟨by simp [hdue], by simp [hdue, hquiet.2.1], hquiet.2.2⟩)
    · exact Or.inl ⟨by simp [hdue], by simp [hdue, hquiet.2.1], hquiet.2.2⟩

theorem deliver_inv (hg : s.Guarded (.deliver c)) : Inv (s.deliver c) := by
  have hstore : StoreInv (s.deliver c).timers [] := h.store.listExpiredCb c
  have hphase := h.phase
  have hlog : (s.deliver c).Log s.pc := h.log
  have hwaits := fun hover howns => deliver_waiting h hover howns hg
  suffices hrest : (s.pc.ended = false →
      Told (s.deliver c).late (s.deliver c).handed s.cnacelled s.cancelling) ∧
      (s.deliver c).Phase s.pc from
    ⟨hstore, h.timeout, h.begun, hrest.1, hlog, hrest.2⟩
  -- between two rounds there is no timer to take
  have hidle : (∀ i, s.timer = some i → i ∉ s.timers.m_timers) → s.takes c = false →
      (s.deliver c).late = s.late ∧ (s.deliver c).handed = s.handed := by
    intro hout htakes
    refine ⟨late_of_unarmed hout hg, ?_⟩
    change s.handed + (s.takes c).toNat = s.handed
    rw [htakes]
    rfl
  cases hpc : s.pc with
  | attempt | arm =>
    rw [hpc] at hphase
    obtain ⟨hlate, htimer, hevent⟩ := hphase
    obtain ⟨hlater, hhanded⟩ := hidle (by simp [htimer]) (takes_of_none htimer)
    rw [hlater, hhanded]
    exact ⟨fun _ => h.told (hpc ▸ rfl), hlater.trans hlate, htimer, hevent⟩
  | addEvent | suspended | resumed =>
    rw [hpc] at hphase
    obtain ⟨htold, howns⟩ := hwaits (hpc ▸ rfl) hphase.1
    exact ⟨fun _ => htold, howns, hphase.2⟩
  | check =>
    rw [hpc] at hphase
    obtain ⟨howns, hevent⟩ := hphase
    have hout : ∀ i, s.timer = some i → i ∉ s.timers.m_timers := by
      obtain ⟨j, hj, hown⟩ := howns
      intro i hi hmem
      cases hj.symm.trans hi
      exact absurd (hown.armed.mp hmem) (by decide)
    obtain ⟨hlater, hhanded⟩ := hidle hout howns.not_takes
    rw [hlater, hhanded]
    have hdeliver := howns.deliver c
    exact ⟨fun _ => h.told (hpc ▸ rfl), hdeliver, hevent⟩
  | returned r now =>
    rw [hpc] at hphase
    exact ⟨nofun, (deliver_late_of_ended (hpc ▸ rfl)).trans hphase⟩
  | timedOut e =>
    rw [hpc] at hphase
    exact ⟨nofun, (deliver_late_of_ended (hpc ▸ rfl)).trans hphase.1, hphase.2⟩

theorem tick_inv {now : Millis} (hle : s.clock ≤ now) : Inv { s with clock := now } :=
  ⟨h.store, h.timeout, BitVec.le_trans h.begun hle, h.told, h.log, h.phase⟩

theorem addEvent_inv (hpc : s.pc = .addEvent) :
    Inv { s with pc := .suspended, registered := true } := by
  obtain ⟨hstore, ht, hbegun, htold, hlog, hphase⟩ := h
  rw [hpc] at htold hlog hphase
  obtain ⟨howns, _, hwoken, hsignal⟩ := hphase
  exact ⟨hstore, ht, hbegun, fun _ => htold rfl, hlog, howns, hwoken,
    fun hsome => Or.inl (hsignal hsome)⟩

theorem triggered_inv (hregistered : s.registered = true) : Inv s.triggered := by
  suffices hphase : s.triggered.Phase s.pc from
    ⟨h.store, h.timeout, h.begun, h.told, h.log, hphase⟩
  have hphase := h.phase
  have hcontra : s.registered ≠ false := by simp [hregistered]
  cases hpc : s.pc with
  | attempt | arm =>
    rw [hpc] at hphase
    exact absurd hphase.2.2.1 hcontra
  | addEvent | resumed | check =>
    rw [hpc] at hphase
    exact absurd hphase.2.1 hcontra
  | suspended =>
    rw [hpc] at hphase
    exact ⟨hphase.1, rfl, fun _ => Or.inr rfl⟩
  | returned r now | timedOut e =>
    rw [hpc] at hphase
    exact hphase

theorem callback_inv (hhanded : 0 < s.handed) : Inv s.callback := by
  unfold callback
  split
  case isTrue hskip =>
    refine ⟨h.store, h.timeout, h.begun, fun hover => ?_, h.log, h.phase⟩
    have hsome := hskip.resolve_left (by simp [show s.pc.ended = false from hover])
    rcases h.told hover with hquiet | hexpired | hexpired
    · omega
    · simp [hexpired.2.2.1] at hsome
    · omega
  case isFalse hrun =>
    obtain ⟨hover, _⟩ := not_or.mp hrun
    have hover := Bool.eq_false_iff.mpr hover
    have hphase := h.phase
    obtain ⟨hlate, hone, hrest⟩ : s.late = true ∧ s.handed = 1 ∧ _ := by
      rcases h.told hover with hquiet | hexpired | hexpired
      · omega
      · exact hexpired
      · omega
    refine ⟨h.store, h.timeout, h.begun, fun _ => Or.inr (Or.inr ⟨hlate, ?_, rfl⟩), h.log, ?_⟩
    · change s.handed - 1 = 0
      omega
    · change Phase _ s.pc
      cases hpc : s.pc with
      | attempt | arm =>
        rw [hpc] at hphase
        exact absurd (hphase.1.symm.trans hlate) (by decide)
      | addEvent =>
        rw [hpc] at hphase
        exact ⟨hphase.1, hphase.2.1, hphase.2.2.1, fun _ => rfl⟩
      | suspended =>
        rw [hpc] at hphase
        exact ⟨hphase.1, hphase.2.1, fun _ => Or.inl rfl⟩
      | resumed | check =>
        rw [hpc] at hphase
        exact hphase
      | returned r now | timedOut e =>
        rw [hpc] at hover
        cases hover

theorem cancelEvent_inv (hg : s.pc ≠ .addEvent) : Inv s.cancelEvent := by
  have htold : s.pc.ended = false → Told s.late s.handed s.cnacelled false := by
    intro hover
    rcases h.told hover with hquiet | hexpired | hexpired
    · exact Or.inl ⟨hquiet.1, hquiet.2.1, hquiet.2.2.1, rfl⟩
    · exact Or.inr (Or.inl ⟨hexpired.1, hexpired.2.1, hexpired.2.2.1, rfl⟩)
    · exact Or.inr (Or.inr hexpired)
  unfold cancelEvent
  split
  case isTrue hregistered =>
    have hnext := triggered_inv h hregistered
    refine ⟨h.store, h.timeout, h.begun, htold, h.log, ?_⟩
    have hphase := hnext.phase
    change s.triggered.Phase s.pc at hphase
    change Phase _ s.pc
    cases hpc : s.pc with
    | addEvent => exact absurd hpc hg
    | suspended =>
      rw [hpc] at hphase
      exact ⟨hphase.1, rfl, fun _ => Or.inr rfl⟩
    | _ =>
      rw [hpc] at hphase
      exact hphase
  case isFalse hregistered =>
    refine ⟨h.store, h.timeout, h.begun, htold, h.log, ?_⟩
    have hphase := h.phase
    change Phase _ s.pc
    cases hpc : s.pc with
    | addEvent => exact absurd hpc hg
    | suspended =>
      rw [hpc] at hphase
      have hwoken : s.woken = true := by
        rw [hphase.2.1, Bool.eq_false_iff.mpr hregistered]
        rfl
      exact ⟨hphase.1, hphase.2.1, fun _ => Or.inr hwoken⟩
    | _ =>
      rw [hpc] at hphase
      exact hphase

theorem resume_inv (hpc : s.pc = .suspended) (hwoken : s.woken = true) :
    Inv { s with pc := .resumed, woken := false } := by
  obtain ⟨hstore, ht, hbegun, htold, hlog, hphase⟩ := h
  rw [hpc] at htold hlog hphase
  have hregistered : s.registered = false := by
    have heq := hphase.2.1
    rw [hwoken] at heq
    exact Bool.not_eq_true' _ |>.mp heq.symm
  exact ⟨hstore, ht, hbegun, fun _ => htold rfl, hlog, hphase.1, hregistered, rfl⟩

theorem cancel_spec (hpc : s.pc = .resumed) : ∃ timers,
    s.cancel = some { s with pc := .check, timers := timers } ∧
      Inv { s with pc := .check, timers := timers } := by
  obtain ⟨hstore, ht, hbegun, htold, hlog, hphase⟩ := h
  rw [hpc] at htold hlog hphase
  obtain ⟨⟨i, hi, hown⟩, hevent⟩ := hphase
  obtain ⟨b, timers, hcancel, hown'⟩ := hown.cancel
  obtain ⟨m_next, hawaits, _⟩ := hown'.awaits
  refine ⟨timers, ?_, hawaits.inv, ht, hbegun, fun _ => htold rfl, hlog, ⟨i, hi, hown'⟩, hevent⟩
  unfold cancel
  simp only [hi, hcancel]
  rfl

theorem check_inv (hpc : s.pc = .check) (hg : s.Guarded .check) : Inv s.check := by
  obtain ⟨hstore, ht, hbegun, htold, hlog, hphase⟩ := h
  rw [hpc] at htold hlog hphase
  have htold := htold rfl
  unfold check
  cases hc : s.cnacelled with
  | none =>
    rw [hc] at htold
    have hhanded : s.handed = 0 := hg.resolve_right (by simp [hc])
    have hquiet : s.late = false := by
      rcases htold with hquiet | hexpired | hexpired
      · exact hquiet.1
      · omega
      · cases hexpired.2.2
    exact ⟨hstore, ht, hbegun, fun _ => htold, hlog, hquiet, rfl, hphase.2⟩
  | some e =>
    rw [hc] at htold
    obtain ⟨hlate, _, heq⟩ := (htold.resolve_left (by simp)).resolve_left (by simp)
    exact ⟨hstore, ht, hbegun, nofun, hlog, hlate, Option.some.inj heq⟩

omit h in
theorem foreign_spec {op : TimerOp} (hop : s.foreign op = true) :
    (∀ c, op ≠ .listExpiredCb c) ∧
      ∀ i, s.timer = some i → op.target ≠ some i ∧ op ≠ .release i := by
  constructor
  · intro c heq
    rw [heq] at hop
    cases hop
  · intro i hi
    unfold foreign at hop
    split at hop
    · cases hop
    · rw [hi] at hop
      exact of_decide_eq_true hop

theorem timer_inv {op : TimerOp} (hop : s.foreign op = true) {timers : TimerManager}
    (hnext : s.timers.next op = some timers) : Inv { s with timers := timers } := by
  obtain ⟨hlist, htarget⟩ := foreign_spec hop
  have hstep := next_sound hnext
  have howns : ∀ armed, s.Owns armed → Owns { s with timers := timers } armed := by
    intro armed howns
    obtain ⟨i, hi, hown⟩ := howns
    exact ⟨i, hi, hown.step hlist (htarget i hi).1 (htarget i hi).2 hstep⟩
  refine ⟨(step_effect h.store hstep).inv, h.timeout, h.begun, h.told, h.log, ?_⟩
  have hphase := h.phase
  change Phase _ s.pc
  cases hpc : s.pc with
  | addEvent | suspended | resumed | check =>
    rw [hpc] at hphase
    exact ⟨howns _ hphase.1, hphase.2⟩
  | _ =>
    rw [hpc] at hphase
    exact hphase

theorem step_inv (hg : s.Guarded a) (hs : system.step s a s') : Inv s' := by
  cases a with
  | tick now =>
    obtain ⟨hle, heq⟩ := Option.ite_none_right_eq_some.mp hs
    cases heq
    exact tick_inv h hle
  | result r =>
    obtain ⟨hpc, heq⟩ := Option.ite_none_right_eq_some.mp hs
    cases heq
    exact result_inv h hpc hg
  | arm address =>
    obtain ⟨hpc, harm⟩ := Option.ite_none_right_eq_some.mp hs
    exact arm_inv h hpc hg harm
  | addEvent =>
    obtain ⟨hpc, heq⟩ := Option.ite_none_right_eq_some.mp hs
    cases heq
    exact addEvent_inv h hpc
  | event =>
    obtain ⟨hregistered, heq⟩ := Option.ite_none_right_eq_some.mp hs
    cases heq
    exact triggered_inv h hregistered
  | deliver c =>
    obtain ⟨_, heq⟩ := Option.ite_none_right_eq_some.mp hs
    cases heq
    exact deliver_inv h hg
  | callback =>
    obtain ⟨hhanded, heq⟩ := Option.ite_none_right_eq_some.mp hs
    cases heq
    exact callback_inv h hhanded
  | cancelEvent =>
    obtain ⟨_, heq⟩ := Option.ite_none_right_eq_some.mp hs
    cases heq
    exact cancelEvent_inv h hg
  | resume =>
    obtain ⟨⟨hpc, hwoken⟩, heq⟩ := Option.ite_none_right_eq_some.mp hs
    cases heq
    exact resume_inv h hpc hwoken
  | cancel =>
    obtain ⟨hpc, hcancel⟩ := Option.ite_none_right_eq_some.mp hs
    obtain ⟨timers, heq, hinv⟩ := cancel_spec h hpc
    cases heq.symm.trans hcancel
    exact hinv
  | check =>
    obtain ⟨hpc, heq⟩ := Option.ite_none_right_eq_some.mp hs
    cases heq
    exact check_inv h hpc hg
  | timer op =>
    obtain ⟨hop, hmap⟩ := Option.ite_none_right_eq_some.mp hs
    obtain ⟨timers, hnext, rfl⟩ := Option.map_eq_some_iff.mp hmap
    exact timer_inv h hop hnext

end Steps

/-- The steps that are left to the threads of a call that is to time out. -/
def left (s : TimedIo) : Nat := 2 * s.handed + s.cancelling.toNat + s.pc.rank

/-- The step is one of the threads, is guarded, and comes closer to the end. -/
def Nearer (s : TimedIo) (a : TimedIoAct) (s' : TimedIo) : Prop :=
  a.own = true ∧ s.Guarded a ∧ system.step s a s' ∧ s'.late = s.late ∧ s'.left < s.left

theorem callback_nearer (hhanded : s.handed = 1) (hover : s.pc.ended = false)
    (hnone : s.cnacelled = none) (hidle : s.cancelling = false) :
    s.Nearer .callback { s with
      handed := s.handed - 1, cnacelled := some .ETIMEDOUT, cancelling := true } := by
  have hcallback : s.callback = { s with
      handed := s.handed - 1, cnacelled := some .ETIMEDOUT, cancelling := true } :=
    if_neg (by simp [hover, hnone])
  refine ⟨rfl, trivial, ?_, rfl, ?_⟩
  · rw [← hcallback]
    exact if_pos (by omega)
  · simp [left, hhanded, hidle]

theorem nearer_of_rank {pc : TimedIoPc} (pc' : TimedIoPc) (hpc : s.pc = pc) (hpc' : s'.pc = pc')
    (hrank : pc'.rank < pc.rank) (hs : a.own = true ∧ s.Guarded a ∧ system.step s a s')
    (hsame : (s'.late, s'.handed, s'.cancelling) = (s.late, s.handed, s.cancelling)) :
    s.Nearer a s' := by
  obtain ⟨hlate, hrest⟩ := Prod.mk.inj hsame
  obtain ⟨hhanded, hcancelling⟩ := Prod.mk.inj hrest
  refine ⟨hs.1, hs.2.1, hs.2.2, hlate, ?_⟩
  unfold left
  rw [hhanded, hcancelling, hpc, hpc']
  exact Nat.add_lt_add_left hrank _

/-- A call that is to time out is not waiting for anything else. -/
theorem Inv.nearer (h : Inv s) (hover : s.pc.ended = false) (hlate : s.late = true) :
    ∃ a s', s.Nearer a s' := by
  have hphase := h.phase
  rcases (h.told hover).resolve_left (by simp [hlate]) with ⟨_, hhanded, hnone, hidle⟩ | hset
  · exact ⟨_, _, callback_nearer hhanded hover hnone hidle⟩
  have hset : s.cnacelled = some .ETIMEDOUT := hset.2.2
  cases hpc : s.pc with
  | attempt | arm =>
    rw [hpc] at hphase
    exact absurd (hphase.1.symm.trans hlate) (by decide)
  | addEvent =>
    exact ⟨.addEvent, _,
      nearer_of_rank .suspended hpc rfl (by decide) ⟨rfl, trivial, if_pos hpc⟩ rfl⟩
  | suspended =>
    rw [hpc] at hphase
    obtain ⟨_, hregistered, hsignal⟩ := hphase
    cases hwoken : s.woken with
    | true =>
      exact ⟨.resume, _,
        nearer_of_rank .resumed hpc rfl (by decide) ⟨rfl, trivial, if_pos ⟨hpc, hwoken⟩⟩ rfl⟩
    | false =>
      have hcancelling := (hsignal (by rw [hset]; rfl)).resolve_right (by simp [hwoken])
      have hregistered : s.registered = true := by simpa [hwoken] using hregistered
      have heq : s.cancelEvent = { s.triggered with cancelling := false } := if_pos hregistered
      refine ⟨.cancelEvent, _, rfl, by simp [Guarded, hpc], if_pos hcancelling, ?_, ?_⟩
      · rw [heq]
        rfl
      · rw [heq]
        simp [left, triggered, hcancelling]
  | resumed =>
    obtain ⟨timers, hcancel, _⟩ := cancel_spec h hpc
    exact ⟨.cancel, _,
      nearer_of_rank .check hpc rfl (by decide) ⟨rfl, trivial, (if_pos hpc).trans hcancel⟩ rfl⟩
  | check =>
    have heq : s.check = { s with pc := .timedOut .ETIMEDOUT } := by
      unfold check
      rw [hset]
    refine ⟨.check, _,
      nearer_of_rank (.timedOut .ETIMEDOUT) hpc ?_ (by decide) ⟨rfl, ?_, if_pos hpc⟩ ?_⟩
    · rw [heq]
    · exact Or.inr (by rw [hset]; rfl)
    · rw [heq]
  | returned r now | timedOut e =>
    rw [hpc] at hover
    cases hover

theorem Inv.leads (h : Inv s) (hlate : s.late = true) : s.Leads := by
  refine Run.exists_of_potential (fun s => Inv s ∧ s.late = true) _ left ?_ ⟨h, hlate⟩
  intro s hs
  obtain ⟨h, hlate⟩ := hs
  cases hover : s.pc.ended with
  | true =>
    have hphase := h.phase
    cases hpc : s.pc with
    | returned r now =>
      rw [hpc] at hphase
      exact absurd (hlate.symm.trans hphase) (by decide)
    | timedOut e =>
      rw [hpc] at hphase
      exact Or.inl (congrArg TimedIoPc.timedOut hphase.2)
    | _ =>
      rw [hpc] at hover
      cases hover
  | false =>
    obtain ⟨a, s', hown, hg, hstep, hsame, hlt⟩ := h.nearer hover hlate
    exact Or.inr ⟨a, s', ⟨hstep, hown⟩, ⟨step_inv h hg hstep, hsame.trans hlate⟩, hlt⟩

theorem Inv.honours (h : Inv s) : s.Honours := by
  have hphase := h.phase
  have hlog := h.log
  refine ⟨fun r now hpc => ?_, fun r hr hfinal => ?_, fun e hpc => ?_, h.leads⟩
  · rw [hpc] at hlog
    exact hlog
  · cases hpc : s.pc with
    | returned x now =>
      rw [hpc] at hlog
      obtain ⟨_, _, rs, hrs, hnot⟩ := hlog
      rw [hrs] at hr
      rcases List.mem_append.mp hr with hr | hr
      · exact absurd hfinal (hnot r hr)
      · exact ⟨now, by rw [List.mem_singleton.mp hr]⟩
    | _ =>
      rw [hpc] at hlog
      exact absurd hfinal (hlog r hr)
  · rw [hpc] at hphase
    exact ⟨hphase.2, hphase.1⟩

variable {s₀ : TimedIo} {tr : List (Move TimedIo TimedIoAct)}

/-- From any timers, at any time and with any timeout: a run in which nothing
gets in the way of the timers honours the timeout in every state it reaches. -/
theorem honours_of_guarded (hinit : system.init s₀) (hrun : Run system s₀ tr s)
    (hg : ∀ mv ∈ tr, mv.pre.Guarded mv.act) : s.Honours := by
  obtain ⟨timers, clock, timeout, htimers, ht, rfl⟩ := hinit
  exact (hrun.invariant_of_guard Inv Guarded step_inv (begin_inv htimers ht) hg).honours

theorem begin_init (clock timeout : Millis) (h : timeout ≠ -1) :
    system.init (begin_ (.new 0) clock timeout) :=
  ⟨_, _, _, ⟨_, [], ⟨0, rfl⟩, .nil _⟩, h, rfl⟩

/-- The time from which a call is observed here. -/
def noon : Millis := 7200000

def deliverAt (now : Millis) : TimedIoAct := .deliver ⟨[], now, false, 48, now, []⟩

/-- The underlying call fails, and the fiber waits. -/
def waitFrom (address : Nat) : List TimedIoAct :=
  [.result (.error .EAGAIN), .arm address, .addEvent]

/-- The event is triggered. -/
def wakeUp : List TimedIoAct := [.event, .resume, .cancel, .check]

def expire : List TimedIoAct := [.callback, .cancelEvent, .resume, .cancel, .check]

/-- A wake-up for nothing after 30 ms, and no delivery until the second timer is due. -/
def oneRetry : List TimedIoAct :=
  .result (.error .EINTR) :: waitFrom 16 ++ .tick (noon + 30) :: wakeUp ++ waitFrom 32 ++
    .tick (noon + 130) :: deliverAt (noon + 130) :: expire

theorem honours_of_guarded_retry : ∃ s₀ tr s, system.init s₀ ∧ Run system s₀ tr s ∧
    tr.map Move.act = oneRetry ∧ (∀ mv ∈ tr, mv.pre.Guarded mv.act) ∧
    s.pc = .timedOut .ETIMEDOUT ∧ s.Honours := by
  have hrun : (traceAll exec (begin_ (.new 0) noon 100) oneRetry).map
      (fun r => (decide (∀ mv ∈ r.1, mv.pre.Guarded mv.act), r.2.pc)) =
        some (true, .timedOut .ETIMEDOUT) := by decide +kernel
  obtain ⟨tr, s, hr, hacts, hobs⟩ := Run.exists_of_traceAll exec step_of_exec _ hrun
  obtain ⟨hguarded, hpc⟩ := Prod.mk.inj hobs
  have hinit := begin_init noon 100 (by decide)
  have hg := of_decide_eq_true hguarded
  exact ⟨_, tr, s, hinit, hr, hacts, hg, hpc, honours_of_guarded hinit hr hg⟩

/-- Timers were delivered after the timeout, and the call is waiting for something else. -/
def stuck (s : TimedIo) : Bool :=
  s.late && s.pc = .suspended && !s.woken && s.handed = 0 && !s.cancelling

theorem not_honours_of_stuck (h : s.stuck = true) : ¬ s.Honours := by
  intro hhonours
  simp only [stuck, Bool.and_eq_true, decide_eq_true_eq, Bool.not_eq_true'] at h
  obtain ⟨⟨⟨⟨hlate, hpc⟩, hwoken⟩, hhanded⟩, hcancelling⟩ := h
  obtain ⟨tr, t, hrun, hend⟩ := hhonours.ends hlate
  cases hrun with
  | nil =>
    rw [hpc] at hend
    cases hend
  | @cons _ t _ a _ hstep _ =>
    obtain ⟨hs, hown⟩ := hstep
    cases a with
    | tick now | result r | arm address | event | deliver c | timer op => cases hown
    | _ => simp [system, exec, hpc, hwoken, hhanded, hcancelling] at hs

/-- A wake-up for nothing after 90 ms, and deliveries after 150 ms and 190 ms. -/
def lateRetry : List TimedIoAct :=
  waitFrom 16 ++ .tick (noon + 90) :: wakeUp ++ waitFrom 32 ++
    .tick (noon + 150) :: deliverAt (noon + 150) ::
    .tick (noon + 190) :: deliverAt (noon + 190) :: expire

/-- With a timeout of 100 ms, the delivery after 150 ms finds only the timer
that was armed after 90 ms, and the call times out after 190 ms. -/
theorem retry_extends_timeout : ∃ s₀ tr s, system.init s₀ ∧ Run system s₀ tr s ∧
    tr.map Move.act = lateRetry ∧ s₀.timeout = 100 ∧
    s.pc = .timedOut .ETIMEDOUT ∧ s.clock = s.start + 190 ∧ ∃ mv ∈ tr, ¬ mv.post.Honours := by
  have hrun : (traceAll exec (begin_ (.new 0) noon 100) lateRetry).map
      (fun r => (r.1.any fun mv => mv.post.stuck, r.2.pc, decide (r.2.clock = r.2.start + 190))) =
        some (true, .timedOut .ETIMEDOUT, true) := by decide +kernel
  obtain ⟨tr, s, hr, hacts, hobs⟩ := Run.exists_of_traceAll exec step_of_exec _ hrun
  obtain ⟨hstuck, hobs⟩ := Prod.mk.inj hobs
  obtain ⟨hpc, hclock⟩ := Prod.mk.inj hobs
  obtain ⟨mv, hmv, hstuck⟩ := List.any_eq_true.mp hstuck
  exact ⟨_, tr, s, begin_init noon 100 (by decide), hr, hacts, rfl, hpc, of_decide_eq_true hclock,
    mv, hmv, not_honours_of_stuck hstuck⟩

end TimedIo

end FiberAsync
