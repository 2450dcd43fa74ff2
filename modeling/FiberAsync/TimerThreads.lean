import FiberAsync.TimerRuns

/-!
# Threads that share a timer manager

`add_timer` reads the clock before it takes the lock, and so does
`listExpiredCb`, which also looks at the set under the read lock in between and
reads the clock again in the loop that it runs under the write lock. `reset`
compares the period before it takes the lock. The other operations are one section
each. The clock never goes back, and it may move between any two steps.
-/

namespace FiberAsync

set_option autoImplicit false

open Runs TimerManager

inductive TimerPc where
  | out
  /-- in `add_timer`, the timer constructed -/
  | adding (c : TimerCall)
  /-- in `listExpiredCb`, the clock read -/
  | reading (cbs : List (Option Callback)) (now_ms : Millis)
  /-- in `listExpiredCb`, before the write lock -/
  | expiring (cbs : List (Option Callback)) (now_ms : Millis)
  /-- in the loop of `listExpiredCb`, with the rest of `expired` -/
  | delivering (cbs : List (Option Callback)) (rest : List TimerPtr)
  /-- in `reset`, which does not keep the period that it saw -/
  | resetting (c : ResetCall)
  deriving DecidableEq, Repr

def TimerPc.now_ms : TimerPc → Option Millis
  | reading _ now_ms | expiring _ now_ms => some now_ms
  | out | adding _ | delivering _ _ | resetting _ => none

structure TimerThreads where
  manager : TimerManager
  clock : Millis
  /-- the thread that holds the write lock between steps -/
  writer : Option Tid
  pc : Tid → TimerPc

inductive TimerAct where
  | tick (now : Millis)
  | add_timer (t : Tid) (address : Nat) (ms : Millis) (cb : Option Callback) (recurring : Bool)
  | listExpiredCb (t : Tid) (cbs : List (Option Callback))
  /-- the section under the read lock -/
  | check (t : Tid)
  /-- the section under the write lock of a thread in `add_timer` -/
  | add (t : Tid)
  /-- a thread in `listExpiredCb` takes the write lock and fills `expired` -/
  | expire (t : Tid) (nowAddress : Nat)
  /-- one turn of its loop, or its return -/
  | deliver (t : Tid)
  | cancel (i : TimerPtr)
  | refresh (i : TimerPtr)
  /-- a thread calls `reset` and compares the period, without the lock -/
  | reset (t : Tid) (i : TimerPtr) (ms : Millis) (from_now : Bool)
  /-- the section under the write lock of a thread in `reset` -/
  | restart (t : Tid)
  | getNextTimer
  | release (i : TimerPtr)
  deriving DecidableEq, Repr

namespace TimerThreads

/-- The manager is constructed when the clock reads `start`. -/
def initial (start : Millis) : TimerThreads where
  manager := .new start
  clock := start
  writer := none
  pc := fun _ => .out

section Steps

variable (s : TimerThreads)

def setPc (t : Tid) (pc : TimerPc) : TimerThreads := { s with pc := Function.update s.pc t pc }

def locked (op : TimerOp) : Option TimerThreads :=
  if s.writer = none then (s.manager.next op).map fun m => { s with manager := m } else none

def expireCall (cbs : List (Option Callback)) (now_ms : Millis) (nowAddress : Nat) : ExpireCall :=
  ⟨cbs, now_ms, false, nowAddress, s.clock, []⟩

def enter (t : Tid) (pc : TimerPc) : Option TimerThreads :=
  if s.pc t = .out then some (s.setPc t pc) else none

def check (t : Tid) : Option TimerThreads :=
  match s.pc t with
  | .reading cbs now_ms =>
    if s.writer = none then
      some (s.setPc t (if s.manager.m_timers = [] then .out else .expiring cbs now_ms))
    else none
  | _ => none

def add (t : Tid) : Option TimerThreads :=
  match s.pc t with
  | .adding c => (s.locked (.add_timer c)).map fun s => s.setPc t .out
  | _ => none

def expire (t : Tid) (nowAddress : Nat) : Option TimerThreads :=
  match s.pc t with
  | .expiring cbs now_ms =>
    if s.writer = none then
      let (expired, m) := s.manager.takeExpired (s.expireCall cbs now_ms nowAddress)
      some { s.setPc t (.delivering cbs expired) with manager := m, writer := some t }
    else none
  | _ => none

def deliver (t : Tid) : Option TimerThreads :=
  match s.pc t with
  | .delivering cbs (i :: rest) =>
    let e := Expiry.deliver ⟨s.manager, cbs, s.clock, []⟩ i
    some { s.setPc t (.delivering e.cbs rest) with manager := e.manager }
  | .delivering _ [] => some { s.setPc t .out with writer := none }
  | _ => none

def reset (t : Tid) (i : TimerPtr) (ms : Millis) (from_now : Bool) : Option TimerThreads :=
  if s.pc t = .out ∧ i ∈ s.manager.live then
    if ms = (s.manager.heap i).m_ms ∧ ¬ from_now then some s
    else some (s.setPc t (.resetting ⟨i, ms, from_now, (s.manager.heap i).m_ms⟩))
  else none

def restart (t : Tid) : Option TimerThreads :=
  match s.pc t with
  | .resetting c => (s.locked (c.op s.clock)).map fun s => s.setPc t .out
  | _ => none

def next : TimerAct → Option TimerThreads
  | .tick now => if s.clock ≤ now then some { s with clock := now } else none
  | .add_timer t address ms cb recurring =>
    s.enter t (.adding ⟨address, ms, cb, recurring, s.clock⟩)
  | .listExpiredCb t cbs => s.enter t (.reading cbs s.clock)
  | .check t => s.check t
  | .add t => s.add t
  | .expire t nowAddress => s.expire t nowAddress
  | .deliver t => s.deliver t
  | .cancel i => s.locked (.cancel i)
  | .refresh i => s.locked (.refresh i s.clock)
  | .reset t i ms from_now => s.reset t i ms from_now
  | .restart t => s.restart t
  | .getNextTimer => s.locked (.getNextTimer s.clock)
  | .release i => s.locked (.release i)

end Steps

def system : System TimerThreads TimerAct where
  init s := ∃ start, s = initial start
  step s a s' := s.next a = some s'

variable {s s' : TimerThreads} {a : TimerAct} {t u : Tid} {pc : TimerPc}

theorem next_sound (h : s.next a = some s') : system.step s a s' := h

/-- What one step can do. -/
inductive Stepped (s : TimerThreads) : TimerAct → TimerThreads → Prop where
  | tick {now : Millis} : s.clock ≤ now → Stepped s (.tick now) { s with clock := now }
  | add_timer {t : Tid} {address : Nat} {ms : Millis} {cb : Option Callback} {recurring : Bool} :
      s.pc t = .out → Stepped s (.add_timer t address ms cb recurring)
        (s.setPc t (.adding ⟨address, ms, cb, recurring, s.clock⟩))
  | listExpiredCb {t : Tid} {cbs : List (Option Callback)} : s.pc t = .out →
      Stepped s (.listExpiredCb t cbs) (s.setPc t (.reading cbs s.clock))
  | check {t : Tid} {cbs : List (Option Callback)} {now_ms : Millis} {pc : TimerPc} :
      s.pc t = .reading cbs now_ms → s.writer = none → pc = .out ∨ pc = .expiring cbs now_ms →
      Stepped s (.check t) (s.setPc t pc)
  | add {t : Tid} {c : TimerCall} {m : TimerManager} : s.pc t = .adding c → s.writer = none →
      s.manager.next (.add_timer c) = some m →
      Stepped s (.add t) (setPc { s with manager := m } t .out)
  | expire {t : Tid} {nowAddress : Nat} {cbs : List (Option Callback)} {now_ms : Millis} :
      s.pc t = .expiring cbs now_ms → s.writer = none → Stepped s (.expire t nowAddress)
        { s.setPc t (.delivering cbs
            (s.manager.takeExpired (s.expireCall cbs now_ms nowAddress)).1) with
          manager := (s.manager.takeExpired (s.expireCall cbs now_ms nowAddress)).2
          writer := some t }
  | deliver {t : Tid} {cbs : List (Option Callback)} {i : TimerPtr} {rest : List TimerPtr} :
      s.pc t = .delivering cbs (i :: rest) → Stepped s (.deliver t)
        { s.setPc t (.delivering (Expiry.deliver ⟨s.manager, cbs, s.clock, []⟩ i).cbs rest) with
          manager := (Expiry.deliver ⟨s.manager, cbs, s.clock, []⟩ i).manager }
  | leave {t : Tid} {cbs : List (Option Callback)} : s.pc t = .delivering cbs [] →
      Stepped s (.deliver t) { s.setPc t .out with writer := none }
  | kept {t : Tid} {i : TimerPtr} {ms : Millis} {from_now : Bool} : s.pc t = .out →
      i ∈ s.manager.live → ms = (s.manager.heap i).m_ms ∧ ¬ from_now →
      Stepped s (.reset t i ms from_now) s
  | compared {t : Tid} {i : TimerPtr} {ms : Millis} {from_now : Bool} : s.pc t = .out →
      ¬ (ms = (s.manager.heap i).m_ms ∧ ¬ from_now) → Stepped s (.reset t i ms from_now)
        (s.setPc t (.resetting ⟨i, ms, from_now, (s.manager.heap i).m_ms⟩))
  | restart {t : Tid} {c : ResetCall} {m : TimerManager} : s.pc t = .resetting c →
      s.writer = none → s.manager.next (c.op s.clock) = some m →
      Stepped s (.restart t) (setPc { s with manager := m } t .out)
  | locked {a : TimerAct} {op : TimerOp} {m : TimerManager} : s.writer = none →
      s.manager.next op = some m → Stepped s a { s with manager := m }

theorem locked_eq_some {op : TimerOp} (h : s.locked op = some s') :
    ∃ m, s.writer = none ∧ s.manager.next op = some m ∧ s' = { s with manager := m } := by
  obtain ⟨hw, h⟩ := Option.ite_none_right_eq_some.mp h
  obtain ⟨m, hm, heq⟩ := Option.map_eq_some_iff.mp h
  exact ⟨m, hw, hm, heq.symm⟩

theorem enter_eq_some (h : s.enter t pc = some s') : s.pc t = .out ∧ s' = s.setPc t pc := by
  obtain ⟨hpc, heq⟩ := Option.ite_none_right_eq_some.mp h
  exact ⟨hpc, (Option.some.inj heq).symm⟩

theorem check_eq_some (h : s.check t = some s') : ∃ cbs now_ms pc,
    s.pc t = .reading cbs now_ms ∧ s.writer = none ∧ (pc = .out ∨ pc = .expiring cbs now_ms) ∧
      s' = s.setPc t pc := by
  unfold check at h
  split at h
  case h_1 cbs now_ms hpc =>
    obtain ⟨hw, heq⟩ := Option.ite_none_right_eq_some.mp h
    refine ⟨cbs, now_ms, _, hpc, hw, ?_, (Option.some.inj heq).symm⟩
    split
    · exact Or.inl rfl
    · exact Or.inr rfl
  case h_2 => cases h

theorem add_eq_some (h : s.add t = some s') : ∃ c m, s.pc t = .adding c ∧ s.writer = none ∧
    s.manager.next (.add_timer c) = some m ∧ s' = setPc { s with manager := m } t .out := by
  unfold add at h
  split at h
  case h_1 c hpc =>
    obtain ⟨s₁, hs₁, heq⟩ := Option.map_eq_some_iff.mp h
    obtain ⟨m, hw, hm, rfl⟩ := locked_eq_some hs₁
    exact ⟨c, m, hpc, hw, hm, heq.symm⟩
  case h_2 => cases h

theorem reset_eq_some {i : TimerPtr} {ms : Millis} {from_now : Bool}
    (h : s.reset t i ms from_now = some s') : s.pc t = .out ∧ i ∈ s.manager.live ∧
      ((ms = (s.manager.heap i).m_ms ∧ ¬ from_now) ∧ s' = s ∨
        ¬ (ms = (s.manager.heap i).m_ms ∧ ¬ from_now) ∧
          s' = s.setPc t (.resetting ⟨i, ms, from_now, (s.manager.heap i).m_ms⟩)) := by
  obtain ⟨⟨hpc, hi⟩, h⟩ := Option.ite_none_right_eq_some.mp h
  refine ⟨hpc, hi, ?_⟩
  split at h
  case isTrue hkeep => exact Or.inl ⟨hkeep, (Option.some.inj h).symm⟩
  case isFalse hgo => exact Or.inr ⟨hgo, (Option.some.inj h).symm⟩

theorem restart_eq_some (h : s.restart t = some s') : ∃ c m, s.pc t = .resetting c ∧
    s.writer = none ∧ s.manager.next (c.op s.clock) = some m ∧
    s' = setPc { s with manager := m } t .out := by
  unfold restart at h
  split at h
  case h_1 c hpc =>
    obtain ⟨s₁, hs₁, heq⟩ := Option.map_eq_some_iff.mp h
    obtain ⟨m, hw, hm, rfl⟩ := locked_eq_some hs₁
    exact ⟨c, m, hpc, hw, hm, heq.symm⟩
  case h_2 => cases h

theorem expire_eq_some {nowAddress : Nat} (h : s.expire t nowAddress = some s') :
    ∃ cbs now_ms, s.pc t = .expiring cbs now_ms ∧ s.writer = none ∧
      s' = { s.setPc t (.delivering cbs
            (s.manager.takeExpired (s.expireCall cbs now_ms nowAddress)).1) with
          manager := (s.manager.takeExpired (s.expireCall cbs now_ms nowAddress)).2
          writer := some t } := by
  unfold expire at h
  split at h
  case h_1 cbs now_ms hpc =>
    obtain ⟨hw, heq⟩ := Option.ite_none_right_eq_some.mp h
    exact ⟨cbs, now_ms, hpc, hw, (Option.some.inj heq).symm⟩
  case h_2 => cases h

theorem deliver_eq_some (h : s.deliver t = some s') :
    (∃ cbs i rest, s.pc t = .delivering cbs (i :: rest) ∧
      s' = { s.setPc t (.delivering (Expiry.deliver ⟨s.manager, cbs, s.clock, []⟩ i).cbs rest) with
        manager := (Expiry.deliver ⟨s.manager, cbs, s.clock, []⟩ i).manager }) ∨
    ∃ cbs, s.pc t = .delivering cbs [] ∧ s' = { s.setPc t .out with writer := none } := by
  unfold deliver at h
  split at h
  case h_1 cbs i rest hpc => exact Or.inl ⟨cbs, i, rest, hpc, (Option.some.inj h).symm⟩
  case h_2 cbs hpc => exact Or.inr ⟨cbs, hpc, (Option.some.inj h).symm⟩
  case h_3 => cases h

theorem stepped (h : s.next a = some s') : Stepped s a s' := by
  have hlocked : ∀ {op}, s.locked op = some s' → Stepped s a s' := by
    intro op h
    obtain ⟨m, hw, hm, rfl⟩ := locked_eq_some h
    exact .locked hw hm
  cases a with
  | tick now =>
    obtain ⟨hle, heq⟩ := Option.ite_none_right_eq_some.mp h
    cases heq
    exact .tick hle
  | add_timer t address ms cb recurring =>
    obtain ⟨hpc, rfl⟩ := enter_eq_some h
    exact .add_timer hpc
  | listExpiredCb t cbs =>
    obtain ⟨hpc, rfl⟩ := enter_eq_some h
    exact .listExpiredCb hpc
  | check t =>
    obtain ⟨cbs, now_ms, pc, hpc, hw, hor, rfl⟩ := check_eq_some h
    exact .check hpc hw hor
  | add t =>
    obtain ⟨c, m, hpc, hw, hm, rfl⟩ := add_eq_some h
    exact .add hpc hw hm
  | expire t nowAddress =>
    obtain ⟨cbs, now_ms, hpc, hw, rfl⟩ := expire_eq_some h
    exact .expire hpc hw
  | deliver t =>
    rcases deliver_eq_some h with ⟨cbs, i, rest, hpc, rfl⟩ | ⟨cbs, hpc, rfl⟩
    · exact .deliver hpc
    · exact .leave hpc
  | reset t i ms from_now =>
    rcases reset_eq_some h with ⟨hpc, hi, ⟨hkeep, rfl⟩ | ⟨hgo, rfl⟩⟩
    · exact .kept hpc hi hkeep
    · exact .compared hpc hgo
  | restart t =>
    obtain ⟨c, m, hpc, hw, hm, rfl⟩ := restart_eq_some h
    exact .restart hpc hw hm
  | cancel | refresh | getNextTimer | release => exact hlocked h

theorem setPc_self : (s.setPc t pc).pc t = pc := Function.update_self _ _ _

theorem setPc_of_ne (h : u ≠ t) : (s.setPc t pc).pc u = s.pc u := Function.update_of_ne h _ _

/-- The thread has delivered `out` of the batch that a call took from `m`, with
the readings in `c.ticks`, whatever it will read in the rest of the loop. -/
structure InLoop (s : TimerThreads) (t : Tid) (m : TimerManager) (c : ExpireCall)
    (cbs : List (Option Callback)) (out rest : List TimerPtr) : Prop where
  pc : s.pc t = .delivering cbs rest
  batch : (m.takeExpired c).1 = out ++ rest
  loop : ∀ ticks, ∃ clock, Expiry.deliverAll
    ⟨(m.takeExpired c).2, c.cbs, c.clock, c.ticks ++ ticks⟩ out = ⟨s.manager, cbs, clock, ticks⟩

/-- The manager has gone through whole operations, up to the loop of the thread
that holds the write lock. -/
structure SectionOk (s : TimerThreads) : Prop where
  exclusive : ∀ t cbs rest, s.pc t = .delivering cbs rest → s.writer = some t
  free : s.writer = none → Reachable TimerManager.system s.manager
  held : ∀ t, s.writer = some t → ∃ m c cbs out rest,
    Reachable TimerManager.system m ∧ s.InLoop t m c cbs out rest

theorem initial_sectionOk (start : Millis) : (initial start).SectionOk where
  exclusive := fun _ _ _ h => by cases h
  free := fun _ => ⟨_, [], ⟨start, rfl⟩, .nil _⟩
  held := fun _ h => by cases h

namespace SectionOk

theorem not_delivering (h : s.SectionOk) (hw : s.writer = none) (t : Tid)
    (cbs : List (Option Callback)) (rest : List TimerPtr) : s.pc t ≠ .delivering cbs rest := by
  intro hpc
  have hwriter := h.exclusive t cbs rest hpc
  rw [hw] at hwriter
  cases hwriter

theorem moved (h : s.SectionOk) (hpc : ∀ cbs rest, s.pc t ≠ .delivering cbs rest)
    (hpc' : ∀ cbs rest, pc ≠ .delivering cbs rest) : (s.setPc t pc).SectionOk := by
  refine ⟨fun u cbs rest hu => ?_, h.free, fun u hu => ?_⟩
  · by_cases hut : u = t
    · subst u
      rw [setPc_self] at hu
      exact absurd hu (hpc' cbs rest)
    · rw [setPc_of_ne hut] at hu
      exact h.exclusive u cbs rest hu
  · obtain ⟨m, c, cbs, out, rest, hm, hloop⟩ := h.held u hu
    have hut : u ≠ t := fun heq => hpc cbs rest (heq ▸ hloop.pc)
    exact ⟨m, c, cbs, out, rest, hm, (setPc_of_ne hut).trans hloop.pc, hloop.batch, hloop.loop⟩

theorem locked (h : s.SectionOk) (hw : s.writer = none) {op : TimerOp} {m : TimerManager}
    (hm : s.manager.next op = some m) : SectionOk { s with manager := m } := by
  refine ⟨h.exclusive, fun _ => ?_, fun t ht => ?_⟩
  · exact (h.free hw).trans (Run.single (TimerManager.next_sound hm))
  · rw [hw] at ht
    cases ht

theorem expire (h : s.SectionOk) (hw : s.writer = none) (t : Tid) (c : ExpireCall)
    (hc : c.ticks = []) : SectionOk { s.setPc t (.delivering c.cbs (s.manager.takeExpired c).1) with
      manager := (s.manager.takeExpired c).2, writer := some t } := by
  refine ⟨fun u cbs rest hu => ?_, fun hn => (by cases hn), fun u hu => ?_⟩
  · by_cases hut : u = t
    · rw [hut]
    · exact absurd ((setPc_of_ne hut).symm.trans hu) (h.not_delivering hw u cbs rest)
  · cases hu
    refine ⟨s.manager, c, c.cbs, [], _, h.free hw, setPc_self, rfl, fun ticks => ⟨c.clock, ?_⟩⟩
    rw [hc]
    rfl

theorem deliver (h : s.SectionOk) {cbs : List (Option Callback)} {i : TimerPtr}
    {rest : List TimerPtr} (hpc : s.pc t = .delivering cbs (i :: rest)) {e : Expiry}
    (he : e = Expiry.deliver ⟨s.manager, cbs, s.clock, []⟩ i) :
    SectionOk { s.setPc t (.delivering e.cbs rest) with manager := e.manager } := by
  have hw := h.exclusive t cbs _ hpc
  refine ⟨fun u cbs' rest' hu => ?_, fun hn => ?_, fun u hu => ?_⟩
  · by_cases hut : u = t
    · rw [hut]
      exact hw
    · exact h.exclusive u cbs' rest' ((setPc_of_ne hut).symm.trans hu)
  · rw [show s.writer = none from hn] at hw
    cases hw
  · have hut : u = t := Option.some.inj (hu.symm.trans hw)
    subst u
    obtain ⟨m, c, cbs', out, rest', hm, hpc', hbatch, hloop⟩ := h.held t hw
    rw [hpc] at hpc'
    cases hpc'
    obtain ⟨readings, _, hread⟩ := Expiry.deliver_readings s.manager cbs s.clock i
    -- the readings of this turn are those that the call is given next
    refine ⟨m, { c with ticks := c.ticks ++ readings }, e.cbs, out ++ [i], rest, hm, setPc_self,
      ?_, fun ticks => ?_⟩
    · rw [List.append_assoc]
      exact hbatch
    · obtain ⟨clock, hclock⟩ := hloop (readings ++ ticks)
      obtain ⟨clock', hclock'⟩ := hread clock ticks
      refine ⟨clock', ?_⟩
      rw [Expiry.deliverAll_concat, List.append_assoc]
      refine (congrArg (fun e => Expiry.deliver e i) hclock).trans ?_
      rw [hclock', he]

theorem leave (h : s.SectionOk) {cbs : List (Option Callback)}
    (hpc : s.pc t = .delivering cbs []) : SectionOk { s.setPc t .out with writer := none } := by
  have hw := h.exclusive t cbs _ hpc
  refine ⟨fun u cbs' rest' hu => ?_, fun _ => ?_, fun u hu => by cases hu⟩
  · by_cases hut : u = t
    · rw [hut] at hu
      exact absurd (setPc_self.symm.trans hu) (by simp)
    · have hother := h.exclusive u cbs' rest' ((setPc_of_ne hut).symm.trans hu)
      rw [hw] at hother
      exact absurd (Option.some.inj hother).symm hut
  · obtain ⟨m, c, cbs', out, rest', hm, hpc', hbatch, hloop⟩ := h.held t hw
    rw [hpc] at hpc'
    cases hpc'
    obtain ⟨clock, hclock⟩ := hloop []
    rw [List.append_nil] at hbatch hclock
    have hcall : (m.listExpiredCb c).manager = s.manager := by
      rw [listExpiredCb_eq, hbatch, hclock]
    have hstep : TimerManager.system.step m (.listExpiredCb c) (m.listExpiredCb c).manager :=
      ⟨trivial, _, rfl⟩
    exact hcall ▸ hm.trans (Run.single hstep)

theorem step (h : s.SectionOk) (hs : s.next a = some s') : s'.SectionOk := by
  cases stepped hs with
  | tick => exact ⟨h.exclusive, h.free, fun t ht =>
      let ⟨m, c, cbs, out, rest, hm, hloop⟩ := h.held t ht
      ⟨m, c, cbs, out, rest, hm, hloop.pc, hloop.batch, hloop.loop⟩⟩
  | add_timer hpc | listExpiredCb hpc | compared hpc => exact h.moved (by simp [hpc]) (by simp)
  | kept => exact h
  | check hpc hw hor =>
    apply h.moved (by simp [hpc])
    rcases hor with rfl | rfl <;> simp
  | add hpc hw hm | restart hpc hw hm => exact (h.locked hw hm).moved (by simp [hpc]) (by simp)
  | expire hpc hw => exact h.expire hw _ _ rfl
  | deliver hpc => exact h.deliver hpc rfl
  | leave hpc => exact h.leave hpc
  | locked hw hm => exact h.locked hw hm

theorem nodup (h : s.SectionOk) {cbs : List (Option Callback)} {rest : List TimerPtr}
    (hpc : s.pc t = .delivering cbs rest) : rest.Nodup := by
  obtain ⟨m, c, cbs', out, rest', hm, hpc', hbatch, _⟩ := h.held t (h.exclusive t cbs rest hpc)
  rw [hpc] at hpc'
  cases hpc'
  have hnodup := (List.nodup_append.mp ((reachable_inv hm).batch c).nodup).2.1
  rw [hbatch] at hnodup
  exact (List.nodup_append.mp hnodup).2.1

end SectionOk

/-- Whenever no thread holds the write lock, a run of the threads has been a run
of the manager, and the set is consistent. -/
theorem manager_run {start : Millis} {tr : List (Move TimerThreads TimerAct)}
    (h : Run system (initial start) tr s) (hw : s.writer = none) :
    Reachable TimerManager.system s.manager ∧ Consistent s.manager := by
  have hs := h.invariant SectionOk (fun hs hstep => hs.step hstep) (initial_sectionOk start)
  exact ⟨hs.free hw, (reachable_inv (hs.free hw)).consistent⟩

end TimerThreads

end FiberAsync
