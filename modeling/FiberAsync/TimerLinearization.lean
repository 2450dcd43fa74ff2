import FiberAsync.Library.Linearization
import FiberAsync.TimerFrames
import FiberAsync.TimerThreads

/-!
# Calls of a shared timer manager take effect at once

A thread in `add_timer` or `listExpiredCb` reads the clock, waits for the lock,
and in the loop of `listExpiredCb` changes the set timer by timer. Seen from
outside, each call is one step of a manager that is used by one thread, in the
order in which the calls leave the lock. A thread in `reset` that goes on waits for
the lock after its comparison; if another call gives the timer the very period
meanwhile, it inserts the timer again where a lone thread would return at once.
-/

namespace FiberAsync

set_option autoImplicit false

open Runs TimerManager

/-- A `reset` compares with the period that the timer has. -/
def TimerOp.SeesPeriod (m : TimerManager) : TimerOp → Prop
  | .reset i _ _ seen _ => seen = (m.heap i).m_ms
  | _ => True

namespace TimerManager

/-- The manager as one thread uses it, whose calls have nothing in between. -/
def oneThread : System TimerManager TimerOp where
  init := system.init
  step m op m' := op.SeesPeriod m ∧ system.step m op m'

end TimerManager

namespace TimerThreads

variable {s s' : TimerThreads} {a : TimerAct} {t u : Tid} {pc : TimerPc} {m : TimerManager}
  {tr : List (Move TimerThreads TimerAct)} {c : ExpireCall} {cbs : List (Option Callback)}
  {out rest : List TimerPtr} {now_ms : Millis}

/-- The thread enters `add_timer`, `listExpiredCb` or `reset`. -/
def Calls (t : Tid) : TimerAct → Prop
  | .add_timer u _ _ _ _ | .listExpiredCb u _ | .reset u _ _ _ => u = t
  | _ => False

/-- The last call of the thread is `listExpiredCb(cbs)` and has read `now_ms`. -/
def Listing (tr : List (Move TimerThreads TimerAct)) (t : Tid) (cbs : List (Option Callback))
    (now_ms : Millis) : Prop :=
  ∃ x, Last (fun x => Calls t x.act) tr x ∧ x.act = .listExpiredCb t cbs ∧ x.pre.clock = now_ms

/-- The last call of the thread is `add_timer` with the arguments, and has read the clock. -/
def Adding (tr : List (Move TimerThreads TimerAct)) (t : Tid) (c : TimerCall) : Prop :=
  ∃ x, Last (fun x => Calls t x.act) tr x ∧
    x.act = .add_timer t c.address c.ms c.cb c.recurring ∧ x.pre.clock = c.now

/-- The last call of the thread is `reset` with the arguments, and does not return at once. -/
def Resetting (tr : List (Move TimerThreads TimerAct)) (t : Tid) (c : ResetCall) : Prop :=
  ∃ x, Last (fun x => Calls t x.act) tr x ∧ x.act = .reset t c.timer c.ms c.from_now ∧
    ¬ (c.ms = c.seen ∧ ¬ c.from_now)

/-- The move ends a call. -/
def Returns (x : Move TimerThreads TimerAct) : Prop :=
  match x.act with
  | .tick _ | .add_timer _ _ _ _ _ | .listExpiredCb _ _ | .expire _ _ => False
  | .check t | .deliver t | .reset t _ _ _ => x.post.pc t = .out
  | _ => True

/-- A thread in `reset` has the lock, and the timer has got its period meanwhile. -/
def Stale (s : TimerThreads) : TimerAct → Prop
  | .restart t =>
    match s.pc t with
    | .resetting c => c.ms = (s.manager.heap c.timer).m_ms ∧ ¬ c.from_now
    | _ => False
  | _ => False

instance (s : TimerThreads) (a : TimerAct) : Decidable (s.Stale a) := by
  unfold Stale
  split
  · split <;> infer_instance
  · infer_instance

/-- The readings that a call has made, up to `now`, follow one another. -/
def Readings (c : ExpireCall) (now : Millis) : Prop :=
  (c.now_ms :: c.clock :: (c.ticks ++ [now])).Pairwise (· ≤ ·)

/-- The calls that are one section under the lock. -/
def oneSection (s : TimerThreads) : TimerAct → Option TimerOp
  | .cancel i => some (.cancel i)
  | .refresh i => some (.refresh i s.clock)
  | .getNextTimer => some (.getNextTimer s.clock)
  | .release i => some (.release i)
  | _ => none

/-- The move is the point of the step of the manager: a thread's call of this
function with these arguments has made these readings, and returns in this move
what the step answers. -/
inductive Point (before : List (Move TimerThreads TimerAct)) (x : Move TimerThreads TimerAct) :
    Move TimerManager TimerOp → Prop where
  | locked {op : TimerOp} : x.pre.oneSection x.act = some op →
      Point before x ⟨x.pre.manager, op, x.post.manager⟩
  | add {t : Tid} {c : TimerCall} : x.act = .add t → Adding before t c →
      Point before x ⟨x.pre.manager, .add_timer c, x.post.manager⟩
  | kept {t : Tid} {i : TimerPtr} {ms : Millis} {m : TimerManager} :
      x.act = .reset t i ms false →
      m.exec (.reset i ms false ms x.pre.clock) = .ok (.bool true, m) →
      Point before x ⟨m, .reset i ms false ms x.pre.clock, m⟩
  | restart {t : Tid} {c : ResetCall} {seen : Millis} : x.act = .restart t →
      Resetting before t c → x.pre.manager.exec (c.op x.pre.clock) =
        x.pre.manager.exec (.reset c.timer c.ms c.from_now seen x.pre.clock) →
      Point before x ⟨x.pre.manager, .reset c.timer c.ms c.from_now seen x.pre.clock,
        x.post.manager⟩
  | empty {t : Tid} {c : ExpireCall} : x.act = .check t → Listing before t c.cbs c.now_ms →
      Readings c x.pre.clock → (x.pre.manager.listExpiredCb c).cbs = c.cbs →
      Point before x ⟨x.pre.manager, .listExpiredCb c, x.post.manager⟩
  | leave {t : Tid} {c : ExpireCall} {cbs : List (Option Callback)} {m : TimerManager} :
      x.act = .deliver t → x.pre.pc t = .delivering cbs [] → Listing before t c.cbs c.now_ms →
      Readings c x.pre.clock → (m.listExpiredCb c).cbs = cbs →
      Point before x ⟨m, .listExpiredCb c, x.post.manager⟩

/-- What a thread that waits for the lock has called. -/
def Waiting (tr : List (Move TimerThreads TimerAct)) (now : Millis) (t : Tid) : TimerPc → Prop
  | .adding c => Adding tr t c
  | .resetting c => Resetting tr t c
  | .reading cbs now_ms | .expiring cbs now_ms => Listing tr t cbs now_ms ∧ now_ms ≤ now
  | .out | .delivering _ _ => True

/-- The manager has gone through the calls that have returned, and through a part
of the loop of the thread that holds the write lock. -/
structure Linear (tr : List (Move TimerThreads TimerAct)) (s : TimerThreads)
    (m : TimerManager) : Prop where
  exclusive : ∀ t cbs rest, s.pc t = .delivering cbs rest → s.writer = some t
  free : s.writer = none → s.manager = m
  held : ∀ t, s.writer = some t → ∃ c cbs out rest, s.InLoop t m c cbs out rest ∧
    Listing tr t c.cbs c.now_ms ∧ Readings c s.clock
  waiting : ∀ t, Waiting tr s.clock t (s.pc t)

theorem initial_linear (start : Millis) : Linear [] (initial start) (.new start) where
  exclusive := fun _ _ _ h => (by cases h)
  free := fun _ => rfl
  held := fun _ h => (by cases h)
  waiting := fun _ => trivial

section Readings

variable {now now' : Millis}

theorem Readings.later (h : Readings c now) (hle : now ≤ now') : Readings c now' := by
  unfold Readings at h ⊢
  rw [← List.cons_append, ← List.cons_append, List.pairwise_append] at h ⊢
  refine ⟨h.1, List.pairwise_singleton _ _, fun r hr x hx => ?_⟩
  rw [List.mem_singleton.mp hx]
  exact BitVec.le_trans (h.2.2 r hr now (List.mem_singleton_self now)) hle

theorem Readings.turn (h : Readings c now) {readings : List Millis}
    (hread : readings = [] ∨ readings = [now]) :
    Readings { c with ticks := c.ticks ++ readings } now := by
  rcases hread with rfl | rfl
  · rw [List.append_nil]
    exact h
  · unfold Readings at h ⊢
    dsimp only
    rw [← List.cons_append, ← List.cons_append, List.pairwise_append]
    refine ⟨h, List.pairwise_singleton _ _, fun r hr x hx => ?_⟩
    rw [List.mem_singleton.mp hx]
    rw [← List.cons_append, ← List.cons_append, List.pairwise_append] at h
    rw [← List.cons_append, ← List.cons_append, List.mem_append] at hr
    rcases hr with hr | hr
    · exact h.2.2 r hr now (List.mem_singleton_self now)
    · rw [List.mem_singleton.mp hr]
      exact BitVec.le_refl now

end Readings

section Calls

variable {x : Move TimerThreads TimerAct}

/-- A thread calls when it is in no call. -/
theorem out_of_calls (h : s.next a = some s') (hc : Calls u a) : s.pc u = .out := by
  cases a with
  | add_timer t address ms cb recurring =>
    have htu : t = u := hc
    rw [← htu]
    exact (enter_eq_some h).1
  | listExpiredCb t cbs =>
    have htu : t = u := hc
    rw [← htu]
    exact (enter_eq_some h).1
  | reset t i ms from_now =>
    have htu : t = u := hc
    rw [← htu]
    exact (reset_eq_some h).1
  | _ => cases hc

theorem Listing.snoc (h : Listing tr t cbs now_ms) (hx : ¬ Calls t x.act) :
    Listing (tr ++ [x]) t cbs now_ms := by
  obtain ⟨y, hlast, hact, hclock⟩ := h
  exact ⟨y, hlast.snoc hx, hact, hclock⟩

theorem Adding.snoc {c : TimerCall} (h : Adding tr t c) (hx : ¬ Calls t x.act) :
    Adding (tr ++ [x]) t c := by
  obtain ⟨y, hlast, hact, hclock⟩ := h
  exact ⟨y, hlast.snoc hx, hact, hclock⟩

theorem Resetting.snoc {c : ResetCall} (h : Resetting tr t c) (hx : ¬ Calls t x.act) :
    Resetting (tr ++ [x]) t c := by
  obtain ⟨y, hlast, hact, hgo⟩ := h
  exact ⟨y, hlast.snoc hx, hact, hgo⟩

end Calls

namespace Linear

/-- A move is recorded; only a thread that is in no call has called. -/
theorem extend {x : Move TimerThreads TimerAct} (h : Linear tr s m)
    (hcalls : ∀ u, Calls u x.act → s.pc u = .out) : Linear (tr ++ [x]) s m := by
  refine ⟨h.exclusive, h.free, fun t ht => ?_, fun t => ?_⟩
  · obtain ⟨c, cbs, out, rest, hloop, hlist, hread⟩ := h.held t ht
    refine ⟨c, cbs, out, rest, hloop, hlist.snoc fun hc => ?_, hread⟩
    have hpc := hloop.pc
    rw [hcalls t hc] at hpc
    cases hpc
  · have hw := h.waiting t
    cases hpc : s.pc t with
    | out | delivering => trivial
    | adding c =>
      rw [hpc] at hw
      refine Adding.snoc hw fun hc => ?_
      rw [hcalls t hc] at hpc
      cases hpc
    | resetting c =>
      rw [hpc] at hw
      refine Resetting.snoc hw fun hc => ?_
      rw [hcalls t hc] at hpc
      cases hpc
    | reading cbs now_ms | expiring cbs now_ms =>
      rw [hpc] at hw
      refine ⟨hw.1.snoc fun hc => ?_, hw.2⟩
      rw [hcalls t hc] at hpc
      cases hpc

theorem not_delivering (h : Linear tr s m) (hw : s.writer = none) (t : Tid)
    (cbs : List (Option Callback)) (rest : List TimerPtr) : s.pc t ≠ .delivering cbs rest := by
  intro hpc
  have hwriter := h.exclusive t cbs rest hpc
  rw [hw] at hwriter
  cases hwriter

theorem waiting_update (h : Linear tr s m) (hpc : Waiting tr s.clock t pc) (u : Tid) :
    Waiting tr s.clock u ((s.setPc t pc).pc u) := by
  by_cases hut : u = t
  · subst u
    rw [setPc_self]
    exact hpc
  · rw [setPc_of_ne hut]
    exact h.waiting u

theorem moved (h : Linear tr s m) (hpc : ∀ cbs rest, s.pc t ≠ .delivering cbs rest)
    (hpc' : ∀ cbs rest, pc ≠ .delivering cbs rest) (hw : Waiting tr s.clock t pc) :
    Linear tr (s.setPc t pc) m := by
  refine ⟨fun u cbs rest hu => ?_, h.free, fun u hu => ?_, h.waiting_update hw⟩
  · by_cases hut : u = t
    · subst u
      rw [setPc_self] at hu
      exact absurd hu (hpc' cbs rest)
    · rw [setPc_of_ne hut] at hu
      exact h.exclusive u cbs rest hu
  · obtain ⟨c, cbs, out, rest, hloop, hrest⟩ := h.held u hu
    have hut : u ≠ t := fun heq => hpc cbs rest (heq ▸ hloop.pc)
    exact ⟨c, cbs, out, rest, ⟨(setPc_of_ne hut).trans hloop.pc, hloop.batch, hloop.loop⟩, hrest⟩

theorem tick (h : Linear tr s m) {now : Millis} (hle : s.clock ≤ now) :
    Linear tr { s with clock := now } m := by
  refine ⟨h.exclusive, h.free, fun t ht => ?_, fun t => ?_⟩
  · obtain ⟨c, cbs, out, rest, hloop, hlist, hread⟩ := h.held t ht
    exact ⟨c, cbs, out, rest, ⟨hloop.pc, hloop.batch, hloop.loop⟩, hlist, hread.later hle⟩
  · have hw := h.waiting t
    change Waiting tr now t (s.pc t)
    cases hpc : s.pc t with
    | out | delivering => trivial
    | adding | resetting =>
      rw [hpc] at hw
      exact hw
    | reading cbs now_ms | expiring cbs now_ms =>
      rw [hpc] at hw
      exact ⟨hw.1, BitVec.le_trans hw.2 hle⟩

theorem locked (h : Linear tr s m) (hw : s.writer = none) (m' : TimerManager) :
    Linear tr { s with manager := m' } m' := by
  refine ⟨h.exclusive, fun _ => rfl, fun t ht => ?_, h.waiting⟩
  rw [hw] at ht
  cases ht

theorem expire (h : Linear tr s m) (hw : s.writer = none) (t : Tid) (c : ExpireCall)
    (hc : c.ticks = []) (hlist : Listing tr t c.cbs c.now_ms) (hread : Readings c s.clock) :
    Linear tr { s.setPc t (.delivering c.cbs (s.manager.takeExpired c).1) with
      manager := (s.manager.takeExpired c).2, writer := some t } m := by
  have hm := h.free hw
  subst m
  refine ⟨fun u cbs rest hu => ?_, fun hn => (by cases hn), fun u hu => ?_,
    h.waiting_update trivial⟩
  · by_cases hut : u = t
    · rw [hut]
    · exact absurd ((setPc_of_ne hut).symm.trans hu) (h.not_delivering hw u cbs rest)
  · cases hu
    refine ⟨c, c.cbs, [], _, ⟨setPc_self, rfl, fun ticks => ⟨c.clock, ?_⟩⟩, hlist, hread⟩
    rw [hc]
    rfl

theorem deliver (h : Linear tr s m) {i : TimerPtr}
    (hpc : s.pc t = .delivering cbs (i :: rest)) {e : Expiry}
    (he : e = Expiry.deliver ⟨s.manager, cbs, s.clock, []⟩ i) :
    Linear tr { s.setPc t (.delivering e.cbs rest) with manager := e.manager } m := by
  have hw := h.exclusive t cbs _ hpc
  refine ⟨fun u cbs' rest' hu => ?_, fun hn => ?_, fun u hu => ?_, h.waiting_update trivial⟩
  · by_cases hut : u = t
    · rw [hut]
      exact hw
    · exact h.exclusive u cbs' rest' ((setPc_of_ne hut).symm.trans hu)
  · rw [show s.writer = none from hn] at hw
    cases hw
  · have hut : u = t := Option.some.inj (hu.symm.trans hw)
    subst u
    obtain ⟨c, cbs', out, rest', ⟨hpc', hbatch, hloop⟩, hlist, hread⟩ := h.held t hw
    rw [hpc] at hpc'
    cases hpc'
    obtain ⟨readings, hor, hturn⟩ := Expiry.deliver_readings s.manager cbs s.clock i
    -- what this turn reads is what the call is given next
    refine ⟨{ c with ticks := c.ticks ++ readings }, e.cbs, out ++ [i], rest,
      ⟨setPc_self, ?_, fun ticks => ?_⟩, hlist, hread.turn hor⟩
    · rw [List.append_assoc]
      exact hbatch
    · obtain ⟨clock, hclock⟩ := hloop (readings ++ ticks)
      obtain ⟨clock', hclock'⟩ := hturn clock ticks
      refine ⟨clock', ?_⟩
      rw [Expiry.deliverAll_concat, List.append_assoc]
      refine (congrArg (fun e => Expiry.deliver e i) hclock).trans ?_
      rw [hclock', he]

/-- The loop is over: the thread has done one call of `listExpiredCb`. -/
theorem leave (h : Linear tr s m) (hpc : s.pc t = .delivering cbs []) :
    ∃ c, (m.listExpiredCb c).manager = s.manager ∧ (m.listExpiredCb c).cbs = cbs ∧
      Listing tr t c.cbs c.now_ms ∧ Readings c s.clock ∧
      ∀ {tr'}, Linear tr' s m → Linear tr' { s.setPc t .out with writer := none } s.manager := by
  have hw := h.exclusive t cbs _ hpc
  obtain ⟨c, cbs', out, rest', ⟨hpc', hbatch, hloop⟩, hlist, hread⟩ := h.held t hw
  rw [hpc] at hpc'
  cases hpc'
  obtain ⟨clock, hclock⟩ := hloop []
  rw [List.append_nil] at hbatch hclock
  have hcall : m.listExpiredCb c = ⟨s.manager, cbs, clock, []⟩ := by
    rw [listExpiredCb_eq, hbatch, hclock]
  refine ⟨c, congrArg Expiry.manager hcall, congrArg Expiry.cbs hcall, hlist, hread,
    fun h' => ⟨fun u cbs' rest' hu => ?_, fun _ => rfl, fun u hu => (by cases hu),
      h'.waiting_update trivial⟩⟩
  by_cases hut : u = t
  · rw [hut] at hu
    exact absurd (setPc_self.symm.trans hu) (by simp)
  · have hother := h.exclusive u cbs' rest' ((setPc_of_ne hut).symm.trans hu)
    rw [hw] at hother
    exact absurd (Option.some.inj hother).symm hut

end Linear

theorem check_cases (h : s.check t = some s') : ∃ cbs now_ms, s.pc t = .reading cbs now_ms ∧
    s.writer = none ∧ (s.manager.m_timers = [] ∧ s' = s.setPc t .out ∨
      s' = s.setPc t (.expiring cbs now_ms)) := by
  unfold check at h
  split at h
  case h_1 cbs now_ms hpc =>
    obtain ⟨hw, heq⟩ := Option.ite_none_right_eq_some.mp h
    refine ⟨cbs, now_ms, hpc, hw, ?_⟩
    cases heq
    split
    case isTrue hempty => exact Or.inl ⟨hempty, rfl⟩
    case isFalse => exact Or.inr rfl
  case h_2 => cases h

theorem listExpiredCb_empty (h : m.m_timers = []) (c : ExpireCall) :
    (m.listExpiredCb c).manager = m ∧ (m.listExpiredCb c).cbs = c.cbs := by
  have htaken : m.takeExpired c = ([], m) := by
    unfold takeExpired
    rw [h]
    split <;> rfl
  rw [listExpiredCb_eq, htaken]
  exact ⟨rfl, rfl⟩

theorem listExpiredCb_step (m : TimerManager) (c : ExpireCall) :
    TimerManager.system.step m (.listExpiredCb c) (m.listExpiredCb c).manager :=
  ⟨trivial, _, rfl⟩

/-- What a `reset` that goes on does, whatever period it has seen. -/
theorem exec_reset_eq {c : ResetCall} {seen : Millis} (hc : ¬ (c.ms = c.seen ∧ ¬ c.from_now))
    (h : ¬ (c.ms = seen ∧ ¬ c.from_now)) (now : Millis) :
    m.exec (c.op now) = m.exec (.reset c.timer c.ms c.from_now seen now) := by
  simp only [ResetCall.op, exec, TimerManager.reset, if_neg hc, if_neg h]

theorem seesPeriod_of_oneSection {op : TimerOp} (h : s.oneSection a = some op) :
    op.SeesPeriod m := by
  cases a with
  | cancel | refresh | getNextTimer | release =>
    cases h
    trivial
  | _ => cases h

/-- The abstract manager knows the timers, and their periods, as the threads do. -/
theorem Linear.periods (h : Linear tr s m) : s.manager.live = m.live ∧
    ∀ i, (s.manager.heap i).m_ms = (m.heap i).m_ms := by
  cases hw : s.writer with
  | none =>
    rw [h.free hw]
    exact ⟨rfl, fun _ => rfl⟩
  | some t =>
    obtain ⟨c, cbs, out, rest, hloop, _⟩ := h.held t hw
    obtain ⟨clock, hclock⟩ := hloop.loop []
    have hmanager := congrArg Expiry.manager hclock
    have htaken := m.takeExpired_spec c
    refine ⟨?_, fun i => ?_⟩
    · exact (congrArg TimerManager.live hmanager).symm.trans
        (Expiry.deliverAll_live.trans htaken.live)
    · rw [show s.manager.heap = _ from congrArg TimerManager.heap hmanager.symm,
        Expiry.deliverAll_period, htaken.heap]

/-- A step keeps the calls on their way, or one of them takes effect. -/
theorem Linear.step (h : Linear tr s m) (hstale : ¬ s.Stale a) (hs : system.step s a s') :
    ¬ Returns ⟨s, a, s'⟩ ∧ Linear (tr ++ [⟨s, a, s'⟩]) s' m ∨
    ∃ op m', oneThread.step m op m' ∧ Point tr ⟨s, a, s'⟩ ⟨m, op, m'⟩ ∧
      Linear (tr ++ [⟨s, a, s'⟩]) s' m' := by
  have hext : Linear (tr ++ [⟨s, a, s'⟩]) s m := h.extend fun u hc => out_of_calls hs hc
  have hlocked : ∀ {op}, s.oneSection a = some op → s.locked op = some s' →
      ∃ op m', oneThread.step m op m' ∧ Point tr ⟨s, a, s'⟩ ⟨m, op, m'⟩ ∧
        Linear (tr ++ [⟨s, a, s'⟩]) s' m' := by
    intro op hop hs
    obtain ⟨m', hw, hm, rfl⟩ := locked_eq_some hs
    cases h.free hw
    exact ⟨op, m', ⟨seesPeriod_of_oneSection hop, TimerManager.next_sound hm⟩, .locked hop,
      hext.locked hw m'⟩
  cases a with
  | tick now =>
    obtain ⟨hle, heq⟩ := Option.ite_none_right_eq_some.mp hs
    cases heq
    exact Or.inl ⟨fun hr => hr, hext.tick hle⟩
  | add_timer t address ms cb recurring =>
    obtain ⟨hpc, rfl⟩ := enter_eq_some hs
    refine Or.inl ⟨fun hr => hr, hext.moved (by simp [hpc]) (by simp) ?_⟩
    exact ⟨_, Last.snoc_self rfl, rfl, rfl⟩
  | listExpiredCb t cbs =>
    obtain ⟨hpc, rfl⟩ := enter_eq_some hs
    refine Or.inl ⟨fun hr => hr, hext.moved (by simp [hpc]) (by simp) ⟨?_, BitVec.le_refl _⟩⟩
    exact ⟨_, Last.snoc_self rfl, rfl, rfl⟩
  | check t =>
    obtain ⟨cbs, now_ms, hpc, hw, ⟨hempty, rfl⟩ | rfl⟩ := check_cases hs
    · have hwait := h.waiting t
      rw [hpc] at hwait
      cases h.free hw
      obtain ⟨hsame, hcbs⟩ := listExpiredCb_empty hempty ⟨cbs, now_ms, false, 0, s.clock, []⟩
      have hread : Readings ⟨cbs, now_ms, false, 0, s.clock, []⟩ s.clock := by
        simp [Readings, hwait.2]
      have hstep := listExpiredCb_step s.manager ⟨cbs, now_ms, false, 0, s.clock, []⟩
      rw [hsame] at hstep
      exact Or.inr ⟨.listExpiredCb _, s.manager, ⟨trivial, hstep⟩, .empty rfl hwait.1 hread hcbs,
        hext.moved (by simp [hpc]) (by simp) trivial⟩
    · have hwait := hext.waiting t
      rw [hpc] at hwait
      refine Or.inl ⟨fun hr => ?_, hext.moved (by simp [hpc]) (by simp) hwait⟩
      have hout : (s.setPc t (.expiring cbs now_ms)).pc t = .out := hr
      rw [setPc_self] at hout
      cases hout
  | add t =>
    obtain ⟨c, m', hpc, hw, hm, rfl⟩ := add_eq_some hs
    have hwait := h.waiting t
    rw [hpc] at hwait
    cases h.free hw
    exact Or.inr ⟨.add_timer c, m', ⟨trivial, TimerManager.next_sound hm⟩, .add rfl hwait,
      (hext.locked hw m').moved (by simp [hpc]) (by simp) trivial⟩
  | reset t i ms from_now =>
    obtain ⟨hpc, hi, ⟨⟨hkeep, hnow⟩, rfl⟩ | ⟨hgo, rfl⟩⟩ := reset_eq_some hs
    · obtain ⟨hlive, hperiod⟩ := h.periods
      obtain rfl : from_now = false := Bool.eq_false_iff.mpr hnow
      have hexec : m.exec (.reset i ms false ms s'.clock) = .ok (.bool true, m) := by
        simp [exec, TimerManager.reset]
      exact Or.inr ⟨.reset i ms false ms s'.clock, m,
        ⟨hkeep.trans (hperiod i), show i ∈ m.live from hlive ▸ hi, _, hexec⟩, .kept rfl hexec, hext⟩
    · refine Or.inl ⟨fun hr => ?_, hext.moved (by simp [hpc]) (by simp) ?_⟩
      · have hout : (s.setPc t (.resetting _)).pc t = .out := hr
        rw [setPc_self] at hout
        cases hout
      · exact ⟨_, Last.snoc_self rfl, rfl, hgo⟩
  | restart t =>
    obtain ⟨c, m', hpc, hw, hm, rfl⟩ := restart_eq_some hs
    have hwait := h.waiting t
    rw [hpc] at hwait
    cases h.free hw
    obtain ⟨hi, r, hexec⟩ := TimerManager.next_sound hm
    have hgo : ¬ (c.ms = (s.manager.heap c.timer).m_ms ∧ ¬ c.from_now) := by
      simpa only [Stale, hpc] using hstale
    have hsame := exec_reset_eq (m := s.manager) hwait.choose_spec.2.2 hgo s.clock
    exact Or.inr ⟨.reset c.timer c.ms c.from_now (s.manager.heap c.timer).m_ms s.clock, m',
      ⟨rfl, hi, r, hsame.symm.trans hexec⟩, .restart rfl hwait hsame,
      (hext.locked hw m').moved (by simp [hpc]) (by simp) trivial⟩
  | expire t nowAddress =>
    obtain ⟨cbs, now_ms, hpc, hw, rfl⟩ := expire_eq_some hs
    have hwait := hext.waiting t
    rw [hpc] at hwait
    have hread : Readings (s.expireCall cbs now_ms nowAddress) s.clock := by
      simp [Readings, expireCall, hwait.2]
    exact Or.inl ⟨fun hr => hr, hext.expire hw t _ rfl hwait.1 hread⟩
  | deliver t =>
    rcases deliver_eq_some hs with ⟨cbs, i, rest, hpc, rfl⟩ | ⟨cbs, hpc, rfl⟩
    · refine Or.inl ⟨fun hr => ?_, hext.deliver hpc rfl⟩
      have hout : (s.setPc t (.delivering _ rest)).pc t = .out := hr
      rw [setPc_self] at hout
      cases hout
    · obtain ⟨c, hmanager, hcbs, hlist, hread, hnext⟩ := h.leave hpc
      have hstep := listExpiredCb_step m c
      rw [hmanager] at hstep
      exact Or.inr ⟨.listExpiredCb c, s.manager, ⟨trivial, hstep⟩,
        .leave rfl hpc hlist hread hcbs, hnext hext⟩
  | cancel | refresh | getNextTimer | release => exact Or.inr (hlocked rfl hs)

/-- Every run of any number of threads, with their steps in any order, is a run of
the manager as one thread uses it in which each call is one step: it takes effect
between its first and its last step, with the clock readings that it has made. In
the run no `reset` gets the lock when its timer has been given its period meanwhile. -/
theorem linearizable {start : Millis} (hr : Run system (initial start) tr s)
    (hfresh : ∀ x ∈ tr, ¬ x.pre.Stale x.act) :
    ∃ tr' m, Run oneThread (.new start) tr' m ∧
      Linearized (fun x => ¬ Returns x) Point tr tr' ∧ (s.writer = none → s.manager = m) := by
  obtain ⟨tr', m, hrun, hlin, hR⟩ := Run.linearize (T := oneThread)
    (S := system.restrict fun s a => ¬ s.Stale a) (fun x => ¬ Returns x) Point Linear
    (fun h hs => h.step hs.2 hs.1) (hr.restrict _ hfresh) (initial_linear start)
  exact ⟨tr', m, hrun, hlin, hR.free⟩

/-- Two threads are in `listExpiredCb` at once, and the one that has read the clock
first takes the lock last; a third adds a timer in between, a fourth compares the
period of the first timer in the loop of another and resets the timer later, and a
fifth resets it to the period it has. -/
def overlapping : List TimerAct :=
  [.add_timer 0 16 5 (some 7) true, .add_timer 3 32 0 (some 8) false, .add 0, .tick 4000005,
    .listExpiredCb 1 [], .tick 4000006, .listExpiredCb 2 [], .check 2, .check 1, .expire 2 48,
    .reset 4 0 9 false, .reset 5 0 5 false, .deliver 2, .deliver 2, .add 3, .expire 1 48,
    .deliver 1, .deliver 1, .restart 4]

theorem linearizable_overlapping : ∃ tr s, Run system (initial 4000000) tr s ∧
    tr.map Move.act = overlapping ∧ s.manager.m_timers = [0] ∧ ∃ tr' m,
      Run oneThread (.new 4000000) tr' m ∧
      Linearized (fun x => ¬ Returns x) Point tr tr' ∧ s.manager = m := by
  have hrun : (traceAll next (initial 4000000) overlapping).map (fun r =>
      (r.2.manager.m_timers, r.2.writer, r.1.all fun x => ¬ x.pre.Stale x.act)) =
      some ([0], none, true) := by decide +kernel
  obtain ⟨tr, s, hr, hacts, hobs⟩ := Run.exists_of_traceAll next next_sound _ hrun
  simp only [Prod.mk.injEq] at hobs
  obtain ⟨htimers, hwriter, hfresh⟩ := hobs
  obtain ⟨tr', m, hrun', hlin, hsame⟩ := linearizable hr fun x hx =>
    of_decide_eq_true (List.all_eq_true.mp hfresh x hx)
  exact ⟨tr, s, hr, hacts, htimers, tr', m, hrun', hlin, hsame hwriter⟩

end TimerThreads

end FiberAsync
