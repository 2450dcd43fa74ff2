import FiberAsync.TimerBases

/-!
# What calls on timers report

`cancel` and `refresh` are one section each. `reset` compares the period before
it takes the lock and returns there if it has nothing to change; otherwise its
section comes later, and other threads run sections in between. A call takes
effect at that comparison or in its section. What the section finds then may
differ from what the comparison saw.
-/

namespace FiberAsync

set_option autoImplicit false

open Runs TimerManager

namespace TimerOp

def isReset : TimerOp → Bool
  | reset _ _ _ _ _ => true
  | add_timer _ | cancel _ | refresh _ _ | listExpiredCb _ | getNextTimer _ | release _ => false

/-- A `reset` that returns at its comparison takes effect in the state it compared in. -/
def ComparedAt (m : TimerManager) : TimerOp → Prop
  | reset i ms from_now seen _ => ms = seen ∧ ¬ from_now → seen = (m.heap i).m_ms
  | add_timer _ | cancel _ | refresh _ _ | listExpiredCb _ | getNextTimer _ | release _ => True

end TimerOp

namespace TimerManager

variable {m m' : TimerManager} {i : TimerPtr} {op : TimerOp}

/-- The operation finds what it needs to report the truth: a timer with an empty
callback is pending for `listExpiredCb` alone, and `reset` has only one answer. -/
def Reportable (m : TimerManager) : TimerOp → Prop
  | .cancel i | .refresh i _ => i ∈ m.m_timers → (m.heap i).m_cb.isSome
  | .reset i ms from_now _ now => i ∈ m.m_timers ∧ ((m.heap i).m_cb.isSome ∨
    ms = (m.heap i).m_ms ∧ (from_now = true → now + ms = (m.heap i).m_next))
  | .add_timer _ | .listExpiredCb _ | .getNextTimer _ | .release _ => True

/-- What the caller of the operation asks for. -/
def Granted (m : TimerManager) : TimerOp → TimerManager → Prop
  | .cancel i, m' => m.LeavesTimer i (m.cancelled i) False m'
  | .refresh i now, m' => m.LeavesTimer i (m.refreshed i now) True m'
  | .reset i ms from_now _ now, m' => m.LeavesTimer i (m.restarted i ms from_now now) True m'
  | .add_timer _, _ | .listExpiredCb _, _ | .getNextTimer _, _ | .release _, _ => True

/-- The result says whether the timer was pending, and what has become of it. -/
structure Truthful (m : TimerManager) (op : TimerOp) (i : TimerPtr) (b : Bool)
    (m' : TimerManager) : Prop where
  pending : b = true ↔ i ∈ m.m_timers
  granted : b = true → m.Granted op m'
  refused : b = false → m'.m_timers = m.m_timers ∧ (m'.heap i).m_ms = (m.heap i).m_ms ∧
    (m'.heap i).m_next = (m.heap i).m_next ∧ (m'.heap i).m_cb = (m.heap i).m_cb

theorem Truthful.of_refusal (hout : i ∉ m.m_timers) : m.Truthful op i false m where
  pending := ⟨fun h => (by cases h), fun h => absurd h hout⟩
  granted := fun h => by cases h
  refused := fun _ => ⟨rfl, rfl, rfl, rfl⟩

theorem Truthful.of_grant (hmem : i ∈ m.m_timers) (h : m.Granted op m') :
    m.Truthful op i true m' where
  pending := ⟨fun _ => hmem, fun _ => rfl⟩
  granted := fun _ => h
  refused := fun h => by cases h

/-- A refusal is right where a timer without a callback is not pending. -/
theorem truthful_refusal_iff (hcb : (m.heap i).m_cb = none) :
    m.Truthful op i false m ↔ (i ∈ m.m_timers → (m.heap i).m_cb.isSome) := by
  rw [hcb]
  constructor
  · intro htruth hmem
    exact absurd (htruth.pending.mpr hmem) Bool.false_ne_true
  · intro hout
    exact .of_refusal fun hmem => absurd (hout hmem) Bool.false_ne_true

theorem restarted_eq_iff {ms : Millis} {from_now : Bool} {now : Millis} :
    m.heap i = m.restarted i ms from_now now ↔
      ms = (m.heap i).m_ms ∧ (from_now = true → now + ms = (m.heap i).m_next) := by
  constructor
  · intro heq
    have hms : (m.heap i).m_ms = ms := congrArg Timer.m_ms heq
    refine ⟨hms.symm, ?_⟩
    rintro rfl
    exact (congrArg Timer.m_next heq).symm
  · intro hand
    obtain ⟨rfl, hnext⟩ := hand
    cases from_now with
    | true =>
      simp only [restarted, if_true, hnext rfl]
    | false => exact ((m.heap i).withPeriod_self).symm

section Operations

variable (h : StoreInv m [])
include h

theorem cancel_truthful_iff (hi : i ∈ m.live) {b : Bool} (heq : m.cancel i = .ok (b, m')) :
    m.Truthful (.cancel i) i b m' ↔ m.Reportable (.cancel i) := by
  by_cases hcb : (m.heap i).m_cb.isSome
  · rcases h.cancel_cases hi heq with ⟨hmem, rfl, hleaves⟩ | ⟨hnone, _, _⟩
    · exact iff_of_true (.of_grant hmem hleaves) fun _ => hcb
    · rw [hnone] at hcb
      cases hcb
  · have hnone := Option.not_isSome_iff_eq_none.mp hcb
    rw [cancel_of_none hnone] at heq
    cases heq
    exact truthful_refusal_iff hnone

theorem refresh_truthful_iff (hi : i ∈ m.live) (now : Millis) :
    m.Truthful (.refresh i now) i (m.refresh i now).1 (m.refresh i now).2 ↔
      m.Reportable (.refresh i now) := by
  rcases h.refresh_cases hi now with ⟨⟨hmem, hcb⟩, heq⟩ | ⟨hnone, heq⟩
  · have hleaves := h.refresh_leaves hmem hcb now
    rw [heq] at hleaves ⊢
    exact iff_of_true (.of_grant hmem hleaves) fun _ => hcb
  · rw [heq]
    exact truthful_refusal_iff hnone

/-- `reset` of a pending timer, whose comparison of the period may have been made
earlier unless `reset` returned there. -/
theorem reset_truthful (hmem : i ∈ m.m_timers) (hcb : (m.heap i).m_cb.isSome) {ms seen : Millis}
    {from_now : Bool}
    (hseen : ms = seen ∧ ¬ from_now → seen = (m.heap i).m_ms) (now : Millis) :
    let r := m.reset i ms from_now seen now
    m.Truthful (.reset i ms from_now seen now) i r.1.1 r.2 := by
  by_cases hskip : ms = seen ∧ ¬ from_now
  · obtain ⟨hms, hnow⟩ := hskip
    rw [Bool.not_eq_true] at hnow
    subst from_now
    have hperiod : ms = (m.heap i).m_ms := hms.trans (hseen ⟨hms, Bool.false_ne_true⟩)
    have hsame : m.restarted i ms false now = m.heap i := by
      rw [hperiod]
      exact (m.heap i).withPeriod_self
    rw [reset_early hms]
    exact .of_grant hmem ⟨hsame.symm, iff_true_intro hmem, fun _ _ => ⟨Iff.rfl, rfl⟩, rfl⟩
  · have hgo : ms ≠ seen ∨ from_now = true := by
      rw [not_and_or, not_not] at hskip
      exact hskip
    have hleaves := h.reset_leaves hmem hcb hgo now
    rw [h.reset_restarts hmem hcb hgo] at hleaves ⊢
    exact .of_grant hmem hleaves

theorem reset_truthful_iff (hi : i ∈ m.live) {ms seen : Millis} {from_now : Bool}
    (hseen : ms = seen ∧ ¬ from_now → seen = (m.heap i).m_ms) (now : Millis) :
    let r := m.reset i ms from_now seen now
    m.Truthful (.reset i ms from_now seen now) i r.1.1 r.2 ↔
      m.Reportable (.reset i ms from_now seen now) := by
  by_cases hcb : (m.heap i).m_cb.isSome
  · have hmem := h.mem_of_isSome hi hcb
    exact iff_of_true (reset_truthful h hmem hcb hseen now) ⟨hmem, Or.inl hcb⟩
  · rw [reset_of_none (Option.not_isSome_iff_eq_none.mp hcb)]
    constructor
    · intro htruth
      have hleaves : m.LeavesTimer i (m.restarted i ms from_now now) True m := htruth.granted rfl
      exact ⟨htruth.pending.mp rfl, Or.inr (restarted_eq_iff.mp hleaves.heap)⟩
    · intro hand
      obtain ⟨hmem, hsome | hsame⟩ := hand
      · exact absurd hsome hcb
      · refine .of_grant hmem ⟨restarted_eq_iff.mpr hsame, iff_true_intro hmem, ?_, rfl⟩
        exact fun _ _ => ⟨Iff.rfl, rfl⟩

/-- An operation on a timer returns, and it reports the truth exactly where it finds what it
needs to. -/
theorem exec_truthful_iff (ha : m.Allowed op) (ht : op.target = some i) (hseen : op.ComparedAt m) :
    ∃ b m', m.exec op = .ok (.bool b, m') ∧ (m.Truthful op i b m' ↔ m.Reportable op) := by
  cases op with
  | cancel j =>
    cases ht
    obtain ⟨b, m', heq, _⟩ := cancel_effect h ha
    exact ⟨b, m', exec_cancel_iff.mpr ⟨b, heq, rfl⟩, cancel_truthful_iff h ha heq⟩
  | refresh j now =>
    cases ht
    exact ⟨_, _, rfl, refresh_truthful_iff h ha now⟩
  | reset j ms from_now seen now =>
    cases ht
    exact ⟨_, _, rfl, reset_truthful_iff h ha hseen now⟩
  | add_timer | listExpiredCb | getNextTimer | release => cases ht

end Operations

end TimerManager

inductive TimerCallAct where
  /-- an operation other than `reset` -/
  | operate (op : TimerOp)
  /-- a thread calls `reset` and compares the period -/
  | reset (t : Tid) (i : TimerPtr) (ms : Millis) (from_now : Bool)
  /-- its section under the lock, its pointer still owning the timer -/
  | restart (t : Tid) (now : Millis)
  deriving DecidableEq, Repr

structure TimerCalls where
  manager : TimerManager
  resetting : Tid → Option ResetCall

namespace TimerCalls

def initial (start : Millis) : TimerCalls where
  manager := .new start
  resetting := fun _ => none

section Steps

variable (s : TimerCalls)

/-- `ms == m_ms && !from_now`, read without the lock -/
def keepsPeriod (i : TimerPtr) (ms : Millis) (from_now : Bool) : Bool :=
  ms = (s.manager.heap i).m_ms ∧ ¬ from_now

def setResetting (t : Tid) (c : Option ResetCall) : TimerCalls :=
  { s with resetting := Function.update s.resetting t c }

def operate (op : TimerOp) : Option TimerCalls :=
  (s.manager.next op).map fun m => { s with manager := m }

def reset (t : Tid) (i : TimerPtr) (ms : Millis) (from_now : Bool) : Option TimerCalls :=
  if s.resetting t = none ∧ i ∈ s.manager.live then
    if s.keepsPeriod i ms from_now then some s
    else some (s.setResetting t (some ⟨i, ms, from_now, (s.manager.heap i).m_ms⟩))
  else none

def restart (t : Tid) (now : Millis) : Option TimerCalls :=
  match s.resetting t with
  | some c => (s.operate (c.op now)).map fun s => s.setResetting t none
  | none => none

def next : TimerCallAct → Option TimerCalls
  | .operate op => if op.isReset then none else s.operate op
  | .reset t i ms from_now => s.reset t i ms from_now
  | .restart t now => s.restart t now

/-- The operation that takes effect in a step. A `reset` that returns without the
lock has read no clock. -/
def effect : TimerCallAct → Option TimerOp
  | .operate op => some op
  | .reset _ i ms from_now =>
    if s.keepsPeriod i ms from_now then some (.reset i ms from_now (s.manager.heap i).m_ms 0)
    else none
  | .restart t now => (s.resetting t).map fun c => c.op now

end Steps

def system : System TimerCalls TimerCallAct where
  init s := ∃ start, s = initial start
  step s a s' := s.next a = some s'

variable {s s' : TimerCalls} {a : TimerCallAct} {op : TimerOp}

theorem next_sound (h : s.next a = some s') : system.step s a s' := h

/-- Whole sections have been run, and no thread waits for the lock with a `reset`
that has nothing to change. -/
structure CallsOk (s : TimerCalls) : Prop where
  manager : Reachable TimerManager.system s.manager
  changing : ∀ t c, s.resetting t = some c → ¬ (c.ms = c.seen ∧ ¬ c.from_now)

/-- What one step can do. -/
inductive Stepped (s : TimerCalls) : TimerCallAct → TimerCalls → Prop where
  | operate {op : TimerOp} {m : TimerManager} : op.isReset = false →
      TimerManager.system.step s.manager op m → Stepped s (.operate op) { s with manager := m }
  | kept {t : Tid} {i : TimerPtr} {ms : Millis} {from_now : Bool} : i ∈ s.manager.live →
      ms = (s.manager.heap i).m_ms ∧ ¬ from_now → Stepped s (.reset t i ms from_now) s
  | compared {t : Tid} {i : TimerPtr} {ms : Millis} {from_now : Bool} :
      ¬ (ms = (s.manager.heap i).m_ms ∧ ¬ from_now) → Stepped s (.reset t i ms from_now)
        (s.setResetting t (some ⟨i, ms, from_now, (s.manager.heap i).m_ms⟩))
  | restart {t : Tid} {now : Millis} {c : ResetCall} {m : TimerManager} :
      s.resetting t = some c → TimerManager.system.step s.manager (c.op now) m →
      Stepped s (.restart t now) (setResetting { s with manager := m } t none)

theorem operate_eq_some (h : s.operate op = some s') :
    ∃ m, TimerManager.system.step s.manager op m ∧ s' = { s with manager := m } := by
  obtain ⟨m, hm, heq⟩ := Option.map_eq_some_iff.mp h
  exact ⟨m, TimerManager.next_sound hm, heq.symm⟩

theorem keepsPeriod_iff {i : TimerPtr} {ms : Millis} {from_now : Bool} :
    s.keepsPeriod i ms from_now = true ↔ ms = (s.manager.heap i).m_ms ∧ ¬ from_now :=
  decide_eq_true_iff

theorem stepped (h : s.next a = some s') : Stepped s a s' := by
  cases a with
  | operate op =>
    obtain ⟨hreset, h⟩ := Option.ite_none_left_eq_some.mp h
    obtain ⟨m, hm, rfl⟩ := operate_eq_some h
    exact .operate (Bool.eq_false_iff.mpr hreset) hm
  | reset t i ms from_now =>
    obtain ⟨⟨_, hi⟩, h⟩ := Option.ite_none_right_eq_some.mp h
    by_cases hkeep : s.keepsPeriod i ms from_now = true
    · rw [if_pos hkeep] at h
      cases h
      exact .kept hi (keepsPeriod_iff.mp hkeep)
    · rw [if_neg hkeep] at h
      cases h
      exact .compared (mt keepsPeriod_iff.mpr hkeep)
  | restart t now =>
    unfold next restart at h
    dsimp only at h
    split at h
    case h_1 c hc =>
      obtain ⟨s₁, hs₁, rfl⟩ := Option.map_eq_some_iff.mp h
      obtain ⟨m, hm, rfl⟩ := operate_eq_some hs₁
      exact .restart hc hm
    case h_2 => cases h

theorem initial_callsOk (start : Millis) : (initial start).CallsOk where
  manager := ⟨_, [], ⟨start, rfl⟩, .nil _⟩
  changing := fun _ _ h => by cases h

theorem CallsOk.step (h : s.CallsOk) (hs : s.next a = some s') : s'.CallsOk := by
  cases stepped hs with
  | operate _ hm => exact ⟨h.manager.trans (Run.single hm), h.changing⟩
  | kept => exact h
  | compared hgo =>
    rename_i t i ms from_now
    refine ⟨h.manager, fun u c hc => ?_⟩
    by_cases hu : u = t
    · subst u
      cases (Function.update_self t _ s.resetting).symm.trans hc
      exact hgo
    · exact h.changing u c ((Function.update_of_ne hu _ _).symm.trans hc)
  | restart hc hm =>
    rename_i t now c m
    refine ⟨h.manager.trans (Run.single hm), fun u c' hc' => ?_⟩
    by_cases hu : u = t
    · subst u
      cases (Function.update_self t _ s.resetting).symm.trans hc'
    · exact h.changing u c' ((Function.update_of_ne hu _ _).symm.trans hc')

theorem comparedAt_of_not_reset {m : TimerManager} (h : op.isReset = false) : op.ComparedAt m := by
  cases op with
  | reset => cases h
  | _ => trivial

/-- The operation that takes effect in a step is the manager's step. -/
theorem CallsOk.effect_step (h : s.CallsOk) (hs : s.next a = some s')
    (heff : s.effect a = some op) :
    op.ComparedAt s.manager ∧ TimerManager.system.step s.manager op s'.manager := by
  cases stepped hs with
  | operate hreset hm =>
    cases heff
    exact ⟨comparedAt_of_not_reset hreset, hm⟩
  | kept hi hkeep =>
    unfold effect at heff
    dsimp only at heff
    rw [if_pos (keepsPeriod_iff.mpr hkeep)] at heff
    cases heff
    refine ⟨fun _ => rfl, hi, .bool true, ?_⟩
    unfold exec TimerManager.reset
    dsimp only
    rw [if_pos hkeep]
  | compared hgo =>
    unfold effect at heff
    dsimp only at heff
    rw [if_neg (mt keepsPeriod_iff.mp hgo)] at heff
    cases heff
  | restart hc hm =>
    unfold effect at heff
    dsimp only at heff
    rw [hc] at heff
    cases heff
    exact ⟨fun hkeep => absurd hkeep (h.changing _ _ hc), hm⟩

/-- The call that takes effect in the step returns the truth. -/
def ReportsTruth (mv : Move TimerCalls TimerCallAct) : Prop :=
  ∀ op i, mv.pre.effect mv.act = some op → op.target = some i →
    ∃ b, mv.pre.manager.exec op = .ok (.bool b, mv.post.manager) ∧
      mv.pre.manager.Truthful op i b mv.post.manager

/-- The call that takes effect in the step finds what it needs to report the truth. -/
def FindsTruth (mv : Move TimerCalls TimerCallAct) : Prop :=
  ∀ op i, mv.pre.effect mv.act = some op → op.target = some i → mv.pre.manager.Reportable op

theorem CallsOk.reportsTruth_iff (h : s.CallsOk) (hs : s.next a = some s') :
    ReportsTruth ⟨s, a, s'⟩ ↔ FindsTruth ⟨s, a, s'⟩ := by
  have hinv := reachable_inv h.manager
  constructor
  · intro htruth op i heff ht
    obtain ⟨hcompared, ha, _⟩ := h.effect_step hs heff
    obtain ⟨b, hexec, hb⟩ := htruth op i heff ht
    obtain ⟨b', m', hexec', hiff⟩ := exec_truthful_iff hinv ha ht hcompared
    cases hexec.symm.trans hexec'
    exact hiff.mp hb
  · intro hfinds op i heff ht
    obtain ⟨hcompared, ha, r, hexec⟩ := h.effect_step hs heff
    obtain ⟨b, m', hexec', hiff⟩ := exec_truthful_iff hinv ha ht hcompared
    cases hexec.symm.trans hexec'
    exact ⟨b, hexec', hiff.mpr (hfinds op i heff ht)⟩

/-- A `reset` that finds its timer not pending does nothing and returns true. -/
theorem CallsOk.reset_misreports (h : s.CallsOk) (hs : s.next a = some s') {i : TimerPtr}
    {ms : Millis} {from_now : Bool} {seen now : Millis}
    (heff : s.effect a = some (.reset i ms from_now seen now)) (hout : i ∉ s.manager.m_timers) :
    s.manager.exec (.reset i ms from_now seen now) = .ok (.bool true, s.manager) ∧
      ¬ ReportsTruth ⟨s, a, s'⟩ := by
  obtain ⟨_, hi, _⟩ := h.effect_step hs heff
  constructor
  · unfold exec
    dsimp only
    rw [(reachable_inv h.manager).reset_of_not_mem hi hout]
  · exact fun htruth => hout ((h.reportsTruth_iff hs).mp htruth _ i heff rfl).1

/-- No operation on a timer that somebody holds a pointer to is left without a result. -/
def Returns (s : TimerCalls) : Prop :=
  ∀ op i, op.target = some i → i ∈ s.manager.live →
    ∃ b m', s.manager.exec op = .ok (.bool b, m')

theorem CallsOk.returns (h : s.CallsOk) : s.Returns := by
  intro op i ht hi
  have hinv := reachable_inv h.manager
  cases op with
  | cancel j =>
    cases ht
    obtain ⟨b, m', heq, _⟩ := cancel_effect hinv hi
    exact ⟨b, m', exec_cancel_iff.mpr ⟨b, heq, rfl⟩⟩
  | refresh | reset => exact ⟨_, _, rfl⟩
  | add_timer | listExpiredCb | getNextTimer | release => cases ht

/-- In every run of calls from any threads, every operation on a timer returns,
and each one reports the truth exactly where, in the state in which it takes
effect, a timer is not pending with an empty callback and `reset` finds its timer
pending. -/
theorem reportsTruth_run_iff {tr : List (Move TimerCalls TimerCallAct)} {start : Millis}
    (h : Run system (initial start) tr s) :
    s.Returns ∧ ∀ mv ∈ tr, ReportsTruth mv ↔ FindsTruth mv := by
  have hkeeps : ∀ {s a s'}, CallsOk s → system.step s a s' → CallsOk s' :=
    fun hok hs => hok.step hs
  constructor
  · exact (h.invariant CallsOk hkeeps (initial_callsOk start)).returns
  · intro mv hmv
    have hok := (h.invariant_at CallsOk hkeeps (initial_callsOk start) hmv).1
    exact hok.reportsTruth_iff (h.step_of_mem hmv)

/-- A recurring timer gets another period while the thread that resets it waits,
is refreshed and delivered, and is then reset and cancelled. -/
def resettingRecurring : List TimerCallAct :=
  [.operate (.add_timer ⟨16, 5, some 0, true, 10⟩), .reset 1 0 7 false, .reset 2 0 9 true,
    .restart 2 12, .restart 1 13, .operate (.refresh 0 14), .reset 1 0 7 false,
    .operate (.listExpiredCb ⟨[], 22, false, 48, 22, [23]⟩), .reset 1 0 8 false, .restart 1 24,
    .operate (.cancel 0), .operate (.cancel 0), .operate (.refresh 0 25)]

theorem reportsTruth_run_iff_recurring : ∃ tr s, Run system (initial 0) tr s ∧
    tr.map Move.act = resettingRecurring ∧
    s.Returns ∧ ∀ mv ∈ tr, ReportsTruth mv ↔ FindsTruth mv := by
  have hrun : (traceAll next (initial 0) resettingRecurring).map (fun _ => ()) = some () := by
    decide +kernel
  obtain ⟨tr, s, hr, hacts, _⟩ := Run.exists_of_traceAll next next_sound _ hrun
  exact ⟨tr, s, hr, hacts, reportsTruth_run_iff hr⟩

/-- A one-shot timer is delivered, and another cancelled, before they are reset. -/
def resettingSpent : List TimerCallAct :=
  [.operate (.add_timer ⟨16, 5, some 0, false, 7200000⟩),
    .operate (.add_timer ⟨32, 1000, some 1, false, 7200000⟩),
    .operate (.listExpiredCb ⟨[], 7200010, false, 48, 7200010, []⟩), .operate (.cancel 1),
    .reset 1 0 5 false, .reset 2 1 20 true, .restart 2 7200011]

theorem spent_timers_reset : ∃ tr s, Run system (initial 7200000) tr s ∧
    tr.map Move.act = resettingSpent ∧
    (∃ mv ∈ tr, mv.act = .reset 1 0 5 false ∧ mv.pre.manager.m_timers = [] ∧
      mv.pre.manager.exec (.reset 0 5 false 5 0) = .ok (.bool true, mv.pre.manager) ∧
      ¬ ReportsTruth mv) ∧
    ∃ mv ∈ tr, mv.act = .restart 2 7200011 ∧ mv.pre.manager.m_timers = [] ∧
      mv.pre.manager.exec (.reset 1 20 true 1000 7200011) = .ok (.bool true, mv.pre.manager) ∧
      ¬ ReportsTruth mv := by
  have hrun : (traceAll next (initial 7200000) resettingSpent).map (fun r =>
      ((r.1[4]?).map fun mv => (mv.pre.effect mv.act, mv.pre.manager.m_timers),
        (r.1[6]?).map fun mv => (mv.pre.effect mv.act, mv.pre.manager.m_timers))) =
      some (some (some (.reset 0 5 false 5 0), []),
        some (some (.reset 1 20 true 1000 7200011), [])) := by decide +kernel
  obtain ⟨tr, s, hr, hacts, hobs⟩ := Run.exists_of_traceAll next next_sound _ hrun
  obtain ⟨hkept, hrestarted⟩ := Prod.mk.inj hobs
  have hmisreports : ∀ {n : Nat} {act : TimerCallAct} {i ms from_now seen now},
      resettingSpent[n]? = some act → (tr[n]?).map (fun mv => (mv.pre.effect mv.act,
        mv.pre.manager.m_timers)) = some (some (.reset i ms from_now seen now), []) →
      ∃ mv ∈ tr, mv.act = act ∧ mv.pre.manager.m_timers = [] ∧
        mv.pre.manager.exec (.reset i ms from_now seen now) = .ok (.bool true, mv.pre.manager) ∧
        ¬ ReportsTruth mv := by
    intro n act i ms from_now seen now hact hmap
    obtain ⟨mv, hn, heq⟩ := Option.map_eq_some_iff.mp hmap
    obtain ⟨heff, htimers⟩ := Prod.mk.inj heq
    have hmv := List.mem_of_getElem? hn
    have hok := (hr.invariant_at CallsOk (fun hok hs => hok.step hs)
      (initial_callsOk 7200000) hmv).1
    refine ⟨mv, hmv, ?_, htimers, ?_⟩
    · exact Option.some.inj ((act_of_getElem hn hacts).symm.trans hact)
    · exact hok.reset_misreports (hr.step_of_mem hmv) heff (htimers ▸ List.not_mem_nil)
  exact ⟨tr, s, hr, hacts, hmisreports rfl hkept, hmisreports rfl hrestarted⟩

end TimerCalls

end FiberAsync
