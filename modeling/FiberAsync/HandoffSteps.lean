import FiberAsync.FiberViews
import FiberAsync.Library.Counting

/-!
# What a step does to the views of the fibers

The view of a fiber is read off the queue, the armed wake-ups and the workers.
Each step but the one that makes a fiber changes the view of at most one fiber,
by one of the legal changes.
-/

namespace FiberAsync

set_option autoImplicit false

open Counting

namespace HandoffTask

def publishes (f : FiberId) (t : HandoffTask) : Nat := if t = fiber f then 1 else 0

def wakes (f : FiberId) (t : HandoffTask) : Nat := if t = wake f then 1 else 0

end HandoffTask

namespace HandoffPc

def publishes (f : FiberId) : HandoffPc → Nat
  | taken g => if g = f then 1 else 0
  | _ => 0

def wakes (f : FiberId) : HandoffPc → Nat
  | calling g => if g = f then 1 else 0
  | idle cbs => cbs.count f
  | _ => 0

end HandoffPc

namespace Handoff

variable {τ : Type} [DecidableEq τ] [Fintype τ] {s s' : Handoff τ} {l : τ} {f g : FiberId}
  {pc : HandoffPc} {a : Act τ}

def queuePublishes (s : Handoff τ) (f : FiberId) : Nat :=
  (s._queue.map (HandoffTask.publishes f)).sum

def queueWakes (s : Handoff τ) (f : FiberId) : Nat :=
  (s._queue.map (HandoffTask.wakes f)).sum

def view (s : Handoff τ) (f : FiberId) : FiberView τ where
  published := s.queuePublishes f + total Finset.univ (HandoffPc.publishes f) s.worker
  waking := s.timers.count f + s.events.count f + s.queueWakes f +
    total Finset.univ (HandoffPc.wakes f) s.worker
  on := fun l => (s.worker l).on f
  state := s.m_state f
  saved := s.saved f

omit [DecidableEq τ] [Fintype τ] in
theorem queuePublishes_push (s : Handoff τ) (t : HandoffTask) :
    (s.push t).queuePublishes f = s.queuePublishes f + t.publishes f := by
  simp [queuePublishes, push]

omit [DecidableEq τ] [Fintype τ] in
theorem queueWakes_push (s : Handoff τ) (t : HandoffTask) :
    (s.push t).queueWakes f = s.queueWakes f + t.wakes f := by
  simp [queueWakes, push]

section Worker

variable {old : HandoffPc} (hpc : s.worker l = old)
  (hw : s'.worker = Function.update s.worker l pc)
include hpc hw

theorem view_eq {v : FiberView τ}
    (hp : v.published + s.queuePublishes f + old.publishes f =
      (s.view f).published + s'.queuePublishes f + pc.publishes f)
    (hk : v.waking + s.timers.count f + s.events.count f + s.queueWakes f + old.wakes f =
      (s.view f).waking + s'.timers.count f + s'.events.count f + s'.queueWakes f + pc.wakes f)
    (ho : v.on = Function.update (s.view f).on l (pc.on f)) (hstate : s'.m_state f = v.state)
    (hsaved : s'.saved f = v.saved) : s'.view f = v := by
  have hpub := total_update (HandoffPc.publishes f) s.worker (Finset.mem_univ l) pc
  have hwake := total_update (HandoffPc.wakes f) s.worker (Finset.mem_univ l) pc
  rw [hpc, ← hw] at hpub hwake
  unfold view at hp hk ⊢
  dsimp only at hp hk
  apply FiberView.ext _ _ _ hstate hsaved
  · dsimp only
    omega
  · dsimp only
    omega
  · rw [ho, hw]
    funext l'
    by_cases hl : l' = l
    · subst l'
      dsimp only
      rw [Function.update_self, Function.update_self]
    · dsimp only
      rw [Function.update_of_ne hl, Function.update_of_ne hl]
      rfl

/-- A step that moves no token of the fiber leaves its view alone. -/
theorem view_same
    (hp : s'.queuePublishes f + pc.publishes f = s.queuePublishes f + old.publishes f)
    (hk : s'.timers.count f + s'.events.count f + s'.queueWakes f + pc.wakes f =
      s.timers.count f + s.events.count f + s.queueWakes f + old.wakes f)
    (ho : pc.on f = old.on f) (hstate : s'.m_state f = s.m_state f)
    (hsaved : s'.saved f = s.saved f) : s'.view f = s.view f := by
  apply view_eq hpc hw _ _ _ hstate hsaved
  · omega
  · omega
  · have hon : (s.view f).on l = pc.on f := by
      rw [ho, ← hpc]
      rfl
    rw [← hon, Function.update_eq_self]

end Worker

/-- The step concerns one fiber, whose view changes, if at all, by a legal
change, which publishes the fiber only where the step queues it. -/
def Concerns (s : Handoff τ) (a : Act τ) (s' : Handoff τ) : Prop :=
  ∃ f, (s'.view f = s.view f ∨ (s.view f).Changes (s'.view f) ∧
      ((s'.view f).published = (s.view f).published + 1 → s.queues a = some f)) ∧
    ∀ g, g ≠ f → s'.view g = s.view g

theorem concerns_of_same (h : ∀ g, s'.view g = s.view g) : s.Concerns a s' :=
  ⟨0, Or.inl (h 0), fun g _ => h g⟩

theorem concerns_of_change {v : FiberView τ} (hv : s'.view f = v) (hc : (s.view f).Changes v)
    (hp : v.published ≤ (s.view f).published) (h : ∀ g, g ≠ f → s'.view g = s.view g) :
    s.Concerns a s' := by
  refine ⟨f, Or.inr ⟨hv ▸ hc, fun hpub => ?_⟩, h⟩
  rw [hv] at hpub
  omega

omit [DecidableEq τ] in
theorem published_pos (hpc : s.worker l = .taken f) : 0 < (s.view f).published := by
  have hle := weight_le_total (HandoffPc.publishes f) s.worker (Finset.mem_univ l)
  have hone : (s.worker l).publishes f = 1 := by simp [hpc, HandoffPc.publishes]
  unfold view
  dsimp only
  omega

theorem concerns_loop (hpc : s.worker l = .loop) (h : s.runWorker l .loop = some (.ok s')) :
    s.Concerns a s' := by
  simp only [runWorker] at h
  split at h
  case h_1 hq =>
    cases h
    exact concerns_of_same fun g => view_same hpc rfl rfl rfl rfl rfl rfl
  case h_2 f queue hq =>
    cases h
    refine concerns_of_same fun g => view_same hpc rfl ?_ ?_ rfl rfl rfl
    · simp [queuePublishes, hq, HandoffTask.publishes, HandoffPc.publishes]
    · simp [queueWakes, hq, HandoffTask.wakes, HandoffPc.wakes, setPc]
      omega
  case h_3 f queue hq =>
    split at h <;> cases h
    refine concerns_of_same fun g => view_same hpc rfl ?_ ?_ rfl rfl rfl
    · simp [queuePublishes, hq, HandoffTask.publishes, HandoffPc.publishes]
      omega
    · simp [queueWakes, hq, HandoffTask.wakes, HandoffPc.wakes, setPc]

omit [DecidableEq τ] in
theorem on_eq_some {o : OnPc} (hpc : s.worker l = pc) (ho : pc.on f = some o) :
    (s.view f).on l = some o := by
  rw [← ho, ← hpc]
  rfl

theorem concerns_resume (hpc : s.worker l = .taken f)
    (h : s.runWorker l (.taken f) = some (.ok s')) : s.Concerns a s' := by
  simp only [runWorker] at h
  split at h <;> cases h
  have hpos := published_pos hpc
  have hv : (((s.setState f .RUNNING).setSaved f false).setPc l (.running f)).view f =
      (s.view f).resume l := by
    apply view_eq hpc rfl
    · simp [FiberView.resume, HandoffPc.publishes, queuePublishes, setPc, setSaved, setState]
      omega
    · simp [FiberView.resume, HandoffPc.wakes, queueWakes, setPc, setSaved, setState]
    · simp [FiberView.resume, HandoffPc.on]
    · exact Function.update_self _ _ _
    · exact Function.update_self _ _ _
  refine concerns_of_change hv (.resume l hpos) (Nat.sub_le _ _) fun g hg => ?_
  apply view_same hpc rfl
  · simp [HandoffPc.publishes, queuePublishes, setPc, setSaved, setState, hg.symm]
  · rfl
  · simp [HandoffPc.on, hg.symm]
  · exact Function.update_of_ne hg _ _
  · exact Function.update_of_ne hg _ _

theorem concerns_ready (hpc : s.worker l = .armed f)
    (h : s.runWorker l (.armed f) = some (.ok s')) : s.Concerns a s' := by
  simp only [runWorker] at h
  split at h <;> cases h
  have hon := on_eq_some (f := f) (o := .armed) hpc (by simp [HandoffPc.on])
  have hw : ((s.setState f (if s.m_state f ≠ .TERM then .READY else .TERM)).setPc l
      (.readied f)).worker = Function.update s.worker l (.readied f) := rfl
  refine concerns_of_change (view_eq hpc hw (v := (s.view f).ready l) rfl rfl ?_ ?_ rfl)
    (.ready l hon) le_rfl fun g hg => ?_
  · simp [FiberView.ready, HandoffPc.on]
  · exact Function.update_self _ _ _
  · apply view_same hpc hw rfl rfl _ _ rfl
    · simp [HandoffPc.on, hg.symm]
    · exact Function.update_of_ne hg _ _

theorem concerns_swap (hpc : s.worker l = .readied f)
    (h : s.runWorker l (.readied f) = some (.ok s')) : s.Concerns a s' := by
  cases h
  have hon := on_eq_some (f := f) (o := .readied) hpc (by simp [HandoffPc.on])
  have hw : ((s.setSaved f true).setPc l .loop).worker = Function.update s.worker l .loop := rfl
  refine concerns_of_change (view_eq hpc hw (v := (s.view f).swap l) rfl rfl rfl rfl ?_)
    (.swap l hon) le_rfl fun g hg => ?_
  · exact Function.update_self _ _ _
  · apply view_same hpc hw rfl rfl _ rfl
    · exact Function.update_of_ne hg _ _
    · simp [HandoffPc.on, hg.symm]

/-- A worker in `sleep` or `addEvent` arms one wake-up for the fiber that it runs. -/
theorem concerns_arm (hpc : s.worker l = .running f)
    (hw : s'.worker = Function.update s.worker l (.armed f)) (hq : s'._queue = s._queue)
    (hf : s'.timers.count f + s'.events.count f = s.timers.count f + s.events.count f + 1)
    (hg : ∀ g, g ≠ f → s'.timers.count g + s'.events.count g = s.timers.count g + s.events.count g)
    (hstate : s'.m_state = s.m_state) (hsaved : s'.saved = s.saved) : s.Concerns a s' := by
  have hon := on_eq_some (f := f) (o := .running) hpc (by simp [HandoffPc.on])
  have hpub : ∀ g, s'.queuePublishes g = s.queuePublishes g := fun g => by
    rw [queuePublishes, hq]
    rfl
  have hwake : ∀ g, s'.queueWakes g = s.queueWakes g := fun g => by
    rw [queueWakes, hq]
    rfl
  refine concerns_of_change (view_eq hpc hw (v := (s.view f).arm l) ?_ ?_ ?_ ?_ ?_)
    (.arm l hon) le_rfl fun g hne => ?_
  · rw [hpub f]
    rfl
  · change _ + 1 + _ + _ + _ + 0 = _ + _ + _ + _ + 0
    rw [hwake f]
    omega
  · simp [FiberView.arm, HandoffPc.on]
  · exact congrFun hstate f
  · exact congrFun hsaved f
  · apply view_same hpc hw _ _ _ (congrFun hstate g) (congrFun hsaved g)
    · rw [hpub g]
      rfl
    · rw [hg g hne, hwake g]
      rfl
    · simp [HandoffPc.on, hne.symm]

theorem concerns_finish (hpc : s.worker l = .running f)
    (h : s' = (s.setState f .TERM).setPc l .loop) : s.Concerns a s' := by
  subst h
  have hon := on_eq_some (f := f) (o := .running) hpc (by simp [HandoffPc.on])
  have hw : ((s.setState f .TERM).setPc l .loop).worker = Function.update s.worker l .loop := rfl
  refine concerns_of_change (view_eq hpc hw (v := (s.view f).finish l) rfl rfl rfl ?_ rfl)
    (.finish l hon) le_rfl fun g hg => ?_
  · exact Function.update_self _ _ _
  · apply view_same hpc hw rfl rfl _ _ rfl
    · simp [HandoffPc.on, hg.symm]
    · exact Function.update_of_ne hg _ _

/-- A step that queues a fiber takes one of its wake-ups. -/
theorem concerns_publish {old : HandoffPc} (hpc : s.worker l = old)
    (hw : s'.worker = Function.update s.worker l pc)
    (hq : s'._queue = s._queue ++ [.fiber f]) (hpub : ∀ g, pc.publishes g = old.publishes g)
    (hf : s'.timers.count f + s'.events.count f + pc.wakes f + 1 =
      s.timers.count f + s.events.count f + old.wakes f)
    (hg : ∀ g, g ≠ f → s'.timers.count g + s'.events.count g + pc.wakes g =
      s.timers.count g + s.events.count g + old.wakes g)
    (hon : ∀ g, pc.on g = old.on g) (hstate : s'.m_state = s.m_state) (hsaved : s'.saved = s.saved)
    (hqueues : s.queues a = some f) : s.Concerns a s' := by
  have hle := weight_le_total (HandoffPc.wakes f) s.worker (Finset.mem_univ l)
  have hpos : 0 < (s.view f).waking := by
    rw [hpc] at hle
    unfold view
    dsimp only
    omega
  have hqueue : ∀ g,
      s'.queuePublishes g = s.queuePublishes g + HandoffTask.publishes g (.fiber f) := by
    intro g
    simp [queuePublishes, hq]
  have hwake : ∀ g, s'.queueWakes g = s.queueWakes g := by
    intro g
    simp [queueWakes, hq, HandoffTask.wakes]
  have hv : s'.view f = (s.view f).publish := by
    apply view_eq hpc hw _ _ _ (congrFun hstate f) (congrFun hsaved f)
    · rw [hqueue f, hpub f]
      simp only [FiberView.publish, HandoffTask.publishes, if_true]
      omega
    · rw [hwake f]
      unfold FiberView.publish
      dsimp only
      omega
    · have hself : pc.on f = (s.view f).on l := by
        rw [hon f, ← hpc]
        rfl
      rw [hself, Function.update_eq_self]
      rfl
  refine ⟨f, Or.inr ⟨hv ▸ .publish hpos, fun _ => hqueues⟩, fun g hne => ?_⟩
  apply view_same hpc hw _ _ (hon g) (congrFun hstate g) (congrFun hsaved g)
  · rw [hqueue g, hpub g]
    simp [HandoffTask.publishes, hne.symm]
  · rw [hwake g]
    have hcount := hg g hne
    omega

theorem concerns_call (hpc : s.worker l = .calling f) :
    s.Concerns (.run l) ((s.push (.fiber f)).setPc l .loop) := by
  apply concerns_publish (f := f) hpc rfl rfl
  · exact fun g => rfl
  · simp [HandoffPc.wakes, setPc, push]
  · intro g hg
    simp [HandoffPc.wakes, setPc, push, hg.symm]
  · exact fun g => rfl
  · rfl
  · rfl
  · simp only [queues, hpc]

theorem concerns_idle {cbs : List FiberId} (hpc : s.worker l = .idle cbs)
    (h : s.runWorker l (.idle cbs) = some (.ok s')) : s.Concerns a s' := by
  cases cbs with
  | nil =>
    cases h
    exact concerns_of_same fun g => view_same hpc rfl rfl rfl rfl rfl rfl
  | cons f cbs =>
    cases h
    refine concerns_of_same fun g => view_same hpc rfl ?_ ?_ rfl rfl rfl
    · change (s.push (.wake f)).queuePublishes g + 0 = _ + 0
      rw [queuePublishes_push]
      simp [HandoffTask.publishes]
    · change s.timers.count g + s.events.count g + (s.push (.wake f)).queueWakes g + cbs.count g =
        _ + (f :: cbs).count g
      rw [queueWakes_push, List.count_cons]
      simp only [HandoffTask.wakes, HandoffTask.wake.injEq, beq_iff_eq]
      omega

theorem concerns_expire {cbs : List FiberId} (hpc : s.worker l = .idle cbs) (hf : f ∈ s.timers) :
    s.Concerns a { s.setPc l (.idle (cbs ++ [f])) with timers := s.timers.erase f } := by
  refine concerns_of_same fun g => view_same hpc rfl rfl ?_ rfl rfl rfl
  have hcount : (s.timers.erase f).count g = s.timers.count g - if f == g then 1 else 0 :=
    List.count_erase
  have hpos : f = g → 0 < s.timers.count g := fun heq => heq ▸ List.count_pos_iff.mpr hf
  change (s.timers.erase f).count g + s.events.count g + s.queueWakes g + (cbs ++ [f]).count g =
    s.timers.count g + s.events.count g + s.queueWakes g + cbs.count g
  rw [hcount, List.count_append, List.count_singleton]
  simp only [beq_iff_eq]
  split_ifs with hfg
  · have := hpos hfg
    omega
  · omega

theorem concerns_dispatch {cbs : List FiberId} (hpc : s.worker l = .idle cbs) (hf : f ∈ s.events) :
    s.Concerns (.dispatch l f) { s.push (.fiber f) with events := s.events.erase f } := by
  have hw : ({ s.push (.fiber f) with events := s.events.erase f } : Handoff τ).worker =
      Function.update s.worker l (.idle cbs) := by
    rw [← hpc, Function.update_eq_self]
    rfl
  apply concerns_publish hpc hw rfl
  · exact fun g => rfl
  · have hcount : (s.events.erase f).count f = s.events.count f - 1 := List.count_erase_self
    have hpos := List.count_pos_iff.mpr hf
    simp only [push, hcount]
    omega
  · intro g hg
    simp only [push, List.count_erase_of_ne hg]
  · exact fun g => rfl
  · rfl
  · rfl
  · rfl

theorem concerns_run (h : s.runWorker l (s.worker l) = some (.ok s')) :
    s.Concerns (.run l) s' := by
  cases hpc : s.worker l with
  | loop => exact concerns_loop hpc (hpc ▸ h)
  | taken f => exact concerns_resume hpc (hpc ▸ h)
  | running f =>
    rw [hpc] at h
    cases h
  | armed f => exact concerns_ready hpc (hpc ▸ h)
  | readied f => exact concerns_swap hpc (hpc ▸ h)
  | calling f =>
    rw [hpc] at h
    cases h
    exact concerns_call hpc
  | idle cbs => exact concerns_idle hpc (hpc ▸ h)

/-- Every step but the one that makes a new fiber concerns one fiber. -/
theorem concerns (h : s.exec a = some (.ok s')) (ha : a ≠ .spawn) : s.Concerns a s' := by
  cases a with
  | spawn => exact absurd rfl ha
  | run l => exact concerns_run h
  | sleep l =>
    simp only [exec] at h
    split at h
    case h_1 f hpc =>
      cases h
      refine concerns_arm hpc rfl rfl ?_ (fun g hg => ?_) rfl rfl
      · change (f :: s.timers).count f + s.events.count f = _
        rw [List.count_cons_self]
        omega
      · change (f :: s.timers).count g + s.events.count g = _
        rw [List.count_cons_of_ne hg.symm]
    case h_2 => cases h
  | addEvent l =>
    simp only [exec] at h
    split at h
    case h_1 f hpc =>
      cases h
      refine concerns_arm hpc rfl rfl ?_ (fun g hg => ?_) rfl rfl
      · change s.timers.count f + (f :: s.events).count f = _
        rw [List.count_cons_self]
        omega
      · change s.timers.count g + (f :: s.events).count g = _
        rw [List.count_cons_of_ne hg.symm]
    case h_2 => cases h
  | finish l =>
    simp only [exec] at h
    split at h
    case h_1 f hpc =>
      cases h
      exact concerns_finish hpc rfl
    case h_2 => cases h
  | expire l f =>
    simp only [exec] at h
    split at h
    case h_1 cbs hpc =>
      split at h <;> cases h
      case isTrue hf => exact concerns_expire hpc hf
    case h_2 => cases h
  | dispatch l f =>
    simp only [exec] at h
    split at h
    case h_1 cbs hpc =>
      split at h <;> cases h
      case isTrue hf => exact concerns_dispatch hpc hf
    case h_2 => cases h

end Handoff

end FiberAsync
