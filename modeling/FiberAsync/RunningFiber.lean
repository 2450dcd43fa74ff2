import FiberAsync.FiberCoroutines

/-!
# The fiber that `t_fiber` names

`resume` sets `t_fiber` to the fiber it goes on with. `yield` sets it to the
thread's main fiber, but goes on wherever `GetMainFiber()` or `t_thread_fiber`
was switched out, and that is the scheduling fiber. On a worker the two are one
fiber; on the caller's thread they are not.
-/

namespace FiberAsync

set_option autoImplicit false

open Runs

namespace FiberThread

section Functions

variable (s : FiberThread)

/-- `Fiber::GetThis()` on a thread that has a main fiber. -/
def GetThis : FiberId := s.t_fiber

/-- `t_fiber` is the fiber whose context the processor executes. -/
def NamesRunning : Prop := s.GetThis = s.cpu.stack

instance : Decidable s.NamesRunning := inferInstanceAs (Decidable (_ = _))

/-- The calls that code on a scheduler's thread makes, with task fibers of either
flag: the scheduling fiber resumes tasks, the main fiber resumes the scheduling
fiber, tasks yield, and every callback may return. -/
def Called : Act → Prop
  | .construct f _ _ => s.cpu.place ≠ .entry ∧ f = s.created
  | .reset f _ => s.cpu.place ≠ .entry ∧ f < s.created
  | .resume f => s.cpu.place ≠ .entry ∧
    (s.cpu.stack = s.t_scheduler_fiber ∧ s.IsTask f ∨
      s.cpu.stack = s.t_thread_fiber ∧ f = s.t_scheduler_fiber)
  | .enter => s.cpu.place = .entry
  | .yield => s.cpu.place ≠ .entry ∧ s.IsTask s.cpu.stack
  | .finish => s.cpu.place ≠ .entry ∧ s.cpu.stack ≠ s.t_thread_fiber

/-- A task leaves the processor on a thread whose scheduling fiber is not its main fiber. -/
def LeavesOnCaller (a : Act) : Prop :=
  (a = .yield ∨ a = .finish) ∧ s.IsTask s.cpu.stack ∧ s.t_scheduler_fiber ≠ s.t_thread_fiber

end Functions

def calls (s₀ : FiberThread) : System FiberThread Act where
  init s := s = s₀
  step s a s' := s.Called a ∧ s.exec a = .ok s'

theorem calls_of_system {s₀ s s' : FiberThread} {a : Act} (h : (system s₀).step s a s') :
    (calls s₀).step s a s' := by
  obtain ⟨ha, he⟩ := h
  refine ⟨?_, he⟩
  cases a with
  | construct f cb flag => exact ⟨ha.1, ha.2.1⟩
  | reset f cb => exact ⟨ha.1, ha.2.1⟩
  | resume f => exact ⟨ha.1, ha.2.2⟩
  | enter | yield | finish => exact ha

/-- Which stack each context is on. A task that runs left the scheduling fiber in
its target. -/
structure ContextsOk (s : FiberThread) : Prop where
  names : s.NamesRunning
  created : s.t_thread_fiber < s.created ∧ s.t_scheduler_fiber < s.created ∧
    s.cpu.stack < s.created
  root : s.t_scheduler_fiber ≠ s.t_thread_fiber →
    (s.fiber s.t_scheduler_fiber).m_runInScheduler = false
  noStack : (s.fiber s.t_thread_fiber).m_stack = false
  running : (s.fiber s.t_thread_fiber).m_state = .RUNNING
  own : ∀ f < s.created, f ≠ s.t_thread_fiber → (s.fiber f).m_ctx.stack = f
  main : ¬ s.IsTask s.cpu.stack → (s.fiber s.t_thread_fiber).m_ctx.stack = s.t_thread_fiber
  task : s.IsTask s.cpu.stack → (s.fiber (s.target s.cpu.stack)).m_ctx.stack = s.t_scheduler_fiber
  cur : ∀ f, s.cur f = f

variable {s s' s₀ : FiberThread} {a : Act} {f : FiberId}

/-- A fiber has been switched out in its own context, and the processor goes on in
that of its target. -/
structure Left (s : FiberThread) (f : FiberId) (s' : FiberThread) : Prop where
  frame : Frame s s'
  named : s'.t_fiber = s.t_thread_fiber
  cpu : s.target f ≠ f → s'.cpu = (s.fiber (s.target f)).m_ctx
  self : (s'.fiber f).m_ctx.stack = s.cpu.stack
  other : ∀ g ≠ f, (s'.fiber g).m_ctx = (s.fiber g).m_ctx ∧
    (s'.fiber g).m_state = (s.fiber g).m_state

theorem yield_left (h : s.yield f = .ok s') : Left s f s' := by
  have swapped : ∀ u : FiberThread, Frame s u → u.cpu = s.cpu → u.t_fiber = s.t_thread_fiber →
      (∀ g, (u.fiber g).m_ctx = (s.fiber g).m_ctx) → (∀ g ≠ f, u.fiber g = s.fiber g) →
      Left s f (u.swapcontext f (s.target f)) := by
    intro u hu hcpu hnamed hctx hother
    refine ⟨hu.trans (.swapcontext _ _), hnamed, fun hne => ?_, ?_, fun g hg => ?_⟩
    · rw [swapcontext_cpu _ _ _ hne, hctx]
    · rw [swapcontext_fiber_self, hcpu]
    · rw [swapcontext_fiber_of_ne _ _ _ hg, hother g hg]
      exact ⟨rfl, rfl⟩
  cases hstate : (s.fiber f).m_state with
  | READY =>
    simp [yield, hstate] at h
  | RUNNING =>
    rw [yield_running hstate] at h
    cases h
    have hset : Frame s (s.setFiber f { s.fiber f with m_state := .READY }) := .setFiber rfl rfl
    have hctx := setFiber_ctx (s := s) (f := f) (x := { s.fiber f with m_state := .READY }) rfl
    exact swapped _ (hset.trans (.setThis _)) rfl rfl hctx
      (fun g hg => setFiber_fiber_of_ne _ _ _ hg)
  | TERM =>
    rw [yield_term hstate] at h
    cases h
    exact swapped _ (.setThis _) rfl rfl (fun _ => rfl) (fun _ _ => rfl)

/-- The state in which `MainFunc` calls `yield` after its callback has returned. -/
def terminated (s : FiberThread) (f : FiberId) : FiberThread :=
  { s with ended := Function.update s.ended f (s.ended f ++ (s.fiber f).m_cb.toList) }.setFiber f
    { s.fiber f with m_cb := none, m_state := .TERM }

theorem finish_eq_yield (s : FiberThread) :
    s.finish = (s.terminated (s.cur s.cpu.stack)).yield (s.cur s.cpu.stack) := rfl

theorem terminated_of_ne {g : FiberId} (h : g ≠ f) : (s.terminated f).fiber g = s.fiber g :=
  setFiber_fiber_of_ne _ _ _ h

theorem terminated_frame : Frame s (s.terminated f) := by
  have h : Frame s (s.setFiber f { s.fiber f with m_cb := none, m_state := .TERM }) :=
    .setFiber rfl rfl
  exact ⟨rfl, rfl, rfl, rfl, h.flag, h.stack⟩

theorem finish_left (h : s.finish = .ok s') (hcur : s.cur s.cpu.stack = f) : Left s f s' := by
  rw [finish_eq_yield, hcur] at h
  have hleft := yield_left h
  have hframe : Frame s (s.terminated f) := terminated_frame
  refine ⟨hframe.trans hleft.frame, hleft.named, fun hne => ?_, hleft.self, fun g hg => ?_⟩
  · rw [hleft.cpu (by rw [hframe.target]; exact hne), hframe.target, terminated_of_ne hne]
  · rw [← terminated_of_ne (s := s) hg]
    exact hleft.other g hg

/-- Everything but the contexts, and what depends on where the processor is. -/
theorem ContextsOk.of_frame (h : s.ContextsOk) (hf : Frame s s') (hnames : s'.NamesRunning)
    (hcpu : s'.cpu.stack < s.created)
    (hrunning : (s'.fiber s.t_thread_fiber).m_state = .RUNNING)
    (hown : ∀ g < s.created, g ≠ s.t_thread_fiber → (s'.fiber g).m_ctx.stack = g)
    (hmain : ¬ s.IsTask s'.cpu.stack → (s'.fiber s.t_thread_fiber).m_ctx.stack = s.t_thread_fiber)
    (htask : s.IsTask s'.cpu.stack →
      (s'.fiber (s.target s'.cpu.stack)).m_ctx.stack = s.t_scheduler_fiber) : s'.ContextsOk := by
  refine ⟨hnames, ?_, ?_, ?_, ?_, ?_, ?_, ?_, ?_⟩
  · rw [hf.created, hf.thread, hf.scheduler]
    exact ⟨h.created.1, h.created.2.1, hcpu⟩
  · rw [hf.scheduler, hf.thread, hf.flag]
    exact h.root
  · rw [hf.thread, hf.stack]
    exact h.noStack
  · rw [hf.thread]
    exact hrunning
  · rw [hf.created, hf.thread]
    exact hown
  · rw [hf.isTask, hf.thread]
    exact hmain
  · rw [hf.isTask, hf.target, hf.scheduler]
    exact htask
  · rw [hf.cur]
    exact h.cur

theorem not_isTask_main (s : FiberThread) : ¬ s.IsTask s.t_thread_fiber := fun h => h.2.1 rfl

theorem not_isTask_scheduler (s : FiberThread) : ¬ s.IsTask s.t_scheduler_fiber :=
  fun h => h.2.2 rfl

theorem target_cases (s : FiberThread) (f : FiberId) :
    s.target f = s.t_scheduler_fiber ∨ s.target f = s.t_thread_fiber := by
  unfold target
  split
  · exact Or.inl rfl
  · exact Or.inr rfl

theorem target_ne_task (h : s.IsTask f) : s.target f ≠ f := by
  intro heq
  rcases s.target_cases f with ht | ht
  · exact h.2.2 (heq.symm.trans ht)
  · exact h.2.1 (heq.symm.trans ht)

/-- A task that gives up the processor leaves `t_fiber` at the main fiber, and the
processor goes on with the scheduling fiber. -/
theorem ContextsOk.task_left (h : s.ContextsOk) (ht : s.IsTask s.cpu.stack)
    (hl : Left s s.cpu.stack s') :
    s'.t_fiber = s.t_thread_fiber ∧ s'.cpu.stack = s.t_scheduler_fiber := by
  refine ⟨hl.named, ?_⟩
  rw [hl.cpu (target_ne_task ht)]
  exact h.task ht

theorem ContextsOk.left_own (h : s.ContextsOk) (hl : Left s s.cpu.stack s') :
    ∀ g < s.created, g ≠ s.t_thread_fiber → (s'.fiber g).m_ctx.stack = g := by
  intro g hg hne
  by_cases heq : g = s.cpu.stack
  · rw [heq]
    exact hl.self
  · rw [(hl.other g heq).1]
    exact h.own g hg hne

/-- On a worker a task leaves the main fiber, which is the scheduling fiber, running. -/
theorem ContextsOk.task_left_worker (h : s.ContextsOk) (ht : s.IsTask s.cpu.stack)
    (hsame : s.t_scheduler_fiber = s.t_thread_fiber) (hl : Left s s.cpu.stack s') :
    s'.ContextsOk := by
  obtain ⟨hnamed, hcpu⟩ := h.task_left ht hl
  have hne : s.t_thread_fiber ≠ s.cpu.stack := fun heq => ht.2.1 heq.symm
  have htarget : s.target s.cpu.stack = s.t_thread_fiber := by
    rcases s.target_cases s.cpu.stack with heq | heq
    · exact heq.trans hsame
    · exact heq
  refine h.of_frame hl.frame ?_ ?_ ?_ (h.left_own hl) ?_ ?_
  · exact hnamed.trans (hsame.symm.trans hcpu.symm)
  · rw [hcpu]
    exact h.created.2.1
  · rw [(hl.other _ hne).2]
    exact h.running
  · intro _
    have hctx := h.task ht
    rw [htarget, hsame] at hctx
    rw [(hl.other _ hne).1]
    exact hctx
  · intro htask
    rw [hcpu] at htask
    exact absurd htask s.not_isTask_scheduler

/-- The scheduling fiber of the caller's thread ends in the main fiber. -/
theorem ContextsOk.scheduler_left (h : s.ContextsOk) (hstack : s.cpu.stack = s.t_scheduler_fiber)
    (hne : s.t_scheduler_fiber ≠ s.t_thread_fiber) (hl : Left s s.cpu.stack s') :
    s'.ContextsOk := by
  have htarget : s.target s.cpu.stack = s.t_thread_fiber := by
    rw [hstack, target, h.root hne]
    rfl
  have hmain : s.t_thread_fiber ≠ s.cpu.stack := fun heq => hne (hstack.symm.trans heq.symm)
  have hctx : (s.fiber s.t_thread_fiber).m_ctx.stack = s.t_thread_fiber := by
    apply h.main
    rw [hstack]
    exact s.not_isTask_scheduler
  have hcpu : s'.cpu.stack = s.t_thread_fiber := by
    rw [hl.cpu (by rw [htarget]; exact hmain), htarget]
    exact hctx
  refine h.of_frame hl.frame (hl.named.trans hcpu.symm) ?_ ?_ (h.left_own hl) ?_ ?_
  · rw [hcpu]
    exact h.created.1
  · rw [(hl.other _ hmain).2]
    exact h.running
  · intro _
    rw [(hl.other _ hmain).1]
    exact hctx
  · intro htask
    rw [hcpu] at htask
    exact absurd htask s.not_isTask_main

/-- `t_fiber` still names the running fiber after a task's switch exactly on a worker. -/
theorem ContextsOk.task_left_iff (h : s.ContextsOk) (ht : s.IsTask s.cpu.stack)
    (hl : Left s s.cpu.stack s') :
    (s'.NamesRunning ↔ s.t_scheduler_fiber = s.t_thread_fiber) ∧
      (s.t_scheduler_fiber = s.t_thread_fiber → s'.ContextsOk) := by
  obtain ⟨hnamed, hcpu⟩ := h.task_left ht hl
  refine ⟨?_, fun hsame => h.task_left_worker ht hsame hl⟩
  unfold NamesRunning GetThis
  rw [hnamed, hcpu]
  exact eq_comm

theorem ContextsOk.resume (h : s.ContextsOk) (ha : s.Called (.resume f))
    (he : s.resume f = .ok s') : s'.ContextsOk := by
  have hready : (s.fiber f).m_state = .READY := by
    by_contra hne
    simp [FiberThread.resume, hne] at he
  have hmain : f ≠ s.t_thread_fiber := by
    rintro rfl
    rw [h.running] at hready
    cases hready
  have hf : f < s.created := by
    rcases ha.2 with ⟨_, ht⟩ | ⟨_, rfl⟩
    · exact ht.1
    · exact h.created.2.1
  have htarget : s.target f ≠ f := by
    rcases ha.2 with ⟨_, ht⟩ | ⟨_, rfl⟩
    · exact target_ne_task ht
    · rw [target, h.root hmain]
      exact hmain.symm
  obtain ⟨u, hexec, hres⟩ := resumed_of_ready hready htarget
  cases hexec.symm.trans he
  have hcpu : s'.cpu.stack = f := by
    rw [hres.cpu]
    exact h.own f hf hmain
  have hslot : (s'.fiber (s.target f)).m_ctx.stack = s.cpu.stack := by rw [hres.target]
  have hother : ∀ g, g ≠ s.target f → (s'.fiber g).m_ctx = (s.fiber g).m_ctx := by
    intro g hg
    by_cases hgf : g = f
    · rw [hgf, hres.self]
    · rw [hres.other g hgf hg]
  refine h.of_frame hres.frame (hres.named.trans hcpu.symm) ?_ ?_ ?_ ?_ ?_
  · rw [hcpu]
    exact hf
  · by_cases hg : s.t_thread_fiber = s.target f
    · rw [hg, hres.target, ← hg]
      exact h.running
    · rw [hres.other _ hmain.symm hg]
      exact h.running
  · intro g hg hne
    by_cases hgt : g = s.target f
    · -- the target of a task on the caller's thread is the scheduling fiber, which resumes it
      subst g
      rw [hslot]
      rcases ha.2 with ⟨hs, _⟩ | ⟨_, rfl⟩
      · exact hs.trans ((s.target_cases f).resolve_right hne).symm
      · rw [target, h.root hmain] at hne
        exact absurd rfl hne
    · rw [hother g hgt]
      exact h.own g hg hne
  · intro hnot
    rw [hcpu] at hnot
    rcases ha.2 with ⟨_, ht⟩ | ⟨hs, rfl⟩
    · exact absurd ht hnot
    · have htm : s.target s.t_scheduler_fiber = s.t_thread_fiber := by
        rw [target, h.root hmain]
        rfl
      rw [← htm, hslot, hs, htm]
  · intro ht
    rw [hcpu] at ht ⊢
    rw [hslot]
    rcases ha.2 with ⟨hs, _⟩ | ⟨_, rfl⟩
    · exact hs
    · exact absurd ht s.not_isTask_scheduler

theorem ContextsOk.setFiber (h : s.ContextsOk) {x : Fiber} (hf : f ≠ s.t_thread_fiber)
    (hflag : x.m_runInScheduler = (s.fiber f).m_runInScheduler)
    (hstack : x.m_stack = (s.fiber f).m_stack) (hx : x.m_ctx.stack = f) :
    (s.setFiber f x).ContextsOk := by
  have hctx : ∀ g, g ≠ f → ((s.setFiber f x).fiber g).m_ctx = (s.fiber g).m_ctx :=
    fun g hg => congrArg Fiber.m_ctx (setFiber_fiber_of_ne _ _ _ hg)
  have hself : ((s.setFiber f x).fiber f).m_ctx.stack = f := by rw [setFiber_fiber_self, hx]
  have hmain : (s.setFiber f x).fiber s.t_thread_fiber = s.fiber s.t_thread_fiber :=
    setFiber_fiber_of_ne _ _ _ hf.symm
  refine h.of_frame (.setFiber hflag hstack) h.names h.created.2.2 ?_ ?_ ?_ ?_
  · rw [hmain]
    exact h.running
  · intro g hg hne
    by_cases hgf : g = f
    · subst g
      exact hself
    · rw [hctx g hgf]
      exact h.own g hg hne
  · intro hnot
    rw [hmain]
    exact h.main hnot
  · intro ht
    have htask := h.task ht
    by_cases hgf : s.target s.cpu.stack = f
    · have hs := (s.target_cases s.cpu.stack).resolve_right (hgf ▸ hf)
      change ((s.setFiber f x).fiber (s.target s.cpu.stack)).m_ctx.stack = _
      rw [hgf, hself, ← hgf, hs]
    · change ((s.setFiber f x).fiber (s.target s.cpu.stack)).m_ctx.stack = _
      rw [hctx _ hgf]
      exact htask

theorem ContextsOk.withHistory (h : s.ContextsOk) (made : FiberId → List Callback)
    (begun : FiberId → List Callback) : ({ s with made, begun } : FiberThread).ContextsOk :=
  ⟨h.names, h.created, h.root, h.noStack, h.running, h.own, h.main, h.task, h.cur⟩

theorem ContextsOk.construct (h : s.ContextsOk) {cb : Callback} {flag : Bool}
    (hf : f = s.created) : (s.newFiber f cb flag).ContextsOk := by
  subst hf
  have hlt : ∀ g, g < s.created → g ≠ s.created := fun g hg => Nat.ne_of_lt hg
  have hold : ∀ g, g < s.created → (s.newFiber s.created cb flag).fiber g = s.fiber g :=
    fun g hg => setFiber_fiber_of_ne _ _ _ (hlt g hg)
  obtain ⟨hmain, hsched, hcpu⟩ := h.created
  have htask : ∀ g, g < s.created → ((s.newFiber s.created cb flag).IsTask g ↔ s.IsTask g) := by
    intro g hg
    have hsucc : g < s.created + 1 := Nat.lt_succ_of_lt hg
    exact ⟨fun ht => ⟨hg, ht.2⟩, fun ht => ⟨hsucc, ht.2⟩⟩
  have htarget : ∀ g, g < s.created → (s.newFiber s.created cb flag).target g = s.target g := by
    intro g hg
    unfold target
    rw [hold g hg]
    rfl
  refine ⟨h.names, ?_, ?_, ?_, ?_, ?_, ?_, ?_, h.cur⟩
  · exact ⟨Nat.lt_succ_of_lt hmain, Nat.lt_succ_of_lt hsched, Nat.lt_succ_of_lt hcpu⟩
  · intro hne
    change ((s.newFiber s.created cb flag).fiber s.t_scheduler_fiber).m_runInScheduler = false
    rw [hold _ hsched]
    exact h.root hne
  · change ((s.newFiber s.created cb flag).fiber s.t_thread_fiber).m_stack = false
    rw [hold _ hmain]
    exact h.noStack
  · change ((s.newFiber s.created cb flag).fiber s.t_thread_fiber).m_state = .RUNNING
    rw [hold _ hmain]
    exact h.running
  · intro g hg hne
    rcases Nat.lt_succ_iff_lt_or_eq.mp hg with hg | rfl
    · rw [hold g hg]
      exact h.own g hg hne
    · exact congrArg (fun x : Fiber => x.m_ctx.stack) (setFiber_fiber_self _ _ _)
  · intro hnot
    change ((s.newFiber s.created cb flag).fiber s.t_thread_fiber).m_ctx.stack = _
    rw [hold _ hmain]
    exact h.main fun ht => hnot ((htask _ hcpu).mpr ht)
  · intro ht
    have ht := (htask _ hcpu).mp ht
    have hlt : s.target s.cpu.stack < s.created := by
      rcases s.target_cases s.cpu.stack with heq | heq <;> rw [heq]
      · exact hsched
      · exact hmain
    change ((s.newFiber s.created cb flag).fiber
      ((s.newFiber s.created cb flag).target s.cpu.stack)).m_ctx.stack = _
    rw [htarget _ hcpu, hold _ hlt]
    exact h.task ht

theorem ContextsOk.reset (h : s.ContextsOk) {cb : Callback} (he : s.reset f cb = .ok s') :
    s'.ContextsOk := by
  unfold FiberThread.reset at he
  split at he
  · cases he
  · rename_i hstack
    split at he
    · cases he
    · cases he
      have hf : f ≠ s.t_thread_fiber := by
        rintro rfl
        rw [h.noStack] at hstack
        exact hstack Bool.false_ne_true
      have hset := h.setFiber
        (x := { s.fiber f with m_cb := some cb, m_ctx := ⟨f, .entry⟩, m_state := .READY })
        hf rfl rfl rfl
      exact hset.withHistory _ _

theorem ContextsOk.enter (h : s.ContextsOk) (he : s.enter = .ok s') : s'.ContextsOk := by
  unfold FiberThread.enter at he
  split at he
  · cases he
  · cases he
    refine ⟨h.names, h.created, h.root, h.noStack, h.running, h.own, h.main, h.task, fun g => ?_⟩
    have hnames : s.t_fiber = s.cpu.stack := h.names
    change Function.update s.cur s.cpu.stack s.t_fiber g = g
    by_cases hg : g = s.cpu.stack
    · rw [hg, Function.update_self, hnames]
    · rw [Function.update_of_ne hg]
      exact h.cur g

/-- A task gives up the processor in `yield`, and any fiber but the main one in
the `yield` of its `MainFunc`. -/
theorem ContextsOk.left (h : s.ContextsOk) (hs : (calls s₀).step s a s')
    (ha : a = .yield ∨ a = .finish) : Left s s.cpu.stack s' := by
  obtain ⟨_, he⟩ := hs
  rcases ha with rfl | rfl
  · have hnames : s.t_fiber = s.cpu.stack := h.names
    rw [← hnames]
    exact yield_left he
  · exact finish_left he (h.cur _)

/-- A step keeps the name of the running fiber exactly when no task leaves the
processor on a caller's thread. -/
theorem ContextsOk.step (h : s.ContextsOk) (hs : (calls s₀).step s a s') :
    (s'.NamesRunning ↔ ¬ s.LeavesOnCaller a) ∧ (¬ s.LeavesOnCaller a → s'.ContextsOk) := by
  have kept : s'.ContextsOk → ¬ s.LeavesOnCaller a →
      (s'.NamesRunning ↔ ¬ s.LeavesOnCaller a) ∧ (¬ s.LeavesOnCaller a → s'.ContextsOk) :=
    fun hok hno => ⟨iff_of_true hok.names hno, fun _ => hok⟩
  by_cases ha : a = .yield ∨ a = .finish
  · have hl := h.left hs ha
    by_cases ht : s.IsTask s.cpu.stack
    · obtain ⟨hnames, hok⟩ := h.task_left_iff ht hl
      have hiff : s.LeavesOnCaller a ↔ s.t_scheduler_fiber ≠ s.t_thread_fiber :=
        ⟨fun hx => hx.2.2, fun hne => ⟨ha, ht, hne⟩⟩
      rw [hiff, not_not]
      exact ⟨hnames, hok⟩
    · have hno : ¬ s.LeavesOnCaller a := fun hx => ht hx.2.1
      have hmain : s.cpu.stack ≠ s.t_thread_fiber := by
        rcases ha with rfl | rfl
        · exact absurd hs.1.2 ht
        · exact hs.1.2
      have hsched : s.cpu.stack = s.t_scheduler_fiber := by
        by_contra hne
        exact ht ⟨h.created.2.2, hmain, hne⟩
      exact kept (h.scheduler_left hsched (hsched ▸ hmain) hl) hno
  · have hno : ¬ s.LeavesOnCaller a := fun hx => ha hx.1
    obtain ⟨hcalled, he⟩ := hs
    refine kept ?_ hno
    cases a with
    | construct f cb flag =>
      cases he
      exact h.construct hcalled.2
    | reset f cb => exact h.reset he
    | resume f => exact h.resume hcalled he
    | enter => exact h.enter he
    | yield => exact absurd (Or.inl rfl) ha
    | finish => exact absurd (Or.inr rfl) ha

theorem worker_contextsOk : worker.ContextsOk := by
  refine ⟨rfl, ⟨Nat.one_pos, Nat.one_pos, Nat.one_pos⟩, fun hne => absurd rfl hne, rfl, rfl,
    fun f _ _ => rfl, fun _ => rfl, fun ht => absurd ht (not_isTask_main worker), fun _ => rfl⟩

theorem caller_contextsOk (run : Callback) : (caller run).ContextsOk := by
  have hnew : (attached.newFiber 1 run false).ContextsOk := by
    have hattached : attached.ContextsOk := worker_contextsOk
    exact hattached.construct rfl
  refine ⟨rfl, ⟨Nat.two_pos, Nat.one_lt_two, Nat.two_pos⟩, fun _ => rfl, hnew.noStack,
    hnew.running, hnew.own, fun _ => rfl, fun ht => absurd ht (not_isTask_main (caller run)),
    hnew.cur⟩

/-- A thread of a scheduler before its first switch. -/
def Starts (s : FiberThread) : Prop := s = worker ∨ ∃ run, s = caller run

theorem Starts.contextsOk (h : s.Starts) : s.ContextsOk := by
  rcases h with rfl | ⟨run, rfl⟩
  · exact worker_contextsOk
  · exact caller_contextsOk run

/-- `t_fiber` names the running fiber throughout a run exactly when no task
yields or completes on a thread whose scheduling fiber is not its main fiber. -/
theorem namesRunning_run_iff (h₀ : s₀.Starts) {tr : List (Move FiberThread Act)}
    (h : Run (calls s₀) s₀ tr s) :
    (∀ m ∈ tr, m.post.NamesRunning) ↔ ∀ m ∈ tr, ¬ m.pre.LeavesOnCaller m.act :=
  h.forall_iff_guard ContextsOk (fun s a => ¬ s.LeavesOnCaller a) (fun m => m.post.NamesRunning)
    (fun hs hg hstep => (hs.step hstep).2 hg) (fun hs hstep => (hs.step hstep).1) h₀.contextsOk

/-- A task of a worker that yields, is resumed and completes. -/
def oneTask : List Act :=
  [.construct 1 7 true, .resume 1, .enter, .yield, .resume 1, .finish]

theorem namesRunning_run_iff_worker : ∃ tr s, Run (calls worker) worker tr s ∧
    tr.map Move.act = oneTask ∧
    ((∀ m ∈ tr, m.post.NamesRunning) ↔ ∀ m ∈ tr, ¬ m.pre.LeavesOnCaller m.act) := by
  have hrun : (traceAll next worker oneTask).map (fun r => r.2.t_fiber) = some 0 := by
    decide +kernel
  obtain ⟨tr, s, hr, hacts, _⟩ :=
    Run.exists_of_traceAll next (S := calls worker)
      (fun h => @calls_of_system worker _ _ _ (next_sound h)) _ hrun
  exact ⟨tr, s, hr, hacts, namesRunning_run_iff (Or.inl rfl) hr⟩

/-- The caller's main fiber resumes the scheduling fiber, which resumes a task that yields. -/
def yieldOnCaller : List Act :=
  [.resume 1, .enter, .construct 2 8 true, .resume 2, .enter, .yield]

/-- The scheduling fiber runs, and `GetThis()` answers the main fiber. -/
theorem scheduler_runs_as_main : ∃ tr s, Run (calls (caller 7)) (caller 7) tr s ∧
    tr.map Move.act = yieldOnCaller ∧ s.cpu.stack = s.t_scheduler_fiber ∧
    s.GetThis = s.t_thread_fiber ∧ ∃ m ∈ tr, ¬ m.post.NamesRunning := by
  have hrun : (traceAll next (caller 7) yieldOnCaller).map
      (fun r => ((r.2.cpu.stack, r.2.t_scheduler_fiber), (r.2.GetThis, r.2.t_thread_fiber),
        r.1.any fun m => decide (¬ m.post.NamesRunning))) =
      some ((1, 1), (0, 0), true) := by decide +kernel
  obtain ⟨tr, s, hr, hacts, hobs⟩ :=
    Run.exists_of_traceAll next (S := calls (caller 7))
      (fun h => @calls_of_system (caller 7) _ _ _ (next_sound h)) _ hrun
  simp only [Prod.mk.injEq] at hobs
  obtain ⟨⟨hcpu, hsched⟩, ⟨hthis, hmain⟩, hany⟩ := hobs
  obtain ⟨m, hm, hnot⟩ := List.any_eq_true.mp hany
  exact ⟨tr, s, hr, hacts, hcpu.trans hsched.symm, hthis.trans hmain.symm, m, hm,
    of_decide_eq_true hnot⟩

end FiberThread

end FiberAsync
