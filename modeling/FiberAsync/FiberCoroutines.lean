import FiberAsync.Fiber

/-!
# Fiber switching refines coroutines

On a worker the scheduling fiber is the thread's main fiber; on the caller's
thread the main fiber resumes `_rootFiber`, which resumes the tasks. In both
every switch saves to the slot of the fiber that runs and loads from the slot of
the one that is to go on, so the contexts behave as the private places of
coroutines.
-/

namespace FiberAsync

set_option autoImplicit false

open Runs Coroutines

namespace FiberThread

/-- The step of the coroutines that a step of the thread is. -/
def Act.coroutine : Act → Coroutines.Act FiberId Callback
  | construct f cb _ => .create f cb
  | reset f cb => .renew f cb
  | resume f => .resume f
  | enter => .enter
  | yield => .yield
  | finish => .finish

/-- The main fiber alone. -/
def mainCoroutine : Machine FiberId Callback where
  chain := [0]
  status := Function.update (fun _ => .absent) 0 .active
  place := Function.update (fun _ => .entry) 0 .start
  switches := 0
  made := fun _ => []
  begun := fun _ => []
  ended := fun _ => []

def stateOf : Status → FiberState
  | .absent | .ready => .READY
  | .active => .RUNNING
  | .finished => .TERM

/-- The fiber whose slot `resume` saves to and `yield` loads from. -/
def target (s : FiberThread) (f : FiberId) : FiberId :=
  if (s.fiber f).m_runInScheduler then s.t_scheduler_fiber else s.t_thread_fiber

/-- Who can have resumed whom. -/
inductive Nested (main sched : FiberId) : List FiberId → Prop where
  | main : Nested main sched [main]
  | root : sched ≠ main → Nested main sched [sched, main]
  | task {f : FiberId} {rest : List FiberId} : Nested main sched (sched :: rest) → f ≠ main →
      f ≠ sched → Nested main sched (f :: sched :: rest)

/-- The thread-locals and flags that are set before the first switch. -/
structure SetUp (s : FiberThread) : Prop where
  main : s.t_thread_fiber < s.created
  sched : s.t_scheduler_fiber < s.created
  root : s.t_scheduler_fiber ≠ s.t_thread_fiber →
    (s.fiber s.t_scheduler_fiber).m_runInScheduler = false
  tasks : ∀ f, s.IsTask f → (s.fiber f).m_runInScheduler = true ∨
    s.t_scheduler_fiber = s.t_thread_fiber
  stack : ∀ f < s.created, (s.fiber f).m_stack = true ↔ f ≠ s.t_thread_fiber

/-- One fiber beside its coroutine. At the entry it has the callback it was
given; once it has started it is in the frame of its `MainFunc`. -/
structure FiberOk (s : FiberThread) (t : Machine FiberId Callback) (f : FiberId) : Prop where
  absent : t.status f = .absent ↔ s.created ≤ f
  state : f < s.created → (s.fiber f).m_state = stateOf (t.status f)
  ready : t.status f = .ready → (s.fiber f).m_ctx = ⟨f, t.place f⟩
  callback : f ≠ s.t_thread_fiber → t.status f = .ready ∨ t.status f = .active →
    ∃ cb, (s.fiber f).m_cb = some cb ∧
      if t.place f = .entry then t.made f = t.begun f ++ [cb]
      else s.cur f = f ∧ t.begun f = t.ended f ++ [cb]

structure Refines (s : FiberThread) (t : Machine FiberId Callback) : Prop where
  nested : Nested s.t_thread_fiber s.t_scheduler_fiber t.chain
  cpu : ∀ i rest, t.chain = i :: rest → s.cpu = ⟨i, t.place i⟩
  current : ∀ i rest, t.chain = i :: rest → s.IsTask i ∨ t.place i = .entry → s.t_fiber = i
  below : ∀ i rest, t.chain = i :: rest → ∀ c ∈ rest,
    (s.fiber c).m_ctx = ⟨c, t.place c⟩ ∧ t.place c ≠ .entry
  fibers : ∀ f, s.FiberOk t f
  main : t.place s.t_thread_fiber ≠ .entry ∧ t.made s.t_thread_fiber = []
  switches : s.switches = t.switches
  made : s.made = t.made
  begun : s.begun = t.begun
  ended : s.ended = t.ended

/-- The refinement together with what coroutines keep among themselves. -/
structure Simulates (s : FiberThread) (t : Machine FiberId Callback) : Prop where
  setUp : s.SetUp
  refines : s.Refines t
  chain : ChainOk t
  once : Once t

variable {s s' : FiberThread} {t : Machine FiberId Callback} {f i : FiberId} {cb : Callback}
  {a : Coroutines.Act FiberId Callback}

section Fields

variable (s : FiberThread) (out in_ : FiberId)

theorem setFiber_fiber_self (x : Fiber) : (s.setFiber out x).fiber out = x :=
  Function.update_self _ _ _

theorem setFiber_fiber_of_ne (x : Fiber) {g : FiberId} (h : g ≠ out) :
    (s.setFiber out x).fiber g = s.fiber g := Function.update_of_ne h _ _

theorem swapcontext_fiber_self : (s.swapcontext out in_).fiber out =
    { s.fiber out with m_ctx := ⟨s.cpu.stack, .after s.switches⟩ } := Function.update_self _ _ _

theorem swapcontext_fiber_of_ne {g : FiberId} (h : g ≠ out) :
    (s.swapcontext out in_).fiber g = s.fiber g := Function.update_of_ne h _ _

theorem swapcontext_cpu (h : in_ ≠ out) : (s.swapcontext out in_).cpu = (s.fiber in_).m_ctx :=
  congrArg Fiber.m_ctx (s.swapcontext_fiber_of_ne out in_ h)

end Fields

theorem setFiber_ctx {x : Fiber} (hx : x.m_ctx = (s.fiber f).m_ctx) (g : FiberId) :
    ((s.setFiber f x).fiber g).m_ctx = (s.fiber g).m_ctx := by
  by_cases hg : g = f
  · subst g
    rw [setFiber_fiber_self, hx]
  · rw [setFiber_fiber_of_ne _ _ _ hg]

/-- What a switch leaves as it was. -/
structure Frame (s s' : FiberThread) : Prop where
  created : s'.created = s.created
  thread : s'.t_thread_fiber = s.t_thread_fiber
  scheduler : s'.t_scheduler_fiber = s.t_scheduler_fiber
  cur : s'.cur = s.cur
  flag : ∀ g, (s'.fiber g).m_runInScheduler = (s.fiber g).m_runInScheduler
  stack : ∀ g, (s'.fiber g).m_stack = (s.fiber g).m_stack

namespace Frame

theorem isTask (h : Frame s s') : s'.IsTask f ↔ s.IsTask f := by
  unfold IsTask
  rw [h.created, h.thread, h.scheduler]

theorem target (h : Frame s s') : s'.target f = s.target f := by
  unfold FiberThread.target
  rw [h.flag, h.thread, h.scheduler]

theorem trans {s'' : FiberThread} (h : Frame s s') (h' : Frame s' s'') : Frame s s'' :=
  ⟨h'.created.trans h.created, h'.thread.trans h.thread, h'.scheduler.trans h.scheduler,
    h'.cur.trans h.cur, fun g => (h'.flag g).trans (h.flag g),
    fun g => (h'.stack g).trans (h.stack g)⟩

theorem setFiber {x : Fiber} (hflag : x.m_runInScheduler = (s.fiber f).m_runInScheduler)
    (hstack : x.m_stack = (s.fiber f).m_stack) : Frame s (s.setFiber f x) := by
  refine ⟨rfl, rfl, rfl, rfl, fun g => ?_, fun g => ?_⟩
  · by_cases hg : g = f
    · subst g
      rw [setFiber_fiber_self, hflag]
    · rw [setFiber_fiber_of_ne _ _ _ hg]
  · by_cases hg : g = f
    · subst g
      rw [setFiber_fiber_self, hstack]
    · rw [setFiber_fiber_of_ne _ _ _ hg]

theorem setThis (g : FiberId) : Frame s (s.SetThis g) :=
  ⟨rfl, rfl, rfl, rfl, fun _ => rfl, fun _ => rfl⟩

theorem swapcontext (out in_ : FiberId) : Frame s (s.swapcontext out in_) := by
  have h : Frame s
      (s.setFiber out { s.fiber out with m_ctx := ⟨s.cpu.stack, .after s.switches⟩ }) :=
    .setFiber rfl rfl
  exact ⟨rfl, rfl, rfl, rfl, h.flag, h.stack⟩

end Frame

theorem Nested.cases_head {main sched : FiberId} {rest : List FiberId}
    (h : Nested main sched (i :: rest)) :
    i = main ∧ rest = [] ∨ i = sched ∧ sched ≠ main ∧ rest = [main] ∨
      i ≠ main ∧ i ≠ sched ∧ ∃ below, rest = sched :: below := by
  cases h with
  | main => exact Or.inl ⟨rfl, rfl⟩
  | root hne => exact Or.inr (Or.inl ⟨rfl, hne, rfl⟩)
  | task h hm hs => exact Or.inr (Or.inr ⟨hm, hs, _, rfl⟩)

theorem Nested.tail {main sched c : FiberId} {rest : List FiberId}
    (h : Nested main sched (i :: c :: rest)) : Nested main sched (c :: rest) := by
  cases h with
  | root hne => exact .main
  | task h hm hs => exact h

namespace Simulates

variable {rest : List FiberId} {c : FiberId}

theorem active (h : Simulates s t) (hc : t.chain = i :: rest) : t.status i = .active :=
  (h.chain.active i).mp (by simp [hc])

theorem lt_created (h : Simulates s t) (hs : t.status i ≠ .absent) : i < s.created := by
  apply Nat.lt_of_not_le
  intro hle
  exact hs ((h.refines.fibers i).absent.mpr hle)

theorem head (h : Simulates s t) : ∃ rest, t.chain = s.cpu.stack :: rest := by
  have hnested := h.refines.nested
  cases hchain : t.chain with
  | nil =>
    rw [hchain] at hnested
    cases hnested
  | cons i rest =>
    rw [h.refines.cpu i rest hchain]
    exact ⟨rest, rfl⟩

theorem place (h : Simulates s t) : t.place s.cpu.stack = s.cpu.place := by
  obtain ⟨rest, hchain⟩ := h.head
  rw [h.refines.cpu _ rest hchain]

theorem ready_of_state (h : Simulates s t) (hf : f < s.created)
    (hs : (s.fiber f).m_state = .READY) : t.status f = .ready := by
  have hstate := (h.refines.fibers f).state hf
  have habs := (h.refines.fibers f).absent
  rw [hs] at hstate
  cases hst : t.status f with
  | absent => exact absurd (habs.mp hst) (Nat.not_le.mpr hf)
  | ready => rfl
  | active | finished =>
    rw [hst] at hstate
    cases hstate

theorem target_eq (h : Simulates s t) (hc : t.chain = i :: c :: rest) : s.target i = c := by
  have hnested := h.refines.nested
  rw [hc] at hnested
  rcases hnested.cases_head with ⟨_, hnil⟩ | ⟨rfl, hne, hrest⟩ | ⟨hm, hs, below, hrest⟩
  · cases hnil
  · cases hrest
    simp [target, h.setUp.root hne]
  · cases hrest
    have hi := h.lt_created (by rw [h.active hc]; simp)
    rcases h.setUp.tasks i ⟨hi, hm, hs⟩ with hflag | heq
    · simp [target, hflag]
    · simp [target, heq]

end Simulates

theorem resume_eq (h : (s.fiber f).m_state = .READY) :
    s.resume f = .ok (((s.SetThis f).setFiber f { s.fiber f with m_state := .RUNNING }).swapcontext
      (s.target f) f) := by
  unfold resume
  rw [if_neg (not_not.mpr h)]
  cases hflag : (s.fiber f).m_runInScheduler <;>
    simp [target, hflag, setFiber, SetThis, GetMainFiber]

/-- A fiber goes on where it was, and its target is switched out. -/
structure Resumed (s : FiberThread) (f : FiberId) (s' : FiberThread) : Prop where
  frame : Frame s s'
  named : s'.t_fiber = f
  cpu : s'.cpu = (s.fiber f).m_ctx
  self : s'.fiber f = { s.fiber f with m_state := .RUNNING }
  target : s'.fiber (s.target f) =
    { s.fiber (s.target f) with m_ctx := ⟨s.cpu.stack, .after s.switches⟩ }
  other : ∀ g, g ≠ f → g ≠ s.target f → s'.fiber g = s.fiber g
  switches : s'.switches = s.switches + 1
  history : s'.made = s.made ∧ s'.begun = s.begun ∧ s'.ended = s.ended

theorem resumed_of_ready (h : (s.fiber f).m_state = .READY) (hne : s.target f ≠ f) :
    ∃ s', s.resume f = .ok s' ∧ Resumed s f s' := by
  refine ⟨_, resume_eq h, ?_⟩
  have hset : Frame (s.SetThis f)
      ((s.SetThis f).setFiber f { s.fiber f with m_state := .RUNNING }) := .setFiber rfl rfl
  have hframe := ((Frame.setThis f).trans hset).trans (.swapcontext (s.target f) f)
  refine ⟨hframe, rfl, ?_, ?_, ?_, fun g hgf hgt => ?_, rfl, rfl, rfl, rfl⟩
  · rw [swapcontext_cpu _ _ _ hne.symm, setFiber_fiber_self]
  · rw [swapcontext_fiber_of_ne _ _ _ hne.symm, setFiber_fiber_self]
  · rw [swapcontext_fiber_self, setFiber_fiber_of_ne _ _ _ hne]
    rfl
  · rw [swapcontext_fiber_of_ne _ _ _ hgt, setFiber_fiber_of_ne _ _ _ hgf]
    rfl

theorem yield_running (h : (s.fiber f).m_state = .RUNNING) :
    s.yield f = .ok (((s.setFiber f { s.fiber f with m_state := .READY }).SetThis
      s.t_thread_fiber).swapcontext f (s.target f)) := by
  unfold yield
  cases hflag : (s.fiber f).m_runInScheduler <;>
    simp [target, hflag, h, setFiber, SetThis, GetMainFiber]

theorem yield_term (h : (s.fiber f).m_state = .TERM) :
    s.yield f = .ok ((s.SetThis s.t_thread_fiber).swapcontext f (s.target f)) := by
  unfold yield
  cases hflag : (s.fiber f).m_runInScheduler <;>
    simp [target, hflag, h, SetThis, GetMainFiber]

theorem finish_eq (hcur : s.cur s.cpu.stack = f) (hcb : (s.fiber f).m_cb = some cb) :
    s.finish = .ok (((({ s with ended := Function.update s.ended f (s.ended f ++ [cb]) } :
      FiberThread).setFiber f { s.fiber f with m_cb := none, m_state := .TERM }).SetThis
        s.t_thread_fiber).swapcontext f (s.target f)) := by
  subst hcur
  simp only [finish, hcb, Option.toList_some]
  rw [yield_term (by simp [setFiber])]
  simp [target, setFiber]

theorem SetUp.of_fibers (h : s.SetUp) (hc : s'.created = s.created)
    (ht : s'.t_thread_fiber = s.t_thread_fiber) (hs : s'.t_scheduler_fiber = s.t_scheduler_fiber)
    (hf : ∀ g, (s'.fiber g).m_runInScheduler = (s.fiber g).m_runInScheduler ∧
      (s'.fiber g).m_stack = (s.fiber g).m_stack) : s'.SetUp := by
  constructor
  · rw [ht, hc]
    exact h.main
  · rw [hs, hc]
    exact h.sched
  · rw [hs, ht, (hf _).1]
    exact h.root
  · intro g hg
    rw [hs, ht, (hf g).1]
    apply h.tasks
    unfold IsTask at hg
    rwa [hc, ht, hs] at hg
  · intro g hg
    rw [(hf g).2, ht]
    exact h.stack g (hc ▸ hg)

/-- The fiber `f` is one of those below `c`, or a new one. -/
theorem grown_bounds {c n : Nat} (h : f < c ∧ n = c ∨ f = c ∧ n = c + 1) :
    f < n ∧ c ≤ n ∧ ∀ g, g ≠ f → (g < n ↔ g < c) := by
  rcases h with ⟨hlt, rfl⟩ | ⟨rfl, rfl⟩
  · exact ⟨hlt, Nat.le_refl _, fun _ _ => Iff.rfl⟩
  · refine ⟨Nat.lt_succ_self _, Nat.le_succ _, fun g hg => ⟨fun hlt => ?_, Nat.lt_succ_of_lt⟩⟩
    exact lt_of_le_of_ne (Nat.lt_succ_iff.mp hlt) hg

/-- A fiber other than the main one is rewritten with its flag, or a new one is made. -/
theorem SetUp.given (h : s.SetUp) {x : Fiber} {n : Nat} {made : FiberId → List Callback}
    (hmain : f ≠ s.t_thread_fiber) (hstack : x.m_stack = true)
    (hf : f < s.created ∧ n = s.created ∧ x.m_runInScheduler = (s.fiber f).m_runInScheduler ∨
      f = s.created ∧ n = s.created + 1 ∧
        (x.m_runInScheduler = true ∨ s.t_scheduler_fiber = s.t_thread_fiber)) :
    ({ s.setFiber f x with created := n, made := made } : FiberThread).SetUp := by
  obtain ⟨_, hle, hn⟩ := grown_bounds (hf.imp (fun hx => ⟨hx.1, hx.2.1⟩) fun hx => ⟨hx.1, hx.2.1⟩)
  have hother : ∀ g, g ≠ f → (s.setFiber f x).fiber g = s.fiber g :=
    fun g hg => setFiber_fiber_of_ne _ _ _ hg
  have hself : (s.setFiber f x).fiber f = x := setFiber_fiber_self _ _ _
  constructor
  case main => exact lt_of_lt_of_le h.main hle
  case sched => exact lt_of_lt_of_le h.sched hle
  case root =>
    intro hne
    change ((s.setFiber f x).fiber s.t_scheduler_fiber).m_runInScheduler = false
    by_cases hs : s.t_scheduler_fiber = f
    · rcases hf with ⟨_, _, hflag⟩ | ⟨hfc, _⟩
      · rw [hs, hself, hflag, ← hs]
        exact h.root hne
      · exact absurd (hs.trans hfc) (Nat.ne_of_lt h.sched)
    · rw [hother _ hs]
      exact h.root hne
  case tasks =>
    intro g hg
    change ((s.setFiber f x).fiber g).m_runInScheduler = true ∨ _
    by_cases hgf : g = f
    · rw [hgf, hself]
      rcases hf with ⟨hlt, _, hflag⟩ | ⟨_, _, hflag⟩
      · rw [hflag]
        exact h.tasks f ⟨hlt, hgf ▸ hg.2⟩
      · exact hflag
    · rw [hother g hgf]
      exact h.tasks g ⟨(hn g hgf).mp hg.1, hg.2⟩
  case stack =>
    intro g hg
    change ((s.setFiber f x).fiber g).m_stack = true ↔ g ≠ s.t_thread_fiber
    by_cases hgf : g = f
    · rw [hgf, hself]
      exact iff_of_true hstack hmain
    · rw [hother g hgf]
      exact h.stack g ((hn g hgf).mp hg)

theorem FiberOk.congr {t' : Machine FiberId Callback} (h : s.FiberOk t f)
    (hc : s'.created ≤ f ↔ s.created ≤ f) (ht : s'.t_thread_fiber = s.t_thread_fiber)
    (hcur : s'.cur f = s.cur f) (hf : s'.fiber f = s.fiber f) (hs : t'.status f = t.status f)
    (hp : t'.place f = t.place f) (hm : t'.made f = t.made f) (hb : t'.begun f = t.begun f)
    (he : t'.ended f = t.ended f) : s'.FiberOk t' f := by
  constructor
  · rw [hs, hc]
    exact h.absent
  · intro hlt
    rw [hs, hf]
    exact h.state (Nat.lt_of_not_le fun hle => Nat.not_le.mpr hlt (hc.mpr hle))
  · rw [hs, hf, hp]
    exact h.ready
  · rw [ht, hs, hf, hp, hm, hb, he, hcur]
    exact h.callback

theorem FiberOk.of_frame {t' : Machine FiberId Callback} (h : s.FiberOk t f) (hframe : Frame s s')
    (hf : s'.fiber f = s.fiber f) (hs : t'.status f = t.status f) (hp : t'.place f = t.place f)
    (hm : t'.made f = t.made f) (hb : t'.begun f = t.begun f) (he : t'.ended f = t.ended f) :
    s'.FiberOk t' f :=
  h.congr (by rw [hframe.created]) hframe.thread (congrFun hframe.cur f) hf hs hp hm hb he

/-- A fiber gets the processor or gives it up, with its callback as it is or for good. -/
theorem FiberOk.switched {t' : Machine FiberId Callback} (h : s.FiberOk t f) (hframe : Frame s s')
    (habsent : t.status f ≠ .absent ∧ t'.status f ≠ .absent)
    (hstate : (s'.fiber f).m_state = stateOf (t'.status f))
    (hready : t'.status f = .ready → (s'.fiber f).m_ctx = ⟨f, t'.place f⟩)
    (hcallback : t'.status f = .ready ∨ t'.status f = .active →
      (t.status f = .ready ∨ t.status f = .active) ∧ (s'.fiber f).m_cb = (s.fiber f).m_cb ∧
        (t'.place f = .entry ↔ t.place f = .entry) ∧ t'.ended f = t.ended f)
    (hm : t'.made f = t.made f) (hb : t'.begun f = t.begun f) : s'.FiberOk t' f := by
  refine ⟨?_, fun _ => hstate, hready, fun hmain hactive => ?_⟩
  · rw [hframe.created]
    exact iff_of_false habsent.2 (fun hle => habsent.1 (h.absent.mpr hle))
  · rw [hframe.thread] at hmain
    obtain ⟨hold, hcb, hplace, hended⟩ := hcallback hactive
    obtain ⟨cb, hcb', hrest⟩ := h.callback hmain hold
    refine ⟨cb, hcb.trans hcb', ?_⟩
    rw [if_congr hplace rfl rfl, hm, hb, hended, hframe.cur]
    exact hrest

namespace Simulates

variable {rest : List FiberId} {c : FiberId}

theorem setUp_of_frame (h : Simulates s t) (hframe : Frame s s') : s'.SetUp :=
  h.setUp.of_fibers hframe.created hframe.thread hframe.scheduler
    fun g => ⟨hframe.flag g, hframe.stack g⟩

theorem ne_of_mem_chain (h : Simulates s t) {g : FiberId} (hg : g ∈ t.chain)
    (hf : t.status f ≠ .active) : g ≠ f := by
  rintro rfl
  exact hf ((h.chain.active g).mp hg)

/-- No switch takes the main fiber back to an entry. -/
theorem main_place (h : Simulates s t) {p : Place} (hp : p ≠ .entry) (i : FiberId) :
    Function.update t.place i p s.t_thread_fiber ≠ .entry := by
  by_cases hm : s.t_thread_fiber = i
  · rw [hm, Function.update_self]
    exact hp
  · rw [Function.update_of_ne hm]
    exact h.refines.main.1

theorem resume (h : Simulates s t) (hplace : s.cpu.place ≠ .entry) (hready : t.status f = .ready)
    (htarget : s.target f = s.cpu.stack)
    (hnested : ∀ rest, t.chain = s.cpu.stack :: rest →
      Nested s.t_thread_fiber s.t_scheduler_fiber (f :: s.cpu.stack :: rest)) :
    ∃ s', s.resume f = .ok s' ∧ Step t (.resume f) (t.resumed f s.cpu.stack) ∧
      Simulates s' (t.resumed f s.cpu.stack) := by
  obtain ⟨rest, hchain⟩ := h.head
  have hr := h.refines
  have hf := h.lt_created (by rw [hready]; simp)
  have hstate : (s.fiber f).m_state = .READY := by
    rw [(hr.fibers f).state hf, hready]
    rfl
  have hact := h.active hchain
  have hbelow : ∀ g ∈ t.chain, g ≠ f := fun g hg => h.ne_of_mem_chain hg (by rw [hready]; simp)
  have hne : s.cpu.stack ≠ f := hbelow _ (by simp [hchain])
  have hplace' : t.place s.cpu.stack ≠ .entry := by rwa [h.place]
  have hstep : Step t (.resume f) (t.resumed f s.cpu.stack) := .resume hchain hplace' hready
  obtain ⟨s', hexec, hres⟩ := resumed_of_ready hstate (htarget ▸ hne)
  have hslot := hres.target
  have hother := hres.other
  rw [htarget] at hslot hother
  have hstatus : ∀ g, g ≠ f → (t.resumed f s.cpu.stack).status g = t.status g :=
    fun g hg => Function.update_of_ne hg _ _
  have hplaces : ∀ g, g ≠ s.cpu.stack → (t.resumed f s.cpu.stack).place g = t.place g :=
    fun g hg => Function.update_of_ne hg _ _
  have hstart : (t.resumed f s.cpu.stack).status f = .active := Function.update_self _ _ _
  have hstop : (t.resumed f s.cpu.stack).place s.cpu.stack = .after t.switches :=
    Function.update_self _ _ _
  refine ⟨s', hexec, hstep, h.setUp_of_frame hres.frame, ?_, h.chain.step hstep,
    h.once.step h.chain hstep⟩
  constructor
  case nested =>
    rw [hres.frame.thread, hres.frame.scheduler]
    change Nested s.t_thread_fiber s.t_scheduler_fiber (f :: t.chain)
    rw [hchain]
    exact hnested rest hchain
  case cpu =>
    intro i below hc
    cases hc
    rw [hres.cpu, (hr.fibers f).ready hready, hplaces f hne.symm]
  case current =>
    intro i below hc _
    cases hc
    exact hres.named
  case below =>
    intro i below hc x hx
    cases hc
    have hxf := hbelow x hx
    rw [hchain] at hx
    rcases List.mem_cons.mp hx with rfl | hx
    · rw [hslot, hstop, hr.switches]
      exact ⟨rfl, by simp⟩
    · have hxc : x ≠ s.cpu.stack := by
        rintro rfl
        have hnodup := h.chain.nodup
        rw [hchain] at hnodup
        exact (List.nodup_cons.mp hnodup).1 hx
      rw [hother x hxf hxc, hplaces x hxc]
      exact hr.below _ rest hchain x hx
  case fibers =>
    intro g
    have hg := hr.fibers g
    by_cases hgf : g = f
    · subst g
      refine hg.switched hres.frame ⟨by simp [hready], by simp [hstart]⟩ ?_ ?_ ?_ rfl rfl
      · rw [hres.self, hstart]
        rfl
      · rw [hstart]
        exact fun hcontra => nomatch hcontra
      · intro _
        rw [hres.self, hplaces f hne.symm]
        exact ⟨Or.inl hready, rfl, Iff.rfl, rfl⟩
    · by_cases hgc : g = s.cpu.stack
      · subst g
        have hlt := h.lt_created (by rw [hact]; simp)
        have hstill := (hstatus _ hgf).trans hact
        refine hg.switched hres.frame ⟨by simp [hact], by simp [hstill]⟩ ?_ ?_ ?_ rfl rfl
        · rw [hslot, hstill, ← hact]
          exact hg.state hlt
        · rw [hstill]
          exact fun hcontra => nomatch hcontra
        · intro _
          rw [hslot, hstop]
          exact ⟨Or.inr hact, rfl, iff_of_false (by simp) hplace', rfl⟩
      · exact hg.of_frame hres.frame (hother g hgf hgc) (hstatus g hgf) (hplaces g hgc) rfl rfl rfl
  case main =>
    rw [hres.frame.thread]
    exact ⟨h.main_place (by simp) _, hr.main.2⟩
  case switches =>
    rw [hres.switches]
    exact congrArg (· + 1) hr.switches
  case made => exact hres.history.1.trans hr.made
  case begun => exact hres.history.2.1.trans hr.begun
  case ended => exact hres.history.2.2.trans hr.ended

theorem stop (h : Simulates s t) (hchain : t.chain = i :: c :: rest) (x : Fiber) (status : Status)
    (ended : FiberId → List Callback) (hx : x.m_state = stateOf status)
    (hflags : x.m_runInScheduler = (s.fiber i).m_runInScheduler ∧ x.m_stack = (s.fiber i).m_stack)
    (hstatus : status = .ready ∨ status = .finished)
    (hready : status = .ready → x.m_cb = (s.fiber i).m_cb ∧ ended = s.ended ∧ t.place i ≠ .entry)
    (hended : ∀ g, g ≠ i → ended g = s.ended g)
    (hs' : (({ s with ended } : FiberThread).setFiber i x |>.SetThis s.t_thread_fiber |>.swapcontext
      i c) = s') :
    s'.SetUp ∧ s'.Refines { t.stop i status (c :: rest) with ended } := by
  have hr := h.refines
  have hnodup := h.chain.nodup
  rw [hchain] at hnodup
  have hci : c ≠ i := by
    rintro rfl
    simp at hnodup
  have hact := h.active hchain
  have hstack : s.cpu.stack = i := by rw [hr.cpu i _ hchain]
  have hframe : Frame s s' := by
    have hset : Frame s (s.setFiber i x) := .setFiber hflags.1 hflags.2
    have hswap : Frame (({ s with ended } : FiberThread).setFiber i x |>.SetThis s.t_thread_fiber)
      s' := hs' ▸ .swapcontext i c
    exact hset.trans ⟨hswap.created, hswap.thread, hswap.scheduler, hswap.cur, hswap.flag,
      hswap.stack⟩
  have hself : s'.fiber i = { x with m_ctx := ⟨i, .after s.switches⟩ } := by
    rw [← hs', ← hstack]
    simp [swapcontext, setFiber, SetThis]
  have hother : ∀ g, g ≠ i → s'.fiber g = s.fiber g := by
    intro g hg
    rw [← hs', swapcontext_fiber_of_ne _ _ _ hg]
    exact setFiber_fiber_of_ne _ _ _ hg
  have hcpu : s'.cpu = (s.fiber c).m_ctx := by
    rw [← hs', swapcontext_cpu _ _ _ hci]
    exact congrArg Fiber.m_ctx (setFiber_fiber_of_ne _ _ _ hci)
  have hplaces : ∀ g, g ≠ i → (t.stop i status (c :: rest)).place g = t.place g :=
    fun g hg => Function.update_of_ne hg _ _
  have hbelow := hr.below i _ hchain
  refine ⟨h.setUp_of_frame hframe, ?_⟩
  constructor
  case nested =>
    have hnested := hr.nested
    rw [hchain] at hnested
    rw [hframe.thread, hframe.scheduler]
    exact hnested.tail
  case cpu =>
    intro j below hc
    cases hc
    rw [hcpu, hplaces c hci]
    exact (hbelow c (by simp)).1
  case current =>
    intro j below hc hj
    cases hc
    rw [hplaces c hci, hframe.isTask] at hj
    have hnot := hj.resolve_right (hbelow c (by simp)).2
    have hnested := hr.nested
    rw [hchain] at hnested
    rcases hnested.cases_head with ⟨_, hnil⟩ | ⟨_, _, hrest⟩ | ⟨_, _, _, hrest⟩
    · cases hnil
    · cases hrest
      exact absurd rfl hnot.2.1
    · cases hrest
      exact absurd rfl hnot.2.2
  case below =>
    intro j below hc y hy
    cases hc
    have hyi : y ≠ i := by
      rintro rfl
      simp [hy] at hnodup
    rw [hother y hyi, hplaces y hyi]
    exact hbelow y (List.mem_cons_of_mem c hy)
  case fibers =>
    intro g
    have hg := hr.fibers g
    by_cases hgi : g = i
    · subst g
      have hst : (t.stop i status (c :: rest)).status i = status := Function.update_self _ _ _
      have hpl : (t.stop i status (c :: rest)).place i = .after t.switches :=
        Function.update_self _ _ _
      have hpresent : status ≠ .absent := by rcases hstatus with rfl | rfl <;> simp
      refine hg.switched hframe ⟨by simp [hact], fun habs => hpresent (hst.symm.trans habs)⟩ ?_
        (fun _ => ?_) (fun hactive => ?_) rfl rfl
      · rw [hst, hself]
        exact hx
      · rw [hpl, hself, hr.switches]
      · rw [hst] at hactive
        obtain rfl : status = .ready := by
          rcases hstatus with rfl | rfl
          · rfl
          · rcases hactive with hactive | hactive <;> cases hactive
        obtain ⟨hcb, hsame, hplace⟩ := hready rfl
        rw [hself, hpl]
        exact ⟨Or.inr hact, hcb, iff_of_false (by simp) hplace,
          congrFun (hsame.trans hr.ended) i⟩
    · refine hg.of_frame hframe (hother g hgi) (Function.update_of_ne hgi _ _) (hplaces g hgi)
        rfl rfl ?_
      rw [← hr.ended]
      exact hended g hgi
  case main =>
    rw [hframe.thread]
    exact ⟨h.main_place (by simp) _, hr.main.2⟩
  case switches =>
    rw [← hs']
    exact congrArg (· + 1) hr.switches
  case made =>
    rw [← hs']
    exact hr.made
  case begun =>
    rw [← hs']
    exact hr.begun
  case ended =>
    rw [← hs']
    rfl

/-- A running fiber with a callback is in it, and a fiber below it waits. -/
theorem running (h : Simulates s t) (hplace : s.cpu.place ≠ .entry)
    (hmain : s.cpu.stack ≠ s.t_thread_fiber) :
    ∃ c rest cb, t.chain = s.cpu.stack :: c :: rest ∧ t.place s.cpu.stack ≠ .entry ∧
      (s.fiber s.cpu.stack).m_state = .RUNNING ∧ s.target s.cpu.stack = c ∧
      (s.fiber s.cpu.stack).m_cb = some cb ∧ s.cur s.cpu.stack = s.cpu.stack ∧
      t.begun s.cpu.stack = t.ended s.cpu.stack ++ [cb] := by
  obtain ⟨rest, hchain⟩ := h.head
  have hact := h.active hchain
  have hlt := h.lt_created (by rw [hact]; simp)
  obtain ⟨cb, hcb, hrest⟩ := (h.refines.fibers s.cpu.stack).callback hmain (Or.inr hact)
  rw [h.place, if_neg hplace] at hrest
  have hstate := (h.refines.fibers s.cpu.stack).state hlt
  rw [hact] at hstate
  have hnested := h.refines.nested
  rw [hchain] at hnested
  have hcons : ∃ c below, rest = c :: below := by
    rcases hnested.cases_head with ⟨hm, _⟩ | ⟨_, _, hrest⟩ | ⟨_, _, below, hrest⟩
    · exact absurd hm hmain
    · exact ⟨_, _, hrest⟩
    · exact ⟨_, _, hrest⟩
  obtain ⟨c, below, rfl⟩ := hcons
  rw [← h.place] at hplace
  exact ⟨c, below, cb, hchain, hplace, hstate, h.target_eq hchain, hcb, hrest⟩

theorem yield (h : Simulates s t) (ha : s.Allowed .yield) :
    ∃ s' t', s.exec .yield = .ok s' ∧ Step t .yield t' ∧ Simulates s' t' := by
  obtain ⟨hplace, htask⟩ := ha
  obtain ⟨c, rest, cb, hchain, hpl, hstate, htarget, _, _, hbegun⟩ := h.running hplace htask.2.1
  have hcur := h.refines.current _ _ hchain (Or.inl htask)
  have hstep := Step.yield hchain hpl hbegun
  obtain ⟨hset, href⟩ := h.stop hchain { s.fiber s.cpu.stack with m_state := .READY } .ready s.ended
    rfl ⟨rfl, rfl⟩ (Or.inl rfl) (fun _ => ⟨rfl, rfl, hpl⟩) (fun _ _ => rfl) rfl
  have hended : { t.stop s.cpu.stack .ready (c :: rest) with ended := s.ended } =
      t.stop s.cpu.stack .ready (c :: rest) := by
    rw [h.refines.ended]
    rfl
  rw [hended] at href
  refine ⟨_, _, ?_, hstep, hset, href, h.chain.step hstep, h.once.step h.chain hstep⟩
  change s.yield s.t_fiber = _
  rw [hcur, yield_running hstate, htarget]
  rfl

theorem finish (h : Simulates s t) (ha : s.Allowed .finish) :
    ∃ s' t', s.exec .finish = .ok s' ∧ Step t .finish t' ∧ Simulates s' t' := by
  obtain ⟨hplace, hmain⟩ := ha
  obtain ⟨c, rest, cb, hchain, hpl, hstate, htarget, hcb, hcur, hbegun⟩ := h.running hplace hmain
  have hstep := Step.finish hchain hpl hbegun
  obtain ⟨hset, href⟩ := h.stop hchain
    { s.fiber s.cpu.stack with m_cb := none, m_state := .TERM } .finished
    (Function.update s.ended s.cpu.stack (s.ended s.cpu.stack ++ [cb]))
    rfl ⟨rfl, rfl⟩ (Or.inr rfl) (fun hne => nomatch hne)
    (fun g hg => Function.update_of_ne hg _ _) rfl
  have hended : { t.stop s.cpu.stack .finished (c :: rest) with
        ended := Function.update s.ended s.cpu.stack (s.ended s.cpu.stack ++ [cb]) } =
      t.finished s.cpu.stack (c :: rest) := by
    rw [h.refines.ended, ← hbegun]
    rfl
  rw [hended] at href
  refine ⟨_, _, ?_, hstep, hset, href, h.chain.step hstep, h.once.step h.chain hstep⟩
  change s.finish = _
  rw [finish_eq hcur hcb, htarget]

theorem enter (h : Simulates s t) (ha : s.Allowed .enter) :
    ∃ s' t', s.exec .enter = .ok s' ∧ Step t .enter t' ∧ Simulates s' t' := by
  obtain ⟨rest, hchain⟩ := h.head
  have hr := h.refines
  have hact := h.active hchain
  have hpl : t.place s.cpu.stack = .entry := h.place.trans ha
  have hcur := hr.current _ _ hchain (Or.inr hpl)
  have hmain : s.cpu.stack ≠ s.t_thread_fiber := by
    intro hm
    rw [hm] at hpl
    exact hr.main.1 hpl
  obtain ⟨cb, hcb, hmade⟩ := (hr.fibers s.cpu.stack).callback hmain (Or.inr hact)
  rw [if_pos hpl] at hmade
  have hstep := Step.enter hchain hpl hmade
  have hexec : s.enter = .ok { s with
      cur := Function.update s.cur s.cpu.stack s.cpu.stack
      cpu := ⟨s.cpu.stack, .start⟩
      begun := Function.update s.begun s.cpu.stack (s.begun s.cpu.stack ++ [cb]) } := by
    simp [FiberThread.enter, hcur, hcb]
  refine ⟨_, _, hexec, hstep, ?_, ?_, h.chain.step hstep, h.once.step h.chain hstep⟩
  · exact h.setUp.of_fibers rfl rfl rfl (fun _ => ⟨rfl, rfl⟩)
  have hplaces : ∀ g, g ≠ s.cpu.stack → (t.entered s.cpu.stack).place g = t.place g :=
    fun g hg => Function.update_of_ne hg _ _
  have hself : (t.entered s.cpu.stack).place s.cpu.stack = .start := Function.update_self _ _ _
  constructor
  case nested => exact hr.nested
  case cpu =>
    intro i below hc
    obtain rfl : s.cpu.stack = i := (List.cons.inj (hchain.symm.trans hc)).1
    rw [hself]
  case current =>
    intro i below hc _
    obtain rfl : s.cpu.stack = i := (List.cons.inj (hchain.symm.trans hc)).1
    exact hcur
  case below =>
    intro i below hc x hx
    have hx' := hr.below i below hc x hx
    have hxi : x ≠ s.cpu.stack := by
      rintro rfl
      exact hx'.2 hpl
    rw [hplaces x hxi]
    exact hx'
  case fibers =>
    intro g
    have hg := hr.fibers g
    by_cases hgi : g = s.cpu.stack
    · subst g
      refine ⟨hg.absent, hg.state, fun hready => ?_, fun _ _ => ⟨cb, hcb, ?_⟩⟩
      · change t.status s.cpu.stack = .ready at hready
        rw [hact] at hready
        cases hready
      · rw [hself]
        have hidle := (h.once s.cpu.stack).begun
        rw [if_pos hpl] at hidle
        simp [Machine.entered, hmade, hidle]
    · exact hg.congr Iff.rfl rfl (Function.update_of_ne hgi _ _) rfl rfl (hplaces g hgi) rfl
        (Function.update_of_ne hgi _ _) rfl
  case main => exact ⟨h.main_place (by simp) _, hr.main.2⟩
  case switches => exact hr.switches
  case made => exact hr.made
  case begun =>
    change Function.update s.begun s.cpu.stack _ = Function.update t.begun s.cpu.stack _
    rw [hr.begun, hmade]
  case ended => exact hr.ended

theorem give (h : Simulates s t) {x : Fiber} {n : Nat} (hstep : Step t a (t.give f cb))
    (hidle : t.status f = .absent ∨ t.status f = .finished) (hmain : f ≠ s.t_thread_fiber)
    (hx : x.m_ctx = ⟨f, .entry⟩ ∧ x.m_state = .READY ∧ x.m_stack = true ∧ x.m_cb = some cb)
    (hf : f < s.created ∧ n = s.created ∧ x.m_runInScheduler = (s.fiber f).m_runInScheduler ∨
      f = s.created ∧ n = s.created + 1 ∧
        (x.m_runInScheduler = true ∨ s.t_scheduler_fiber = s.t_thread_fiber)) :
    Simulates { s.setFiber f x with
      created := n, made := Function.update s.made f (s.made f ++ [cb]) } (t.give f cb) := by
  have hr := h.refines
  obtain ⟨hctx, hstate, hstack, hcb⟩ := hx
  obtain ⟨hfn, _, hn⟩ := grown_bounds (hf.imp (fun hx => ⟨hx.1, hx.2.1⟩) fun hx => ⟨hx.1, hx.2.1⟩)
  have hother : ∀ g, g ≠ f → (s.setFiber f x).fiber g = s.fiber g :=
    fun g hg => setFiber_fiber_of_ne _ _ _ hg
  have hself : (s.setFiber f x).fiber f = x := setFiber_fiber_self _ _ _
  have hplaces : ∀ g, g ≠ f → (t.give f cb).place g = t.place g :=
    fun g hg => Function.update_of_ne hg _ _
  have hchain : ∀ g ∈ t.chain, g ≠ f := by
    intro g hg
    apply h.ne_of_mem_chain hg
    rcases hidle with hi | hi <;> rw [hi] <;> simp
  refine ⟨h.setUp.given hmain hstack hf, ?_, h.chain.step hstep, h.once.step h.chain hstep⟩
  constructor
  case nested => exact hr.nested
  case cpu =>
    intro i rest hc
    rw [hplaces i (hchain i (hc ▸ List.mem_cons_self))]
    exact hr.cpu i rest hc
  case current =>
    intro i rest hc hi
    have hif := hchain i (hc ▸ List.mem_cons_self)
    rw [hplaces i hif] at hi
    apply hr.current i rest hc
    exact hi.imp_left fun htask => ⟨(hn i hif).mp htask.1, htask.2⟩
  case below =>
    intro i rest hc y hy
    have hyf := hchain y (hc ▸ List.mem_cons_of_mem _ hy)
    change ((s.setFiber f x).fiber y).m_ctx = _ ∧ _
    rw [hother y hyf, hplaces y hyf]
    exact hr.below i rest hc y hy
  case fibers =>
    intro g
    by_cases hgf : g = f
    · subst g
      obtain ⟨hmade, hbegun⟩ := (h.once f).idle hidle
      have hst : (t.give f cb).status f = .ready := Function.update_self _ _ _
      have hpl : (t.give f cb).place f = .entry := Function.update_self _ _ _
      refine ⟨?_, fun _ => ?_, fun _ => ?_, fun _ _ => ⟨cb, ?_, ?_⟩⟩
      · rw [hst]
        exact iff_of_false (by simp) (Nat.not_le.mpr hfn)
      · rw [hst]
        exact (congrArg Fiber.m_state hself).trans hstate
      · rw [hpl]
        exact (congrArg Fiber.m_ctx hself).trans hctx
      · exact (congrArg Fiber.m_cb hself).trans hcb
      · rw [if_pos hpl]
        simp [Machine.give, hmade, hbegun]
    · have hle : n ≤ g ↔ s.created ≤ g := by
        rw [← Nat.not_lt, ← Nat.not_lt, hn g hgf]
      exact (hr.fibers g).congr hle rfl rfl (hother g hgf) (Function.update_of_ne hgf _ _)
        (hplaces g hgf) (Function.update_of_ne hgf _ _) rfl rfl
  case main =>
    refine ⟨?_, (Function.update_of_ne hmain.symm _ _).trans hr.main.2⟩
    change (t.give f cb).place s.t_thread_fiber ≠ .entry
    rw [hplaces _ hmain.symm]
    exact hr.main.1
  case switches => exact hr.switches
  case made =>
    change Function.update s.made f _ = Function.update t.made f _
    rw [hr.made]
  case begun => exact hr.begun
  case ended => exact hr.ended

theorem construct (h : Simulates s t) {flag : Bool} (ha : s.Allowed (.construct f cb flag)) :
    Step t (.create f cb) (t.give f cb) ∧ Simulates (s.newFiber f cb flag) (t.give f cb) := by
  obtain ⟨_, rfl, hflag⟩ := ha
  have habs := (h.refines.fibers s.created).absent.mpr (Nat.le_refl _)
  have hstep : Step t (.create s.created cb) (t.give s.created cb) := .create habs
  exact ⟨hstep, h.give hstep (Or.inl habs) (Nat.ne_of_gt h.setUp.main) ⟨rfl, rfl, rfl, rfl⟩
    (Or.inr ⟨rfl, rfl, hflag⟩)⟩

theorem finished (h : Simulates s t) (hf : f < s.created) (hmade : s.made f ≠ [])
    (hended : s.ended f = s.made f) : t.status f = .finished ∧ f ≠ s.t_thread_fiber := by
  have hr := h.refines
  rw [hr.made] at hmade hended
  rw [hr.ended] at hended
  have hmain : f ≠ s.t_thread_fiber := by
    rintro rfl
    exact hmade hr.main.2
  refine ⟨?_, hmain⟩
  have hone : ∀ cb : Callback, t.made f ≠ t.ended f ++ [cb] := by
    intro cb hcb
    rw [hended] at hcb
    simp at hcb
  cases hst : t.status f with
  | absent => exact absurd ((hr.fibers f).absent.mp hst) (Nat.not_le.mpr hf)
  | finished => rfl
  | ready | active =>
    obtain ⟨cb, _, hcb⟩ := (hr.fibers f).callback hmain (by simp [hst])
    have hbegun := (h.once f).begun
    split at hcb
    · rename_i hp
      rw [if_pos hp] at hbegun
      rw [hbegun] at hcb
      exact absurd hcb (hone cb)
    · rename_i hp
      rw [if_neg hp] at hbegun
      rw [hbegun] at hcb
      exact absurd hcb.2 (hone cb)

theorem reset (h : Simulates s t) (ha : s.Allowed (.reset f cb)) :
    ∃ s', s.reset f cb = .ok s' ∧ Step t (.renew f cb) (t.give f cb) ∧
      Simulates s' (t.give f cb) := by
  obtain ⟨_, hf, hmade, hended⟩ := ha
  obtain ⟨hst, hmain⟩ := h.finished hf hmade hended
  have hstate := (h.refines.fibers f).state hf
  rw [hst] at hstate
  have hstack := (h.setUp.stack f hf).mpr hmain
  have hstep : Step t (.renew f cb) (t.give f cb) := .renew hst
  have hexec : s.reset f cb = .ok { s.setFiber f
      { s.fiber f with m_cb := some cb, m_ctx := ⟨f, .entry⟩, m_state := .READY } with
        made := Function.update s.made f (s.made f ++ [cb]) } := by
    unfold FiberThread.reset
    rw [if_neg (by simp [hstack]), if_neg (by simp [hstate, stateOf])]
  exact ⟨_, hexec, hstep, h.give hstep (Or.inr hst) hmain ⟨rfl, rfl, hstack, rfl⟩
    (Or.inl ⟨hf, rfl, rfl⟩)⟩

theorem resume_allowed (h : Simulates s t) (ha : s.Allowed (.resume f)) :
    ∃ s' t', s.resume f = .ok s' ∧ Step t (.resume f) t' ∧ Simulates s' t' := by
  obtain ⟨hplace, hstate, hwho⟩ := ha
  have hnested := h.refines.nested
  have hf : f < s.created := by
    rcases hwho with ⟨_, htask⟩ | ⟨_, rfl⟩
    · exact htask.1
    · exact h.setUp.sched
  have hready := h.ready_of_state hf hstate
  have hne : f ≠ s.cpu.stack := by
    obtain ⟨rest, hchain⟩ := h.head
    exact (h.ne_of_mem_chain (hchain ▸ List.mem_cons_self) (by rw [hready]; simp)).symm
  obtain ⟨s', hs', hstep, hsim⟩ := h.resume hplace hready (f := f) (by
      rcases hwho with ⟨hsched, htask⟩ | ⟨hmain, rfl⟩
      · rcases h.setUp.tasks f htask with hflag | heq
        · simp [target, hflag, hsched]
        · simp [target, hsched, heq]
      · rw [hmain] at hne
        simp [target, h.setUp.root hne, hmain])
    (by
      intro rest hchain
      rw [hchain] at hnested
      rcases hwho with ⟨hsched, htask⟩ | ⟨hmain, rfl⟩
      · rw [hsched] at hnested ⊢
        exact .task hnested htask.2.1 htask.2.2
      · rw [hmain] at hnested hne ⊢
        rcases hnested.cases_head with ⟨_, rfl⟩ | ⟨heq, _⟩ | ⟨hm, _⟩
        · exact .root hne
        · exact absurd heq.symm hne
        · exact absurd rfl hm)
  exact ⟨s', _, hs', hstep, hsim⟩

/-- Each allowed call is made without a failed assertion, as the step of the coroutines. -/
theorem step (h : Simulates s t) {a : Act} (ha : s.Allowed a) :
    ∃ s' t', s.exec a = .ok s' ∧ Step t a.coroutine t' ∧ Simulates s' t' := by
  cases a with
  | construct f cb flag =>
    obtain ⟨hstep, hsim⟩ := h.construct ha
    exact ⟨_, _, rfl, hstep, hsim⟩
  | reset f cb =>
    obtain ⟨s', hs', hstep, hsim⟩ := h.reset ha
    exact ⟨s', _, hs', hstep, hsim⟩
  | resume f => exact h.resume_allowed ha
  | enter => exact h.enter ha
  | yield => exact h.yield ha
  | finish => exact h.finish ha

end Simulates

end FiberThread

end FiberAsync
