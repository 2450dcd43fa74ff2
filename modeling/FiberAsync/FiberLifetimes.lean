import FiberAsync.FiberOwnership
import Mathlib.Data.Finset.Card

/-!
# When fibers are destroyed

A step copies, moves and gives up references, and drops those that it has given
up. Through all of it a count is the number of references, so a fiber lives
exactly as long as something refers to it. A fiber that has been started is held
by its own stack until its callback has returned, and by the thread that
executes it until the thread has left it.
-/

namespace FiberAsync

set_option autoImplicit false

open Runs Ownership Results

namespace FiberHeap

variable {τ : Type} {s s' : FiberHeap τ} {l m : τ} {f g : FiberId} {temps temps' : List FiberId}
  {x : OwnedFiber} {o : Option FiberId} {w : RunThread}

/-- What the fields of a fiber say about each other. -/
structure FiberOk (f : FiberId) (x : OwnedFiber) : Prop where
  self : x.m_stack = true → x.entered = true → x.m_state ≠ .TERM → x.cur = some f
  term : x.m_stack = true → x.m_state = .TERM → x.m_cb = none ∧ x.entered = true ∧ x.cur = none
  unentered : x.entered = false → x.cur = none
  main : x.m_stack = false → x.m_cb = none ∧ x.m_state = .RUNNING

/-- What a thread on the stack of a fiber may rely on. -/
def Executed : RunPc → OwnedFiber → Prop
  | .enter _, x => x.m_stack = true ∧ x.saved = false ∧ x.entered = false ∧ x.m_state = .RUNNING
  | .on _, x => x.m_stack = true ∧ x.saved = false ∧ x.entered = true ∧ x.m_state = .RUNNING
  | .leaving _, x => x.m_stack = true ∧ x.saved = false
  | _, _ => True

/-- Which variables of `run` are empty. -/
structure VarsOk (x : RunThread) : Prop where
  outside : x.pc = .outside → x.refs = []
  scan : x.pc = .scan → x.task = none ∧ x.taskFiber = none
  call : x.pc = .call → x.task ≠ none → x.taskFiber = none

structure FibersOk (s : FiberHeap τ) : Prop where
  fibers : ∀ f, FiberOk f (s.fiber f)
  vars : ∀ l, VarsOk (s.worker l)
  workers : ∀ l f, (s.worker l).pc.fiber = some f →
    f ∈ (s.worker l).resumable ∧ Executed (s.worker l).pc (s.fiber f)
  unique : ∀ l m f, (s.worker l).pc.fiber = some f → (s.worker m).pc.fiber = some f → l = m

/-- The counts are right while a step holds references in temporaries. -/
structure HeapOk (s : FiberHeap τ) (temps : List FiberId) : Prop where
  counted : Counted s.refs temps s.use_count
  live : ∀ f, 0 < s.use_count f ↔ f < s.created ∧ (s.fiber f).destroyed = false
  total : s.s_fiber_count =
    ((Finset.range s.created).filter fun f => (s.fiber f).destroyed = false).card
  fresh : ∀ f, s.created ≤ f → s.refs (.stack f) = [] ∧ s.refs (.callback f) = []

/-- Apart from what the destructors do, the state is the same. -/
structure Same (s s' : FiberHeap τ) : Prop where
  worker : s'.worker = s.worker
  refs : s'.refs = s.refs
  created : s'.created = s.created
  fiber : ∀ f, s'.fiber f = { s.fiber f with destroyed := (s'.fiber f).destroyed }

theorem Same.rfl : Same s s := ⟨Eq.refl _, Eq.refl _, Eq.refl _, fun _ => Eq.refl _⟩

theorem Same.trans {s'' : FiberHeap τ} (h : Same s s') (h' : Same s' s'') : Same s s'' where
  worker := h'.worker.trans h.worker
  refs := h'.refs.trans h.refs
  created := h'.created.trans h.created
  fiber f := by rw [h'.fiber f, h.fiber f]

section Executed

variable {pc : RunPc}

theorem Executed.stack (h : Executed pc x) (hpc : pc.fiber = some f) : x.m_stack = true := by
  cases pc with
  | enter | on | leaving => exact h.1
  | _ => cases hpc

theorem Executed.unsaved (h : Executed pc x) (hpc : pc.fiber = some f) : x.saved = false := by
  cases pc with
  | enter | on => exact h.2.1
  | leaving => exact h.2
  | _ => cases hpc

theorem Executed.congr {y : OwnedFiber} (h : Executed pc x) (hstack : y.m_stack = x.m_stack)
    (hsaved : y.saved = x.saved) (hentered : y.entered = x.entered)
    (hstate : y.m_state = x.m_state) : Executed pc y := by
  cases pc <;> simp only [Executed, hstack, hsaved, hentered, hstate] at * <;> exact h

end Executed

theorem FiberOk.congr {y : OwnedFiber} (h : FiberOk f x) (hstack : y.m_stack = x.m_stack)
    (hentered : y.entered = x.entered) (hstate : y.m_state = x.m_state) (hcb : y.m_cb = x.m_cb)
    (hcur : y.cur = x.cur) : FiberOk f y := by
  constructor
  · rw [hstack, hentered, hstate, hcur]
    exact h.self
  · rw [hstack, hentered, hstate, hcb, hcur]
    exact h.term
  · rw [hentered, hcur]
    exact h.unentered
  · rw [hstack, hstate, hcb]
    exact h.main

theorem FiberOk.task (captured : List FiberId) : FiberOk f (taskFiber captured) where
  self := fun _ h => by cases h
  term := fun _ h => by cases h
  unentered := fun _ => rfl
  main := fun h => by cases h

theorem FiberOk.main_ : FiberOk f mainFiber where
  self := fun h => by cases h
  term := fun h => by cases h
  unentered := fun _ => rfl
  main := fun _ => ⟨rfl, rfl⟩

namespace FibersOk

/-- Two states with the same fibers, apart from variables and `destroyed`, and the same threads. -/
theorem congr (h : s.FibersOk) (hw : s'.worker = s.worker)
    (hf : ∀ f, ∃ vars destroyed, s'.fiber f = { s.fiber f with vars, destroyed }) :
    s'.FibersOk := by
  refine ⟨fun f => ?_, hw ▸ h.vars, fun l f => ?_, fun l m f => ?_⟩
  · obtain ⟨vars, destroyed, heq⟩ := hf f
    rw [heq]
    exact (h.fibers f).congr rfl rfl rfl rfl rfl
  · rw [hw]
    intro hpc
    obtain ⟨hheld, hex⟩ := h.workers l f hpc
    obtain ⟨vars, destroyed, heq⟩ := hf f
    rw [heq]
    exact ⟨hheld, hex.congr rfl rfl rfl rfl⟩
  · rw [hw]
    exact h.unique l m f

theorem same (h : s.FibersOk) (hs : Same s s') : s'.FibersOk :=
  h.congr hs.worker fun f => ⟨(s.fiber f).vars, (s'.fiber f).destroyed, hs.fiber f⟩

/-- The fiber `f` and the thread `l` change, and no other thread is on the fiber. -/
theorem move [DecidableEq τ] (h : s.FibersOk) (hf : s'.fiber = Function.update s.fiber f x)
    (hw : s'.worker = Function.update s.worker l w) (hx : FiberOk f x) (hvars : VarsOk w)
    (hout : ∀ m, m ≠ l → (s.worker m).pc.fiber ≠ some f)
    (hpc : w.pc.fiber = none ∨ w.pc.fiber = some f ∧ f ∈ w.resumable ∧ Executed w.pc x) :
    s'.FibersOk := by
  have hself : s'.worker l = w := by rw [hw, Function.update_self]
  have hother : ∀ m, m ≠ l → s'.worker m = s.worker m := by
    intro m hm
    rw [hw, Function.update_of_ne hm]
  have hne : ∀ m g, m ≠ l → (s.worker m).pc.fiber = some g → g ≠ f := by
    intro m g hm hg heq
    exact hout m hm (heq ▸ hg)
  refine ⟨fun g => ?_, fun m => ?_, fun m g hg => ?_, fun m m' g hg hg' => ?_⟩
  · rw [hf]
    by_cases hgf : g = f
    · subst g
      rw [Function.update_self]
      exact hx
    · rw [Function.update_of_ne hgf]
      exact h.fibers g
  · by_cases hm : m = l
    · rw [hm, hself]
      exact hvars
    · rw [hother m hm]
      exact h.vars m
  · by_cases hm : m = l
    · subst m
      rw [hself] at hg ⊢
      rcases hpc with hnone | ⟨hsome, hheld, hex⟩
      · rw [hnone] at hg
        cases hg
      · rw [hsome] at hg
        cases hg
        rw [hf, Function.update_self]
        exact ⟨hheld, hex⟩
    · rw [hother m hm] at hg ⊢
      rw [hf, Function.update_of_ne (hne m g hm hg)]
      exact h.workers m g hg
  · have honly : ∀ m, (s'.worker m).pc.fiber = some g → m ≠ l → g ≠ f := by
      intro m hm hml
      rw [hother m hml] at hm
      exact hne m g hml hm
    have hon : ∀ m, (s'.worker m).pc.fiber = some g → m = l → g = f := by
      intro m hm hml
      subst m
      rw [hself] at hm
      rcases hpc with hnone | ⟨hsome, _⟩
      · rw [hnone] at hm
        cases hm
      · rw [hsome] at hm
        exact (Option.some.inj hm).symm
    by_cases hm : m = l
    · by_cases hm' : m' = l
      · rw [hm, hm']
      · exact absurd (hon m hg hm) (honly m' hg' hm')
    · by_cases hm' : m' = l
      · exact absurd (hon m' hg' hm') (honly m hg hm)
      · rw [hother m hm] at hg
        rw [hother m' hm'] at hg'
        exact h.unique m m' g hg hg'

/-- The thread changes, and is on no stack but that of `run` afterwards. -/
theorem thread [DecidableEq τ] (h : s.FibersOk) (hf : s'.fiber = s.fiber)
    (hw : s'.worker = Function.update s.worker l w) (hvars : VarsOk w)
    (hpc : w.pc.fiber = none) : s'.FibersOk := by
  refine ⟨fun g => hf ▸ h.fibers g, fun m => ?_, fun m g hg => ?_, fun m m' g hg hg' => ?_⟩
  · rw [hw]
    by_cases hm : m = l
    · rw [hm, Function.update_self]
      exact hvars
    · rw [Function.update_of_ne hm]
      exact h.vars m
  · by_cases hm : m = l
    · subst m
      rw [hw, Function.update_self, hpc] at hg
      cases hg
    · rw [hw, Function.update_of_ne hm] at hg ⊢
      rw [hf]
      exact h.workers m g hg
  · have hne : ∀ m, (s'.worker m).pc.fiber = some g → m ≠ l ∧ (s.worker m).pc.fiber = some g := by
      intro m hm
      by_cases hml : m = l
      · subst m
        rw [hw, Function.update_self, hpc] at hm
        cases hm
      · rw [hw, Function.update_of_ne hml] at hm
        exact ⟨hml, hm⟩
    exact h.unique m m' g (hne m hg).2 (hne m' hg').2

/-- A fiber on which no thread is changes. -/
theorem fiber (h : s.FibersOk) (hf : s'.fiber = Function.update s.fiber f x)
    (hw : s'.worker = s.worker) (hx : FiberOk f x)
    (hout : ∀ m, (s.worker m).pc.fiber ≠ some f) : s'.FibersOk := by
  refine ⟨fun g => ?_, hw ▸ h.vars, fun m g hg => ?_, fun m m' g => ?_⟩
  · rw [hf]
    by_cases hgf : g = f
    · subst g
      rw [Function.update_self]
      exact hx
    · rw [Function.update_of_ne hgf]
      exact h.fibers g
  · rw [hw] at hg ⊢
    have hgf : g ≠ f := fun heq => hout m (heq ▸ hg)
    rw [hf, Function.update_of_ne hgf]
    exact h.workers m g hg
  · rw [hw]
    exact h.unique m m' g

end FibersOk

/-- The counters and the destroyed fibers are the same. -/
structure Kept (s s' : FiberHeap τ) : Prop where
  use_count : s'.use_count = s.use_count
  created : s'.created = s.created
  s_fiber_count : s'.s_fiber_count = s.s_fiber_count
  destroyed : ∀ f, (s'.fiber f).destroyed = (s.fiber f).destroyed

theorem flatMap_eraseIdx {vs : List Owner} {n : Nat} {v : Owner} (h : vs[n]? = some v) :
    (vs.flatMap Owner.refs).Perm ((vs.eraseIdx n).flatMap Owner.refs ++ v.refs) := by
  obtain ⟨hn, rfl⟩ := List.getElem?_eq_some_iff.mp h
  have hperm := (List.getElem_cons_eraseIdx_perm hn).symm.flatMap_right Owner.refs
  rw [List.flatMap_cons] at hperm
  exact hperm.trans List.perm_append_comm

section Refs

/-- Where the variables of code are. -/
def varsPlace : Option FiberId → Place τ
  | some f => .stack f
  | none => .outside

theorem refs_setFiber_same (hcur : x.cur = (s.fiber f).cur) (hvars : x.vars = (s.fiber f).vars)
    (hcb : x.m_cb = (s.fiber f).m_cb) : (s.setFiber f x).refs = s.refs := by
  funext k
  have hsame : ∀ g, ((s.setFiber f x).fiber g).cur = (s.fiber g).cur ∧
      ((s.setFiber f x).fiber g).vars = (s.fiber g).vars ∧
      ((s.setFiber f x).fiber g).m_cb = (s.fiber g).m_cb := by
    intro g
    by_cases hg : g = f
    · subst g
      simp [setFiber, hcur, hvars, hcb]
    · simp [setFiber, hg]
  cases k with
  | stack g =>
    obtain ⟨hc, hv, _⟩ := hsame g
    simp only [refs, OwnedFiber.refs, hc, hv]
  | callback g =>
    obtain ⟨_, _, hc⟩ := hsame g
    simp only [refs, hc]
  | _ => rfl

variable [DecidableEq τ]

theorem refs_setFiber : (s.setFiber f x).refs =
    Function.update (Function.update s.refs (.stack f) (OwnedFiber.refs x)) (.callback f)
      (x.m_cb.getD []) := by
  funext k
  cases k with
  | stack g =>
    rw [Function.update_of_ne (by simp)]
    by_cases hg : g = f
    · subst g
      simp [refs, setFiber]
    · rw [Function.update_of_ne (by simpa using hg)]
      simp [refs, setFiber, hg]
  | callback g =>
    by_cases hg : g = f
    · subst g
      simp [refs, setFiber]
    · rw [Function.update_of_ne (by simpa using hg), Function.update_of_ne (by simp)]
      simp [refs, setFiber, hg]
  | _ => rfl

theorem refs_setThread : (s.setThread l w).refs =
    Function.update s.refs (.thread l) w.refs := by
  funext k
  cases k with
  | thread m =>
    by_cases hm : m = l
    · subst m
      simp [refs, setThread]
    · rw [Function.update_of_ne (by simpa using hm)]
      simp [refs, setThread, hm]
  | _ => rfl

theorem refs_queue (vs : List Owner) : refs { s with _queue := vs } =
    Function.update s.refs .queue (vs.flatMap Owner.refs) := by
  funext k
  cases k <;> rfl

theorem refs_timers (vs : List Owner) : refs { s with timers := vs } =
    Function.update s.refs .timers (vs.flatMap Owner.refs) := by
  funext k
  cases k <;> rfl

theorem refs_events (vs : List Owner) : refs { s with events := vs } =
    Function.update s.refs .events (vs.flatMap Owner.refs) := by
  funext k
  cases k <;> rfl

/-- The references of code apart from those in its variables. -/
def curRefs (s : FiberHeap τ) : Option FiberId → List FiberId
  | some f => (s.fiber f).cur.toList
  | none => []

omit [DecidableEq τ] in
theorem refs_varsPlace : s.refs (varsPlace o) = s.curRefs o ++ (s.vars o).flatMap Owner.refs := by
  cases o <;> rfl

theorem refs_setVars (vs : List Owner) : (s.setVars vs o).refs =
    Function.update s.refs (varsPlace o) (s.curRefs o ++ vs.flatMap Owner.refs) := by
  cases o with
  | none =>
    funext k
    cases k <;> rfl
  | some f =>
    have hset := refs_setFiber (s := s) (f := f) (x := { s.fiber f with vars := vs })
    refine hset.trans ?_
    apply Function.update_eq_iff.mpr
    refine ⟨?_, fun k hk => rfl⟩
    rw [Function.update_of_ne (by simp [varsPlace])]
    rfl

end Refs

theorem FibersOk.executing (h : s.FibersOk) (hpc : (s.worker l).pc.fiber = some f) :
    f ∈ s.refs (.thread l) := List.mem_append_right _ (h.workers l f hpc).1

namespace HeapOk

theorem pos (h : s.HeapOk temps) {k : Place τ} (hf : f ∈ s.refs k) : 0 < s.use_count f :=
  h.counted.pos_of_mem hf

theorem lt_created (h : s.HeapOk temps) {k : Place τ} (hf : f ∈ s.refs k) : f < s.created :=
  ((h.live f).mp (h.pos hf)).1

theorem alive (h : s.HeapOk temps) {k : Place τ} (hf : f ∈ s.refs k) :
    (s.fiber f).destroyed = false := ((h.live f).mp (h.pos hf)).2

/-- A step that keeps the books and the references that the temporaries and places hold. -/
theorem kept (h : s.HeapOk temps) (hk : Kept s s') (hc : Counted s'.refs temps' s.use_count)
    (hfresh : ∀ f, s.created ≤ f → s'.refs (.stack f) = s.refs (.stack f) ∧
      s'.refs (.callback f) = s.refs (.callback f)) : s'.HeapOk temps' := by
  refine ⟨hk.use_count ▸ hc, fun f => ?_, ?_, fun f hf => ?_⟩
  · rw [hk.use_count, hk.created, hk.destroyed f]
    exact h.live f
  · rw [hk.s_fiber_count, hk.created, h.total]
    simp only [hk.destroyed]
  · rw [hk.created] at hf
    obtain ⟨hstack, hcb⟩ := hfresh f hf
    rw [hstack, hcb]
    exact h.fresh f hf

theorem exchange [DecidableEq τ] (h : s.HeapOk temps) (hk : Kept s s') {k : Place τ}
    {rs : List FiberId} (hr : s'.refs = Function.update s.refs k rs)
    (hfresh : ∀ f, s.created ≤ f → k ≠ .stack f ∧ k ≠ .callback f)
    (hp : (s.refs k ++ temps).Perm (rs ++ temps')) : s'.HeapOk temps' := by
  apply h.kept hk
  · rw [hr]
    exact h.counted.exchange hp
  · intro f hf
    obtain ⟨hstack, hcb⟩ := hfresh f hf
    rw [hr, Function.update_of_ne hstack.symm, Function.update_of_ne hcb.symm]
    exact ⟨rfl, rfl⟩

/-- Copies of pointers to living fibers are made, and are in temporaries. -/
theorem copies (h : s.HeapOk temps) {l : List FiberId} (hl : ∀ f ∈ l, 0 < s.use_count f) :
    s.copies l = .ok { s with use_count := fun f => s.use_count f + l.count f } ∧
      HeapOk { s with use_count := fun f => s.use_count f + l.count f } (l ++ temps) := by
  constructor
  · apply if_neg
    intro hex
    obtain ⟨f, hf, hd⟩ := hex
    rw [((h.live f).mp (hl f hf)).2] at hd
    cases hd
  · refine ⟨h.counted.copy l, fun f => ?_, h.total, h.fresh⟩
    change 0 < s.use_count f + l.count f ↔ _
    constructor
    · intro hpos
      rcases Nat.eq_zero_or_pos (s.use_count f) with hzero | hused
      · rw [hzero, Nat.zero_add] at hpos
        exact (h.live f).mp (hl f (List.count_pos_iff.mp hpos))
      · exact (h.live f).mp hused
    · intro hlive
      exact Nat.lt_of_lt_of_le ((h.live f).mpr hlive) (Nat.le_add_right _ _)

/-- The constructor takes the captured pointers out of the temporaries and leaves a
pointer to the new fiber there. -/
theorem newFiber [DecidableEq τ] {captured : List FiberId} (h : s.HeapOk (captured ++ temps))
    (hcur : x.cur = none) (hvars : x.vars = []) (hcb : x.m_cb.getD [] = captured)
    (hd : x.destroyed = false) : (s.newFiber x).HeapOk (s.created :: temps) := by
  have hzero : s.use_count s.created = 0 := by
    by_contra hne
    exact absurd ((h.live _).mp (Nat.pos_of_ne_zero hne)).1 (Nat.lt_irrefl _)
  obtain ⟨hstack, hcallback⟩ := h.fresh s.created (Nat.le_refl _)
  have hrefs : (s.newFiber x).refs = Function.update s.refs (.callback s.created) captured := by
    have hsame : Function.update s.refs (.stack s.created) (OwnedFiber.refs x) = s.refs := by
      apply Function.update_eq_self_iff.mpr
      rw [hstack, OwnedFiber.refs, hcur, hvars]
      rfl
    have hset := refs_setFiber (s := s) (f := s.created) (x := x)
    rw [hsame, hcb] at hset
    exact hset
  have huse : (s.newFiber x).use_count =
      fun f => s.use_count f + [s.created].count f := by
    funext f
    change Function.update s.use_count s.created 1 f = _
    by_cases hf : f = s.created
    · subst f
      rw [Function.update_self, hzero, List.count_singleton_self]
    · rw [Function.update_of_ne hf, List.count_singleton, if_neg (by simpa using Ne.symm hf)]
      rfl
  have hcounted : Counted (s.newFiber x).refs ([s.created] ++ temps) (s.newFiber x).use_count := by
    rw [hrefs, huse]
    apply (h.counted.put (k := .callback s.created) _).copy
    rw [hcallback]
    exact List.Perm.refl _
  have hfiber : ∀ f, f ≠ s.created → (s.newFiber x).fiber f = s.fiber f :=
    fun f hf => Function.update_of_ne hf _ _
  refine ⟨hcounted, fun f => ?_, ?_, fun f hf => ?_⟩
  · rw [huse]
    change 0 < s.use_count f + [s.created].count f ↔ f < s.created + 1 ∧ _
    by_cases hf : f = s.created
    · subst f
      have hnew : ((s.newFiber x).fiber s.created).destroyed = false := by
        simp [FiberHeap.newFiber, setFiber, hd]
      simp [hnew]
    · rw [hfiber f hf, List.count_singleton, if_neg (by simpa using Ne.symm hf), Nat.add_zero,
        h.live f]
      have hlt : f < s.created ↔ f < s.created + 1 :=
        ⟨Nat.lt_succ_of_lt, fun hf' => Nat.lt_of_le_of_ne (Nat.le_of_lt_succ hf') hf⟩
      rw [hlt]
  · change s.s_fiber_count + 1 = ((Finset.range (s.created + 1)).filter fun f =>
      ((s.newFiber x).fiber f).destroyed = false).card
    have hsame : ((Finset.range s.created).filter fun f =>
        ((s.newFiber x).fiber f).destroyed = false) =
        (Finset.range s.created).filter fun f => (s.fiber f).destroyed = false := by
      apply Finset.filter_congr
      intro f hf
      rw [hfiber f (Nat.ne_of_lt (Finset.mem_range.mp hf))]
    have hnew : ((s.newFiber x).fiber s.created).destroyed = false := by
      simp [FiberHeap.newFiber, setFiber, hd]
    rw [Finset.range_add_one, Finset.filter_insert, if_pos hnew, Finset.card_insert_of_notMem
      (by simp), hsame, h.total]
  · have hlt : s.created < f := hf
    have hne : f ≠ s.created := Nat.ne_of_gt hlt
    obtain ⟨hs, hc⟩ := h.fresh f (Nat.le_of_lt hlt)
    rw [hrefs, Function.update_of_ne (by simp), Function.update_of_ne (by simpa using hne)]
    exact ⟨hs, hc⟩

end HeapOk

section Drop

/-- `~Fiber`, of a fiber whose last pointer is gone. -/
theorem destroy_spec (h : FiberOk f (s.fiber f)) :
    (s.destroy f = .ok (s.destroyed f) ∧
      ((s.fiber f).m_stack = false ∨ (s.fiber f).m_state = .TERM)) ∨
    s.destroy f = .error (.notTerm f) ∧ (s.fiber f).m_stack = true ∧
      (s.fiber f).m_state ≠ .TERM := by
  unfold destroy
  cases hstack : (s.fiber f).m_stack with
  | true =>
    rw [if_pos rfl]
    by_cases hterm : (s.fiber f).m_state = .TERM
    · have hcb := (h.term hstack hterm).1
      rw [if_neg (not_not.mpr hterm), hcb, if_neg (by simp)]
      exact Or.inl ⟨rfl, Or.inr hterm⟩
    · rw [if_pos hterm]
      exact Or.inr ⟨rfl, rfl, hterm⟩
  | false =>
    obtain ⟨hcb, hstate⟩ := h.main hstack
    rw [if_neg (by simp), if_neg (by simp [hcb, hstate])]
    exact Or.inl ⟨rfl, Or.inl rfl⟩

theorem destroyed_same : Same s (s.destroyed f) := by
  have hrefs := refs_setFiber_same (s := s) (f := f) (x := { s.fiber f with destroyed := true })
    rfl rfl rfl
  refine ⟨rfl, hrefs, rfl, fun g => ?_⟩
  by_cases hg : g = f
  · subst g
    simp [FiberHeap.destroyed, setFiber]
  · simp [FiberHeap.destroyed, setFiber, hg]

theorem destroyed_of_ne (h : g ≠ f) : (s.destroyed f).fiber g = s.fiber g :=
  Function.update_of_ne h _ _

theorem destroyed_self : ((s.destroyed f).fiber f).destroyed = true := by
  simp [FiberHeap.destroyed, setFiber]

theorem decrement_use_count (hpos : 0 < s.use_count f) (g : FiberId) :
    (s.decrement f).use_count g + [f].count g = s.use_count g := by
  change Function.update s.use_count f (s.use_count f - 1) g + _ = _
  by_cases hg : g = f
  · subst g
    rw [Function.update_self, List.count_singleton_self, Nat.sub_add_cancel hpos]
  · rw [Function.update_of_ne hg, List.count_singleton, if_neg (by simpa using Ne.symm hg)]
    rfl

/-- A pointer that is not the last one is dropped. -/
theorem HeapOk.decrement (h : s.HeapOk (f :: temps)) (hmore : s.use_count f - 1 ≠ 0) :
    (s.decrement f).HeapOk temps := by
  refine ⟨h.counted.drop, fun g => ?_, h.total, h.fresh⟩
  change 0 < Function.update s.use_count f (s.use_count f - 1) g ↔ _
  by_cases hg : g = f
  · subst g
    rw [Function.update_self]
    exact iff_of_true (Nat.pos_of_ne_zero hmore)
      ((h.live f).mp (h.counted.pos_of_temp List.mem_cons_self))
  · rw [Function.update_of_ne hg]
    exact h.live g

/-- The last pointer is dropped. -/
theorem HeapOk.destroyed (h : s.HeapOk (f :: temps)) (hlast : s.use_count f - 1 = 0) :
    ((s.decrement f).destroyed f).HeapOk temps := by
  obtain ⟨hlt, hd⟩ := (h.live f).mp (h.counted.pos_of_temp List.mem_cons_self)
  have hsame : Same (s.decrement f) ((s.decrement f).destroyed f) := destroyed_same
  have hrefs : ((s.decrement f).destroyed f).refs = s.refs := hsame.refs
  have hother : ∀ g, g ≠ f → ((s.decrement f).destroyed f).fiber g = s.fiber g :=
    fun g hg => destroyed_of_ne hg
  refine ⟨?_, fun g => ?_, ?_, fun g hg => ?_⟩
  · rw [hrefs]
    exact h.counted.drop
  · change 0 < Function.update s.use_count f (s.use_count f - 1) g ↔ g < s.created ∧ _
    by_cases hg : g = f
    · subst g
      rw [Function.update_self, hlast, destroyed_self]
      simp
    · rw [Function.update_of_ne hg, hother g hg]
      exact h.live g
  · change s.s_fiber_count - 1 = ((Finset.range s.created).filter fun g =>
      (((s.decrement f).destroyed f).fiber g).destroyed = false).card
    have herase : ((Finset.range s.created).filter fun g =>
        (((s.decrement f).destroyed f).fiber g).destroyed = false) =
        ((Finset.range s.created).filter fun g => (s.fiber g).destroyed = false).erase f := by
      ext g
      by_cases hg : g = f
      · subst g
        simp [destroyed_self]
      · simp [hother g hg, hg]
    rw [herase, Finset.card_erase_of_mem (by simp [hlt, hd]), ← h.total]
  · rw [hrefs]
    exact h.fresh g hg

/-- What dropping the references leaves behind. -/
structure Dropped (s : FiberHeap τ) (l : List FiberId) (s' : FiberHeap τ) : Prop where
  same : Same s s'
  use_count : ∀ f, s'.use_count f + l.count f = s.use_count f
  destroyed : ∀ f, (s'.fiber f).destroyed = true → (s.fiber f).destroyed = true ∨
    (s.fiber f).m_stack = false ∨ (s.fiber f).m_state = .TERM

/-- A reference in a temporary is dropped: this works, or it is the last one to a
fiber that has not terminated. -/
theorem drop_spec (h : s.HeapOk (f :: temps)) (hf : FiberOk f (s.fiber f)) :
    (∃ s', s.drop f = .ok s' ∧ s'.HeapOk temps ∧ Dropped s [f] s') ∨
    s.drop f = .error (.notTerm f) ∧ s.use_count f = 1 ∧ (s.fiber f).m_stack = true ∧
      (s.fiber f).m_state ≠ .TERM := by
  have hpos := h.counted.pos_of_temp List.mem_cons_self
  have hd := ((h.live f).mp hpos).2
  unfold drop
  rw [if_neg (by simp [hd])]
  by_cases hlast : s.use_count f - 1 = 0
  · rw [if_pos hlast]
    have hf' : FiberOk f ((s.decrement f).fiber f) := hf
    rcases destroy_spec hf' with ⟨hok, hterm⟩ | ⟨herror, hstack, hstate⟩
    · refine Or.inl ⟨_, hok, h.destroyed hlast, ?_⟩
      have hsame : Same (s.decrement f) ((s.decrement f).destroyed f) := destroyed_same
      refine ⟨⟨hsame.worker, hsame.refs, hsame.created, hsame.fiber⟩, decrement_use_count hpos,
        fun g hg => ?_⟩
      by_cases hgf : g = f
      · subst g
        exact Or.inr hterm
      · rw [destroyed_of_ne hgf] at hg
        exact Or.inl hg
    · exact Or.inr ⟨herror, by omega, hstack, hstate⟩
  · rw [if_neg hlast]
    exact Or.inl ⟨_, rfl, h.decrement hlast, ⟨rfl, rfl, rfl, fun _ => rfl⟩,
      decrement_use_count hpos, fun _ hg => Or.inl hg⟩

theorem Dropped.trans {l l' : List FiberId} {s'' : FiberHeap τ} (h : Dropped s l s')
    (h' : Dropped s' l' s'') : Dropped s (l ++ l') s'' := by
  refine ⟨h.same.trans h'.same, fun f => ?_, fun f hf => ?_⟩
  · have hfirst := h.use_count f
    have hsecond := h'.use_count f
    rw [List.count_append]
    omega
  · rcases h'.destroyed f hf with hd | hterm
    · exact h.destroyed f hd
    · rw [h.same.fiber f] at hterm
      exact Or.inr hterm

/-- A fiber that has been started and has not returned refers to itself. -/
theorem FiberOk.not_entered {k : Nat} (h : s.HeapOk (f :: temps)) (hf : FiberOk f (s.fiber f))
    (hstack : (s.fiber f).m_stack = true) (hstate : (s.fiber f).m_state ≠ .TERM)
    (hk : (f :: temps).count f = k) (hcount : s.use_count f = k) :
    (s.fiber f).entered = false := by
  rw [Bool.eq_false_iff]
  intro hentered
  have hcur := hf.self hstack hentered hstate
  have hself : f ∈ s.refs (.stack f) := by
    change f ∈ (s.fiber f).cur.toList ++ _
    rw [hcur]
    exact List.mem_append_left _ (Option.mem_toList.mpr rfl)
  obtain ⟨b, hb, hsum⟩ := h.counted
  have hmem : Place.stack f ∈ b := by
    by_contra hout
    rw [hb _ hout] at hself
    cases hself
  have hle :=
    Finset.single_le_sum (f := fun j => (s.refs j).count f) (fun _ _ => Nat.zero_le _) hmem
  have hpos := List.count_pos_iff.mpr hself
  have htotal := hsum f
  omega

/-- The references in temporaries are dropped: this works, or among them are all
the references to a fiber that has never been entered. -/
theorem drops_spec {l : List FiberId} (h : s.HeapOk (l ++ temps)) (hs : s.FibersOk) :
    (∃ s', s.drops l = .ok s' ∧ s'.HeapOk temps ∧ s'.FibersOk ∧ Dropped s l s') ∨
    ∃ f ∈ l, s.drops l = .error (.notTerm f) ∧ (s.fiber f).m_stack = true ∧
      (s.fiber f).entered = false ∧ s.use_count f ≤ l.count f := by
  induction l generalizing s with
  | nil => exact Or.inl ⟨s, rfl, h, hs, Same.rfl, fun _ => rfl, fun _ => Or.inl⟩
  | cons f l ih =>
    rcases drop_spec h (hs.fibers f) with ⟨s₁, hok, h₁, hdropped⟩ | ⟨herror, hone, hstack, hstate⟩
    · have hs₁ := hs.same hdropped.same
      rcases ih h₁ hs₁ with ⟨s', hok', h', hs', hdropped'⟩ | ⟨g, hg, herror, hstack, hnew, hcount⟩
      · refine Or.inl ⟨s', ?_, h', hs', hdropped.trans hdropped'⟩
        exact bind_eq_ok.mpr ⟨s₁, hok, hok'⟩
      · rw [hdropped.same.fiber g] at hstack hnew
        refine Or.inr ⟨g, List.mem_cons_of_mem f hg, ?_, hstack, hnew, ?_⟩
        · exact bind_eq_error.mpr (Or.inr ⟨s₁, hok, herror⟩)
        · have hused := hdropped.use_count g
          have hcons : (f :: l).count g = [f].count g + l.count g := by
            rw [← List.count_append, List.singleton_append]
          omega
    · have hle := h.counted.count_le (i := f)
      have hcount : ((f :: l) ++ temps).count f = 1 := by
        have hpos := List.count_pos_iff.mpr (List.mem_cons_self (a := f) (l := l ++ temps))
        change 0 < ((f :: l) ++ temps).count f at hpos
        omega
      have hnew := FiberOk.not_entered h (hs.fibers f) hstack hstate hcount hone
      refine Or.inr ⟨f, List.mem_cons_self, ?_, hstack, hnew, ?_⟩
      · exact bind_eq_error.mpr (Or.inl herror)
      · rw [hone]
        exact List.count_pos_iff.mpr List.mem_cons_self

end Drop

section Changes

/-- The references of one fiber change, by way of the temporaries. -/
theorem HeapOk.setFiber [DecidableEq τ] {mid : List FiberId} (h : s.HeapOk temps)
    (hf : f < s.created) (hd : x.destroyed = (s.fiber f).destroyed)
    (hstack : ((s.fiber f).refs ++ temps).Perm (x.refs ++ mid))
    (hcb : ((s.fiber f).m_cb.getD [] ++ mid).Perm (x.m_cb.getD [] ++ temps')) :
    (s.setFiber f x).HeapOk temps' := by
  have hkept : Kept s (s.setFiber f x) := by
    refine ⟨rfl, rfl, rfl, fun g => ?_⟩
    by_cases hg : g = f
    · subst g
      simpa [FiberHeap.setFiber] using hd
    · simp [FiberHeap.setFiber, hg]
  have hne : ∀ g, s.created ≤ g → g ≠ f := fun g hg => Nat.ne_of_gt (Nat.lt_of_lt_of_le hf hg)
  apply h.kept hkept
  · rw [refs_setFiber]
    have hs : Counted (Function.update s.refs (.stack f) x.refs) mid s.use_count :=
      h.counted.exchange hstack
    apply hs.exchange
    rw [Function.update_of_ne (by simp)]
    exact hcb
  · intro g hg
    rw [refs_setFiber, Function.update_of_ne (by simp), Function.update_of_ne
      (by simpa using hne g hg), Function.update_of_ne (by simpa using hne g hg),
      Function.update_of_ne (by simp)]
    exact ⟨rfl, rfl⟩

/-- A new fiber, on which no thread is. -/
theorem HeapOk.newFiber_fibersOk (h : s.HeapOk temps) (hs : s.FibersOk) (hx : FiberOk s.created x) :
    (s.newFiber x).FibersOk := by
  have hfiber : (s.newFiber x).fiber = Function.update s.fiber s.created x := rfl
  apply hs.fiber hfiber rfl hx
  intro l hl
  exact absurd (h.lt_created (hs.executing hl)) (Nat.lt_irrefl _)

end Changes

end FiberHeap

end FiberAsync
