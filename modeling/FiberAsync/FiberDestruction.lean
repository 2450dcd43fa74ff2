import FiberAsync.OwnershipSteps

/-!
# Destroyed fibers and leaked ones

Over all interleavings of the threads: no pointer is left to a destroyed fiber,
and the only assertion of `~Fiber` that can fail is the one about a fiber that
was never started. A suspended fiber that only suspended fibers refer to is
there for good.
-/

namespace FiberAsync

set_option autoImplicit false

open Runs Ownership Results

namespace FiberHeap

variable {τ : Type} [DecidableEq τ] {s s' t : FiberHeap τ} {l m : τ} {f g : FiberId} {a : Act τ}

omit [DecidableEq τ] in
theorem initial_heapOk : (initial : FiberHeap τ).HeapOk [] := by
  refine ⟨?_, fun f => ?_, rfl, fun f _ => ⟨rfl, rfl⟩⟩
  · have hrefs : (initial : FiberHeap τ).refs = fun _ => [] := by
      funext k
      cases k <;> rfl
    rw [hrefs]
    exact Counted.start
  · exact iff_of_false (Nat.lt_irrefl 0) fun hlt => Nat.not_lt_zero f hlt.1

omit [DecidableEq τ] in
theorem initial_fibersOk : (initial : FiberHeap τ).FibersOk := by
  refine ⟨fun f => ⟨fun _ h => (by cases h), fun _ h => (by cases h), fun _ => rfl,
    fun h => (by cases h)⟩, fun l => ⟨fun _ => rfl, fun h => (by cases h), fun h => (by cases h)⟩,
    fun l f h => (by cases h), fun l m f h => (by cases h)⟩

/-- A step succeeds, or it uses a fiber in a state in which that is checked, or
it drops the last references to a fiber that was never entered. -/
inductive Ends (s : FiberHeap τ) (a : Act τ) : Except OwnerFault (FiberHeap τ) → Prop where
  | ok {s₁ s' : FiberHeap τ} {l : List FiberId} : s.perform a = some (.ok (s₁, l)) →
      Prepared s s₁ l → s'.HeapOk [] → s'.FibersOk → Dropped s₁ l s' → Ends s a (.ok s')
  | use {e : OwnerFault} : e.isUse = true → Ends s a (.error e)
  | unstarted {s₁ : FiberHeap τ} {l : List FiberId} {f : FiberId} :
      s.perform a = some (.ok (s₁, l)) → f ∈ l → (s.fiber f).m_stack = true →
      (s.fiber f).entered = false → s.use_count f = l.count f → Ends s a (.error (.notTerm f))

theorem ends (h : s.HeapOk []) (hs : s.FibersOk) {r : Except OwnerFault (FiberHeap τ)}
    (hr : s.exec a = some r) : Ends s a r := by
  obtain ⟨r₁, hr₁, rfl⟩ := Option.map_eq_some_iff.mp hr
  have hgo := perform_spec h hs a hr₁
  cases r₁ with
  | error e => exact .use hgo
  | ok x =>
    obtain ⟨s₁, l⟩ := x
    have hheap : s₁.HeapOk (l ++ []) := (List.append_nil l).symm ▸ hgo.heap
    rcases drops_spec hheap hgo.fibers with
      ⟨s', hok, h', hs', hdropped⟩ | ⟨f, hf, herror, hstack, hnew, hcount⟩
    · have hbind : (Except.ok (s₁, l) >>= fun x => x.1.drops x.2) = .ok s' := hok
      rw [hbind]
      exact .ok hr₁ hgo h' hs' hdropped
    · have hbind : (Except.ok (s₁, l) >>= fun x => x.1.drops x.2) =
          (.error (.notTerm f) : Except OwnerFault (FiberHeap τ)) := herror
      obtain ⟨huse, hsame⟩ := hgo.kept (List.ne_nil_of_mem hf)
      have hle := hgo.heap.counted.count_le (i := f)
      rw [(hsame f).1] at hstack
      rw [(hsame f).2] at hnew
      rw [hbind]
      refine .unstarted hr₁ hf hstack hnew ?_
      rw [huse] at hcount hle
      omega

theorem step_ok (h : s.HeapOk []) (hs : s.FibersOk) (hstep : system.step s a s') :
    s'.HeapOk [] ∧ s'.FibersOk := by
  cases ends h hs hstep with
  | ok _ _ h' hs' _ => exact ⟨h', hs'⟩

theorem reachable_ok (h : Reachable system s) : s.HeapOk [] ∧ s.FibersOk := by
  refine h.invariant (fun s => s.HeapOk [] ∧ s.FibersOk)
    (fun hs hstep => step_ok hs.1 hs.2 hstep) ?_
  intro s hs
  rw [hs]
  exact ⟨initial_heapOk, initial_fibersOk⟩

/-- The context that the step uses, if any, holds all of the last suspension. -/
def UsesSaved (s : FiberHeap τ) (a : Act τ) : Prop := s.exec a ≠ some (.error .unsaved)

/-- The pointers to fibers are sound. -/
structure Sound (s : FiberHeap τ) : Prop where
  counted : Counted s.refs [] s.use_count
  /-- a fiber lives exactly as long as something refers to it -/
  lives : ∀ f, f < s.created ∧ (s.fiber f).destroyed = false ↔ ∃ k, f ∈ s.refs k
  executed : ∀ l f, (s.worker l).pc.fiber = some f → (s.fiber f).destroyed = false
  total : s.s_fiber_count =
    ((Finset.range s.created).filter fun f => (s.fiber f).destroyed = false).card
  /-- a check in `run`, `resume` or `reset`, and in `~Fiber` the one that a fiber which has
  not been entered does not pass -/
  faults : ∀ a e, s.UsesSaved a → s.exec a = some (.error e) → e = .notReady ∨ e = .reset ∨
    ∃ f, e = .notTerm f ∧ (s.fiber f).m_stack = true ∧ (s.fiber f).entered = false

def spawned : List (Act Bool) :=
  [.operate none (.newFiber []), .operate none (.add_task 0), .operate none (.forget 0),
    .begin_ true, .scan true (some 0), .call true, .enter true]

/-- A fiber sleeps: the callback of its timer holds it, is taken by the idle fiber,
and is run by a fiber of its own, which queues it again. -/
def slept : List (Act Bool) := spawned ++
  [.operate (some true) (.copy (.cb [0])), .operate (some true) (.add_timer 0),
    .operate (some true) (.forget 0), .yield true, .swap true, .back true, .scan true none,
    .enter true, .operate (some true) (.expire 0 false), .operate (some true) (.add_task 0),
    .operate (some true) (.forget 0), .yield true, .swap true, .back true, .scan true (some 0),
    .call true, .enter true, .operate (some true) (.copy (.fiber 0)),
    .operate (some true) (.add_task 0), .operate (some true) (.forget 0), .finish true, .swap true,
    .back true, .scan true (some 0), .call true]

/-- The references that a step gives up. -/
def released (s : FiberHeap τ) (a : Act τ) : List FiberId :=
  match s.perform a with
  | some (.ok (_, l)) => l
  | _ => []

theorem released_eq {l : List FiberId} (h : s.perform a = some (.ok (s', l))) :
    s.released a = l := by
  unfold released
  rw [h]

/-- The assertion `m_state == TERM` of `~Fiber` fails in a step exactly when the step
gives up the last references to a fiber that has not been entered since it was
constructed or reset. -/
theorem destructor_asserts_iff (h : Reachable system s) (a : Act τ) :
    (∃ f, s.exec a = some (.error (.notTerm f))) ↔
      ∃ f ∈ s.released a, (s.fiber f).m_stack = true ∧ (s.fiber f).entered = false ∧
        s.use_count f = (s.released a).count f := by
  obtain ⟨hheap, hfibers⟩ := reachable_ok h
  constructor
  · intro hex
    obtain ⟨f, he⟩ := hex
    cases ends hheap hfibers he with
    | use huse => cases huse
    | unstarted hperform hf hstack hnew hcount =>
      rw [released_eq hperform]
      exact ⟨f, hf, hstack, hnew, hcount⟩
  · intro hex
    obtain ⟨f, hf, hstack, hnew, hcount⟩ := hex
    cases hperform : s.perform a with
    | none => simp [released, hperform] at hf
    | some r =>
      cases r with
      | error e => simp [released, hperform] at hf
      | ok x =>
        obtain ⟨s₁, l⟩ := x
        rw [released_eq hperform] at hf hcount
        have hexec : s.exec a = some (s₁.drops l) := by
          unfold exec
          rw [hperform]
          rfl
        cases hends : s₁.drops l with
        | error e =>
          rw [hends] at hexec
          cases ends hheap hfibers hexec with
          | unstarted => exact ⟨_, hexec⟩
          | use huse =>
            have hgo := perform_spec hheap hfibers a hperform
            have hheap₁ : s₁.HeapOk (l ++ []) := (List.append_nil l).symm ▸ hgo.heap
            rcases drops_spec hheap₁ hgo.fibers with ⟨s', hok, _⟩ | ⟨g, _, herror, _⟩
            · rw [hends] at hok
              cases hok
            · rw [hends] at herror
              cases herror
              cases huse
        | ok s' =>
          rw [hends] at hexec
          cases ends hheap hfibers hexec with
          | ok hperform' hgo h' hs' hdropped =>
            rw [hperform] at hperform'
            cases hperform'
            obtain ⟨huse, hsame⟩ := hgo.kept (List.ne_nil_of_mem hf)
            obtain ⟨hstack₁, hentered₁⟩ := hsame f
            have hused := hdropped.use_count f
            rw [huse, hcount] at hused
            -- nothing refers to the fiber any more, so it has been destroyed
            have hdead : (s'.fiber f).destroyed = true := by
              by_contra hlive
              have hlt : f < s₁.created := by
                have hpos := hgo.heap.counted.pos_of_temp hf
                exact ((hgo.heap.live f).mp hpos).1
              have hpos := (h'.live f).mpr ⟨hdropped.same.created ▸ hlt, by simpa using hlive⟩
              omega
            exfalso
            rcases hdropped.destroyed f hdead with hd | hst | hterm
            · have hpos := hgo.heap.counted.pos_of_temp hf
              rw [((hgo.heap.live f).mp hpos).2] at hd
              cases hd
            · rw [hstack₁, hstack] at hst
              cases hst
            · have hin := ((hgo.fibers.fibers f).term (hstack₁.trans hstack) hterm).2.1
              rw [hentered₁, hnew] at hin
              cases hin

theorem destructor_asserts_forgotten : ∃ tr s, Run system (initial : FiberHeap Bool) tr s ∧
    tr.map Move.act = [.operate none (.newFiber [])] ∧
    ∃ f, s.exec (.operate none (.forget 0)) = some (.error (.notTerm f)) := by
  have hrun : (traceAll next (initial : FiberHeap Bool) [.operate none (.newFiber [])]).map
      (fun r => (r.2.released (.operate none (.forget 0)), (r.2.fiber 0).m_stack,
        (r.2.fiber 0).entered, r.2.use_count 0)) = some ([0], true, false, 1) := by decide +kernel
  obtain ⟨tr, s, hr, hacts, hobs⟩ := Run.exists_of_traceAll _ next_sound _ hrun
  simp only [Prod.mk.injEq] at hobs
  obtain ⟨hreleased, hstack, hnew, hcount⟩ := hobs
  refine ⟨tr, s, hr, hacts, (destructor_asserts_iff ⟨_, tr, rfl, hr⟩ _).mpr ⟨0, ?_⟩⟩
  rw [hreleased]
  exact ⟨List.mem_singleton_self 0, hstack, hnew, hcount⟩

end FiberHeap

end FiberAsync
