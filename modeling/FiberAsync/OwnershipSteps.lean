import FiberAsync.FiberLifetimes

/-!
# What the steps do with references

Every step keeps the books, up to the references that it is about to drop, and
reaches its drops unless it uses a fiber in a state in which that is checked.
-/

namespace FiberAsync

set_option autoImplicit false

open Runs Ownership Results

namespace FiberHeap

variable {τ : Type} {s s' : FiberHeap τ} {l m : τ} {f g : FiberId} {temps temps' : List FiberId}
  {x : OwnedFiber} {o : Option FiberId} {w : RunThread}

/-- What a step has done before it drops the references that it gives up. -/
structure Prepared (s s' : FiberHeap τ) (l : List FiberId) : Prop where
  heap : s'.HeapOk l
  fibers : s'.FibersOk
  kept : l ≠ [] → s'.use_count = s.use_count ∧ ∀ f,
    (s'.fiber f).m_stack = (s.fiber f).m_stack ∧ (s'.fiber f).entered = (s.fiber f).entered

/-- The step gets to its drops, or a check on the use of a fiber fails. -/
def Goes (s : FiberHeap τ) : Except OwnerFault (FiberHeap τ × List FiberId) → Prop
  | .ok (s', l) => Prepared s s' l
  | .error e => e.isUse = true

section Operations

/-- The code is outside, or a thread executes the fiber. -/
def Acts (s : FiberHeap τ) (o : Option FiberId) : Prop :=
  ∀ f, o = some f → ∃ l, (s.worker l).pc = .on f

theorem goes_of_copies {l : List FiberId} {g : FiberHeap τ → FiberHeap τ × List FiberId}
    (h : s.HeapOk []) (hl : ∀ f ∈ l, 0 < s.use_count f)
    (hgo : Goes s (.ok (g { s with use_count := fun f => s.use_count f + l.count f }))) :
    Goes s ((s.copies l).map g) := by
  rw [(h.copies hl).1]
  exact hgo

theorem held_pos (h : s.HeapOk []) (hf : f ∈ s.held o) : 0 < s.use_count f := by
  cases o with
  | none => exact h.pos (k := .outside) hf
  | some g =>
    rcases List.mem_append.mp hf with hf | hf
    · exact h.pos hf
    · exact h.pos hf

theorem mem_refs_of_var {n : Nat} {v : Owner} (hv : (s.vars o)[n]? = some v) (hf : f ∈ v.refs) :
    f ∈ s.refs (varsPlace o) := by
  rw [refs_varsPlace]
  exact List.mem_append_right _ (List.mem_flatMap.mpr ⟨v, List.mem_of_getElem? hv, hf⟩)

theorem Acts.lt_created (h : s.HeapOk []) (hs : s.FibersOk) (ho : s.Acts o) (hf : o = some f) :
    f < s.created := by
  obtain ⟨l, hl⟩ := ho f hf
  exact h.lt_created (hs.executing (l := l) (by rw [hl]; rfl))

theorem fibersOk_setVars {vs : List Owner} (hs : s.FibersOk) (hw : s'.worker = s.worker)
    (hf : s'.fiber = s.fiber) :
    (s'.setVars vs o).FibersOk := by
  have hs' : s'.FibersOk := hs.congr hw fun f => ⟨_, _, congrFun hf f⟩
  cases o with
  | none => exact hs'.congr rfl fun _ => ⟨_, _, rfl⟩
  | some f =>
    refine hs'.congr rfl fun g => ?_
    by_cases hg : g = f
    · subst g
      exact ⟨vs, _, Function.update_self _ _ _⟩
    · exact ⟨_, _, Function.update_of_ne hg _ _⟩

theorem kept_setVars (vs : List Owner) : Kept s (s.setVars vs o) := by
  cases o with
  | none => exact ⟨rfl, rfl, rfl, fun _ => rfl⟩
  | some f =>
    refine ⟨rfl, rfl, rfl, fun g => ?_⟩
    by_cases hg : g = f
    · subst g
      simp [setVars, setFiber]
    · simp [setVars, setFiber, hg]

theorem fields_setVars (vs : List Owner) (f : FiberId) :
    ((s.setVars vs o).fiber f).m_stack = (s.fiber f).m_stack ∧
      ((s.setVars vs o).fiber f).entered = (s.fiber f).entered := by
  cases o with
  | none => exact ⟨rfl, rfl⟩
  | some g =>
    by_cases hf : f = g
    · subst f
      simp [setVars, setFiber]
    · simp [setVars, setFiber, hf]

/-- References go from the temporaries into the variables of the code, or back. -/
theorem HeapOk.setVars [DecidableEq τ] {vs : List Owner} (h : s.HeapOk []) (hs : s.FibersOk)
    (ho : s.Acts o) (h' : s'.HeapOk temps)
    (hcreated : s.created ≤ s'.created) (hrefs : s'.refs (varsPlace o) = s.refs (varsPlace o))
    (hcur : s'.curRefs o = s.curRefs o)
    (hp : ((s.vars o).flatMap Owner.refs ++ temps).Perm (vs.flatMap Owner.refs ++ temps')) :
    (s'.setVars vs o).HeapOk temps' := by
  apply h'.exchange (kept_setVars vs) (refs_setVars vs)
  · intro f hf
    cases ho' : o with
    | none => simp [varsPlace]
    | some g =>
      have hlt := Acts.lt_created h hs ho ho'
      have hne : g ≠ f := Nat.ne_of_lt (Nat.lt_of_lt_of_le hlt (hcreated.trans hf))
      simpa [varsPlace] using hne
  · rw [hrefs, refs_varsPlace, hcur, List.append_assoc, List.append_assoc]
    exact hp.append_left _

/-- A step that leaves the fibers and threads alone. -/
theorem Prepared.of_heap {l : List FiberId} (hs : s.FibersOk) (hheap : s'.HeapOk l)
    (hw : s'.worker = s.worker) (hf : s'.fiber = s.fiber)
    (hl : s'.use_count = s.use_count ∨ l = []) : Prepared s s' l := by
  refine ⟨hheap, hs.congr hw fun f => ⟨_, _, congrFun hf f⟩, fun hne => ?_⟩
  rw [hf]
  exact ⟨hl.resolve_right hne, fun _ => ⟨rfl, rfl⟩⟩

theorem Prepared.of_vars {l : List FiberId} {vs : List Owner} {t : FiberHeap τ}
    (hs : s.FibersOk) (hheap : (t.setVars vs o).HeapOk l) (hw : t.worker = s.worker)
    (hf : t.fiber = s.fiber) (hl : t.use_count = s.use_count ∨ l = []) :
    Prepared s (t.setVars vs o) l := by
  refine ⟨hheap, fibersOk_setVars hs hw hf, fun hne => ⟨?_, fun f => ?_⟩⟩
  · rw [(kept_setVars vs).use_count]
    exact hl.resolve_right hne
  · obtain ⟨hstack, hentered⟩ := fields_setVars (s := t) (o := o) vs f
    rw [hstack, hentered, hf]
    exact ⟨rfl, rfl⟩

theorem perm_concat (vs : List Owner) (v : Owner) :
    (vs.flatMap Owner.refs ++ v.refs).Perm ((vs ++ [v]).flatMap Owner.refs) := by
  simp

/-- A copy of a variable is put into a place that is on no stack. -/
theorem store_spec [DecidableEq τ] {v : Owner} (h : s.HeapOk [])
    (hv : ∀ f ∈ v.refs, 0 < s.use_count f) {k : Place τ} {vs : List Owner} (hs' : Kept { s with
      use_count := fun f => s.use_count f + v.refs.count f } s')
    (hk : ∀ f, k ≠ .stack f ∧ k ≠ .callback f) (hold : s.refs k = vs.flatMap Owner.refs)
    (hr : s'.refs = Function.update s.refs k ((vs ++ [v]).flatMap Owner.refs)) : s'.HeapOk [] := by
  apply (h.copies hv).2.exchange hs' hr (fun f _ => hk f)
  change (s.refs k ++ (v.refs ++ [])).Perm _
  rw [hold, List.append_nil, List.append_nil]
  exact perm_concat vs v

/-- A value is taken out of a place that is on no stack. -/
theorem remove_spec [DecidableEq τ] {v : Owner} {k : Place τ} {vs : List Owner} {n : Nat}
    (h : s.HeapOk []) (hv : vs[n]? = some v) (hs' : Kept s s')
    (hk : ∀ f, k ≠ .stack f ∧ k ≠ .callback f) (hold : s.refs k = vs.flatMap Owner.refs)
    (hr : s'.refs = Function.update s.refs k ((vs.eraseIdx n).flatMap Owner.refs)) :
    s'.HeapOk v.refs := by
  apply h.exchange hs' hr (fun f _ => hk f)
  rw [hold, List.append_nil]
  exact flatMap_eraseIdx hv

theorem mem_refs_of_timer {n : Nat} {v : Owner} (hv : s.timers[n]? = some v) (hf : f ∈ v.refs) :
    f ∈ s.refs .timers := List.mem_flatMap.mpr ⟨v, List.mem_of_getElem? hv, hf⟩

theorem operate_spec [DecidableEq τ] (h : s.HeapOk []) (hs : s.FibersOk) (ho : s.Acts o) (op : Op)
    {r : Except OwnerFault (FiberHeap τ × List FiberId)} (hr : s.operate o op = some r) :
    Goes s r := by
  have hvar : ∀ {n : Nat} {v : Owner}, (s.vars o)[n]? = some v → ∀ f ∈ v.refs, 0 < s.use_count f :=
    fun hv f hf => h.pos (mem_refs_of_var hv hf)
  cases op with
  | copy v =>
    obtain ⟨hheld, heq⟩ := Option.ite_none_right_eq_some.mp hr
    cases heq
    have hpos : ∀ f ∈ v.refs, 0 < s.use_count f := fun f hf => held_pos h (hheld hf)
    apply goes_of_copies h hpos
    refine Prepared.of_vars hs ?_ rfl rfl (Or.inr rfl)
    apply HeapOk.setVars h hs ho (h.copies hpos).2 (Nat.le_refl _) rfl rfl
    rw [List.append_nil, List.append_nil]
    exact perm_concat _ v
  | newFiber captured =>
    obtain ⟨hheld, heq⟩ := Option.ite_none_right_eq_some.mp hr
    cases heq
    have hpos : ∀ f ∈ captured, 0 < s.use_count f := fun f hf => held_pos h (hheld hf)
    apply goes_of_copies h hpos
    have hcopied := (h.copies hpos).2
    have hs₁ : FibersOk { s with use_count := fun f => s.use_count f + captured.count f } :=
      hs.congr rfl fun f => ⟨_, _, rfl⟩
    have hnew := hcopied.newFiber (x := taskFiber captured) rfl rfl rfl rfl
    have hs₂ := hcopied.newFiber_fibersOk hs₁ (FiberOk.task captured)
    have hsame : ∀ f, o = some f → f ≠ s.created :=
      fun f hf => Nat.ne_of_lt (Acts.lt_created h hs ho hf)
    refine ⟨?_, fibersOk_setVars hs₂ rfl rfl, fun hne => absurd rfl hne⟩
    apply HeapOk.setVars h hs ho hnew (Nat.le_succ _)
    · cases o with
      | none => rfl
      | some f => exact congrArg OwnedFiber.refs (Function.update_of_ne (hsame f rfl) _ _)
    · cases o with
      | none => rfl
      | some f =>
        exact congrArg (fun x : OwnedFiber => x.cur.toList)
          (Function.update_of_ne (hsame f rfl) _ _)
    · rw [List.append_nil]
      exact perm_concat (s.vars o) (.fiber s.created)
  | reset f captured =>
    obtain ⟨⟨hf, hheld⟩, hr⟩ := Option.ite_none_right_eq_some.mp hr
    have hpos : ∀ f ∈ captured, 0 < s.use_count f := fun f hf => held_pos h (hheld hf)
    split at hr
    case isTrue =>
      cases hr
      exact rfl
    case isFalse hterm =>
      split at hr
      case isTrue =>
        cases hr
        exact rfl
      case isFalse hsaved =>
        obtain ⟨hstack, hstate⟩ := not_not.mp hterm
        obtain ⟨hcb, _, hcur⟩ := (hs.fibers f).term hstack hstate
        cases hr
        apply goes_of_copies h hpos
        have hlt := ((h.live f).mp (held_pos h hf)).1
        have hout : ∀ m, (s.worker m).pc.fiber ≠ some f := by
          intro m hm
          have hunsaved := (hs.workers m f hm).2.unsaved hm
          rw [not_not.mp hsaved] at hunsaved
          cases hunsaved
        have hs₁ : FibersOk { s with use_count := fun f => s.use_count f + captured.count f } :=
          hs.congr rfl fun f => ⟨_, _, rfl⟩
        have hx : FiberOk f { s.fiber f with
            m_cb := some captured, entered := false, m_state := .READY } := by
          refine ⟨fun _ he => (by cases he), fun _ he => (by cases he), fun _ => hcur,
            fun he => ?_⟩
          rw [show (s.fiber f).m_stack = false from he] at hstack
          cases hstack
        refine ⟨?_, hs₁.fiber rfl rfl hx hout, fun hne => absurd (by rw [hcb]; rfl) hne⟩
        have hold : (s.fiber f).m_cb.getD [] ++ (captured ++ []) = captured ++ [] := by
          rw [hcb]
          rfl
        rw [hcb]
        exact (h.copies hpos).2.setFiber (x := { s.fiber f with
          m_cb := some captured, entered := false, m_state := .READY }) hlt rfl
          (List.Perm.refl _) (List.Perm.of_eq hold)
  | forget n =>
    obtain ⟨v, hv, rfl⟩ := Option.map_eq_some_iff.mp hr
    refine Prepared.of_vars hs ?_ rfl rfl (Or.inl rfl)
    apply HeapOk.setVars h hs ho h (Nat.le_refl _) rfl rfl
    rw [List.append_nil]
    exact flatMap_eraseIdx hv
  | add_task n =>
    obtain ⟨v, hv, rfl⟩ := Option.map_eq_some_iff.mp hr
    apply goes_of_copies h (hvar hv)
    exact Prepared.of_heap hs (store_spec h (hvar hv) ⟨rfl, rfl, rfl, fun _ => rfl⟩ (by simp) rfl
      (refs_queue _)) rfl rfl (Or.inr rfl)
  | add_timer n =>
    obtain ⟨v, hv, rfl⟩ := Option.map_eq_some_iff.mp hr
    apply goes_of_copies h (hvar hv)
    exact Prepared.of_heap hs (store_spec h (hvar hv) ⟨rfl, rfl, rfl, fun _ => rfl⟩ (by simp) rfl
      (refs_timers _)) rfl rfl (Or.inr rfl)
  | cancel n =>
    obtain ⟨v, hv, rfl⟩ := Option.map_eq_some_iff.mp hr
    exact Prepared.of_heap hs (remove_spec h hv ⟨rfl, rfl, rfl, fun _ => rfl⟩ (by simp) rfl
      (refs_timers _)) rfl rfl (Or.inl rfl)
  | expire n recurring =>
    obtain ⟨v, hv, rfl⟩ := Option.map_eq_some_iff.mp hr
    have hpos : ∀ f ∈ v.refs, 0 < s.use_count f :=
      fun f hf => h.pos (mem_refs_of_timer hv hf)
    cases recurring with
    | true =>
      apply goes_of_copies h hpos
      refine Prepared.of_vars hs ?_ rfl rfl (Or.inr rfl)
      apply HeapOk.setVars h hs ho (h.copies hpos).2 (Nat.le_refl _) rfl rfl
      rw [List.append_nil, List.append_nil]
      exact perm_concat _ v
    | false =>
      have hout : HeapOk { s with timers := s.timers.eraseIdx n } v.refs :=
        remove_spec h hv ⟨rfl, rfl, rfl, fun _ => rfl⟩ (by simp) rfl (refs_timers _)
      refine Prepared.of_vars hs ?_ rfl rfl (Or.inr rfl)
      apply HeapOk.setVars h hs ho hout (Nat.le_refl _)
      · cases o <;> rfl
      · cases o <;> rfl
      · rw [List.append_nil]
        exact perm_concat _ v
  | addEvent cb =>
    cases cb with
    | some n =>
      obtain ⟨v, hv, rfl⟩ := Option.map_eq_some_iff.mp hr
      apply goes_of_copies h (hvar hv)
      exact Prepared.of_heap hs (store_spec h (hvar hv) ⟨rfl, rfl, rfl, fun _ => rfl⟩ (by simp)
        rfl (refs_events _)) rfl rfl (Or.inr rfl)
    | none =>
      obtain ⟨f, hf, rfl⟩ := Option.map_eq_some_iff.mp hr
      obtain ⟨l, hl⟩ := ho f hf
      have hpc : (s.worker l).pc.fiber = some f := by rw [hl]; rfl
      have hex := (hs.workers l f hpc).2
      rw [hl] at hex
      rw [if_pos hex.2.2.2]
      have hpos : ∀ g ∈ (Owner.fiber f).refs, 0 < s.use_count g := by
        intro g hg
        rw [List.mem_singleton.mp hg]
        exact h.pos (hs.executing hpc)
      apply goes_of_copies h hpos
      exact Prepared.of_heap hs (store_spec h hpos ⟨rfl, rfl, rfl, fun _ => rfl⟩ (by simp)
        rfl (refs_events _)) rfl rfl (Or.inr rfl)
  | delEvent n =>
    obtain ⟨v, hv, rfl⟩ := Option.map_eq_some_iff.mp hr
    exact Prepared.of_heap hs (remove_spec h hv ⟨rfl, rfl, rfl, fun _ => rfl⟩ (by simp) rfl
      (refs_events _)) rfl rfl (Or.inl rfl)
  | triggerEvent n =>
    obtain ⟨v, hv, rfl⟩ := Option.map_eq_some_iff.mp hr
    have hout : HeapOk { s with events := s.events.eraseIdx n } v.refs :=
      remove_spec h hv ⟨rfl, rfl, rfl, fun _ => rfl⟩ (by simp) rfl (refs_events _)
    have hrefs := refs_queue (s := { s with events := s.events.eraseIdx n }) (s._queue ++ [v])
    refine Prepared.of_heap hs ?_ rfl rfl (Or.inr rfl)
    refine hout.exchange (k := .queue) ?_ hrefs (by simp) ?_
    · exact ⟨rfl, rfl, rfl, fun _ => rfl⟩
    rw [List.append_nil]
    exact perm_concat _ v

end Operations

section Run

variable [DecidableEq τ] {pc : RunPc}

theorem HeapOk.setThread (h : s.HeapOk temps)
    (hp : ((s.worker l).refs ++ temps).Perm (w.refs ++ temps')) : (s.setThread l w).HeapOk temps' :=
  h.exchange ⟨rfl, rfl, rfl, fun _ => rfl⟩ refs_setThread (by simp) hp

theorem HeapOk.setPc (h : s.HeapOk temps) : (s.setPc l pc).HeapOk temps :=
  h.setThread (List.Perm.refl _)

theorem varsOk_of_pc (hout : w.pc ≠ .outside) (hscan : w.pc ≠ .scan) (hcall : w.pc ≠ .call) :
    VarsOk w :=
  ⟨fun hpc => absurd hpc hout, fun hpc => absurd hpc hscan, fun hpc => absurd hpc hcall⟩

theorem begin_spec (h : s.HeapOk []) (hs : s.FibersOk) (hpc : (s.worker l).pc = .outside) :
    Prepared s (s.begin_ l) [] := by
  have hstart : s.HeapOk ([] ++ []) := h
  have hmain : (s.newFiber mainFiber).HeapOk ([] ++ [s.created]) :=
    hstart.newFiber rfl rfl rfl rfl
  have hidle := hmain.newFiber (x := taskFiber []) rfl rfl rfl rfl
  have hsmain := h.newFiber_fibersOk hs FiberOk.main_
  have hsidle := hmain.newFiber_fibersOk hsmain (FiberOk.task [])
  refine ⟨?_, ?_, fun hne => absurd rfl hne⟩
  · apply hidle.setThread
    change ((s.worker l).refs ++ _).Perm _
    rw [(hs.vars l).outside hpc]
    exact List.Perm.swap _ _ _
  · exact hsidle.thread rfl rfl ⟨fun h => (by cases h), fun _ => ⟨rfl, rfl⟩,
      fun h => (by cases h)⟩ rfl

theorem resume_spec (h : s.HeapOk []) (hs : s.FibersOk) (hf : f ∈ (s.worker l).resumable) :
    Goes s ((s.resume l f).map fun s => (s, [])) := by
  have hmem : f ∈ s.refs (.thread l) := List.mem_append_right _ hf
  have halive := h.alive hmem
  unfold resume
  dsimp only
  rw [if_neg (by simp [halive])]
  split
  case isTrue => rfl
  case isFalse hready =>
    split
    case isTrue => rfl
    case isFalse hsaved =>
      rw [not_not] at hready hsaved
      have hstack : (s.fiber f).m_stack = true := by
        by_contra hstack
        have hrunning := ((hs.fibers f).main (Bool.eq_false_iff.mpr hstack)).2
        rw [hready] at hrunning
        cases hrunning
      have hother : ∀ m, m ≠ l → (s.worker m).pc.fiber ≠ some f := by
        intro m _ hm
        have hunsaved := (hs.workers m f hm).2.unsaved hm
        rw [hsaved] at hunsaved
        cases hunsaved
      have hx : FiberOk f { s.fiber f with m_state := .RUNNING, saved := false } := by
        refine ⟨fun hst he _ => ?_, fun _ ht => (by cases ht), (hs.fibers f).unentered,
          fun hst => ?_⟩
        · exact (hs.fibers f).self hst he (by rw [hready]; decide)
        · rw [show (s.fiber f).m_stack = false from hst] at hstack
          cases hstack
      refine ⟨?_, ?_, fun hne => absurd rfl hne⟩
      · have hset := h.setFiber (x := { s.fiber f with m_state := .RUNNING, saved := false })
          (h.lt_created hmem) rfl (List.Perm.refl _) (List.Perm.refl _)
        exact hset.setPc
      · refine hs.move rfl rfl hx (varsOk_of_pc ?_ ?_ ?_) hother (Or.inr ⟨?_, hf, ?_⟩)
        all_goals
          dsimp only
          split <;> simp_all [RunPc.fiber, Executed]

theorem take_spec (h : s.HeapOk []) (hs : s.FibersOk) (hpc : (s.worker l).pc = .scan) {n : Nat}
    {v : Owner} (hv : s._queue[n]? = some v) : Goes s ((s.take l n v).map fun s => (s, [])) := by
  have hout : HeapOk { s with _queue := s._queue.eraseIdx n } v.refs :=
    remove_spec h hv ⟨rfl, rfl, rfl, fun _ => rfl⟩ (by simp) rfl (refs_queue _)
  obtain ⟨htask, hfiber⟩ := (hs.vars l).scan hpc
  have hgo : Prepared s (setThread { s with _queue := s._queue.eraseIdx n } l
      { s.worker l with pc := .call, task := some v }) [] := by
    refine ⟨?_, ?_, fun hne => absurd rfl hne⟩
    · apply hout.setThread
      simp [RunThread.refs, RunThread.resumable, htask, hfiber]
    · refine hs.thread rfl rfl ⟨fun hc => (by cases hc), fun hc => (by cases hc),
        fun _ _ => hfiber⟩ rfl
  cases v with
  | cb captured => exact hgo
  | fiber f =>
    have hmem : f ∈ s.refs .queue :=
      List.mem_flatMap.mpr ⟨_, List.mem_of_getElem? hv, List.mem_singleton_self f⟩
    unfold take
    dsimp only
    rw [if_neg (by simp [h.alive hmem])]
    split
    · rfl
    · exact hgo

theorem scan_spec (h : s.HeapOk []) (hs : s.FibersOk) (hpc : (s.worker l).pc = .scan)
    {n : Option Nat} {r : Except OwnerFault (FiberHeap τ × List FiberId)}
    (hr : s.scan l n = some r) : Goes s r := by
  cases n with
  | some n =>
    obtain ⟨v, hv, rfl⟩ := Option.map_eq_some_iff.mp hr
    exact take_spec h hs hpc hv
  | none =>
    obtain ⟨f, hf, rfl⟩ := Option.map_eq_some_iff.mp hr
    split
    · refine ⟨?_, hs.thread rfl rfl ?_ rfl, fun _ => ⟨rfl, fun _ => ⟨rfl, rfl⟩⟩⟩
      · apply h.setThread
        rw [List.append_nil]
        exact List.perm_append_comm
      · exact varsOk_of_pc (by simp) (by simp) (by simp)
    · apply resume_spec h hs
      simp [RunThread.resumable, hf]

theorem wrap_spec (h : s.HeapOk []) (hs : s.FibersOk) (hpc : (s.worker l).pc = .call)
    {captured : List FiberId} (htask : (s.worker l).task = some (.cb captured)) :
    (s.wrap l captured).HeapOk [] ∧ (s.wrap l captured).FibersOk := by
  have hfiber := (hs.vars l).call hpc (by simp [htask])
  constructor
  · have hout : (s.setThread l { s.worker l with task := none }).HeapOk (captured ++ []) :=
      h.setThread (by simp [RunThread.refs, RunThread.resumable, Owner.refs, htask, hfiber])
    have hnew := hout.newFiber (x := taskFiber captured) rfl rfl rfl rfl
    have hin : (((s.setThread l { s.worker l with task := none }).newFiber
        (taskFiber captured)).setThread l { s.worker l with
          task := none, taskFiber := some s.created }).HeapOk [] := by
      apply hnew.setThread
      simp [RunThread.refs, RunThread.resumable, FiberHeap.setThread, FiberHeap.newFiber,
        setFiber, hfiber]
    have hsame : ((s.setThread l { s.worker l with task := none }).newFiber
        (taskFiber captured)).setThread l { s.worker l with
          task := none, taskFiber := some s.created } = s.wrap l captured := by
      unfold wrap FiberHeap.setThread FiberHeap.newFiber setFiber
      simp
    exact hsame ▸ hin
  · have hs' := h.newFiber_fibersOk hs (FiberOk.task captured)
    refine hs'.thread rfl rfl ⟨fun hc => ?_, fun hc => ?_, fun _ hc => absurd rfl hc⟩ ?_
    · exact absurd (hpc.symm.trans hc) (by simp)
    · exact absurd (hpc.symm.trans hc) (by simp)
    · change (s.worker l).pc.fiber = none
      rw [hpc]
      rfl

theorem call_spec (h : s.HeapOk []) (hs : s.FibersOk) (hpc : (s.worker l).pc = .call)
    {r : Except OwnerFault (FiberHeap τ × List FiberId)} (hr : s.call l = some r) : Goes s r := by
  obtain ⟨v, hv, rfl⟩ := Option.map_eq_some_iff.mp hr
  cases v with
  | fiber f =>
    apply resume_spec h hs
    simp [RunThread.resumable, hv, Owner.refs]
  | cb captured =>
    obtain ⟨hheap, hfibers⟩ := wrap_spec h hs hpc hv
    have hgo : Goes (s.wrap l captured)
        (((s.wrap l captured).resume l s.created).map fun s => (s, [])) := by
      apply resume_spec hheap hfibers
      simp [RunThread.resumable, wrap, FiberHeap.setThread]
    dsimp only
    cases hresume : (s.wrap l captured).resume l s.created with
    | error e =>
      rw [hresume] at hgo
      exact hgo
    | ok s' =>
      rw [hresume] at hgo
      exact ⟨hgo.heap, hgo.fibers, fun hne => absurd rfl hne⟩

theorem enter_spec (h : s.HeapOk []) (hs : s.FibersOk) (hpc : (s.worker l).pc = .enter f) :
    Goes s ((s.enter l f).map fun s => (s, [])) := by
  have hfiber : (s.worker l).pc.fiber = some f := by rw [hpc]; rfl
  have hmem := hs.executing hfiber
  obtain ⟨hheld, hex⟩ := hs.workers l f hfiber
  rw [hpc] at hex
  obtain ⟨hstack, hsaved, hentered, hstate⟩ := hex
  have hcur := (hs.fibers f).unentered hentered
  have hpos : ∀ g ∈ [f], 0 < s.use_count g := by
    intro g hg
    rw [List.mem_singleton.mp hg]
    exact h.pos hmem
  obtain ⟨hcopies, hcopied⟩ := h.copies hpos
  unfold enter
  rw [hcopies]
  refine ⟨?_, ?_, fun hne => absurd rfl hne⟩
  · have hput : ((s.fiber f).refs ++ ([f] ++ [])).Perm
        (OwnedFiber.refs { s.fiber f with entered := true, cur := some f } ++ []) := by
      simp [OwnedFiber.refs, hcur]
    have hset := hcopied.setFiber (x := { s.fiber f with entered := true, cur := some f })
      (h.lt_created hmem) rfl hput (List.Perm.refl _)
    exact hset.setPc
  · have hs₁ : FibersOk { s with use_count := fun g => s.use_count g + [f].count g } :=
      hs.congr rfl fun f => ⟨_, _, rfl⟩
    have hx : FiberOk f { s.fiber f with entered := true, cur := some f } := by
      refine ⟨fun _ _ _ => rfl, fun _ ht => ?_, fun he => (by cases he), fun hst => ?_⟩
      · exact absurd (hstate.symm.trans ht) (by decide)
      · exact absurd (hstack.symm.trans hst) (by decide)
    refine hs₁.move rfl rfl hx (varsOk_of_pc (by simp) (by simp) (by simp)) ?_
      (Or.inr ⟨rfl, hheld, hstack, hsaved, rfl, hstate⟩)
    intro m hm hfm
    exact hm (hs.unique m l f hfm hfiber)

theorem yield_spec (h : s.HeapOk []) (hs : s.FibersOk) (hpc : (s.worker l).pc = .on f) :
    Goes s ((s.yield l f).map fun s => (s, [])) := by
  have hfiber : (s.worker l).pc.fiber = some f := by rw [hpc]; rfl
  obtain ⟨hheld, hex⟩ := hs.workers l f hfiber
  rw [hpc] at hex
  obtain ⟨hstack, hsaved, hentered, hstate⟩ := hex
  have hcur := (hs.fibers f).self hstack hentered (by rw [hstate]; decide)
  unfold yield
  dsimp only
  rw [if_pos (Or.inl hstate), hstate, if_pos (by decide)]
  refine ⟨?_, ?_, fun hne => absurd rfl hne⟩
  · have hset := h.setFiber (x := { s.fiber f with m_state := .READY })
      (h.lt_created (hs.executing hfiber)) rfl (List.Perm.refl _) (List.Perm.refl _)
    exact hset.setPc
  · have hx : FiberOk f { s.fiber f with m_state := .READY } := by
      refine ⟨fun _ _ _ => hcur, fun _ ht => (by cases ht), (hs.fibers f).unentered, fun hst => ?_⟩
      exact absurd (hstack.symm.trans hst) (by decide)
    refine hs.move rfl rfl hx (varsOk_of_pc (by simp) (by simp) (by simp)) ?_
      (Or.inr ⟨rfl, hheld, hstack, hsaved⟩)
    intro m hm hfm
    exact hm (hs.unique m l f hfm hfiber)

theorem finish_spec (h : s.HeapOk []) (hs : s.FibersOk) (hpc : (s.worker l).pc = .on f)
    (hvars : (s.fiber f).vars = []) :
    Prepared s (s.finish l f).1 (s.finish l f).2 := by
  have hfiber : (s.worker l).pc.fiber = some f := by rw [hpc]; rfl
  obtain ⟨hheld, hex⟩ := hs.workers l f hfiber
  rw [hpc] at hex
  obtain ⟨hstack, hsaved, hentered, hstate⟩ := hex
  refine ⟨?_, ?_, fun _ => ⟨rfl, fun g => ?_⟩⟩
  · have htake : ((s.fiber f).refs ++ []).Perm (OwnedFiber.refs { s.fiber f with
        m_cb := none, m_state := .TERM, cur := none } ++ (s.fiber f).cur.toList) := by
      simp [OwnedFiber.refs, hvars]
    have hset := h.setFiber (x := { s.fiber f with m_cb := none, m_state := .TERM, cur := none })
      (h.lt_created (hs.executing hfiber)) rfl htake (List.Perm.refl _)
    exact hset.setPc
  · have hx : FiberOk f { s.fiber f with m_cb := none, m_state := .TERM, cur := none } := by
      refine ⟨fun _ _ ht => absurd rfl ht, fun _ _ => ⟨rfl, hentered, rfl⟩, fun _ => rfl,
        fun hst => ?_⟩
      exact absurd (hstack.symm.trans hst) (by decide)
    refine hs.move rfl rfl hx (varsOk_of_pc (by simp) (by simp) (by simp)) ?_
      (Or.inr ⟨rfl, hheld, hstack, hsaved⟩)
    intro m hm hfm
    exact hm (hs.unique m l f hfm hfiber)
  · by_cases hg : g = f
    · subst g
      simp [finish, setPc, FiberHeap.setThread, FiberHeap.setFiber]
    · simp [finish, setPc, FiberHeap.setThread, FiberHeap.setFiber, hg]

theorem swap_spec (h : s.HeapOk []) (hs : s.FibersOk) (hpc : (s.worker l).pc = .leaving f) :
    Prepared s ((s.setFiber f { s.fiber f with saved := true }).setPc l .back) [] := by
  have hfiber : (s.worker l).pc.fiber = some f := by rw [hpc]; rfl
  refine ⟨?_, ?_, fun hne => absurd rfl hne⟩
  · have hset := h.setFiber (x := { s.fiber f with saved := true })
      (h.lt_created (hs.executing hfiber)) rfl (List.Perm.refl _) (List.Perm.refl _)
    exact hset.setPc
  · refine hs.move rfl rfl ((hs.fibers f).congr rfl rfl rfl rfl rfl)
      (varsOk_of_pc (by simp) (by simp) (by simp)) ?_ (Or.inl rfl)
    intro m hm hfm
    exact hm (hs.unique m l f hfm hfiber)

theorem back_spec (h : s.HeapOk []) (hs : s.FibersOk) :
    Prepared s (s.back l).1 (s.back l).2 := by
  refine ⟨?_, hs.thread rfl rfl ?_ rfl, fun _ => ⟨rfl, fun _ => ⟨rfl, rfl⟩⟩⟩
  · apply h.setThread
    simp [back, RunThread.refs, RunThread.resumable, List.append_assoc]
  · exact ⟨fun hc => (by cases hc), fun _ => ⟨rfl, rfl⟩, fun hc => (by cases hc)⟩

/-- Every step gets to its drops, or a check on the use of a fiber fails. -/
theorem perform_spec (h : s.HeapOk []) (hs : s.FibersOk) (a : Act τ)
    {r : Except OwnerFault (FiberHeap τ × List FiberId)} (hr : s.perform a = some r) :
    Goes s r := by
  cases a with
  | begin_ l =>
    obtain ⟨hpc, heq⟩ := Option.ite_none_right_eq_some.mp hr
    cases heq
    exact begin_spec h hs hpc
  | scan l n =>
    obtain ⟨hpc, hr⟩ := Option.ite_none_right_eq_some.mp hr
    exact scan_spec h hs hpc hr
  | call l =>
    obtain ⟨hpc, hr⟩ := Option.ite_none_right_eq_some.mp hr
    exact call_spec h hs hpc hr
  | enter l =>
    simp only [perform] at hr
    split at hr <;> cases hr
    rename_i f hpc
    exact enter_spec h hs hpc
  | operate who op =>
    obtain ⟨o, ho, hr⟩ := Option.bind_eq_some_iff.mp hr
    refine operate_spec h hs ?_ op hr
    intro f hf
    subst o
    cases who with
    | none => cases ho
    | some l =>
      simp only [actor] at ho
      split at ho <;> cases ho
      rename_i hpc
      exact ⟨l, hpc⟩
  | yield l =>
    simp only [perform] at hr
    split at hr <;> cases hr
    rename_i f hpc
    exact yield_spec h hs hpc
  | finish l =>
    simp only [perform] at hr
    split at hr
    case h_1 f hpc =>
      obtain ⟨hvars, heq⟩ := Option.ite_none_right_eq_some.mp hr
      cases heq
      exact finish_spec h hs hpc hvars
    case h_2 => cases hr
  | swap l =>
    simp only [perform] at hr
    split at hr <;> cases hr
    rename_i f hpc
    exact swap_spec h hs hpc
  | back l =>
    obtain ⟨_, heq⟩ := Option.ite_none_right_eq_some.mp hr
    cases heq
    exact back_spec h hs

end Run

end FiberHeap

end FiberAsync
