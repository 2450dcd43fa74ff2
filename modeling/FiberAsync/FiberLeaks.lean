import FiberAsync.FiberDestruction
import Mathlib.Data.Set.Basic

/-!
# Fibers that nothing can wake

A suspended fiber holds itself through `cur`. When the other pointers to it are
gone, or are on the stacks and in the callbacks of fibers in the same situation,
no thread can get at it any more: it is not resumed, it does not finish, and its
stack is never freed.
-/

namespace FiberAsync

set_option autoImplicit false

open Runs Ownership Results

namespace FiberHeap

variable {τ : Type} {s s' t : FiberHeap τ} {l m : τ} {f g : FiberId} {G : Set FiberId}
  {o : Option FiberId} {k : Place τ} {x : OwnedFiber} {w : RunThread}

/-- The place belongs to a fiber of the set. -/
def Place.Inside (G : Set FiberId) : Place τ → Prop
  | .stack f | .callback f => f ∈ G
  | _ => False

/-- Only fibers of the set refer to fibers of the set, and no thread executes one. -/
structure Stranded (G : Set FiberId) (s : FiberHeap τ) : Prop where
  made : ∀ f ∈ G, f < s.created
  refs : ∀ k f, f ∈ G → f ∈ s.refs k → Place.Inside G k
  still : ∀ l f, (s.worker l).pc.fiber = some f → f ∉ G

/-- The fibers of the set are untouched, and no new reference to them has appeared. -/
structure Apart (G : Set FiberId) (s s' : FiberHeap τ) : Prop where
  fiber : ∀ f ∈ G, s'.fiber f = s.fiber f
  refs : ∀ k f, f ∈ G → f ∈ s'.refs k → f ∈ s.refs k
  still : ∀ l f, (s'.worker l).pc.fiber = some f → f ∉ G
  created : s.created ≤ s'.created

theorem Apart.stranded (h : Apart G s s') (hs : Stranded G s) : Stranded G s' where
  made f hf := Nat.lt_of_lt_of_le (hs.made f hf) h.created
  refs k f hf hmem := hs.refs k f hf (h.refs k f hf hmem)
  still := h.still

theorem Apart.trans (h : Apart G s s') (h' : Apart G s' t) : Apart G s t where
  fiber f hf := (h'.fiber f hf).trans (h.fiber f hf)
  refs k f hf hmem := h.refs k f hf (h'.refs k f hf hmem)
  still := h'.still
  created := h.created.trans h'.created

namespace Stranded

theorem not_mem (h : Stranded G s) (hk : ¬ Place.Inside G k) (hf : f ∈ s.refs k) : f ∉ G :=
  fun hG => hk (h.refs k f hG hf)

/-- What code outside the set can copy is not in the set. -/
theorem held (h : Stranded G s) (ho : ∀ g, o = some g → g ∉ G) (hf : f ∈ s.held o) : f ∉ G := by
  cases o with
  | none => exact h.not_mem (k := .outside) (fun hin => hin) hf
  | some g =>
    have hg := ho g rfl
    rcases List.mem_append.mp hf with hf | hf
    · exact h.not_mem (k := .stack g) hg hf
    · exact h.not_mem (k := .callback g) hg hf

theorem thread (h : Stranded G s) (hf : f ∈ (s.worker l).refs) : f ∉ G :=
  h.not_mem (k := .thread l) (fun hin => hin) hf

theorem apart_rfl (h : Stranded G s) (hf : s'.fiber = s.fiber) (hr : s'.refs = s.refs)
    (hw : s'.worker = s.worker) (hc : s'.created = s.created) : Apart G s s' := by
  refine ⟨fun f _ => congrFun hf f, fun k f _ hmem => hr ▸ hmem, ?_, Nat.le_of_eq hc.symm⟩
  rw [hw]
  exact h.still

/-- The references in one place change, by ones that are not to the set. -/
theorem place [DecidableEq τ] (h : Stranded G s) {rs : List FiberId} (hf : s'.fiber = s.fiber)
    (hr : s'.refs = Function.update s.refs k rs) (hw : s'.worker = s.worker)
    (hc : s'.created = s.created) (hrs : ∀ f ∈ rs, f ∈ s.refs k ∨ f ∉ G) : Apart G s s' := by
  refine ⟨fun f _ => congrFun hf f, fun j f hG hmem => ?_, hw ▸ h.still, Nat.le_of_eq hc.symm⟩
  rw [hr] at hmem
  by_cases hj : j = k
  · subst j
    rw [Function.update_self] at hmem
    exact (hrs f hmem).resolve_right (fun hn => hn hG)
  · rw [Function.update_of_ne hj] at hmem
    exact hmem

/-- A fiber outside the set changes. -/
theorem setFiber [DecidableEq τ] (h : Stranded G s) (hg : g ∉ G)
    (hx : ∀ f ∈ x.refs ++ x.m_cb.getD [], f ∈ s.held (some g) ∨ f ∉ G) :
    Apart G s (s.setFiber g x) := by
  have hout : ∀ f ∈ x.refs ++ x.m_cb.getD [], f ∉ G := by
    intro f hf
    rcases hx f hf with hheld | hnot
    · exact h.held (fun _ heq => Option.some.inj heq ▸ hg) hheld
    · exact hnot
  refine ⟨fun f hf => ?_, fun k f hG hmem => ?_, h.still, Nat.le_refl _⟩
  · have hne : f ≠ g := fun heq => hg (heq ▸ hf)
    exact Function.update_of_ne hne _ _
  · rw [refs_setFiber] at hmem
    by_cases hcb : k = .callback g
    · subst k
      rw [Function.update_self] at hmem
      exact absurd hG (hout f (List.mem_append_right _ hmem))
    · rw [Function.update_of_ne hcb] at hmem
      by_cases hst : k = .stack g
      · subst k
        rw [Function.update_self] at hmem
        exact absurd hG (hout f (List.mem_append_left _ hmem))
      · rw [Function.update_of_ne hst] at hmem
        exact hmem

theorem setThread [DecidableEq τ] (h : Stranded G s) (hrefs : ∀ f ∈ w.refs, f ∉ G)
    (hpc : ∀ f, w.pc.fiber = some f → f ∉ G) : Apart G s (s.setThread l w) := by
  refine ⟨fun _ _ => rfl, fun k f hG hmem => ?_, fun m f hm => ?_, Nat.le_refl _⟩
  · rw [refs_setThread] at hmem
    by_cases hk : k = .thread l
    · subst k
      rw [Function.update_self] at hmem
      exact absurd hG (hrefs f hmem)
    · rw [Function.update_of_ne hk] at hmem
      exact hmem
  · by_cases hml : m = l
    · subst m
      exact hpc f (by simpa [FiberHeap.setThread] using hm)
    · exact h.still m f (by simpa [FiberHeap.setThread, hml] using hm)

theorem newFiber [DecidableEq τ] (h : Stranded G s)
    (hx : ∀ f ∈ x.refs ++ x.m_cb.getD [], f ∉ G) : Apart G s (s.newFiber x) := by
  have hnew : s.created ∉ G := fun hin => Nat.lt_irrefl _ (h.made _ hin)
  have hset := h.setFiber (x := x) hnew fun f hf => Or.inr (hx f hf)
  exact ⟨hset.fiber, hset.refs, hset.still, Nat.le_succ _⟩

theorem setVars [DecidableEq τ] (h : Stranded G s) (ho : ∀ g, o = some g → g ∉ G)
    {vs : List Owner} (hvs : ∀ f ∈ vs.flatMap Owner.refs, f ∉ G) : Apart G s (s.setVars vs o) := by
  cases o with
  | none =>
    have hrefs : (s.setVars vs none).refs =
        Function.update s.refs .outside (vs.flatMap Owner.refs) := refs_setVars (o := none) vs
    refine h.place ?_ hrefs ?_ ?_ fun f hf => Or.inr (hvs f hf)
    all_goals rfl
  | some g =>
    apply h.setFiber (ho g rfl)
    intro f hf
    rcases List.mem_append.mp hf with hf | hf
    · rcases List.mem_append.mp hf with hf | hf
      · exact Or.inl (List.mem_append_left _ (List.mem_append_left _ hf))
      · exact Or.inr (hvs f hf)
    · exact Or.inl (List.mem_append_right _ hf)

theorem vars_not_mem (h : Stranded G s) (ho : ∀ g, o = some g → g ∉ G)
    (hf : f ∈ (s.vars o).flatMap Owner.refs) : f ∉ G := by
  have hmem : f ∈ s.refs (varsPlace o) := by
    rw [refs_varsPlace]
    exact List.mem_append_right _ hf
  apply h.not_mem _ hmem
  cases o with
  | none => exact fun hin => hin
  | some g => exact ho g rfl

theorem mem_erase {vs : List Owner} {n : Nat} (hf : f ∈ (vs.eraseIdx n).flatMap Owner.refs) :
    f ∈ vs.flatMap Owner.refs := by
  obtain ⟨v, hv, hfv⟩ := List.mem_flatMap.mp hf
  exact List.mem_flatMap.mpr ⟨v, List.mem_of_mem_eraseIdx hv, hfv⟩

theorem mem_value {vs : List Owner} {n : Nat} {v : Owner} (hv : vs[n]? = some v)
    (hf : f ∈ v.refs) : f ∈ vs.flatMap Owner.refs :=
  List.mem_flatMap.mpr ⟨v, List.mem_of_getElem? hv, hf⟩

theorem mem_concat {vs : List Owner} {v : Owner} (hf : f ∈ (vs ++ [v]).flatMap Owner.refs) :
    f ∈ vs.flatMap Owner.refs ∨ f ∈ v.refs := by
  rw [List.flatMap_append, List.mem_append] at hf
  rcases hf with hf | hf
  · exact Or.inl hf
  · simp only [List.flatMap_cons, List.flatMap_nil, List.append_nil] at hf
    exact Or.inr hf

end Stranded

/-- The step leaves the set alone, up to its drops, which are not of fibers of the set. -/
def Spares (G : Set FiberId) (s : FiberHeap τ) :
    Except OwnerFault (FiberHeap τ × List FiberId) → Prop
  | .ok (s', l) => Apart G s s' ∧ ∀ f ∈ l, f ∉ G
  | .error _ => True

section Steps

theorem Stranded.copied {F : FiberId → Nat} (h : Stranded G s) :
    Stranded G { s with use_count := F } := ⟨h.made, h.refs, h.still⟩

theorem spares_of_copies {l : List FiberId} {F : FiberHeap τ → FiberHeap τ × List FiberId}
    (h : Stranded G s)
    (hgo : Spares G { s with use_count := fun f => s.use_count f + l.count f }
      (.ok (F { s with use_count := fun f => s.use_count f + l.count f }))) :
    Spares G s ((s.copies l).map F) := by
  unfold copies
  split
  · trivial
  · have hcopied : Apart G s { s with use_count := fun f => s.use_count f + l.count f } :=
      h.apart_rfl rfl rfl rfl rfl
    exact ⟨hcopied.trans hgo.1, hgo.2⟩

variable [DecidableEq τ]

theorem operate_spares (h : Stranded G s) (ho : ∀ g, o = some g → g ∉ G) (op : Op)
    {r : Except OwnerFault (FiberHeap τ × List FiberId)} (hr : s.operate o op = some r) :
    Spares G s r := by
  have hvar : ∀ {n : Nat} {v : Owner}, (s.vars o)[n]? = some v → ∀ f ∈ v.refs, f ∉ G :=
    fun hv f hf => h.vars_not_mem ho (Stranded.mem_value hv hf)
  have hconcat : ∀ {v : Owner}, (∀ f ∈ v.refs, f ∉ G) →
      ∀ f ∈ (s.vars o ++ [v]).flatMap Owner.refs, f ∉ G := by
    intro v hv f hf
    rcases Stranded.mem_concat hf with hf | hf
    · exact h.vars_not_mem ho hf
    · exact hv f hf
  -- a value that is not the set's is put into a place
  have hstore : ∀ (vs : List Owner) (k : Place τ) {v : Owner}, (∀ f ∈ v.refs, f ∉ G) →
      s.refs k = vs.flatMap Owner.refs →
      ∀ f ∈ (vs ++ [v]).flatMap Owner.refs, f ∈ s.refs k ∨ f ∉ G := by
    intro vs k v hv hk f hf
    rw [hk]
    exact (Stranded.mem_concat hf).imp_right fun hf => hv f hf
  cases op with
  | copy v =>
    obtain ⟨hheld, heq⟩ := Option.ite_none_right_eq_some.mp hr
    cases heq
    apply spares_of_copies h
    exact ⟨h.copied.setVars ho (hconcat fun f hf => h.held ho (hheld hf)), by simp⟩
  | newFiber captured =>
    obtain ⟨hheld, heq⟩ := Option.ite_none_right_eq_some.mp hr
    cases heq
    apply spares_of_copies h
    have hcopied : Stranded G { s with
        use_count := fun f => s.use_count f + captured.count f } := h.copied
    have hx : ∀ f ∈ (taskFiber captured).refs ++ (taskFiber captured).m_cb.getD [], f ∉ G :=
      fun f hf => h.held ho (hheld hf)
    have hnew := hcopied.newFiber hx
    refine ⟨hnew.trans ((hnew.stranded hcopied).setVars ho (hconcat ?_)), by simp⟩
    intro f hf
    rw [List.mem_singleton.mp hf]
    exact fun hin => Nat.lt_irrefl _ (h.made _ hin)
  | reset f captured =>
    obtain ⟨⟨hf, hheld⟩, hr⟩ := Option.ite_none_right_eq_some.mp hr
    split at hr
    · cases hr
      trivial
    · split at hr
      · cases hr
        trivial
      · cases hr
        apply spares_of_copies h
        have hfG := h.held ho hf
        refine ⟨h.copied.setFiber hfG fun g hg => ?_, fun g hg => ?_⟩
        · rcases List.mem_append.mp hg with hg | hg
          · exact Or.inl (List.mem_append_left _ hg)
          · exact Or.inr (h.held ho (hheld hg))
        · exact h.not_mem (k := .callback f) hfG hg
  | forget n =>
    obtain ⟨v, hv, rfl⟩ := Option.map_eq_some_iff.mp hr
    exact ⟨h.setVars ho fun f hf => h.vars_not_mem ho (Stranded.mem_erase hf), hvar hv⟩
  | add_task n =>
    obtain ⟨v, hv, rfl⟩ := Option.map_eq_some_iff.mp hr
    apply spares_of_copies h
    exact ⟨h.copied.place rfl (refs_queue _) rfl rfl
      (hstore s._queue .queue (hvar hv) rfl), by simp⟩
  | add_timer n =>
    obtain ⟨v, hv, rfl⟩ := Option.map_eq_some_iff.mp hr
    apply spares_of_copies h
    exact ⟨h.copied.place rfl (refs_timers _) rfl rfl
      (hstore s.timers .timers (hvar hv) rfl), by simp⟩
  | cancel n =>
    obtain ⟨v, hv, rfl⟩ := Option.map_eq_some_iff.mp hr
    refine ⟨h.place rfl (refs_timers _) rfl rfl fun f hf => Or.inl (Stranded.mem_erase hf), ?_⟩
    exact fun f hf => h.not_mem (k := .timers) (fun hin => hin) (Stranded.mem_value hv hf)
  | expire n recurring =>
    obtain ⟨v, hv, rfl⟩ := Option.map_eq_some_iff.mp hr
    have hout : ∀ f ∈ v.refs, f ∉ G :=
      fun f hf => h.not_mem (k := .timers) (fun hin => hin) (Stranded.mem_value hv hf)
    cases recurring with
    | true =>
      apply spares_of_copies h
      exact ⟨h.copied.setVars ho (hconcat hout), by simp⟩
    | false =>
      have herase : Apart G s { s with timers := s.timers.eraseIdx n } :=
        h.place rfl (refs_timers _) rfl rfl fun f hf => Or.inl (Stranded.mem_erase hf)
      exact ⟨herase.trans ((herase.stranded h).setVars ho (hconcat hout)), by simp⟩
  | addEvent cb =>
    cases cb with
    | some n =>
      obtain ⟨v, hv, rfl⟩ := Option.map_eq_some_iff.mp hr
      apply spares_of_copies h
      exact ⟨h.copied.place rfl (refs_events _) rfl rfl
      (hstore s.events .events (hvar hv) rfl), by simp⟩
    | none =>
      obtain ⟨f, hf, rfl⟩ := Option.map_eq_some_iff.mp hr
      split
      · apply spares_of_copies h
        refine ⟨h.copied.place rfl (refs_events _) rfl rfl (hstore s.events .events ?_ rfl),
          by simp⟩
        intro g hg
        rw [List.mem_singleton.mp hg]
        exact ho f hf
      · trivial
  | delEvent n =>
    obtain ⟨v, hv, rfl⟩ := Option.map_eq_some_iff.mp hr
    refine ⟨h.place rfl (refs_events _) rfl rfl fun f hf => Or.inl (Stranded.mem_erase hf), ?_⟩
    exact fun f hf => h.not_mem (k := .events) (fun hin => hin) (Stranded.mem_value hv hf)
  | triggerEvent n =>
    obtain ⟨v, hv, rfl⟩ := Option.map_eq_some_iff.mp hr
    have hout : ∀ f ∈ v.refs, f ∉ G :=
      fun f hf => h.not_mem (k := .events) (fun hin => hin) (Stranded.mem_value hv hf)
    have herase : Apart G s { s with events := s.events.eraseIdx n } :=
      h.place rfl (refs_events _) rfl rfl fun f hf => Or.inl (Stranded.mem_erase hf)
    have hrefs := refs_queue (s := { s with events := s.events.eraseIdx n }) (s._queue ++ [v])
    have hpush : Apart G { s with events := s.events.eraseIdx n }
        { s with events := s.events.eraseIdx n, _queue := s._queue ++ [v] } := by
      refine (herase.stranded h).place rfl hrefs rfl rfl ?_
      exact hstore s._queue .queue hout rfl
    exact ⟨herase.trans hpush, by simp⟩

theorem setPc_apart {pc : RunPc} (h : Stranded G s) (hpc : ∀ f, pc.fiber = some f → f ∉ G) :
    Apart G s (s.setPc l pc) := h.setThread (fun _ hf => h.thread hf) hpc

theorem resume_spares (h : Stranded G s) (hf : f ∈ (s.worker l).refs) :
    Spares G s ((s.resume l f).map fun s => (s, [])) := by
  have hout := h.thread hf
  unfold resume
  dsimp only
  split
  · trivial
  split
  · trivial
  split
  · trivial
  · have hset : Apart G s (s.setFiber f { s.fiber f with m_state := .RUNNING, saved := false }) :=
      h.setFiber hout fun g hg => Or.inl hg
    refine ⟨hset.trans (setPc_apart (hset.stranded h) fun g hg => ?_), by simp⟩
    split at hg <;> cases hg <;> exact hout

theorem take_spares (h : Stranded G s) {n : Nat} {v : Owner} (hv : s._queue[n]? = some v) :
    Spares G s ((s.take l n v).map fun s => (s, [])) := by
  have herase : Apart G s { s with _queue := s._queue.eraseIdx n } :=
    h.place rfl (refs_queue _) rfl rfl fun f hf => Or.inl (Stranded.mem_erase hf)
  have hgo : Apart G s (setThread { s with _queue := s._queue.eraseIdx n } l
      { s.worker l with pc := .call, task := some v }) := by
    refine herase.trans ((herase.stranded h).setThread (fun f hf => ?_) fun f hf => by cases hf)
    have hparts : f ∈ (s.worker l).refs ∨ f ∈ v.refs := by
      simp only [RunThread.refs, RunThread.resumable, Option.map_some, Option.getD_some,
        List.mem_append] at hf ⊢
      tauto
    rcases hparts with hf | hf
    · exact h.thread hf
    · exact h.not_mem (k := .queue) (fun hin => hin) (Stranded.mem_value hv hf)
  cases v with
  | cb captured => exact ⟨hgo, by simp⟩
  | fiber f =>
    unfold take
    dsimp only
    split
    · trivial
    split
    · trivial
    · exact ⟨hgo, by simp⟩

theorem wrap_apart (h : Stranded G s) {captured : List FiberId}
    (htask : (s.worker l).task = some (.cb captured)) : Apart G s (s.wrap l captured) := by
  have hcaptured : ∀ f ∈ captured, f ∉ G := by
    intro f hf
    apply h.thread (l := l)
    simp [RunThread.refs, RunThread.resumable, htask, Owner.refs, hf]
  have hx : ∀ f ∈ (taskFiber captured).refs ++ (taskFiber captured).m_cb.getD [], f ∉ G := hcaptured
  have hnew := h.newFiber hx
  refine hnew.trans ((hnew.stranded h).setThread (fun f hf => ?_) (h.still l))
  have hparts : f ∈ (s.worker l).refs ∨ f = s.created := by
    simp only [RunThread.refs, RunThread.resumable, List.mem_append] at hf ⊢
    simp only [Option.map_none, Option.getD_none, List.not_mem_nil, Option.toList_some,
      List.mem_singleton] at hf
    tauto
  rcases hparts with hf | rfl
  · exact h.thread hf
  · exact fun hin => Nat.lt_irrefl _ (h.made _ hin)

theorem perform_spares (h : Stranded G s) (a : Act τ)
    {r : Except OwnerFault (FiberHeap τ × List FiberId)} (hr : s.perform a = some r) :
    Spares G s r := by
  have hon : ∀ {l f}, (s.worker l).pc.fiber = some f → f ∉ G := fun hpc => h.still _ _ hpc
  cases a with
  | begin_ l =>
    obtain ⟨_, heq⟩ := Option.ite_none_right_eq_some.mp hr
    cases heq
    have hmain := h.newFiber (x := mainFiber) (by simp [mainFiber, OwnedFiber.refs])
    have hidle := (hmain.stranded h).newFiber (x := taskFiber [])
      (by simp [taskFiber, OwnedFiber.refs])
    have hboth := hmain.trans hidle
    refine ⟨hboth.trans ((hboth.stranded h).setThread (fun f hf => ?_) fun f hf => by cases hf),
      by simp⟩
    have hnew : s.created ≤ f := by
      simp [RunThread.refs, RunThread.resumable] at hf
      rcases hf with rfl | rfl
      · exact Nat.le_refl _
      · exact Nat.le_succ _
    exact fun hin => Nat.not_lt.mpr hnew (h.made _ hin)
  | scan l n =>
    obtain ⟨_, hr⟩ := Option.ite_none_right_eq_some.mp hr
    cases n with
    | some n =>
      obtain ⟨v, hv, rfl⟩ := Option.map_eq_some_iff.mp hr
      exact take_spares h hv
    | none =>
      obtain ⟨f, hf, rfl⟩ := Option.map_eq_some_iff.mp hr
      split
      · constructor
        · apply h.setThread (by simp [RunThread.refs, RunThread.resumable])
          exact fun f hf => by cases hf
        · exact fun g hg => h.thread (l := l) (List.perm_append_comm.mem_iff.mp hg)
      · apply resume_spares h
        simp [RunThread.refs, RunThread.resumable, hf]
  | call l =>
    obtain ⟨_, hr⟩ := Option.ite_none_right_eq_some.mp hr
    obtain ⟨v, hv, rfl⟩ := Option.map_eq_some_iff.mp hr
    cases v with
    | fiber f =>
      apply resume_spares h
      simp [RunThread.refs, RunThread.resumable, hv, Owner.refs]
    | cb captured =>
      have hwrap := wrap_apart h hv
      have hgo := resume_spares (l := l) (f := s.created) (hwrap.stranded h)
        (by simp [RunThread.refs, RunThread.resumable, wrap, setThread])
      dsimp only
      cases hresume : (s.wrap l captured).resume l s.created with
      | error e => trivial
      | ok s' =>
        rw [hresume] at hgo
        exact ⟨hwrap.trans hgo.1, hgo.2⟩
  | enter l =>
    simp only [perform] at hr
    split at hr <;> cases hr
    rename_i f hpc
    have hf := hon (l := l) (f := f) (by rw [hpc]; rfl)
    have hmap : ((s.enter l f).map fun s => (s, ([] : List FiberId))) = (s.copies [f]).map fun s =>
        ((s.setFiber f { s.fiber f with entered := true, cur := some f }).setPc l (.on f), []) := by
      unfold enter
      cases s.copies [f] <;> rfl
    rw [hmap]
    apply spares_of_copies h
    have hset := (h.copied (F := fun g => s.use_count g + [f].count g)).setFiber (g := f)
      (x := { s.fiber f with entered := true, cur := some f }) hf fun g hg => by
        simp only [OwnedFiber.refs, List.mem_append, Option.toList_some, List.mem_singleton] at hg
        rcases hg with (rfl | hg) | hg
        · exact Or.inr hf
        · exact Or.inl (List.mem_append_left _ (List.mem_append_right _ hg))
        · exact Or.inl (List.mem_append_right _ hg)
    exact ⟨hset.trans (setPc_apart (hset.stranded h.copied) fun g hg => Option.some.inj hg ▸ hf),
      by simp⟩
  | operate who op =>
    obtain ⟨o, ho, hr⟩ := Option.bind_eq_some_iff.mp hr
    refine operate_spares h (fun g hg => ?_) op hr
    subst o
    cases who with
    | none => cases ho
    | some l =>
      simp only [actor] at ho
      split at ho <;> cases ho
      rename_i hpc
      exact hon (l := l) (by rw [hpc]; rfl)
  | yield l =>
    simp only [perform] at hr
    split at hr <;> cases hr
    rename_i f hpc
    have hf := hon (l := l) (f := f) (by rw [hpc]; rfl)
    unfold yield
    dsimp only
    split
    · have hset := h.setFiber (x := { s.fiber f with
        m_state := if (s.fiber f).m_state ≠ .TERM then .READY else .TERM }) hf fun g hg => Or.inl hg
      exact ⟨hset.trans (setPc_apart (hset.stranded h) fun g hg => Option.some.inj hg ▸ hf),
        by simp⟩
    · trivial
  | finish l =>
    simp only [perform] at hr
    split at hr
    case h_1 f hpc =>
      obtain ⟨_, heq⟩ := Option.ite_none_right_eq_some.mp hr
      cases heq
      have hf := hon (l := l) (f := f) (by rw [hpc]; rfl)
      have hset := h.setFiber (x := { s.fiber f with
          m_cb := none, m_state := .TERM, cur := none }) hf fun g hg => by
        simp only [OwnedFiber.refs, Option.toList_none, List.nil_append, Option.getD_none,
          List.append_nil] at hg
        exact Or.inl (List.mem_append_left _ (List.mem_append_right _ hg))
      refine ⟨hset.trans (setPc_apart (hset.stranded h) fun g hg => Option.some.inj hg ▸ hf),
        fun g hg => ?_⟩
      rcases List.mem_append.mp hg with hg | hg
      · exact h.not_mem (k := .callback f) hf hg
      · exact h.not_mem (k := .stack f) hf (List.mem_append_left _ hg)
    case h_2 => cases hr
  | swap l =>
    simp only [perform] at hr
    split at hr <;> cases hr
    rename_i f hpc
    have hf := hon (l := l) (f := f) (by rw [hpc]; rfl)
    have hset := h.setFiber (x := { s.fiber f with saved := true }) hf fun g hg => Or.inl hg
    exact ⟨hset.trans (setPc_apart (hset.stranded h) fun g hg => by cases hg), by simp⟩
  | back l =>
    obtain ⟨_, heq⟩ := Option.ite_none_right_eq_some.mp hr
    cases heq
    constructor
    · refine h.setThread (fun g hg => h.thread (l := l) ?_) fun g hg => by cases hg
      simp only [RunThread.refs, RunThread.resumable, Option.map_none, Option.getD_none,
        Option.toList_none, List.append_nil, List.mem_append] at hg ⊢
      tauto
    · refine fun g hg => h.thread (l := l) ?_
      simp only [RunThread.refs, RunThread.resumable, List.mem_append] at hg ⊢
      tauto

theorem bool_eq_of_false_iff {b b' : Bool} (h : b = false ↔ b' = false) : b = b' := by
  cases b <;> cases b' <;> simp_all

theorem stranded_step {a : Act τ} (h : s.HeapOk []) (hs : s.FibersOk) (hG : Stranded G s)
    (hstep : system.step s a s') : Stranded G s' ∧ ∀ f ∈ G, s'.fiber f = s.fiber f := by
  cases ends h hs hstep with
  | ok hperform hgo h' _ hdropped =>
    obtain ⟨hapart, hout⟩ := perform_spares hG a hperform
    have hsame := hdropped.same
    have hG₁ := hapart.stranded hG
    refine ⟨⟨fun f hf => ?_, fun k f hf hmem => ?_, fun l f hpc => ?_⟩, fun f hf => ?_⟩
    · rw [hsame.created]
      exact hG₁.made f hf
    · rw [hsame.refs] at hmem
      exact hG₁.refs k f hf hmem
    · rw [hsame.worker] at hpc
      exact hG₁.still l f hpc
    · -- none of the dropped pointers was to the fiber
      have hused := hdropped.use_count f
      rw [List.count_eq_zero.mpr fun hmem => hout f hmem hf, Nat.add_zero] at hused
      have hlive := h'.live f
      rw [hused, hgo.heap.live f, hsame.created, and_congr_right_iff] at hlive
      have hiff := hlive (hG₁.made f hf)
      rw [← hapart.fiber f hf, hsame.fiber f, (bool_eq_of_false_iff hiff).symm]

/-- A fiber to which only its own stack refers. -/
theorem stranded_of_count (h : s.HeapOk []) (hs : s.FibersOk) (hlt : f < s.created)
    (hcount : s.use_count f = (s.refs (.stack f)).count f) : Stranded {f} s := by
  have honly : ∀ k, f ∈ s.refs k → k = .stack f := by
    intro k hk
    by_contra hne
    refine h.counted.not_mem_of_count (k := .stack f) ?_ hne hk
    rw [hcount, List.count_nil, Nat.zero_add]
  refine ⟨fun g hg => hg ▸ hlt, fun k g hg hmem => ?_, fun l g hpc hg => ?_⟩
  · rw [Set.mem_singleton_iff.mp hg] at hmem
    rw [honly k hmem]
    exact rfl
  · rw [Set.mem_singleton_iff.mp hg] at hpc
    have hplace := honly _ (hs.executing hpc)
    cases hplace

/-- Fibers that only each other's stacks and callbacks refer to, and that no thread
executes, stay as they are in every continuation of the run: they are not
resumed, not finished and not destroyed. -/
theorem stranded_leak {tr : List (Move (FiberHeap τ) (Act τ))} (h : Reachable system s)
    (hG : Stranded G s) (hrun : Run system s tr t) :
    Stranded G t ∧ ∀ f ∈ G, t.fiber f = s.fiber f := by
  obtain ⟨hheap, hfibers⟩ := reachable_ok h
  have hall := hrun.invariant (fun u => u.HeapOk [] ∧ u.FibersOk ∧ Stranded G u ∧
    ∀ f ∈ G, u.fiber f = s.fiber f) (fun hu hstep => by
      obtain ⟨hheap, hfibers, hG, hsame⟩ := hu
      obtain ⟨hheap', hfibers'⟩ := step_ok hheap hfibers hstep
      obtain ⟨hG', hsame'⟩ := stranded_step hheap hfibers hG hstep
      exact ⟨hheap', hfibers', hG', fun f hf => (hsame' f hf).trans (hsame f hf)⟩)
    ⟨hheap, hfibers, hG, fun _ _ => rfl⟩
  exact hall.2.2

end Steps

/-- A fiber waits for an event, `delEvent` removes its registration, and the thread
goes on with its idle fiber. -/
def deleted : List (Act Bool) := spawned ++
  [.operate (some true) (.addEvent none), .yield true, .swap true, .back true,
    .operate none (.delEvent 0), .scan true none, .enter true, .yield true, .swap true, .back true]

theorem stranded_leak_deleted : ∃ tr s tr' t, Run system (initial : FiberHeap Bool) tr s ∧
    Run system s tr' t ∧ (tr ++ tr').map Move.act = deleted ∧ (s.fiber 0).m_state = .READY ∧
    (s.fiber 0).destroyed = false ∧ Stranded {0} t ∧ t.fiber 0 = s.fiber 0 := by
  have hrun : (traceAll next (initial : FiberHeap Bool) deleted).map (fun r =>
      (r.1[12]?.map fun m => (m.pre.created, m.pre.use_count 0, m.pre.refs (.stack 0),
        (m.pre.fiber 0).m_state))) = some (some (3, 1, [0], .READY)) := by decide +kernel
  obtain ⟨tr, t, hr, hacts, hobs⟩ := Run.exists_of_traceAll _ next_sound _ hrun
  obtain ⟨m, hm, hobs⟩ := Option.map_eq_some_iff.mp hobs
  simp only [Prod.mk.injEq] at hobs
  obtain ⟨hcreated, hcount, hrefs, hstate⟩ := hobs
  obtain ⟨hbefore, hafter⟩ := hr.split_of_getElem hm
  have hreach : Reachable system m.pre := ⟨_, _, rfl, hbefore⟩
  obtain ⟨hheap, hfibers⟩ := reachable_ok hreach
  have hlt : 0 < m.pre.created := by omega
  have hG : Stranded {0} m.pre := stranded_of_count hheap hfibers hlt (by
    rw [hcount, hrefs]
    rfl)
  have hlive := ((hheap.live 0).mp (by omega)).2
  obtain ⟨hG', hsame⟩ := stranded_leak hreach hG hafter
  refine ⟨_, m.pre, _, t, hbefore, hafter, ?_, hstate, hlive, hG', hsame 0 (Set.mem_singleton 0)⟩
  rw [List.take_append_drop]
  exact hacts

end FiberHeap

end FiberAsync
