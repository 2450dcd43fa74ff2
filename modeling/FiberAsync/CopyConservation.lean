import FiberAsync.CancelledTimers

/-!
# No copied callback is lost or started twice

Whatever the threads of the pool do, a copy that `listExpiredCb` has made is
either started, once, or in one place: the vector of a thread, the queue, or the
hands of the thread that has taken it. It carries the callback that its timer had
when it was copied.
-/

namespace FiberAsync

set_option autoImplicit false

open Runs Ownership Pipelines TimerManager

namespace Pool

variable {s s' : Pool} {a : PoolAct} {t : Tid} {i : TimerPtr} {f g : Firing}
  {tr : List (Move Pool PoolAct)} {P Q : Option Callback → Firing → Prop}

/-- The copies that the steps of the run have made. -/
def made (tr : List (Move Pool PoolAct)) : List Firing :=
  tr.flatMap fun mv => mv.pre.copied mv.act

/-- The copies that they have started, the last one first. -/
def started (tr : List (Move Pool PoolAct)) : List Firing :=
  tr.reverse.filterMap fun mv => mv.pre.starts mv.act

theorem made_concat (mv : Move Pool PoolAct) :
    made (tr ++ [mv]) = made tr ++ mv.pre.copied mv.act := by
  simp [made]

theorem started_concat (mv : Move Pool PoolAct) :
    started (tr ++ [mv]) = (mv.pre.starts mv.act).toList ++ started tr := by
  unfold started
  rw [List.reverse_concat, List.filterMap_cons]
  cases mv.pre.starts mv.act <;> rfl

theorem counted_of_run {start : Millis} (hr : Run system (initial start) tr s) :
    s.CopiesOk ∧ Counted s.pipeline.items (started tr) (made tr).count := by
  apply hr.history fun tr s =>
    s.CopiesOk ∧ Counted s.pipeline.items (started tr) (made tr).count
  · intro tr s a s' hs hstep
    refine ⟨hs.1.step hstep, ?_⟩
    have hcounted := (hs.1.pipeline hstep).counted hs.2
    have hmade : (made (tr ++ [⟨s, a, s'⟩])).count =
        fun f => (made tr).count f + (s.copied a).count f := by
      funext f
      rw [made_concat, List.count_append]
    rw [started_concat, hmade]
    exact hcounted
  · refine ⟨initial_copiesOk start, ?_⟩
    have hempty : (initial start).pipeline.items = fun _ => [] := by
      funext k
      cases k <;> rfl
    rw [hempty]
    exact Counted.start

/-- A step makes no copy, or one with the next number. -/
theorem copied_cases (hs : system.step s a s') :
    s.copied a = [] ∧ s'.fired = s.fired ∨
      ∃ i, s.copied a = [⟨i, s.fired⟩] ∧ s'.fired = s.fired + 1 := by
  cases stepped hs with
  | deliver t now cbs i rest hpc => exact Or.inr ⟨i, copied_deliver hpc, rfl⟩
  | event a th => exact Or.inl ⟨rfl, pushAll_fired _ _⟩
  | loop t hl =>
    refine Or.inl ⟨rfl, ?_⟩
    cases hl with
    | yes k => cases k <;> rfl
    | no k => cases k <;> rfl
    | _ => rfl
  | _ => exact Or.inl ⟨rfl, rfl⟩

theorem fired_step (hs : system.step s a s') :
    s.fired ≤ s'.fired ∧ ∀ f ∈ s.copied a, s.fired ≤ f.number ∧ f.number < s'.fired := by
  rcases copied_cases hs with ⟨hnone, hfired⟩ | ⟨i, hone, hfired⟩
  · rw [hnone, hfired]
    exact ⟨Nat.le_refl _, fun f hf => by cases hf⟩
  · rw [hone, hfired]
    refine ⟨Nat.le_succ _, fun f hf => ?_⟩
    rw [List.mem_singleton.mp hf]
    exact ⟨Nat.le_refl _, Nat.lt_succ_self _⟩

theorem copied_unique (hs : system.step s a s') :
    (s.copied a).Nodup ∧ ∀ f ∈ s.copied a, ∀ g ∈ s.copied a, f = g := by
  rcases copied_cases hs with ⟨hnone, _⟩ | ⟨i, hone, _⟩
  · rw [hnone]
    exact ⟨List.nodup_nil, fun f hf => by cases hf⟩
  · rw [hone]
    refine ⟨List.nodup_singleton _, fun f hf g hg => ?_⟩
    rw [List.mem_singleton.mp hf, List.mem_singleton.mp hg]

/-- The copies have their own numbers, and those of a one-shot timer are one. -/
structure Numbered (l : List Firing) (s : Pool) : Prop where
  nodup : l.Nodup
  fired : ∀ f ∈ l, f.number < s.fired
  spent : ∀ f ∈ l, f.timer < s.timers.created ∧
    ((s.timers.heap f.timer).m_recurring = false → f.timer ∉ s.owned)
  once : ∀ f ∈ l, ∀ g ∈ l, f.timer = g.timer →
    (s.timers.heap f.timer).m_recurring = false → f = g

theorem Numbered.step {l : List Firing} (h : Numbered l s) (hcopies : s.CopiesOk)
    (hs : system.step s a s') : Numbered (l ++ s.copied a) s' := by
  obtain ⟨hgrows, hnumbers⟩ := fired_step hs
  obtain ⟨hnodup, hown⟩ := copied_unique hs
  have htimers := hcopies.timers hs
  have hkeeps := htimers.keeps hcopies.inv
  have hnew : ∀ f ∈ s.copied a, f.timer < s.timers.created := by
    intro f hf
    exact hcopies.known (htimers.of_copied hcopies.inv hf).1
  have hknown : ∀ f ∈ l ++ s.copied a, f.timer < s.timers.created := by
    intro f hf
    rcases List.mem_append.mp hf with hf | hf
    · exact (h.spent f hf).1
    · exact hnew f hf
  -- a one-shot timer with a copy is out of the set, so no copy of it is made any more
  have hfresh : ∀ f ∈ l, ∀ g ∈ s.copied a, f.timer = g.timer →
      (s.timers.heap f.timer).m_recurring = false → False := by
    intro f hf g hg heq hone
    have hmem := (htimers.of_copied hcopies.inv hg).1
    rw [← heq] at hmem
    exact (h.spent f hf).2 hone hmem
  refine ⟨?_, ?_, ?_, ?_⟩
  · refine List.nodup_append.mpr ⟨h.nodup, hnodup, fun f hf g hg heq => ?_⟩
    subst g
    exact absurd (h.fired f hf) (Nat.not_lt.mpr (hnumbers f hg).1)
  · intro f hf
    rcases List.mem_append.mp hf with hf | hf
    · exact Nat.lt_of_lt_of_le (h.fired f hf) hgrows
    · exact (hnumbers f hf).2
  · intro f hf
    refine ⟨(hknown f hf).trans_le hkeeps.created, fun hone => ?_⟩
    rw [hkeeps.recurring f.timer (hknown f hf)] at hone
    rcases List.mem_append.mp hf with hf | hf
    · exact htimers.stays_out hcopies.inv (hknown f (List.mem_append_left _ hf))
        ((h.spent f hf).2 hone)
    · exact (htimers.of_copied hcopies.inv hf).2 hone
  · intro f hf g hg heq hone
    rw [hkeeps.recurring f.timer (hknown f hf)] at hone
    rcases List.mem_append.mp hf with hf | hf
    · rcases List.mem_append.mp hg with hg | hg
      · exact h.once f hf g hg heq hone
      · exact (hfresh f hf g hg heq hone).elim
    · rcases List.mem_append.mp hg with hg | hg
      · exact (hfresh g hg f hf heq.symm (heq ▸ hone)).elim
      · exact hown f hf g hg

theorem numbered_of_run {start : Millis} (hr : Run system (initial start) tr s) :
    s.CopiesOk ∧ Numbered (made tr) s := by
  apply hr.history fun tr s => s.CopiesOk ∧ Numbered (made tr) s
  · intro tr s a s' hs hstep
    rw [made_concat]
    exact ⟨hs.1.step hstep, hs.2.step hs.1 hstep⟩
  · have hnone : ∀ f, f ∉ made [] := fun f hf => by cases hf
    exact ⟨initial_copiesOk start, List.nodup_nil, fun f hf => absurd hf (hnone f),
      fun f hf => absurd hf (hnone f), fun f hf => absurd hf (hnone f)⟩

/-- The task, if it is a copy, has the callback that the predicate asks for. -/
def TaskOf (P : Option Callback → Firing → Prop) (firing : Nat → Option Firing)
    (q : QueuedTask) : Prop :=
  ∀ f, firing q.number = some f → ∃ cb, q.task = ⟨none, cb, -1⟩ ∧ P cb f

structure Tagged (P : Option Callback → Firing → Prop) (s : Pool) : Prop where
  queued : ∀ q ∈ s._queue, TaskOf P s.firing q
  taken : ∀ t q, (s.loop t).hand = some q → TaskOf P s.firing q
  vector : ∀ t, ∀ x ∈ (s.loop t).cbs, P x.1 x.2

namespace Tagged

theorem mono (h : Tagged P s) (himp : ∀ cb f, P cb f → Q cb f) : Tagged Q s := by
  have htask : ∀ {q}, TaskOf P s.firing q → TaskOf Q s.firing q := by
    intro q hq f hf
    obtain ⟨cb, htask, hP⟩ := hq f hf
    exact ⟨cb, htask, himp cb f hP⟩
  exact ⟨fun q hq => htask (h.queued q hq), fun t q hq => htask (h.taken t q hq),
    fun t x hx => himp _ _ (h.vector t x hx)⟩

theorem moved (pc : PoolPc) (h : Tagged P s) (hq : ∀ q ∈ s'._queue, q ∈ s._queue)
    (hf : s'.firing = s.firing) (hloop : s'.loop = Function.update s.loop t pc)
    (hhand : ∀ q, pc.hand = some q → TaskOf P s.firing q) (hcbs : ∀ x ∈ pc.cbs, P x.1 x.2) :
    Tagged P s' := by
  refine ⟨fun q hq' => hf ▸ h.queued q (hq q hq'), fun u q hu => ?_, fun u x hx => ?_⟩
  · rw [hf]
    rw [hloop] at hu
    by_cases hut : u = t
    · subst u
      rw [Function.update_self] at hu
      exact hhand q hu
    · rw [Function.update_of_ne hut] at hu
      exact h.taken u q hu
  · rw [hloop] at hx
    by_cases hut : u = t
    · subst u
      rw [Function.update_self] at hx
      exact hcbs x hx
    · rw [Function.update_of_ne hut] at hx
      exact h.vector u x hx

/-- A thread that has neither a task nor copies of its own goes on. -/
theorem goes {pc : PoolPc} (h : Tagged P s) (hq : s'._queue = s._queue)
    (hf : s'.firing = s.firing) (hloop : s'.loop = Function.update s.loop t pc)
    (hhand : pc.hand = none) (hcbs : pc.cbs = []) : Tagged P s' := by
  refine h.moved pc (fun q hq' => hq ▸ hq') hf hloop (fun q hq' => ?_) (fun x hx => ?_)
  · rw [hhand] at hq'
    cases hq'
  · rw [hcbs] at hx
    cases hx

theorem push (h : Tagged P s) (hok : s.TasksOk) {o : Option Firing} {task : ScheduleTask}
    (ho : ∀ f, o = some f → ∃ cb, task = ⟨none, cb, -1⟩ ∧ P cb f) : Tagged P (s.push o task) := by
  have hold : ∀ q, q.number < s.added → TaskOf P s.firing q →
      TaskOf P (Function.update s.firing s.added o) q := by
    intro q hlt hq f hf
    rw [Function.update_of_ne (Nat.ne_of_lt hlt)] at hf
    exact hq f hf
  refine ⟨fun q hq => ?_, fun u q hu => ?_, h.vector⟩
  · rcases List.mem_append.mp hq with hq | hq
    · exact hold q (hok.queued q hq) (h.queued q hq)
    · rw [List.mem_singleton.mp hq]
      intro f hf
      have hlast : Function.update s.firing s.added o s.added = some f := hf
      rw [Function.update_self] at hlast
      exact ho f hlast
  · exact hold q (hok.taken u q hu) (h.taken u q hu)

theorem pushAll (h : Tagged P s) (hok : s.TasksOk) (tasks : List ScheduleTask) :
    Tagged P (s.pushAll tasks) := by
  have hall := s.pushAll_induct (fun s => s.TasksOk ∧ Tagged P s) (fun s task hs =>
    ⟨hs.1.push (by simp), hs.2.push hs.1 (fun f hf => by cases hf)⟩) tasks ⟨hok, h⟩
  exact hall.2

theorem answer (h : Tagged P s) (k : Asker) (b : Bool) : Tagged P (s.answer t k b) := by
  cases k <;> cases b <;> exact h.goes rfl rfl rfl rfl rfl

theorem loop (h : Tagged P s) (hok : s.TasksOk) (hs : LoopStep s t s') : Tagged P s' := by
  cases hs with
  | found skipped q rest _ hqueue _ _ =>
    refine h.moved (.starting q) (fun x hx => ?_) rfl rfl (fun x hx => ?_) (fun x hx => by cases hx)
    · rw [hqueue]
      exact ((List.sublist_cons_self q rest).append_left skipped).mem hx
    · cases hx
      exact h.queued q (by simp [hqueue])
  | yes k | no k => exact h.answer k _
  | enqueue cb f cbs hpc =>
    have hvector : ∀ x ∈ (cb, f) :: cbs, P x.1 x.2 := by
      intro x hx
      apply h.vector t x
      rw [hpc]
      exact hx
    have hmoved : (s.setLoop t (.enqueueing cbs)).TasksOk := hok.moved rfl rfl rfl rfl rfl
    have hrest : Tagged P (s.setLoop t (.enqueueing cbs)) :=
      h.moved _ (fun q hq => hq) rfl rfl (fun q hq => by cases hq)
        (fun x hx => hvector x (List.mem_cons_of_mem _ hx))
    apply hrest.push hmoved
    intro g hg
    cases hg
    exact ⟨cb, rfl, hvector _ List.mem_cons_self⟩
  | delivered cbs hpc =>
    refine h.moved (.enqueueing cbs) (fun q hq => hq) rfl rfl (fun q hq => by cases hq) ?_
    have hvector := h.vector t
    rw [hpc] at hvector
    exact hvector
  | _ => exact h.goes rfl rfl rfl rfl rfl

theorem step (h : Tagged P s) (hok : s.TasksOk) (hs : system.step s a s')
    (hnew : ∀ f ∈ s.copied a, P (s.timers.heap f.timer).m_cb f) : Tagged P s' := by
  cases stepped hs with
  | event a th =>
    have hth : Tagged P { s with toThreads := th } := ⟨h.queued, h.taken, h.vector⟩
    exact hth.pushAll ⟨hok.queued, hok.taken, hok.present, hok.unpinned⟩ _
  | timer | lift | fiber => exact ⟨h.queued, h.taken, h.vector⟩
  | add_task t task => exact h.push hok (fun f hf => by cases hf)
  | loop t hl => exact h.loop hok hl
  | epoll_failed t => exact h.answer .idle true
  | deliver t now cbs i rest hpc =>
    refine h.moved (.delivering (cbs ++ [((s.timers.heap i).m_cb, ⟨i, s.fired⟩)]) rest)
      (fun q hq => hq) rfl rfl (fun q hq => by cases hq) (fun x hx => ?_)
    rcases List.mem_append.mp hx with hx | hx
    · apply h.vector t x
      rw [hpc]
      exact hx
    · rw [List.mem_singleton.mp hx]
      exact hnew _ (by rw [copied_deliver hpc]; exact List.mem_singleton.mpr rfl)
  | _ => exact h.goes rfl rfl rfl rfl rfl

end Tagged

/-- The callback is the one that the timer of the copy had when it was copied. -/
def Carried (tr : List (Move Pool PoolAct)) (cb : Option Callback) (f : Firing) : Prop :=
  ∃ mv ∈ tr, f ∈ mv.pre.copied mv.act ∧ cb = (mv.pre.timers.heap f.timer).m_cb

theorem carried_of_run {start : Millis} (hr : Run system (initial start) tr s) :
    s.CopiesOk ∧ Tagged (Carried tr) s := by
  apply hr.history fun tr s => s.CopiesOk ∧ Tagged (Carried tr) s
  · intro tr s a s' hs hstep
    obtain ⟨hcopies, htagged⟩ := hs
    have hmono : Tagged (Carried (tr ++ [⟨s, a, s'⟩])) s := htagged.mono fun cb f hcb => by
      obtain ⟨mv, hmv, hrest⟩ := hcb
      exact ⟨mv, List.mem_append_left _ hmv, hrest⟩
    refine ⟨hcopies.step hstep, hmono.step hcopies.tasks hstep fun f hf => ?_⟩
    exact ⟨⟨s, a, s'⟩, by simp, hf, rfl⟩
  · exact ⟨initial_copiesOk start, fun q hq => (by cases hq), fun t q hq => (by cases hq),
      fun t x hx => (by cases hx)⟩

theorem starts_eq_some (h : s.starts a = some f) :
    ∃ t q, a = .loop t ∧ s.loop t = .starting q ∧ s.firing q.number = some f := by
  cases a with
  | loop t =>
    unfold starts at h
    dsimp only at h
    split at h
    case h_1 q hq => exact ⟨t, q, rfl, hq, h⟩
    case h_2 => cases h
  | _ => cases h

/-- What has become of the copies that a run has made. -/
structure Conserved (tr : List (Move Pool PoolAct)) (s : Pool) : Prop where
  made_nodup : (made tr).Nodup
  started_nodup : (started tr).Nodup
  started_made : ∀ f ∈ started tr, f ∈ made tr
  /-- one that has not been started is in one place, once -/
  held : ∀ f ∈ made tr, f ∉ started tr → ∃ k, (s.pipeline.items k).count f = 1 ∧
    ∀ j, j ≠ k → f ∉ s.pipeline.items j
  fresh : ∀ k, ∀ f ∈ s.pipeline.items k, f ∈ made tr ∧ f ∉ started tr
  /-- a one-shot timer is started once at most -/
  once : ∀ f ∈ started tr, ∀ g ∈ started tr, f.timer = g.timer →
    (s.timers.heap f.timer).m_recurring = false → f = g
  /-- what is started is the callback that the timer had -/
  callback : ∀ mv ∈ tr, ∀ f, mv.pre.starts mv.act = some f → ∃ t q cb, mv.act = .loop t ∧
    mv.pre.loop t = .starting q ∧ q.task = ⟨none, some cb, -1⟩ ∧
    ∃ x ∈ tr, f ∈ x.pre.copied x.act ∧ (x.pre.timers.heap f.timer).m_cb = some cb

/-- In every run of any number of threads, each callback that `listExpiredCb`
copies is started once or is on its way in one place, and it is never lost. -/
theorem copies_conserved {start : Millis} (hr : Run system (initial start) tr s) :
    Conserved tr s := by
  obtain ⟨hcopies, hnumbered⟩ := numbered_of_run hr
  obtain ⟨_, hcounted⟩ := counted_of_run hr
  have hone : ∀ f, (made tr).count f ≤ 1 := List.nodup_iff_count_le_one.mp hnumbered.nodup
  have hstarted : ∀ f ∈ started tr, f ∈ made tr := by
    intro f hf
    exact List.count_pos_iff.mp (hcounted.pos_of_temp hf)
  refine ⟨hnumbered.nodup, ?_, hstarted, ?_, ?_, ?_, ?_⟩
  · exact List.nodup_iff_count_le_one.mpr fun f => (hcounted.count_le).trans (hone f)
  · intro f hf hnot
    rcases hcounted.pos_iff.mp (List.count_pos_iff.mpr hf) with hin | ⟨k, hk⟩
    · exact absurd hin hnot
    · obtain ⟨_, hcount, hother⟩ := hcounted.unique (hone f) hk
      exact ⟨k, hcount, hother⟩
  · intro k f hf
    exact ⟨List.count_pos_iff.mp (hcounted.pos_of_mem hf), (hcounted.unique (hone f) hf).1⟩
  · intro f hf g hg
    exact hnumbered.once f (hstarted f hf) g (hstarted g hg)
  · intro mv hmv f hf
    obtain ⟨before, after, rfl⟩ := List.append_of_mem hmv
    obtain ⟨hbefore, _, _⟩ := hr.split_at
    obtain ⟨t, q, hact, hpc, hfiring⟩ := starts_eq_some hf
    obtain ⟨hok, htagged⟩ := carried_of_run hbefore
    have hhand : (mv.pre.loop t).hand = some q := by
      rw [hpc]
      rfl
    obtain ⟨cb, hq, x, hx, hcopied, hcb⟩ := htagged.taken t q hhand f hfiring
    -- the scan that took the task found it non-empty
    have hsome : cb.isSome := by
      have hpresent := hok.tasks.present t q hhand
      rw [hq] at hpresent
      simpa using hpresent
    obtain ⟨c, rfl⟩ := Option.isSome_iff_exists.mp hsome
    exact ⟨t, q, c, hact, hpc, hq, x, List.mem_append_left _ hx, hcopied, hcb.symm⟩

/-- Thread 1 copies the callbacks of two timers and starts the first copy; thread 2
copies the callback of the recurring timer again. -/
def delivering : List PoolAct :=
  [.timer 0 (.add_timer ⟨16, 5, some 7, true, 100⟩),
    .timer 0 (.add_timer ⟨32, 5, some 8, false, 100⟩), .enter 1, .loop 1, .loop 1, .loop 1, .loop 1,
    .enter 2, .loop 2, .loop 2, .loop 2, .loop 2, .epoll_wait 1 [],
    .listExpiredCb 1 ⟨[], 105, false, 48, 105, []⟩, .deliver 1 105, .deliver 1 106, .loop 1,
    .loop 1, .loop 1, .loop 1, .loop 1, .loop 1, .loop 1, .epoll_wait 2 [],
    .listExpiredCb 2 ⟨[], 110, false, 48, 110, []⟩, .deliver 2 111]

theorem copies_conserved_delivering : ∃ tr s, Run system (initial 0) tr s ∧
    tr.map Move.act = delivering ∧ started tr = [⟨0, 0⟩] ∧ s.pipeline.items .queue = [⟨1, 1⟩] ∧
    s.pipeline.items (.vector 2) = [⟨0, 2⟩] ∧ Conserved tr s := by
  have hrun : (traceAll next (initial 0) delivering).map (fun r => (started r.1,
      r.2.pipeline.items .queue, r.2.pipeline.items (.vector 2))) =
      some ([⟨0, 0⟩], [⟨1, 1⟩], [⟨0, 2⟩]) := by decide +kernel
  obtain ⟨tr, s, hr, hacts, hobs⟩ := Run.exists_of_traceAll next next_sound _ hrun
  obtain ⟨hstarted, hobs⟩ := Prod.mk.inj hobs
  obtain ⟨hqueue, hvector⟩ := Prod.mk.inj hobs
  exact ⟨tr, s, hr, hacts, hstarted, hqueue, hvector, copies_conserved hr⟩

end Pool

end FiberAsync
