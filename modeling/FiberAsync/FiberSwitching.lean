import FiberAsync.FiberCoroutines

/-!
# Runs of switching fibers

Whatever a scheduler's thread does with its fibers, each `yield` goes back to
the `resume` before it, each `resume` goes on at the last `yield`, every
callback is run once, and no assertion fails.
-/

namespace FiberAsync

set_option autoImplicit false

open Runs Coroutines

namespace FiberThread

/-- Where the threads of a scheduler stand before the first switch. -/
inductive Start : FiberThread → Machine FiberId Callback → Prop where
  | worker : Start worker mainCoroutine
  | caller (run : Callback) : Start (caller run) (mainCoroutine.give 1 run)

/-- The moves made on the stack of a fiber, and those that give it a callback. -/
def Concerns (f : FiberId) (m : Move FiberThread Act) : Prop :=
  m.pre.cpu.stack = f ∨
    ∃ cb, (∃ flag, m.act = .construct f cb flag) ∨ m.act = .reset f cb

/-- The switches of a run, as its callers see them. -/
structure SwitchesAsCoroutines (tr : List (Move FiberThread Act)) (s : FiberThread) : Prop where
  /-- behind the resume that started the segment -/
  returns : ∀ before m after, tr = before ++ m :: after → m.act = .yield ∨ m.act = .finish →
    ∃ r, Last (fun x => x.act = .resume m.pre.cpu.stack) before r ∧
      m.post.cpu = ⟨r.pre.cpu.stack, .after r.pre.switches⟩
  /-- behind the last yield, or at the start of a callback that was not started yet -/
  continues : ∀ before m after f, tr = before ++ m :: after → m.act = .resume f →
    (∃ y, Last (Concerns f) before y ∧ y.act = .yield ∧ y.pre.cpu.stack = f ∧
      m.post.cpu = ⟨f, .after y.pre.switches⟩) ∨
    ((∃ y, Last (Concerns f) before y ∧
        ∃ cb, (∃ flag, y.act = .construct f cb flag) ∨ y.act = .reset f cb) ∨
      ∀ y ∈ before, ¬ Concerns f y) ∧ m.post.cpu = ⟨f, .entry⟩
  once : ∀ f, ∃ pending : Option Callback, s.made f = s.ended f ++ pending.toList ∧
    (s.begun f = s.ended f ∨ s.begun f = s.made f)

variable {s s₀ s' : FiberThread} {t t₀ : Machine FiberId Callback} {f : FiberId}
  {tr : List (Move FiberThread Act)}

theorem mainCoroutine_once : Once mainCoroutine := by
  intro i
  refine ⟨⟨none, rfl, fun _ => rfl, fun hi => ?_⟩, ?_⟩
  · by_cases h : i = 0
    · subst i
      simp [mainCoroutine] at hi
    · simp [mainCoroutine, h] at hi
  · exact (ite_self _).symm

theorem mainCoroutine_chainOk : ChainOk mainCoroutine := by
  refine ⟨by simp [mainCoroutine], fun i => ?_, fun i hi => ?_⟩
  · by_cases h : i = 0 <;> simp [mainCoroutine, h]
  · by_cases h : i = 0
    · subst i
      simp [mainCoroutine] at hi
    · simp [mainCoroutine, h]

theorem worker_simulates : Simulates worker mainCoroutine := by
  refine ⟨⟨by decide, by decide, fun hne => absurd rfl hne, fun _ _ => Or.inr rfl, ?_⟩, ?_,
    mainCoroutine_chainOk, mainCoroutine_once⟩
  · intro f hf
    obtain rfl : f = 0 := Nat.lt_one_iff.mp hf
    simp [worker, attached]
  refine ⟨.main, ?_, ?_, ?_, fun f => ?_, by decide, rfl, rfl, rfl, rfl⟩
  · rintro i rest hc
    cases hc
    rfl
  · rintro i rest hc _
    cases hc
    rfl
  · rintro i rest hc c hin
    cases hc
    cases hin
  by_cases h : f = 0
  · subst f
    refine ⟨?_, ?_, ?_, fun hm => absurd rfl hm⟩ <;> simp [mainCoroutine, worker, attached, stateOf]
  · refine ⟨?_, fun hf => absurd (Nat.lt_one_iff.mp hf) h, ?_, fun _ hs => ?_⟩
    · simpa [mainCoroutine, h, worker, attached] using Nat.one_le_iff_ne_zero.mpr h
    · simp [mainCoroutine, h]
    · simp [mainCoroutine, h] at hs

theorem caller_simulates (run : Callback) :
    Simulates (caller run) (mainCoroutine.give 1 run) := by
  have hstep : Step mainCoroutine (.create 1 run) (mainCoroutine.give 1 run) := .create rfl
  have hnew := worker_simulates.give (f := 1) (n := 2) hstep (Or.inl rfl)
    (by decide) (x := (caller run).fiber 1) ⟨rfl, rfl, rfl, rfl⟩ (Or.inr ⟨rfl, rfl, Or.inr rfl⟩)
  have hr := hnew.refines
  refine ⟨⟨Nat.zero_lt_two, Nat.one_lt_two, fun _ => rfl, fun f hf => ?_, hnew.setUp.stack⟩, ?_,
    hnew.chain, hnew.once⟩
  · obtain ⟨hlt, hmain, hsched⟩ := hf
    rcases Nat.le_one_iff_eq_zero_or_eq_one.mp (Nat.lt_succ_iff.mp hlt) with h | h
    · exact absurd h hmain
    · exact absurd h hsched
  · refine ⟨.main, hr.cpu, ?_, hr.below, fun f => ?_, hr.main, hr.switches, hr.made, hr.begun,
      hr.ended⟩
    · rintro i rest hc _
      cases hc
      rfl
    · exact (hr.fibers f).congr Iff.rfl rfl rfl rfl rfl rfl rfl rfl rfl

theorem Start.simulates (h : Start s₀ t₀) : Simulates s₀ t₀ ∧ t₀.chain = [0] := by
  cases h with
  | worker => exact ⟨worker_simulates, rfl⟩
  | caller run => exact ⟨caller_simulates run, rfl⟩

/-- A fiber that waits at the start of a run waits at the entry of its callback. -/
theorem Start.entry (h : Start s₀ t₀) (hf : t₀.status f = .ready) : t₀.place f = .entry := by
  cases h with
  | worker =>
    by_cases h : f = 0
    · subst f
      simp [mainCoroutine] at hf
    · simp [mainCoroutine, h]
  | caller run =>
    by_cases h : f = 1
    · subst f
      rfl
    · by_cases h' : f = 0
      · subst f
        simp [mainCoroutine, Machine.give] at hf
      · simp [mainCoroutine, Machine.give, h, h']

section Moves

variable {m : Move FiberThread Act} {m' : Move (Machine FiberId Callback)
  (Coroutines.Act FiberId Callback)}

theorem Simulates.head_iff (h : Simulates s t) : s.cpu.stack = f ↔ t.chain.head? = some f := by
  obtain ⟨rest, hc⟩ := h.head
  simp [hc]

theorem resume_iff (h : Answers Act.coroutine Simulates m m') :
    m.act = .resume f ↔ m'.act = .resume f := by
  rw [h.act]
  cases m.act <;> simp [Act.coroutine]

theorem gives_iff (h : Answers Act.coroutine Simulates m m') :
    (∃ cb, (∃ flag, m.act = .construct f cb flag) ∨ m.act = .reset f cb) ↔
      ∃ cb, m'.act = .create f cb ∨ m'.act = .renew f cb := by
  rw [h.act]
  cases m.act <;> simp [Act.coroutine]

theorem concerns_iff (h : Answers Act.coroutine Simulates m m') :
    Concerns f m ↔ Coroutines.Concerns f m' := or_congr h.pre.head_iff (gives_iff h)

end Moves

theorem Simulates.cpu_eq (h : Simulates s t) (hf : t.chain.head? = some f) :
    s.cpu = ⟨f, t.place f⟩ := by
  obtain ⟨rest, hc⟩ := h.head
  have hcpu := h.refines.cpu _ rest hc
  rw [hc] at hf
  cases hf
  exact hcpu

theorem Simulates.m_state_eq (h : Simulates s t) (hf : f < s.created) :
    (s.fiber f).m_state =
      if f ∈ t.chain then .RUNNING else if s.ended f = s.made f then .TERM else .READY := by
  have hr := h.refines
  rw [(hr.fibers f).state hf, hr.made, hr.ended, if_congr (h.chain.active f) rfl rfl]
  obtain ⟨pending, hmade, hnone, hsome⟩ := (h.once f).ended
  cases hst : t.status f with
  | absent => exact absurd ((hr.fibers f).absent.mp hst) (Nat.not_le.mpr hf)
  | active => rfl
  | finished =>
    obtain rfl := hnone (Or.inr hst)
    simp [stateOf, hmade]
  | ready =>
    obtain ⟨cb, rfl⟩ := Option.isSome_iff_exists.mp (hsome hst)
    simp [stateOf, hmade]

theorem Simulates.head? (h : Simulates s t) : t.chain.head? = some s.cpu.stack := by
  obtain ⟨rest, hc⟩ := h.head
  simp [hc]

theorem run_simulates (hr : Run (system s₀) s₀ tr s) (h : Simulates s₀ t₀) :
    ∃ tr' t, Run (Coroutines.system (· = t₀)) t₀ tr' t ∧
      List.Forall₂ (Answers Act.coroutine Simulates) tr tr' ∧ Simulates s t := by
  refine hr.simulate_each Act.coroutine Simulates ?_ h
  rintro s a s' t hsim ⟨ha, hs'⟩
  obtain ⟨u, t', hu, hstep, hnext⟩ := hsim.step ha
  rw [hs'] at hu
  cases hu
  exact ⟨t', hstep, hnext⟩

/-- The history of the coroutines before a move, and the step that answers it. -/
theorem history_before (hr : Run (system s₀) s₀ tr s) (hs : Start s₀ t₀)
    {before after : List (Move FiberThread Act)} {m : Move FiberThread Act}
    (htr : tr = before ++ m :: after) :
    ∃ before' t t', History t₀ before' t ∧ Step t m.act.coroutine t' ∧ Simulates m.pre t ∧
      Simulates m.post t' ∧ List.Forall₂ (Answers Act.coroutine Simulates) before before' := by
  obtain ⟨hsim, hchain⟩ := hs.simulates
  subst htr
  obtain ⟨hbefore, ⟨ha, hexec⟩, _⟩ := hr.split_at
  obtain ⟨before', t, hrun, hall, ht⟩ := run_simulates hbefore hsim
  obtain ⟨u, t', hu, hstep, ht'⟩ := ht.step ha
  rw [hexec] at hu
  cases hu
  exact ⟨before', t, t', Run.history_of_start hrun hsim.chain ⟨0, hchain⟩, hstep, ht, ht', hall⟩

theorem returns_of_run (hr : Run (system s₀) s₀ tr s) (hs : Start s₀ t₀)
    {before after : List (Move FiberThread Act)} {m : Move FiberThread Act}
    (htr : tr = before ++ m :: after) (ha : m.act = .yield ∨ m.act = .finish) :
    ∃ r, Last (fun x => x.act = .resume m.pre.cpu.stack) before r ∧
      m.post.cpu = ⟨r.pre.cpu.stack, .after r.pre.switches⟩ := by
  obtain ⟨before', t, t', hhist, hstep, ht, ht', hall⟩ := history_before hr hs htr
  have ha' : m.act.coroutine = .yield ∨ m.act.coroutine = .finish := by
    rcases ha with ha | ha <;> simp [ha, Act.coroutine]
  obtain ⟨i, c, r', hi, hc, hlast, hrc, hplace⟩ := hhist.returns hstep ha'
  obtain rfl := (ht.head_iff).mpr hi
  obtain ⟨r, hanswer, hlast⟩ := hlast.of_answers _ _ (fun _ _ => resume_iff) hall
  refine ⟨r, hlast, ?_⟩
  rw [ht'.cpu_eq hc, hplace, hanswer.pre.head_iff.mpr hrc, hanswer.pre.refines.switches]

theorem continues_of_run (hr : Run (system s₀) s₀ tr s) (hs : Start s₀ t₀)
    {before after : List (Move FiberThread Act)} {m : Move FiberThread Act}
    (htr : tr = before ++ m :: after) (ha : m.act = .resume f) :
    (∃ y, Last (Concerns f) before y ∧ y.act = .yield ∧ y.pre.cpu.stack = f ∧
      m.post.cpu = ⟨f, .after y.pre.switches⟩) ∨
    ((∃ y, Last (Concerns f) before y ∧
        ∃ cb, (∃ flag, y.act = .construct f cb flag) ∨ y.act = .reset f cb) ∨
      ∀ y ∈ before, ¬ Concerns f y) ∧ m.post.cpu = ⟨f, .entry⟩ := by
  obtain ⟨before', t, t', hhist, hstep, ht, ht', hall⟩ := history_before hr hs htr
  rw [ha] at hstep
  obtain ⟨hhead, hsame, hwaits⟩ := hhist.continues hstep
  have hcpu := ht'.cpu_eq hhead
  rw [hsame] at hcpu
  rcases hwaits with ⟨y', hlast, hy, hyc, hp⟩ | ⟨y', hlast, hy, hp⟩ | ⟨hnone, hready, hp⟩
  · obtain ⟨y, hanswer, hlast⟩ := hlast.of_answers _ _ (fun _ _ => concerns_iff) hall
    refine Or.inl ⟨y, hlast, ?_, hanswer.pre.head_iff.mpr hyc, ?_⟩
    · have hact := hanswer.act
      rw [hy] at hact
      cases hya : y.act <;> simp [hya, Act.coroutine] at hact ⊢
    · rw [hcpu, hp, hanswer.pre.refines.switches]
  · obtain ⟨y, hanswer, hlast⟩ := hlast.of_answers _ _ (fun _ _ => concerns_iff) hall
    exact Or.inr ⟨Or.inl ⟨y, hlast, (gives_iff hanswer).mpr hy⟩, hp ▸ hcpu⟩
  · rw [hp, hs.entry hready] at hcpu
    exact Or.inr ⟨Or.inr (Answers.none _ _ (fun _ _ => concerns_iff) hall hnone), hcpu⟩

theorem Simulates.once_each (h : Simulates s t) (f : FiberId) :
    ∃ pending : Option Callback, s.made f = s.ended f ++ pending.toList ∧
      (s.begun f = s.ended f ∨ s.begun f = s.made f) := by
  have hr := h.refines
  rw [hr.made, hr.begun, hr.ended]
  obtain ⟨pending, hmade, _⟩ := (h.once f).ended
  refine ⟨pending, hmade, ?_⟩
  rw [(h.once f).begun]
  split
  · exact Or.inl rfl
  · exact Or.inr rfl

theorem switching_refines_coroutines (hs : Start s₀ t₀) (hr : Run (system s₀) s₀ tr s) :
    ∃ tr' t, Run (Coroutines.system (· = t₀)) t₀ tr' t ∧
      List.Forall₂ (Answers Act.coroutine Simulates) tr tr' ∧
      Simulates s t ∧ SwitchesAsCoroutines tr s ∧
      (∀ f < s.created, (s.fiber f).m_state =
        if f ∈ t.chain then .RUNNING else if s.ended f = s.made f then .TERM else .READY) ∧
      ∀ a, s.Allowed a → ∃ s', s.exec a = .ok s' := by
  obtain ⟨tr', t, hrun, hall, hsim⟩ := run_simulates hr hs.simulates.1
  refine ⟨tr', t, hrun, hall, hsim, ⟨?_, ?_, hsim.once_each⟩, fun f hf => hsim.m_state_eq hf,
    fun a ha => ?_⟩
  · exact fun before m after htr ha => returns_of_run hr hs htr ha
  · exact fun before m after f htr ha => continues_of_run hr hs htr ha
  · obtain ⟨s', _, hs', _⟩ := hsim.step ha
    exact ⟨s', hs'⟩

/-- Two tasks on the caller's thread: the first yields once, ends and is reset. -/
theorem switching_refines_coroutines_two_tasks :
    ∃ tr s tr' t, Run (system (caller 7)) (caller 7) tr s ∧
      tr.map Move.act = [.resume 1, .enter, .construct 2 10 true, .construct 3 11 true, .resume 2,
        .enter, .yield, .resume 3, .enter, .finish, .resume 2, .finish, .reset 2 12, .resume 2,
        .enter, .finish, .finish] ∧
      List.Forall₂ (Answers Act.coroutine Simulates) tr tr' ∧ Simulates s t ∧
      SwitchesAsCoroutines tr s ∧
      (s.cpu, s.ended 1, s.ended 2, s.ended 3) = (⟨0, .after 0⟩, [7], [10, 12], [11]) := by
  have hrun : (traceAll next (caller 7) [.resume 1, .enter, .construct 2 10 true,
      .construct 3 11 true, .resume 2, .enter, .yield, .resume 3, .enter, .finish, .resume 2,
      .finish, .reset 2 12, .resume 2, .enter, .finish, .finish]).map
        (fun r => (r.2.cpu, r.2.ended 1, r.2.ended 2, r.2.ended 3)) =
      some (⟨0, .after 0⟩, [7], [10, 12], [11]) := by decide
  obtain ⟨tr, s, hr, hacts, hend⟩ := Run.exists_of_traceAll next (S := system (caller 7))
    next_sound _ hrun
  obtain ⟨tr', t, _, hall, hsim, hswitches, _⟩ := switching_refines_coroutines (.caller 7) hr
  exact ⟨tr, s, tr', t, hr, hacts, hall, hsim, hswitches, hend⟩

end FiberThread

end FiberAsync
