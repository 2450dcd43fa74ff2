import FiberAsync.CancelledTimers

/-!
# Timers start in the order of their deadlines

Two one-shot timers in the set keep their order while neither is cancelled,
reset or refreshed, and a batch is a front part of the set. So the first is
delivered before the second, and if one thread alone is in `run` its copy stays
ahead on its way to the start.
-/

namespace FiberAsync

set_option autoImplicit false

open Runs Pipelines TimerManager

/-- The timer that the step operates on. -/
def PoolAct.target : PoolAct → Option TimerPtr
  | timer _ op => op.target
  | _ => none

/-- Not in `run`, but possibly in `stop`. -/
def PoolPc.visiting : PoolPc → Bool
  | outside | stopping | readEvents .stop | readQueue .stop | readTimers .stop => true
  | _ => false

namespace Pool

variable {s s' : Pool} {a : PoolAct} {t u : Tid} {pc : PoolPc} {i j : TimerPtr}

theorem loop_of_ne (hs : system.step s a s') (hu : u ≠ a.tid) : s'.loop u = s.loop u := by
  have hmoved : ∀ pc, Function.update s.loop a.tid pc u = s.loop u :=
    fun pc => Function.update_of_ne hu _ _
  cases stepped hs with
  | event a th => rw [pushAll_loop]
  | timer | lift | add_task | fiber => rfl
  | loop t hl =>
    cases hl with
    | yes k => cases k <;> exact hmoved _
    | no k => cases k <;> exact hmoved _
    | _ => exact hmoved _
  | _ => exact hmoved _

/-- A thread that is not in `run` and does not enter it handles no copies. -/
theorem visiting_step (hs : system.step s a s') (hv : (s.loop a.tid).visiting = true)
    (hne : ∀ u, a ≠ .enter u) :
    (s'.loop a.tid).visiting = true ∧ s.starts a = none ∧ s.copied a = [] := by
  have hnot : ∀ {t pc}, s.loop t = pc → pc.visiting = false → (s.loop t).visiting ≠ true := by
    intro t pc hpc hfalse
    rw [hpc, hfalse]
    simp
  cases stepped hs with
  | enter t => exact absurd rfl (hne t)
  | stop t => exact ⟨congrArg PoolPc.visiting (setLoop_self s), rfl, rfl⟩
  | event a th =>
    rw [pushAll_loop]
    exact ⟨hv, rfl, rfl⟩
  | timer | lift | add_task | fiber => exact ⟨hv, rfl, rfl⟩
  | loop t hl =>
    have hstarts : s.starts (.loop t) = none := by
      cases hpc : s.loop t with
      | starting q => exact absurd hv (hnot hpc rfl)
      | _ => simp [starts, hpc]
    refine ⟨?_, hstarts, rfl⟩
    cases hl with
    | stop => exact congrArg PoolPc.visiting (setLoop_self s)
    | noEvents k hpc | drained k hpc | yes k hpc =>
      cases k with
      | idle => exact absurd hv (hnot hpc rfl)
      | stop => exact congrArg PoolPc.visiting (setLoop_self s)
    | no k hor =>
      cases k with
      | idle => rcases hor with hpc | hpc | hpc <;> exact absurd hv (hnot hpc rfl)
      | stop => exact congrArg PoolPc.visiting (setLoop_self s)
    | found skipped q rest hpc | nothing hpc | start q hpc | back q hpc | count hpc | leave hpc
    | ask hpc | delivered cbs hpc | enqueue cb f cbs hpc | enqueued hpc | yield hpc =>
      exact absurd hv (hnot hpc rfl)
  | epoll_wait t reports th hpc => exact absurd hv (hnot hpc rfl)
  | epoll_again t hpc => exact absurd hv (hnot hpc rfl)
  | epoll_failed t hpc => exact absurd hv (hnot hpc rfl)
  | sawEmpty t c hpc | listExpiredCb t c hpc => exact absurd hv (hnot hpc rfl)
  | deliver t now cbs i rest hpc => exact absurd hv (hnot hpc rfl)

/-- Only the thread `t` has been in `run`. -/
def Solo (s : Pool) (t : Tid) : Prop := ∀ u, u ≠ t → (s.loop u).visiting = true

theorem Solo.step (h : s.Solo t) (henter : ∀ u, a = .enter u → u = t)
    (hs : system.step s a s') : s'.Solo t := by
  intro u hu
  by_cases hact : u = a.tid
  · subst u
    apply (visiting_step hs (h _ hu) _).1
    intro v heq
    rw [heq] at hu
    exact hu (henter v heq)
  · rw [loop_of_ne hs hact]
    exact h u hu

theorem visiting_hand (h : pc.visiting = true) : pc.hand = none ∧ pc.cbs = [] := by
  cases pc <;> first | exact ⟨rfl, rfl⟩ | cases h

/-- The line of the only thread in `run` is shortened at its front and
lengthened at its end. -/
theorem Solo.line (h : s.Solo t) (hok : s.CopiesOk) (henter : ∀ u, a = .enter u → u = t)
    (hs : system.step s a s') : ∃ rest, s.pipeline.line t = (s.starts a).toList ++ rest ∧
      s'.pipeline.line t = rest ++ s.copied a := by
  have hstep := hok.pipeline hs
  by_cases ht : a.tid = t
  · subst t
    exact hstep.line_self
  · have hne : ∀ u, a ≠ .enter u := fun u heq => ht (heq ▸ henter u heq)
    obtain ⟨hv, hstarts, hcopied⟩ := visiting_step hs (h _ ht) hne
    rw [hstarts, hcopied] at hstep ⊢
    have hhand : s'.pipeline.hand a.tid = none := by
      change (s'.loop a.tid).hand.bind _ = none
      rw [(visiting_hand hv).1]
      rfl
    have hvector : s.pipeline.vector a.tid = [] := by
      change (s.loop a.tid).cbs.map _ = []
      rw [(visiting_hand (h _ ht)).2]
      rfl
    refine ⟨s.pipeline.line t, rfl, ?_⟩
    rw [hstep.line_other hvector hhand (Ne.symm ht), List.append_nil]

/-- Both timers are in the set, and no copy of the second is on its way. -/
structure Waiting (s : Pool) (i j : TimerPtr) : Prop where
  first : i ∈ s.timers.m_timers
  second : j ∈ s.timers.m_timers
  firstOnce : (s.timers.heap i).m_recurring = false
  secondOnce : (s.timers.heap j).m_recurring = false
  earlier : (s.timers.heap i).m_next < (s.timers.heap j).m_next
  fresh : ∀ f, s.pipeline.Holds f → f.timer ≠ j

/-- The first timer is to be delivered, the second not before it, and no copy of the
second is on its way. -/
structure Delivering (s : Pool) (i j : TimerPtr) : Prop where
  order : ∃ before after, s.expired = before ++ i :: after ∧ j ∉ before
  fresh : ∀ f, s.pipeline.Holds f → f.timer ≠ j

/-- The first timer is to be started before the second. -/
def InOrder (s : Pool) (t : Tid) (i j : TimerPtr) : Prop :=
  s.Waiting i j ∨ s.Delivering i j ∨
    Ahead (fun f => f.timer = i) (fun f => f.timer = j) (s.pipeline.line t)

theorem Waiting.of_kept (h : s.Waiting i j)
    (hi : i ∈ s'.timers.m_timers ∧ s'.timers.heap i = s.timers.heap i)
    (hj : j ∈ s'.timers.m_timers ∧ s'.timers.heap j = s.timers.heap j)
    (hfresh : ∀ f, s'.pipeline.Holds f → f.timer ≠ j) : s'.Waiting i j where
  first := hi.1
  second := hj.1
  firstOnce := by rw [hi.2]; exact h.firstOnce
  secondOnce := by rw [hj.2]; exact h.secondOnce
  earlier := by rw [hi.2, hj.2]; exact h.earlier
  fresh := hfresh

theorem kept_of_not_taken {m : TimerManager} {c : ExpireCall} (hmem : i ∈ m.m_timers)
    (hout : i ∉ (m.takeExpired c).1) :
    i ∈ (m.takeExpired c).2.m_timers ∧ (m.takeExpired c).2.heap i = m.heap i := by
  have hspec := m.takeExpired_spec c
  refine ⟨?_, congrFun hspec.heap i⟩
  rw [← hspec.timers] at hmem
  exact (List.mem_append.mp hmem).resolve_left hout

theorem kept_of_delivered {e : Expiry} {k : TimerPtr} {rest : List TimerPtr}
    (hinv : StoreInv e.manager (k :: rest)) (hmem : i ∈ e.manager.m_timers)
    (hone : (e.manager.heap i).m_recurring = false) : i ≠ k ∧
      i ∈ (e.deliver k).manager.m_timers ∧ (e.deliver k).manager.heap i = e.manager.heap i := by
  have hne : i ≠ k := fun heq => hinv.not_mem_out hmem (heq ▸ List.mem_cons_self)
  exact ⟨hne, (Expiry.deliver_mem hinv hone).mpr hmem, Expiry.deliver_heap hne⟩

theorem Waiting.step (h : s.Waiting i j) (hok : s.CopiesOk)
    (hkeep : ∀ k, k = i ∨ k = j → k ∈ s.timers.m_timers → a.target ≠ some k)
    (hs : system.step s a s') : s'.Waiting i j ∨ s'.Delivering i j := by
  have hinv := hok.inv
  have hheld : ∀ f, s'.pipeline.Holds f → f.timer ≠ j ∨ f ∈ s.copied a :=
    fun f hf => ((hok.pipeline hs).holds hf).imp_left (h.fresh f)
  have hfresh : s.copied a = [] → ∀ f, s'.pipeline.Holds f → f.timer ≠ j := by
    intro hnone f hf
    apply (hheld f hf).resolve_right
    rw [hnone]
    exact List.not_mem_nil
  have hknown : ∀ k ∈ s.timers.m_timers, k < s.timers.created :=
    fun k hk => hok.known (List.mem_append_left _ hk)
  have htimers := hok.timers hs
  generalize hm : s'.timers = m, hout : s'.expired = out at htimers
  cases htimers with
  | same hnone _ =>
    refine Or.inl (h.of_kept ?_ ?_ (hfresh hnone))
    · rw [hm]
      exact ⟨h.first, rfl⟩
    · rw [hm]
      exact ⟨h.second, rfl⟩
  | op u hexpired hop hstep =>
    rw [hexpired] at hinv
    have hi := (mem_of_op hinv hstep hop (hknown i h.first)).2
      (hkeep i (Or.inl rfl) h.first) h.first
    have hj := (mem_of_op hinv hstep hop (hknown j h.second)).2
      (hkeep j (Or.inr rfl) h.second) h.second
    exact Or.inl (h.of_kept (hm ▸ hi) (hm ▸ hj) (hfresh rfl))
  | take u c hexpired =>
    rw [hexpired] at hinv
    rcases taken_in_order (c := c) hinv h.first h.earlier with
      ⟨hi, hj⟩ | ⟨before, after, hbatch, hj⟩
    · exact Or.inl (h.of_kept (hm ▸ kept_of_not_taken h.first hi)
        (hm ▸ kept_of_not_taken h.second hj) (hfresh rfl))
    · exact Or.inr ⟨⟨before, after, hout.trans hbatch, hj⟩, hfresh rfl⟩
  | @deliver u now k rest hexpired hcopied =>
    rw [hexpired] at hinv
    obtain ⟨_, hi⟩ := kept_of_delivered (e := ⟨s.timers, [], now, []⟩) hinv h.first h.firstOnce
    obtain ⟨hne, hj⟩ := kept_of_delivered (e := ⟨s.timers, [], now, []⟩) hinv h.second h.secondOnce
    refine Or.inl (h.of_kept (hm ▸ hi) (hm ▸ hj) fun f hf => (hheld f hf).elim id fun hmade => ?_)
    rw [hcopied] at hmade
    rw [List.mem_singleton.mp hmade]
    exact hne.symm

theorem Delivering.step (h : s.Delivering i j) (hsolo : s.Solo t) (hok : s.CopiesOk)
    (henter : ∀ u, a = .enter u → u = t) (hs : system.step s a s') : s'.Delivering i j ∨
      Ahead (fun f => f.timer = i) (fun f => f.timer = j) (s'.pipeline.line t) := by
  obtain ⟨⟨before, after, horder, hj⟩, hfresh⟩ := h
  have hheld : ∀ f, s'.pipeline.Holds f → f.timer ≠ j ∨ f ∈ s.copied a :=
    fun f hf => ((hok.pipeline hs).holds hf).imp_left (hfresh f)
  have hsome : s.expired ≠ [] := by
    rw [horder]
    simp
  have htimers := hok.timers hs
  generalize hm : s'.timers = m, hout : s'.expired = out at htimers
  cases htimers with
  | same hnone _ =>
    refine Or.inl ⟨⟨before, after, hout.trans horder, hj⟩, fun f hf => ?_⟩
    apply (hheld f hf).resolve_right
    rw [hnone]
    exact List.not_mem_nil
  | op _ hexpired => exact absurd hexpired hsome
  | take _ _ hexpired => exact absurd hexpired hsome
  | @deliver u now k rest hexpired hcopied =>
    rw [hexpired] at horder
    cases before with
    | nil =>
      obtain ⟨rfl, _⟩ := List.cons.inj horder
      obtain ⟨line, hline, hline'⟩ := hsolo.line hok henter hs
      refine Or.inr ⟨line, ⟨k, s.fired⟩, [], ?_, rfl, fun f hf => ?_⟩
      · rw [hline', hcopied]
      · apply hfresh f (Pipeline.holds_of_line (t := t) _)
        rw [hline]
        exact List.mem_append_right _ hf
    | cons k' before =>
      obtain ⟨rfl, hrest⟩ := List.cons.inj horder
      obtain ⟨hne, hj⟩ := not_or.mp (fun hor => hj (List.mem_cons.mpr hor))
      refine Or.inl ⟨⟨before, after, hout.trans hrest, hj⟩, fun f hf => ?_⟩
      refine (hheld f hf).elim id fun hmade => ?_
      rw [hcopied] at hmade
      rw [List.mem_singleton.mp hmade]
      exact Ne.symm hne

/-- Until the first timer has been started, the second is not. -/
theorem InOrder.step (h : s.InOrder t i j) (hsolo : s.Solo t) (hok : s.CopiesOk)
    (henter : ∀ u, a = .enter u → u = t)
    (hkeep : ∀ k, k = i ∨ k = j → k ∈ s.timers.m_timers → a.target ≠ some k)
    (hs : system.step s a s') : (∃ f, s.starts a = some f ∧ f.timer = i) ∨
      (∀ f, s.starts a = some f → f.timer ≠ j) ∧ s'.InOrder t i j := by
  have hnot : (∀ f, s.pipeline.Holds f → f.timer ≠ j) → ∀ f, s.starts a = some f → f.timer ≠ j := by
    intro hfresh f hf
    have hstep := hok.pipeline hs
    rw [hf] at hstep
    exact hfresh f hstep.holds_started
  rcases h with hwait | hdeliver | hahead
  · exact Or.inr ⟨hnot hwait.fresh, (hwait.step hok hkeep hs).imp_right Or.inl⟩
  · exact Or.inr ⟨hnot hdeliver.fresh, Or.inr (hdeliver.step hsolo hok henter hs)⟩
  · obtain ⟨rest, hline, hline'⟩ := hsolo.line hok henter hs
    rw [hline] at hahead
    rcases hahead.shift (s.copied a) with hfirst | ⟨hother, hrest⟩
    · exact Or.inl hfirst
    · exact Or.inr ⟨hother, Or.inr (Or.inr (hline' ▸ hrest))⟩

theorem InOrder.run {tr : List (Move Pool PoolAct)} (hr : Run system s tr s')
    (h : s.InOrder t i j) (hsolo : s.Solo t) (hok : s.CopiesOk)
    (henter : ∀ mv ∈ tr, ∀ u, mv.act = .enter u → u = t)
    (hkeep : ∀ mv ∈ tr, ∀ k, k = i ∨ k = j → k ∈ mv.pre.timers.m_timers → mv.act.target ≠ some k)
    (hij : i ≠ j) {before after : List (Move Pool PoolAct)} {x : Move Pool PoolAct}
    (htr : tr = before ++ x :: after) {f : Firing} (hstart : x.pre.starts x.act = some f)
    (hf : f.timer = j) : ∃ y ∈ before, ∃ g, y.pre.starts y.act = some g ∧ g.timer = i := by
  induction hr generalizing before with
  | nil => simp at htr
  | @cons s s₁ s' a tr hstep _ ih =>
    obtain ⟨henter₀, henter⟩ := List.forall_mem_cons.mp henter
    obtain ⟨hkeep₀, hkeep⟩ := List.forall_mem_cons.mp hkeep
    have hnext := h.step hsolo hok henter₀ hkeep₀ hstep
    cases before with
    | nil =>
      obtain ⟨rfl, _⟩ := List.cons.inj htr
      rcases hnext with ⟨g, hg, hi⟩ | ⟨hnot, _⟩
      · cases hg.symm.trans hstart
        exact absurd (hi.symm.trans hf) hij
      · exact absurd hf (hnot f hstart)
    | cons y before =>
      obtain ⟨hhead, htail⟩ := List.cons.inj htr
      rcases hnext with ⟨g, hg, hi⟩ | ⟨_, hrest⟩
      · exact ⟨y, List.mem_cons_self, hhead ▸ ⟨g, hg, hi⟩⟩
      · have hsolo := hsolo.step henter₀ hstep
        obtain ⟨z, hz, hfirst⟩ := ih hrest hsolo (hok.step hstep) henter hkeep htail
        exact ⟨z, List.mem_cons_of_mem y hz, hfirst⟩

/-- In a run in which only the thread `t` calls `run`: of two one-shot timers
that are in the set at some moment and that are, from then on, not operated on
while they are in it, the one with the later deadline is not started before the
other has been. -/
theorem deadline_order {start : Millis} {before after l l' : List (Move Pool PoolAct)}
    {x : Move Pool PoolAct} {f : Firing} (hbefore : Run system (initial start) before s)
    (hafter : Run system s after s')
    (hsolo : ∀ mv ∈ before ++ after, ∀ u, mv.act = .enter u → u = t)
    (hi : i ∈ s.timers.m_timers) (hj : j ∈ s.timers.m_timers)
    (honce : (s.timers.heap i).m_recurring = false)
    (honce' : (s.timers.heap j).m_recurring = false)
    (hlt : (s.timers.heap i).m_next < (s.timers.heap j).m_next)
    (hkeep : ∀ mv ∈ after, ∀ k, k = i ∨ k = j → k ∈ mv.pre.timers.m_timers →
      mv.act.target ≠ some k)
    (hsplit : after = l ++ x :: l') (hstart : x.pre.starts x.act = some f) (hf : f.timer = j) :
    ∃ y ∈ l, ∃ g, y.pre.starts y.act = some g ∧ g.timer = i := by
  have keeps : ∀ {s a s'}, CopiesOk s ∧ Solo s t → (∀ u, a = .enter u → u = t) →
      system.step s a s' → CopiesOk s' ∧ Solo s' t :=
    fun hs henter hstep => ⟨hs.1.step hstep, hs.2.step henter hstep⟩
  have hinitial : CopiesOk (initial start) ∧ Solo (initial start) t :=
    ⟨initial_copiesOk start, fun _ _ => rfl⟩
  obtain ⟨hok, hs⟩ := hbefore.invariant_of_guard (fun s => CopiesOk s ∧ Solo s t) _ keeps hinitial
    (fun mv hmv => hsolo mv (List.mem_append_left _ hmv))
  have hfresh : ∀ f, s.pipeline.Holds f → f.timer ≠ j :=
    fun f hf heq => (hok.spent f hf).2 (heq ▸ honce') (heq ▸ List.mem_append_left _ hj)
  have hij : i ≠ j := fun heq => absurd (heq ▸ hlt) (BitVec.lt_irrefl _)
  have hwait : s.Waiting i j := ⟨hi, hj, honce, honce', hlt, hfresh⟩
  have henter := fun mv hmv => hsolo mv (List.mem_append_right before hmv)
  exact InOrder.run hafter (Or.inl hwait) hs hok henter hkeep hij hsplit hstart hf

/-- Two timers, the second with the earlier deadline; a thread enters `run`,
copies both callbacks, and starts both. -/
def startingTwo : List PoolAct :=
  [.timer 0 (.add_timer ⟨16, 9, some 7, false, 100⟩),
    .timer 0 (.add_timer ⟨32, 5, some 8, false, 100⟩), .enter 1, .loop 1, .loop 1, .loop 1,
    .loop 1, .epoll_wait 1 [], .listExpiredCb 1 ⟨[], 110, false, 48, 110, []⟩, .deliver 1 110,
    .deliver 1 110] ++ List.replicate 11 (.loop 1)

theorem deadline_order_two : ∃ before after s s' l x l', Run system (initial 0) before s ∧
    Run system s after s' ∧ (before ++ after).map Move.act = startingTwo ∧
    after = l ++ x :: l' ∧ x.pre.starts x.act = some ⟨0, 1⟩ ∧
    ∃ y ∈ l, ∃ g, y.pre.starts y.act = some g ∧ g.timer = 1 := by
  have hrun : (traceAll next (initial 0) startingTwo).map (fun r =>
      ((r.1.all fun mv => match mv.act with | .enter u => u = 1 | _ => true) &&
          (r.1.drop 2).all fun mv => mv.act.target = none,
        (r.1[2]?.map fun mv => decide (1 ∈ mv.pre.timers.m_timers ∧ 0 ∈ mv.pre.timers.m_timers ∧
          (mv.pre.timers.heap 1).m_recurring = false ∧
          (mv.pre.timers.heap 0).m_recurring = false ∧
          (mv.pre.timers.heap 1).m_next < (mv.pre.timers.heap 0).m_next)),
        (r.1.drop 2)[19]?.map fun x => x.pre.starts x.act)) =
      some (true, some true, some (some ⟨0, 1⟩)) := by decide +kernel
  obtain ⟨tr, s', hr, hacts, hobs⟩ := Run.exists_of_traceAll next next_sound _ hrun
  simp only [Prod.mk.injEq, Bool.and_eq_true] at hobs
  obtain ⟨⟨hsolo, htargets⟩, hstate, hstart⟩ := hobs
  obtain ⟨mv, hmv, hstate⟩ := Option.map_eq_some_iff.mp hstate
  obtain ⟨x, hx, hstart⟩ := Option.map_eq_some_iff.mp hstart
  obtain ⟨hin, hin', hfirst, hsecond, hlt⟩ := of_decide_eq_true hstate
  obtain ⟨hbefore, hafter⟩ := hr.split_of_getElem hmv
  have hone : ∀ mv ∈ tr.take 2 ++ tr.drop 2, ∀ u, mv.act = .enter u → u = 1 := by
    rw [List.take_append_drop]
    intro mv hmem u hact
    have htest := List.all_eq_true.mp hsolo mv hmem
    simpa [hact] using htest
  have hkeep : ∀ mv ∈ tr.drop 2, ∀ k, k = 1 ∨ k = 0 → k ∈ mv.pre.timers.m_timers →
      mv.act.target ≠ some k := by
    intro mv hmem k _ _
    have htest := of_decide_eq_true (List.all_eq_true.mp htargets mv hmem)
    simp [htest]
  have hsplit := eq_take_append_drop hx
  have hlaw := deadline_order hbefore hafter hone hin hin' hfirst hsecond hlt hkeep
    hsplit hstart rfl
  refine ⟨_, _, mv.pre, s', _, x, _, hbefore, hafter, ?_, hsplit, hstart, hlaw⟩
  rw [List.take_append_drop, hacts]

end Pool

end FiberAsync
