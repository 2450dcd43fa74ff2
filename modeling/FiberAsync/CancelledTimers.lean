import FiberAsync.PoolFirings
import FiberAsync.TimerFrames

/-!
# What a successful cancel leaves

`cancel` returns true for a timer that is in the set. A one-shot timer is then
nowhere else, so its callback is never started. A recurring timer has been put
back into the set when its callback was copied, and `cancel` does not reach the
copies that are already on their way; it stops the making of new ones. It waits
for a thread in the loop of `listExpiredCb`, which has the write lock.
-/

namespace FiberAsync

set_option autoImplicit false

open Runs Pipelines TimerManager

theorem TimerManager.cancel_removes {m m' m₁ : TimerManager} {i : TimerPtr}
    (h : StoreInv m []) (hs : TimerManager.system.step m (.cancel i) m')
    (hc : m.cancel i = .ok (true, m₁)) : i ∈ m.m_timers ∧ i ∉ m'.m_timers := by
  obtain ⟨ha, r, hexec⟩ := hs
  obtain ⟨b, heq, _⟩ := exec_cancel_iff.mp hexec
  cases heq.symm.trans hc
  rcases h.cancel_cases ha hc with ⟨hmem, _, hleaves⟩ | ⟨_, hfalse, _⟩
  · exact ⟨hmem, hleaves.mem.mp⟩
  · cases hfalse

namespace Pool

variable {s s' : Pool} {a : PoolAct} {t : Tid} {i : TimerPtr}

/-- The write lock is held between steps by the thread in the loop of `listExpiredCb`. -/
def LockOk (s : Pool) : Prop := ∀ t, s.writer = some t ↔ (s.loop t).delivers = true

theorem initial_lockOk (start : Millis) : (initial start).LockOk :=
  fun _ => ⟨fun h => (by cases h), fun h => (by cases h)⟩

/-- The timers in the set and those that have been taken out of it to be delivered. -/
def owned (s : Pool) : List TimerPtr := s.timers.m_timers ++ s.expired

namespace LockOk

theorem writer_ne (h : s.LockOk) {pc : PoolPc} (hpc : s.loop t = pc) (hno : pc.delivers = false) :
    s.writer ≠ some t := by
  intro hw
  have hdelivers := (h t).mp hw
  rw [hpc, hno] at hdelivers
  cases hdelivers

theorem expired_of_delivering (h : s.LockOk) {cbs : List Expired} {rest : List TimerPtr}
    (hpc : s.loop t = .delivering cbs rest) : s.writer = some t ∧ s.expired = rest := by
  have hw : s.writer = some t := (h t).mpr (by rw [hpc]; rfl)
  refine ⟨hw, ?_⟩
  simp only [expired, hw, hpc, PoolPc.expired]

theorem moved (h : s.LockOk) {pc : PoolPc} (hw : s'.writer = s.writer)
    (hloop : s'.loop = Function.update s.loop t pc)
    (hpc : pc.delivers = (s.loop t).delivers) : s'.LockOk := by
  intro u
  rw [hw, hloop, h u]
  by_cases hut : u = t
  · subst u
    rw [Function.update_self, hpc]
  · rw [Function.update_of_ne hut]

theorem takes (h : s.LockOk) {pc : PoolPc} (hfree : s.writer = none) (hw : s'.writer = some t)
    (hloop : s'.loop = Function.update s.loop t pc) (hpc : pc.delivers = true) : s'.LockOk := by
  intro u
  rw [hw, hloop]
  by_cases hut : u = t
  · subst u
    simp [hpc]
  · have hno : ¬ (s.loop u).delivers = true := fun hd => by
      have hwriter := (h u).mpr hd
      rw [hfree] at hwriter
      cases hwriter
    simp [Function.update_of_ne hut, hno, Ne.symm hut]

theorem leaves (h : s.LockOk) {pc : PoolPc} (hholds : (s.loop t).delivers = true)
    (hw : s'.writer = none) (hloop : s'.loop = Function.update s.loop t pc)
    (hpc : pc.delivers = false) : s'.LockOk := by
  intro u
  rw [hw, hloop]
  by_cases hut : u = t
  · subst u
    simp [hpc]
  · have hno : ¬ (s.loop u).delivers = true := fun hd =>
      hut (Option.some.inj (((h u).mpr hd).symm.trans ((h t).mpr hholds)))
    simp [Function.update_of_ne hut, hno]

theorem step (h : s.LockOk) (hs : system.step s a s') : s'.LockOk := by
  have answer : ∀ {t k b}, (s.loop t).delivers = false → (s.answer t k b).LockOk := by
    intro t k b hpc
    cases k <;> cases b <;> exact h.moved rfl rfl hpc.symm
  cases stepped hs with
  | event a th =>
    obtain ⟨_, _, hloop, _, _, _, hwriter⟩ := pushAll_frame { s with toThreads := th }
      (handed (th.io.tasks.drop s.io.tasks.length))
    intro u
    rw [hloop, hwriter]
    exact h u
  | timer | lift | add_task | fiber => exact h
  | loop t hl =>
    cases hl with
    | delivered cbs hpc => exact h.leaves (by rw [hpc]; rfl) rfl rfl rfl
    | yes k hpc => exact answer (by rw [hpc]; rfl)
    | no k hor => rcases hor with hpc | hpc | hpc <;> exact answer (by rw [hpc]; rfl)
    | found skipped q rest hpc | nothing hpc | start q hpc | back q hpc | count hpc | leave hpc
    | ask hpc | noEvents k hpc | drained k hpc | stop hpc | enqueue cb f cbs hpc | enqueued hpc
    | yield hpc => exact h.moved rfl rfl (by rw [hpc]; rfl)
  | listExpiredCb t c hpc hfree => exact h.takes hfree rfl rfl rfl
  | enter t hpc | stop t hpc | epoll_wait t reports th hpc | epoll_again t hpc
  | epoll_failed t hpc | sawEmpty t c hpc | deliver t now cbs i rest hpc =>
    exact h.moved rfl rfl (by rw [hpc]; rfl)

end LockOk

/-- What a step does with the timers and with those being delivered, and the copies it
makes. -/
inductive TimersStep (s : Pool) : PoolAct → TimerManager → List TimerPtr → Prop where
  | same {a : PoolAct} : s.copied a = [] → (∀ t op, a ≠ .timer t op) →
      TimersStep s a s.timers s.expired
  | op (t : Tid) {op : TimerOp} {m : TimerManager} : s.expired = [] →
      (∀ c, op ≠ .listExpiredCb c) → TimerManager.system.step s.timers op m →
      TimersStep s (.timer t op) m []
  | take (t : Tid) (c : ExpireCall) : s.expired = [] → TimersStep s (.listExpiredCb t c)
      (s.timers.takeExpired c).2 (s.timers.takeExpired c).1
  | deliver (t : Tid) (now : Millis) {i : TimerPtr} {rest : List TimerPtr} :
      s.expired = i :: rest → s.copied (.deliver t now) = [⟨i, s.fired⟩] →
      TimersStep s (.deliver t now) (Expiry.deliver ⟨s.timers, [], now, []⟩ i).manager rest

theorem expired_of_free (h : s.writer = none) : s.expired = [] := by
  simp only [expired, h]

theorem expired_moved {pc : PoolPc} (hw : s'.writer = s.writer)
    (hloop : s'.loop = Function.update s.loop t pc) (hne : s.writer ≠ some t) :
    s'.expired = s.expired := by
  unfold expired
  rw [hw]
  split
  case h_1 u hu =>
    have hut : u ≠ t := fun heq => hne (heq ▸ hu)
    rw [hloop, Function.update_of_ne hut]
  case h_2 => rfl

theorem same_of_moved {pc : PoolPc} (hcopied : s.copied a = []) (hop : ∀ t op, a ≠ .timer t op)
    (htimers : s'.timers = s.timers) (hw : s'.writer = s.writer)
    (hloop : s'.loop = Function.update s.loop t pc) (hne : s.writer ≠ some t) :
    TimersStep s a s'.timers s'.expired := by
  rw [htimers, expired_moved hw hloop hne]
  exact .same hcopied hop

theorem same_of_answer (h : s.LockOk) (k : Asker) (b : Bool) {pc : PoolPc} (hpc : s.loop t = pc)
    (hno : pc.delivers = false) : TimersStep s (.loop t) (s.answer t k b).timers
      (s.answer t k b).expired := by
  cases k <;> cases b <;>
    exact same_of_moved rfl (by simp) rfl rfl rfl (h.writer_ne hpc hno)

theorem timers_step (h : s.LockOk) (hs : system.step s a s') :
    TimersStep s a s'.timers s'.expired := by
  cases stepped hs with
  | timer t op m hfree hmay hm =>
    have hexpired : expired { s with timers := m, lifted := none } = [] := expired_of_free hfree
    rw [hexpired]
    refine .op t (expired_of_free hfree) (fun c heq => ?_) (TimerManager.next_sound hm)
    subst op
    rw [mayOperate_listExpiredCb] at hmay
    cases hmay
  | event a th =>
    obtain ⟨_, htimers, hloop, _, _, _, hwriter⟩ := pushAll_frame { s with toThreads := th }
      (handed (th.io.tasks.drop s.io.tasks.length))
    have hexpired : expired (pushAll { s with toThreads := th }
        (handed (th.io.tasks.drop s.io.tasks.length))) = s.expired := by
      unfold expired
      rw [hloop, hwriter]
    rw [htimers, hexpired]
    exact .same rfl (by simp)
  | lift | add_task | fiber => exact .same rfl (by simp)
  | loop t hl =>
    cases hl with
    | delivered cbs hpc =>
      have hnone : s.expired = [] := (h.expired_of_delivering hpc).2
      have hnone' : expired { s.setLoop t (.enqueueing cbs) with writer := none } = s.expired :=
        hnone.symm
      rw [hnone']
      exact .same rfl (by simp)
    | yes k hpc => exact same_of_answer h k true hpc rfl
    | no k hor => rcases hor with hpc | hpc | hpc <;> exact same_of_answer h k false hpc rfl
    | found skipped q rest hpc | nothing hpc | start q hpc | back q hpc | count hpc | leave hpc
    | ask hpc | noEvents k hpc | drained k hpc | stop hpc | enqueue cb f cbs hpc | enqueued hpc
    | yield hpc => exact same_of_moved rfl (by simp) rfl rfl rfl (h.writer_ne hpc rfl)
  | listExpiredCb t c hpc hfree =>
    have hexpired : expired { s.setLoop t (.delivering [] (s.timers.takeExpired c).1) with
        timers := (s.timers.takeExpired c).2, writer := some t } =
        (s.timers.takeExpired c).1 := congrArg PoolPc.expired (setLoop_self s)
    rw [hexpired]
    exact .take t c (expired_of_free hfree)
  | deliver t now cbs i rest hpc =>
    obtain ⟨hw, hexpired⟩ := h.expired_of_delivering hpc
    have hrest : expired { s.setLoop t
        (.delivering (cbs ++ [((s.timers.heap i).m_cb, ⟨i, s.fired⟩)]) rest) with
        timers := (Expiry.deliver ⟨s.timers, [], now, []⟩ i).manager, fired := s.fired + 1 } =
        rest := by
      simp only [expired, setLoop, hw, Function.update_self, PoolPc.expired]
    rw [hrest]
    exact .deliver t now hexpired (copied_deliver hpc)
  | enter t hpc | stop t hpc | epoll_wait t reports th hpc | epoll_again t hpc
  | epoll_failed t hpc | sawEmpty t c hpc =>
    exact same_of_moved rfl (by simp) rfl rfl rfl (h.writer_ne hpc rfl)

namespace TimersStep

variable {m : TimerManager} {out : List TimerPtr} (h : TimersStep s a m out)
  (hinv : StoreInv s.timers s.expired)
include h hinv

theorem inv : StoreInv m out := by
  cases h with
  | same => exact hinv
  | op t hexpired _ hstep =>
    rw [hexpired] at hinv
    exact (step_effect hinv hstep).inv
  | take t c hexpired =>
    rw [hexpired] at hinv
    exact hinv.batch c
  | deliver t now hexpired =>
    rw [hexpired] at hinv
    exact Expiry.deliver_inv (e := ⟨s.timers, [], now, []⟩) hinv

theorem keeps : Keeps s.timers m := by
  cases h with
  | same => exact .of_heap rfl rfl
  | op t hexpired _ hstep =>
    rw [hexpired] at hinv
    exact (step_effect hinv hstep).keeps
  | take t c =>
    obtain ⟨_, hheap, _, hcreated⟩ := s.timers.takeExpired_spec c
    exact .of_heap hcreated hheap
  | deliver t now => exact Expiry.deliver_keeps (e := ⟨s.timers, [], now, []⟩)

theorem stays_out (hi : i < s.timers.created) (hout : i ∉ s.owned) : i ∉ m.m_timers ++ out := by
  unfold owned at hout
  cases h with
  | same => exact hout
  | op t hexpired _ hstep =>
    rw [hexpired, List.append_nil] at hout
    rw [hexpired] at hinv
    rw [List.append_nil]
    exact TimerManager.stays_out hinv hstep hi hout
  | take t c hexpired =>
    rw [hexpired, List.append_nil, ← (s.timers.takeExpired_spec c).timers] at hout
    exact fun hmem => hout (List.perm_append_comm.mem_iff.mp hmem)
  | @deliver t now k rest hexpired =>
    rw [hexpired] at hout
    intro hmem
    apply hout
    rcases List.mem_append.mp hmem with hmem | hmem
    · rcases Expiry.deliver_mem_imp (e := ⟨s.timers, [], now, []⟩) hmem with rfl | hmem
      · exact List.mem_append_right _ List.mem_cons_self
      · exact List.mem_append_left _ hmem
    · exact List.mem_append_right _ (List.mem_cons_of_mem _ hmem)

/-- A copy comes from a timer that is being delivered and, if it is a one-shot timer,
is neither in the set nor to be delivered after the step. -/
theorem of_copied {f : Firing} (hf : f ∈ s.copied a) : f.timer ∈ s.owned ∧
    ((s.timers.heap f.timer).m_recurring = false → f.timer ∉ m.m_timers ++ out) := by
  cases h with
  | same hnone =>
    rw [hnone] at hf
    cases hf
  | op => cases hf
  | take => cases hf
  | @deliver t now i rest hexpired hcopied =>
    rw [hcopied, List.mem_singleton] at hf
    subst f
    constructor
    · rw [owned, hexpired]
      exact List.mem_append_right _ List.mem_cons_self
    · intro hone
      rw [hexpired] at hinv
      rw [Expiry.deliver_oneShot (e := ⟨s.timers, [], now, []⟩) hone]
      exact (List.nodup_cons.mp (List.perm_middle.nodup_iff.mp hinv.nodup)).1

end TimersStep

structure CopiesOk (s : Pool) : Prop where
  tasks : s.TasksOk
  lock : s.LockOk
  inv : StoreInv s.timers s.expired
  /-- a one-shot timer whose callback is on its way is out of the set -/
  spent : ∀ f, s.pipeline.Holds f → f.timer < s.timers.created ∧
    ((s.timers.heap f.timer).m_recurring = false → f.timer ∉ s.owned)

theorem initial_holds (start : Millis) (f : Firing) : ¬ (initial start).pipeline.Holds f := by
  intro h
  rcases h with ⟨u, h⟩ | h | ⟨u, h⟩ <;> cases h

theorem initial_copiesOk (start : Millis) : (initial start).CopiesOk where
  tasks := initial_tasksOk start
  lock := initial_lockOk start
  inv := new_inv start
  spent := fun f h => absurd h (initial_holds start f)

namespace CopiesOk

theorem known (h : s.CopiesOk) (hi : i ∈ s.owned) : i < s.timers.created :=
  h.inv.numbered i (h.inv.owned i hi)

theorem timers (h : s.CopiesOk) (hs : system.step s a s') :
    TimersStep s a s'.timers s'.expired := timers_step h.lock hs

theorem pipeline (h : s.CopiesOk) (hs : system.step s a s') :
    Step a.tid s.pipeline (s.starts a) (s.copied a) s'.pipeline :=
  pipeline_step h.tasks hs

theorem step (h : s.CopiesOk) (hs : system.step s a s') : s'.CopiesOk := by
  have htimers := h.timers hs
  have hkeeps := htimers.keeps h.inv
  refine ⟨h.tasks.step hs, h.lock.step hs, htimers.inv h.inv, fun f hf => ?_⟩
  rcases (h.pipeline hs).holds hf with hold | hmade
  · obtain ⟨hknown, hspent⟩ := h.spent f hold
    refine ⟨hknown.trans_le hkeeps.created, fun hone => ?_⟩
    rw [hkeeps.recurring f.timer hknown] at hone
    exact htimers.stays_out h.inv hknown (hspent hone)
  · obtain ⟨hmem, hspent⟩ := htimers.of_copied h.inv hmade
    refine ⟨(h.known hmem).trans_le hkeeps.created, fun hone => ?_⟩
    rw [hkeeps.recurring f.timer (h.known hmem)] at hone
    exact hspent hone

end CopiesOk

theorem held_copied {tr : List (Move Pool PoolAct)} {start : Millis}
    (hr : Run system (initial start) tr s) :
    s.CopiesOk ∧ ∀ f, s.pipeline.Holds f → ∃ mv ∈ tr, f ∈ mv.pre.copied mv.act := by
  apply hr.history fun tr s => s.CopiesOk ∧
    ∀ f, s.pipeline.Holds f → ∃ mv ∈ tr, f ∈ mv.pre.copied mv.act
  · intro tr s a s' hs hstep
    refine ⟨hs.1.step hstep, fun f hf => ?_⟩
    rcases (hs.1.pipeline hstep).holds hf with hold | hmade
    · obtain ⟨mv, hmv, hf⟩ := hs.2 f hold
      exact ⟨mv, List.mem_append_left _ hmv, hf⟩
    · exact ⟨⟨s, a, s'⟩, by simp, hmade⟩
  · exact ⟨initial_copiesOk start, fun f hf => absurd hf (initial_holds start f)⟩

/-- The timer is out of the set for good, and only copies with a property are on their way. -/
structure Ended (i : TimerPtr) (P : Firing → Prop) (s : Pool) : Prop where
  copies : s.CopiesOk
  known : i < s.timers.created
  out : i ∉ s.owned
  left : ∀ f, s.pipeline.Holds f → f.timer = i → P f

namespace Ended

variable {P : Firing → Prop}

theorem not_copied (h : Ended i P s) (hs : system.step s a s') {f : Firing}
    (hf : f ∈ s.copied a) : f.timer ≠ i := by
  intro heq
  obtain ⟨hmem, _⟩ := (h.copies.timers hs).of_copied h.copies.inv hf
  exact h.out (heq ▸ hmem)

theorem step (h : Ended i P s) (hs : system.step s a s') : Ended i P s' := by
  have htimers := h.copies.timers hs
  refine ⟨h.copies.step hs, h.known.trans_le (htimers.keeps h.copies.inv).created,
    htimers.stays_out h.copies.inv h.known h.out, fun f hf heq => ?_⟩
  rcases (h.copies.pipeline hs).holds hf with hold | hmade
  · exact h.left f hold heq
  · exact absurd heq (h.not_copied hs hmade)

variable {tr : List (Move Pool PoolAct)} {x : Move Pool PoolAct} {f : Firing}

theorem pre (h : Ended i P s) (hr : Run system s tr s') (hx : x ∈ tr) : Ended i P x.pre :=
  (hr.invariant_at (Ended i P) (fun hs hstep => hs.step hstep) h hx).1

theorem run (h : Ended i P s) (hr : Run system s tr s') (hx : x ∈ tr)
    (hstart : x.pre.starts x.act = some f) (hf : f.timer = i) : P f := by
  have hpre := h.pre hr hx
  have hstep := hpre.copies.pipeline (hr.step_of_mem hx)
  rw [hstart] at hstep
  exact hpre.left f hstep.holds_started hf

end Ended

theorem ended_of_cancel {start : Millis} {before : List (Move Pool PoolAct)} {m : TimerManager}
    (hr : Run system (initial start) before s) (hs : system.step s (.timer t (.cancel i)) s')
    (hcancel : s.timers.cancel i = .ok (true, m)) :
    Ended i (fun f => (s.timers.heap i).m_recurring = true ∧
      ∃ y ∈ before, f ∈ y.pre.copied y.act) s' := by
  obtain ⟨hcopies, hmade⟩ := held_copied hr
  have htimers := hcopies.timers hs
  obtain ⟨hmem, hout⟩ : i ∈ s.owned ∧ i ∉ s'.owned := by
    unfold owned
    generalize s'.timers = m', s'.expired = out at htimers
    cases htimers with
    | same _ hne => exact absurd rfl (hne t _)
    | op _ hexpired _ hcstep =>
      have hinv := hcopies.inv
      rw [hexpired] at hinv
      rw [hexpired, List.append_nil, List.append_nil]
      exact cancel_removes hinv hcstep hcancel
  have hknown := hcopies.known hmem
  refine ⟨hcopies.step hs, hknown.trans_le (htimers.keeps hcopies.inv).created, hout,
    fun g hg heq => ?_⟩
  have hheld : s.pipeline.Holds g :=
    ((hcopies.pipeline hs).holds hg).resolve_right (by simp [copied])
  refine ⟨?_, hmade g hheld⟩
  -- a one-shot timer with a copy on its way would be out of the set
  by_contra hone
  have hspent := (hcopies.spent g hheld).2
  rw [heq] at hspent
  exact hspent (by simpa using hone) hmem

/-- After a `cancel` that returned true, a callback of the timer is started only
if the timer is recurring, and only a copy made before the `cancel`; no copy is
made after it. -/
theorem cancel_final {start : Millis} {before after : List (Move Pool PoolAct)}
    {mv : Move Pool PoolAct} {m : TimerManager}
    (hr : Run system (initial start) (before ++ mv :: after) s)
    (hact : mv.act = .timer t (.cancel i)) (hcancel : mv.pre.timers.cancel i = .ok (true, m)) :
    (∀ x ∈ after, ∀ f, x.pre.starts x.act = some f → f.timer = i →
      (mv.pre.timers.heap i).m_recurring = true ∧ ∃ y ∈ before, f ∈ y.pre.copied y.act) ∧
    ∀ x ∈ after, ∀ f ∈ x.pre.copied x.act, f.timer ≠ i := by
  obtain ⟨hbefore, hstep, hafter⟩ := hr.split_at
  rw [hact] at hstep
  have hended := ended_of_cancel hbefore hstep hcancel
  constructor
  · intro x hx f hstart hf
    exact hended.run hafter hx hstart hf
  · intro x hx f hf
    exact (hended.pre hafter hx).not_copied (hafter.step_of_mem hx) hf

/-- A recurring timer; a thread in `idle` copies its callback, the timer is
cancelled, and the thread queues, takes and starts the copy. -/
def cancelling : List PoolAct :=
  [.timer 0 (.add_timer ⟨16, 5, some 7, true, 100⟩), .enter 1, .loop 1, .loop 1, .loop 1, .loop 1,
    .epoll_wait 1 [], .listExpiredCb 1 ⟨[], 105, false, 32, 105, []⟩, .deliver 1 106, .loop 1,
    .timer 0 (.cancel 0), .loop 1, .loop 1, .loop 1, .loop 1, .loop 1]

theorem cancelling_run : ∃ before mv after x m s,
    Run system (initial 0) (before ++ mv :: after) s ∧ mv.act = .timer 0 (.cancel 0) ∧
    mv.pre.timers.cancel 0 = .ok (true, m) ∧ x ∈ after ∧ x.pre.starts x.act = some ⟨0, 0⟩ := by
  have hrun : (traceAll next (initial 0) cancelling).map (fun r =>
      (r.1[10]?.map (fun mv => (mv.pre.timers.cancel 0).toOption.map Prod.fst),
        (r.1.drop 11)[4]?.map fun x => x.pre.starts x.act)) =
      some (some (some true), some (some ⟨0, 0⟩)) := by decide +kernel
  obtain ⟨tr, s, hr, hacts, hobs⟩ := Run.exists_of_traceAll next next_sound _ hrun
  obtain ⟨hcancel, hstart⟩ := Prod.mk.inj hobs
  obtain ⟨mv, hmv, hcancel⟩ := Option.map_eq_some_iff.mp hcancel
  obtain ⟨x, hx, hstart⟩ := Option.map_eq_some_iff.mp hstart
  have hact := Option.some.inj (act_of_getElem hmv hacts)
  cases hc : mv.pre.timers.cancel 0 with
  | error f =>
    rw [hc] at hcancel
    cases hcancel
  | ok r =>
    rw [hc] at hcancel
    obtain ⟨b, m⟩ := r
    cases hcancel
    have htr : tr = tr.take 10 ++ mv :: tr.drop 11 := eq_take_append_drop hmv
    have hmem : x ∈ tr.drop 11 := List.mem_of_getElem? hx
    exact ⟨tr.take 10, mv, tr.drop 11, x, m, s, htr ▸ hr, hact.symm, hc, hmem, hstart⟩

/-- A callback of a timer is started after the `cancel` of the timer has returned true. -/
theorem cancelled_callback_starts : ∃ before mv after x m s,
    Run system (initial 0) (before ++ mv :: after) s ∧ mv.act = .timer 0 (.cancel 0) ∧
    mv.pre.timers.cancel 0 = .ok (true, m) ∧ x ∈ after ∧
    ∃ f, x.pre.starts x.act = some f ∧ f.timer = 0 := by
  obtain ⟨before, mv, after, x, m, s, hr, hact, hcancel, hx, hstart⟩ := cancelling_run
  exact ⟨before, mv, after, x, m, s, hr, hact, hcancel, hx, _, hstart, rfl⟩

theorem cancel_final_recurring : ∃ before mv after x s,
    Run system (initial 0) (before ++ mv :: after) s ∧ x ∈ after ∧
    x.pre.starts x.act = some ⟨0, 0⟩ ∧ ((mv.pre.timers.heap 0).m_recurring = true ∧
    ∃ y ∈ before, ⟨0, 0⟩ ∈ y.pre.copied y.act) ∧
    ∀ y ∈ after, ∀ f ∈ y.pre.copied y.act, f.timer ≠ 0 := by
  obtain ⟨before, mv, after, x, m, s, hr, hact, hcancel, hx, hstart⟩ := cancelling_run
  obtain ⟨hstarts, hnone⟩ := cancel_final hr hact hcancel
  exact ⟨before, mv, after, x, s, hr, hx, hstart, hstarts x hx _ hstart rfl, hnone⟩

end Pool

end FiberAsync
