import FiberAsync.DispatchInvariant
import FiberAsync.Library.Counting

/-!
# Exactly-once dispatch

In a run of undisturbed steps every registration is handed over once or
deleted, and the `add_task` calls made are those that the registrations record.
Two threads that dispatch one event end in a null scheduler.
-/

namespace FiberAsync

set_option autoImplicit false

open Runs Results Counting

section Recording

variable {w : Waiter}

/-- The number of `add_task` calls with `w` that the registrations of a context record. -/
def recordedAt (w : Waiter) (l : Event → List Registration) : Nat :=
  ((l .READ).flatMap Registration.enqueued).count w +
    ((l .WRITE).flatMap Registration.enqueued).count w

theorem count_modifyHead {l : List Registration} (hl : l ≠ []) (ws : List Waiter)
    (f : Registration → Registration) (hf : ∀ r, (f r).enqueued = r.enqueued ++ ws) :
    ((l.modifyHead f).flatMap Registration.enqueued).count w =
      (l.flatMap Registration.enqueued).count w + ws.count w := by
  cases l with
  | nil => exact absurd rfl hl
  | cons r rest =>
    simp only [List.modifyHead_cons, List.flatMap_cons, List.count_append, hf]
    omega

theorem Removal.locked_tasks {k : Removal} {io io' : IOManager} {p : ContextPtr} {fd : Nat}
    {r : Outcome} (h : k.locked io p fd = .ok (r, io')) :
    io'.tasks = io.tasks ++
      (if k.selects .READ && (io.contexts p).m_events.has .READ then
        k.handsOver (io.contexts p) .READ else []) ++
      (if k.selects .WRITE && (io.contexts p).m_events.has .WRITE then
        k.handsOver (io.contexts p) .WRITE else []) := by
  have hcounted : ∀ {io io' : IOManager} {e : Event}, io.triggerCounted p e = .ok io' →
      io'.tasks = io.tasks ++ if (io.contexts p).m_events.has e then
        ((io.contexts p).getEventContext e).waiter.toList else [] := by
    intro io io' e h
    rcases IOManager.triggerCounted_ok_iff.mp h with ⟨hm, rfl⟩ | ⟨io₁, ht, rfl⟩
    · simp [hm]
    · obtain ⟨hm, w, hw, rfl⟩ := IOManager.triggerEvent_ok_iff.mp ht
      simp [hm, hw]
  cases k with
  | delEvent e =>
    rcases IOManager.delEventLocked_ok_iff.mp h with ⟨_, _, rfl⟩ | ⟨_, _, _, rfl⟩ <;>
      simp [handsOver, IOManager.resetContext, IOManager.dropped, IOManager.setContext]
  | cancelEvent e =>
    rcases IOManager.cancelEventLocked_ok_iff.mp h with ⟨hm, _, rfl⟩ | ⟨io₁, ht, _, _, rfl⟩
    · cases e <;> simp [selects, hm]
    · obtain ⟨hm, w, hw, rfl⟩ := IOManager.triggerEvent_ok_iff.mp ht
      cases e <;> simp [selects, handsOver, hm, hw, IOManager.dropped, IOManager.setContext]
  | cancelAll =>
    rcases IOManager.cancelAllLocked_ok_iff.mp h with
      ⟨hm, _, rfl⟩ | ⟨_, io₁, io₂, h₁, h₂, _, _, rfl⟩
    · simp [hm]
    · have ht := hcounted h₂
      rw [hcounted h₁, (IOManager.triggerCounted_sameView h₁).events,
        IOManager.triggerCounted_slot _ h₁ (by simp)] at ht
      simpa [IOManager.cleared, IOManager.setContext, selects, handsOver] using ht

namespace Threads

variable {s s' : Threads} {t : Tid} {a : Act} {sh : Shared} {pc : Pc} {p : ContextPtr}

/-- The `add_task` calls made so far are those that the registrations record. -/
def Recorded (s : Threads) : Prop :=
  ∀ n, s.io.allocated ≤ n → ∀ w,
    s.io.tasks.count w = total (Finset.range n) (recordedAt w) s.log

theorem Recorded.local (hr : s.Recorded) (hp : p < s.io.allocated)
    (halloc : sh.io.allocated = s.io.allocated) (new : List Waiter)
    (htasks : sh.io.tasks = s.io.tasks ++ new) (hlog : ∀ q, q ≠ p → sh.log q = s.log q)
    (hcount : ∀ w, recordedAt w (sh.log p) = recordedAt w (s.log p) + new.count w) :
    (s.moved t sh pc).Recorded := by
  intro n hn w
  have hupd : sh.log = Function.update s.log p (sh.log p) := by
    funext q
    by_cases hq : q = p
    · subst q
      simp
    · simp [hq, hlog q hq]
  have hmem : p ∈ Finset.range n :=
    Finset.mem_range.mpr (Nat.lt_of_lt_of_le hp (Nat.le_trans (Nat.le_of_eq halloc.symm) hn))
  have htotal := total_update (recordedAt w) s.log hmem (sh.log p)
  rw [← hupd, hcount] at htotal
  change sh.io.tasks.count w = total (Finset.range n) (recordedAt w) sh.log
  rw [htasks, List.count_append, hr n (Nat.le_trans (Nat.le_of_eq halloc.symm) hn) w]
  omega

theorem Recorded.same (hr : s.Recorded) (halloc : s.io.allocated ≤ sh.io.allocated)
    (htasks : sh.io.tasks = s.io.tasks) (hlog : sh.log = s.log) : (s.moved t sh pc).Recorded := by
  intro n hn w
  change sh.io.tasks.count w = total (Finset.range n) (recordedAt w) sh.log
  rw [htasks, hlog]
  exact hr n (Nat.le_trans halloc hn) w

theorem DispatchInv.log_ne_nil (hi : s.DispatchInv) (hp : p < s.io.allocated) {e : Event}
    (hm : (s.io.contexts p).m_events.has e = true) : s.log p e ≠ [] := by
  rcases hi.cells p hp e with ⟨hb, _, _⟩ | ⟨_, _, _, _, hl, _⟩ | ⟨_, _, _, _, hl, _⟩
  · rw [hm] at hb
    cases hb
  · simp [hl]
  · simp [hl]

theorem DispatchInv.recorded_removed (hi : s.DispatchInv) (hr : s.Recorded) {k : Removal}
    {cause : Cause} {fd : Nat} {r : Outcome} {io : IOManager} (hp : p < s.io.allocated)
    (h : k.locked s.io p fd = .ok (r, io))
    (hsh : sh = { s.toShared with io, log := s.log.removed p k cause (s.io.contexts p) }) :
    (s.moved t sh pc).Recorded := by
  subst hsh
  refine hr.local hp (Removal.locked_sameTable h).allocated _
    ((Removal.locked_tasks h).trans (List.append_assoc _ _ _)) (fun q hq => log_at_other _ _ hq) ?_
  intro w
  have hone : ∀ e, ((s.log.removed p k cause (s.io.contexts p) p e).flatMap
      Registration.enqueued).count w = ((s.log p e).flatMap Registration.enqueued).count w +
        (if k.selects e && (s.io.contexts p).m_events.has e then
          k.handsOver (s.io.contexts p) e else []).count w := by
    intro e
    simp only [Log.removed, log_at_self]
    split
    · rename_i hx
      rw [Bool.and_eq_true] at hx
      exact count_modifyHead (hi.log_ne_nil hp hx.2) _ _ (fun _ => rfl)
    · simp
  simp only [recordedAt, List.count_append]
  rw [hone .READ, hone .WRITE]
  omega

theorem DispatchInv.recorded_run (hi : s.DispatchInv) (hr : s.Recorded)
    (h : s.exec (.run t) = .ok s') : s'.Recorded := by
  obtain ⟨sh, pc, hs, rfl⟩ := steps_of_run h
  change (s.moved t sh pc).Recorded
  have hok := hi.pcs t
  generalize hpc : s.pc t = pc₀ at hs hok
  cases hs with
  | addGrow hgr =>
    have hres := (IOManager.growContext_resized hi.tableInv.table hgr).1
    exact hr.same hres.grows hres.rest.tasks rfl
  | addLocked hl =>
    rename_i c op p r io
    have hp : p < s.io.allocated := hok.pointers p (by simp [Pc.pointers])
    rcases IOManager.addEventLocked_ok_iff.mp hl with ⟨_, rfl, rfl⟩ | ⟨_, _, _, _, rfl, rfl⟩
    · exact hr.same (Nat.le_refl _) rfl rfl
    · refine hr.local hp rfl [] (List.append_nil _).symm (fun q hq => log_at_other _ _ hq) ?_
      intro w
      cases he : c.event <;> simp [recordedAt, Log.opened, log_at_self, he]
  | idleTrigger ht =>
    rename_i p e es more io
    have hp : p < s.io.allocated := hok.pointers p (by simp [Pc.pointers])
    obtain ⟨hm, w₀, hw, rfl⟩ := IOManager.handOver_ok_iff.mp ht
    refine hr.local hp rfl [w₀] rfl (fun q hq => log_at_other _ _ hq) ?_
    intro w
    have hne := hi.log_ne_nil hp hm
    have hself := count_modifyHead (w := w) hne [w₀]
      (fun r => { r with enqueued := r.enqueued ++ [w₀] }) (fun _ => rfl)
    cases e <;>
    · simp only [recordedAt, Log.triggered, log_at_self, hw, Option.toList_some, if_true,
        reduceCtorEq, if_false] at hself ⊢
      omega
  | removeStep hrem =>
    cases hrem with
    | locked hl =>
      rename_i k fd p r io
      have hp := hok.pointers p (by simp [Pc.pointers, RemovePc.pointers])
      exact hi.recorded_removed hr hp hl rfl
    | found | lock => exact hr.same (Nat.le_refl _) rfl rfl
  | deleteStep hrem =>
    cases hrem with
    | locked hl =>
      rename_i p e es more fd q r io
      have hq := hok.pointers q (by simp [Pc.pointers, RemovePc.pointers])
      exact hi.recorded_removed hr hq hl rfl
    | found | lock => exact hr.same (Nat.le_refl _) rfl rfl
  | removeReturn hrem | deleteReturn hrem =>
    cases hrem <;> exact hr.same (Nat.le_refl _) rfl rfl
  | _ => exact hr.same (Nat.le_refl _) rfl rfl

theorem DispatchInv.recorded_exec (hi : s.DispatchInv) (hr : s.Recorded)
    (h : s.exec a = .ok s') : s'.Recorded := by
  have hstart : ∀ {t pc}, s.start t pc = .ok s' → s'.Recorded := by
    intro t pc h
    obtain ⟨_, rfl⟩ := start_ok_iff.mp h
    exact hr
  cases a with
  | run t => exact hi.recorded_run hr h
  | addEvent t c => exact hstart h
  | remove t k fd => exact hstart h
  | report t reports => exact hstart h

theorem initial_recorded : initial.Recorded := by
  intro n _ w
  have htasks : initial.io.tasks = [] := rfl
  rw [htasks, List.count_nil, eq_comm, total_eq_zero_iff]
  exact fun p _ => rfl

/-- Every registration is handed over once when it is dispatched or cancelled,
not at all when it is deleted, and before that at most once, by a thread that
has still to delete it. -/
def ExactlyOnce (s : Threads) : Prop :=
  ∀ p e, ∀ r ∈ s.log p e, ∃ w, r.waiter = some w ∧
    match r.removed with
    | some .dispatch | some .cancel => r.enqueued = [w]
    | some .delete => r.enqueued = []
    | none => r.enqueued = [] ∨ r.enqueued = [w] ∧ ∃ t, s.Deletes p e t

theorem DispatchInv.exactlyOnce (hi : s.DispatchInv) : s.ExactlyOnce := by
  intro p e r hr
  have hp : p < s.io.allocated := by
    by_contra hlt
    rw [hi.unused p (Nat.le_of_not_lt hlt) e] at hr
    cases hr
  have hsettled : r.Settled → ∃ w, r.waiter = some w ∧
      match r.removed with
      | some .dispatch | some .cancel => r.enqueued = [w]
      | some .delete => r.enqueued = []
      | none => r.enqueued = [] ∨ r.enqueued = [w] ∧ ∃ t, s.Deletes p e t := by
    intro hs
    obtain ⟨w, hw, ⟨hx, hq⟩ | ⟨hx, hq⟩ | ⟨hx, hq⟩⟩ := hs <;>
      exact ⟨w, hw, by rw [hx]; exact hq⟩
  rcases hi.cells p hp e with
    ⟨_, hold, _⟩ | ⟨w, rest, _, _, hl, hold, _⟩ | ⟨w, rest, t, _, hl, hold, hd, _⟩
  · exact hsettled (hold r hr)
  · rw [hl] at hr
    rcases List.mem_cons.mp hr with rfl | hr
    · exact ⟨w, rfl, Or.inl rfl⟩
    · exact hsettled (hold r hr)
  · rw [hl] at hr
    rcases List.mem_cons.mp hr with rfl | hr
    · exact ⟨w, rfl, Or.inr ⟨rfl, t, hd⟩⟩
    · exact hsettled (hold r hr)

/-- In a run of undisturbed steps every registration is handed over exactly as
often as it should be, the `add_task` calls made are the recorded ones, the
sections of a context do not overlap, and `triggerEvent` never fails. -/
theorem dispatch_exactly_once {tr : List (Move Threads Act)} (h : Run system initial tr s)
    (hg : ∀ m ∈ tr, m.pre.Undisturbed m.act) :
    s.ExactlyOnce ∧ s.Recorded ∧ s.Exclusive ∧
      ∀ a f, s.Undisturbed a → s.exec a = .error (.fault f) →
        f ≠ .eventNotSet ∧ f ≠ .nullScheduler := by
  have hinv := h.invariant_of_guard (fun s => s.DispatchInv ∧ s.Recorded) Undisturbed
    (fun hi hg hs => ⟨hi.1.exec hs.1 hg hs.2, hi.1.recorded_exec hi.2 hs.2⟩)
    ⟨initial_dispatchInv, initial_recorded⟩ hg
  exact ⟨hinv.1.exactlyOnce, hinv.2, hinv.1.owners.exclusive,
    fun a f hga hf => hinv.1.no_triggerFault hga hf⟩

section Within

variable {b : List Tid}

/-- What is left of `Undisturbed` when only the threads of `b` make calls. -/
def calm (s : Threads) (b : List Tid) (a : Act) : Bool :=
  decide (a.tid ∈ b) && s.keepsMutex a && match a with
  | .addEvent _ c => decide c.Fits && c.caller.scheduler.isSome
  | .remove _ _ _ | .report _ _ => true
  | .run t => match s.pc t with
    | .addGrow c => s.io.m_fdContexts.length ≤ c.fd * 3 / 2
    | .remove k _ (.locked p) => [Event.READ, Event.WRITE].all fun e =>
      !(k.selects e && (s.io.contexts p).m_events.has e) ||
        b.all fun u => decide ((p, e) ∉ (s.pc u).deleting)
    | .idleLocked p events _ => [Event.READ, Event.WRITE].all fun e =>
      !(IOManager.realEvents (s.io.contexts p) events).has e ||
        (s.io.contexts p).m_events.has e && b.all fun u => decide ((p, e) ∉ (s.pc u).deleting)
    | _ => true

theorem Within.undisturbed (hs : s.Within b) (hc : s.calm b a = true) : s.Undisturbed a := by
  have hfree : ∀ {p e}, (b.all fun u => decide ((p, e) ∉ (s.pc u).deleting)) = true →
      ∀ u, ¬ s.Deletes p e u := by
    intro p e hall u hu
    by_cases hub : u ∈ b
    · exact of_decide_eq_true (List.all_eq_true.mp hall u hub) hu
    · rw [Deletes, hs u hub] at hu
      cases hu
  have hevent : ∀ {f : Event → Bool}, [Event.READ, Event.WRITE].all f = true →
      ∀ e, f e = true := by
    intro f hall e
    exact List.all_eq_true.mp hall e (by cases e <;> simp)
  simp only [calm, Bool.and_eq_true] at hc
  obtain ⟨⟨_, hkeeps⟩, hc⟩ := hc
  refine ⟨?_, ?_, ?_, ?_, keepsMutex_sound hkeeps⟩
  · rintro u c rfl
    simpa using hc
  · rintro ⟨u, c, rfl, hpc, hlt⟩
    dsimp only at hc
    rw [hpc] at hc
    exact absurd hlt (Nat.not_lt.mpr (of_decide_eq_true hc))
  · rintro u k fd p rfl hpc e hsel hm
    dsimp only at hc
    rw [hpc] at hc
    have htest := hevent hc e
    rw [hsel, hm] at htest
    exact hfree htest
  · rintro u p events more rfl hpc _ e he
    dsimp only at hc
    rw [hpc] at hc
    have htest := hevent hc e
    rw [he] at htest
    obtain ⟨hm, hall⟩ := Bool.and_eq_true_iff.mp htest
    exact ⟨hm, hfree hall⟩

end Within

/-- Thread 0 registers both events, and cancels WRITE while thread 1 is between the
trigger and the deletion of READ. -/
def twoThreads : List Act :=
  let c (event : Event) : AddCall := ⟨5, event, some 0, ⟨some 0, 0, true⟩⟩
  .addEvent 0 (c .READ) :: List.replicate 5 (.run 0) ++
    .addEvent 0 (c .WRITE) :: List.replicate 5 (.run 0) ++
    .report 1 [(5, EPOLLIN)] :: List.replicate 5 (.run 1) ++
    .remove 0 (.cancelEvent .WRITE) 5 :: List.replicate 4 (.run 0) ++ List.replicate 7 (.run 1)

theorem dispatch_exactly_once_twoThreads : ∃ tr s, Run system initial tr s ∧
    tr.map Move.act = twoThreads ∧
    s.log 5 .READ = [⟨some (0, .ofCb 0 (-1)), [(0, .ofCb 0 (-1))], some .dispatch⟩] ∧
    s.log 5 .WRITE = [⟨some (0, .ofCb 0 (-1)), [(0, .ofCb 0 (-1))], some .cancel⟩] ∧
    s.ExactlyOnce ∧ s.Recorded ∧ s.Exclusive ∧
    ∀ a f, s.Undisturbed a → s.exec a = .error (.fault f) →
      f ≠ .eventNotSet ∧ f ≠ .nullScheduler := by
  have hrun : (traceAll next initial twoThreads).map (fun r =>
      (r.1.all fun m => m.pre.calm [0, 1] m.act, r.2.log 5 .READ, r.2.log 5 .WRITE)) =
      some (true, [⟨some (0, .ofCb 0 (-1)), [(0, .ofCb 0 (-1))], some .dispatch⟩],
        [⟨some (0, .ofCb 0 (-1)), [(0, .ofCb 0 (-1))], some .cancel⟩]) := by
    decide +kernel
  obtain ⟨tr, s, hr, hacts, hobs⟩ := Run.exists_of_traceAll next next_sound _ hrun
  simp only [Prod.mk.injEq] at hobs
  obtain ⟨hcalm, hread, hwrite⟩ := hobs
  have hcalm' : ∀ m ∈ tr, m.pre.calm [0, 1] m.act = true := List.all_eq_true.mp hcalm
  have hin : ∀ m ∈ tr, m.act.tid ∈ [0, 1] := by
    intro m hm
    have htest := hcalm' m hm
    simp only [calm, Bool.and_eq_true] at htest
    exact of_decide_eq_true htest.1.1
  exact ⟨tr, s, hr, hacts, hread, hwrite, dispatch_exactly_once hr
    fun m hm => (within_of_run hr hin m hm).undisturbed (hcalm' m hm)⟩

/-- Two threads in `idle` get a report of the same event, both pass the mask
check before either has deleted it, and the first triggers it. -/
def doubleDispatch : List Act :=
  .addEvent 0 ⟨5, .READ, some 0, ⟨some 0, 0, true⟩⟩ :: List.replicate 5 (.run 0) ++
    [.report 1 [(5, EPOLLIN)], .report 2 [(5, EPOLLIN)]] ++ List.replicate 3 (.run 1) ++
    List.replicate 3 (.run 2) ++ List.replicate 2 (.run 1)

theorem double_dispatch_faults : ∃ tr s, Run system initial tr s ∧
    tr.map Move.act = doubleDispatch ∧ s.exec (.run 2) = .error (.fault .nullScheduler) := by
  have hrun : (traceAll next initial doubleDispatch).map (fun r => errorOf (r.2.exec (.run 2))) =
      some (some (.fault .nullScheduler)) := by decide +kernel
  obtain ⟨tr, s, hr, hacts, hobs⟩ := Run.exists_of_traceAll next next_sound _ hrun
  exact ⟨tr, s, hr, hacts, errorOf_eq_some.mp hobs⟩

end Threads

end Recording

end FiberAsync
