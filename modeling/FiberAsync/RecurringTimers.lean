import FiberAsync.TimerDeadlines
import FiberAsync.TimerFrames
import Mathlib.Data.List.Chain

/-!
# How often a recurring timer fires

`listExpiredCb` arms a recurring timer again by a reading that it takes in the
loop, after the callback has been copied. Whichever threads deliver it, and
however late, the copies of its callback are a period or more apart.
-/

namespace FiberAsync

set_option autoImplicit false

open Runs TimerManager

namespace TimerManager

variable {m m' : TimerManager} {op : TimerOp} {i : TimerPtr}

/-- The sections that are not `listExpiredCb` leave a timer its period unless it is
reset, and its deadline unless it is refreshed. -/
theorem schedule_of_op (h : StoreInv m []) (hs : system.step m op m')
    (hop : ∀ c, op ≠ .listExpiredCb c) (hreset : ∀ ms b seen now, op ≠ .reset i ms b seen now)
    (hi : i < m.created) : (m'.heap i).m_ms = (m.heap i).m_ms ∧
      ((m'.heap i).m_next = (m.heap i).m_next ∨
        ∃ now, op = .refresh i now ∧ (m'.heap i).m_next = now + (m.heap i).m_ms) := by
  obtain ⟨ha, r, hexec⟩ := hs
  have hother : ∀ {j}, op.target = some j → j ≠ i → m'.heap i = m.heap i := by
    intro j ht hne
    rcases target_cases h ha hexec ht with rfl | ⟨_, _, _, hleaves⟩
    · rfl
    · exact (hleaves.others i (Ne.symm hne)).2
  cases op with
  | add_timer c =>
    cases hexec
    have hsame : (m.add_timer c).2.heap i = m.heap i :=
      Function.update_of_ne (Nat.ne_of_lt hi) _ _
    rw [hsame]
    exact ⟨rfl, Or.inl rfl⟩
  | cancel j =>
    by_cases hj : j = i
    · subst j
      obtain ⟨b, heq, _⟩ := exec_cancel_iff.mp hexec
      rcases h.cancel_cases ha heq with ⟨_, _, hleaves⟩ | ⟨_, _, rfl⟩
      · rw [hleaves.heap]
        exact ⟨rfl, Or.inl rfl⟩
      · exact ⟨rfl, Or.inl rfl⟩
    · rw [hother rfl hj]
      exact ⟨rfl, Or.inl rfl⟩
  | refresh j now =>
    by_cases hj : j = i
    · subst j
      cases hexec
      rcases h.refresh_cases ha now with ⟨⟨hmem, hcb⟩, _⟩ | ⟨_, heq⟩
      · rw [(h.refresh_leaves hmem hcb now).heap]
        exact ⟨rfl, Or.inr ⟨now, rfl, rfl⟩⟩
      · rw [heq]
        exact ⟨rfl, Or.inl rfl⟩
    · rw [hother rfl hj]
      exact ⟨rfl, Or.inl rfl⟩
  | reset j ms from_now seen now =>
    have hj : j ≠ i := fun heq => hreset ms from_now seen now (heq ▸ rfl)
    rw [hother rfl hj]
    exact ⟨rfl, Or.inl rfl⟩
  | listExpiredCb c => exact absurd rfl (hop c)
  | getNextTimer now =>
    cases hexec
    rw [getNextTimer_manager]
    exact ⟨rfl, Or.inl rfl⟩
  | release j =>
    cases hexec
    exact ⟨rfl, Or.inl rfl⟩

end TimerManager

namespace TimerThreads

variable {s s' : TimerThreads} {a : TimerAct} {t u : Tid} {i : TimerPtr} {ms : Millis}
  {l : List Millis}

/-- The clock when the move copies the callback of the timer. -/
def fires (i : TimerPtr) (x : Move TimerThreads TimerAct) : Option Millis :=
  match x.act with
  | .deliver t =>
    match x.pre.pc t with
    | .delivering _ (j :: _) => if j = i then some x.pre.clock else none
    | _ => none
  | _ => none

theorem fires_deliver {cbs : List (Option Callback)} {j : TimerPtr} {rest : List TimerPtr}
    (hpc : s.pc t = .delivering cbs (j :: rest)) (post : TimerThreads) :
    fires i ⟨s, .deliver t, post⟩ = if j = i then some s.clock else none := by
  unfold fires
  simp [hpc]

theorem fires_leave {cbs : List (Option Callback)} (hpc : s.pc t = .delivering cbs [])
    (post : TimerThreads) : fires i ⟨s, .deliver t, post⟩ = none := by
  unfold fires
  simp [hpc]

/-- The second reading is a period or more after the first. -/
def Apart (ms a b : Millis) : Prop := a.toNat + ms.toNat ≤ b.toNat

/-- A step takes no reading for a rollover, does not reset the timer, and its
reading and the period have a sum that fits. -/
structure Steady (i : TimerPtr) (ms : Millis) (s : TimerThreads) (a : TimerAct) : Prop where
  order : ¬ s.Overtaken a
  kept : ∀ t c, a = .restart t → s.pc t = .resetting c → c.timer ≠ i
  fits : s.clock.toNat + ms.toNat < 2 ^ 64

/-- The timer has fired at the readings, and is due again a period after the last. -/
structure Paced (i : TimerPtr) (ms : Millis) (l : List Millis) (s : TimerThreads) : Prop where
  known : i < s.manager.created
  recurring : (s.manager.heap i).m_recurring = true
  period : (s.manager.heap i).m_ms = ms
  spaced : l.IsChain (Apart ms)
  next : ∀ a ∈ l.getLast?, a ≤ s.clock ∧ Apart ms a (s.manager.heap i).m_next

namespace Paced

theorem of_same (h : Paced i ms l s) (hc : s'.manager.created = s.manager.created)
    (hh : s'.manager.heap i = s.manager.heap i) (hclock : s.clock ≤ s'.clock) :
    Paced i ms l s' := by
  refine ⟨hc ▸ h.known, hh ▸ h.recurring, hh ▸ h.period, h.spaced, fun a ha => ?_⟩
  obtain ⟨hle, hapart⟩ := h.next a ha
  exact ⟨BitVec.le_trans hle hclock, hh ▸ hapart⟩

/-- A section under the lock that is not `listExpiredCb`. -/
theorem op {m' : TimerManager} {o : TimerOp} (h : Paced i ms l s)
    (hinv : StoreInv s.manager []) (hs : s.manager.next o = some m')
    (hop : ∀ c, o ≠ .listExpiredCb c) (hreset : ∀ ms b seen now, o ≠ .reset i ms b seen now)
    (hnow : ∀ now, o = .refresh i now → now = s.clock)
    (hfits : s.clock.toNat + ms.toNat < 2 ^ 64) : Paced i ms l { s with manager := m' } := by
  have hstep := TimerManager.next_sound hs
  have hkeeps := (step_effect hinv hstep).keeps
  obtain ⟨hperiod, hnext⟩ := schedule_of_op hinv hstep hop hreset h.known
  refine ⟨h.known.trans_le hkeeps.created, (hkeeps.recurring i h.known).trans h.recurring,
    hperiod.trans h.period, h.spaced, fun a ha => ?_⟩
  obtain ⟨hle, hapart⟩ := h.next a ha
  refine ⟨hle, ?_⟩
  change Apart ms a (m'.heap i).m_next
  rcases hnext with hsame | ⟨now, hrefresh, hnext⟩
  · rw [hsame]
    exact hapart
  · -- a refresh counts the period from a reading that is not before the last firing
    rw [hnext, hnow now hrefresh, h.period]
    have hle' : a.toNat ≤ s.clock.toNat := hle
    unfold Apart
    rw [BitVec.toNat_add, Nat.mod_eq_of_lt hfits]
    omega

/-- The timer is delivered, when it is due, and armed again. -/
theorem fire {e : Expiry} (h : Paced i ms l s) (hclock : e.clock = s.clock)
    (hticks : e.ticks = []) (hm : e.manager = s.manager)
    (hdue : (s.manager.heap i).m_next ≤ s.clock) (hfits : s.clock.toNat + ms.toNat < 2 ^ 64)
    (hs' : s'.manager = (e.deliver i).manager) (hc : s'.clock = s.clock) :
    Paced i ms (l ++ [s.clock]) s' := by
  have hrec : (e.manager.heap i).m_recurring = true := hm ▸ h.recurring
  have hheap : s'.manager.heap i = e.rearmed i := by
    rw [hs', Expiry.deliver_recurring hrec, insertTimer_heap, setTimer_heap_self]
  have hnext : (e.rearmed i).m_next = s.clock + ms := by
    unfold Expiry.rearmed
    rw [hticks, List.headD_nil, hclock, hm, h.period]
  have hcreated : s'.manager.created = s.manager.created := by
    rw [hs', Expiry.deliver_created, hm]
  refine ⟨hcreated ▸ h.known, ?_, ?_, ?_, fun a ha => ?_⟩
  · rw [hheap]
    exact hrec
  · rw [hheap, ← h.period, ← hm]
    rfl
  · refine h.spaced.append (.singleton _) fun a ha b hb => ?_
    cases hb
    exact Nat.le_trans (h.next a ha).2 hdue
  · rw [List.getLast?_concat] at ha
    cases ha
    refine ⟨hc ▸ BitVec.le_refl _, ?_⟩
    rw [hheap, hnext]
    unfold Apart
    rw [BitVec.toNat_add, Nat.mod_eq_of_lt hfits]

/-- A step copies the callback of the timer a period after the last copy, or not at all. -/
theorem step (h : Paced i ms l s) (hsection : s.SectionOk) (hdue : s.DueOk)
    (hsteady : Steady i ms s a) (hs : s.next a = some s') :
    Paced i ms (l ++ (fires i ⟨s, a, s'⟩).toList) s' := by
  have hsame : ∀ {l' : List Millis}, l' = l ++ [] → Paced i ms l s' → Paced i ms l' s' := by
    intro l' heq hp
    rw [heq, List.append_nil]
    exact hp
  have hlocked : ∀ {o : TimerOp}, s.locked o = some s' → (∀ c, o ≠ .listExpiredCb c) →
      (∀ ms b seen now, o ≠ .reset i ms b seen now) → (∀ now, o = .refresh i now → now = s.clock) →
      Paced i ms l s' := by
    intro o ho hop hreset hnow
    obtain ⟨m', hw, hm, rfl⟩ := locked_eq_some ho
    exact h.op (reachable_inv (hsection.free hw)) hm hop hreset hnow hsteady.fits
  cases a with
  | tick now =>
    obtain ⟨hle, heq⟩ := Option.ite_none_right_eq_some.mp hs
    cases heq
    exact hsame rfl (h.of_same rfl rfl hle)
  | add_timer t address ms' cb recurring =>
    obtain ⟨_, rfl⟩ := enter_eq_some hs
    exact hsame rfl (h.of_same rfl rfl (BitVec.le_refl _))
  | listExpiredCb t cbs =>
    obtain ⟨_, rfl⟩ := enter_eq_some hs
    exact hsame rfl (h.of_same rfl rfl (BitVec.le_refl _))
  | check t =>
    obtain ⟨_, _, _, _, _, _, rfl⟩ := check_eq_some hs
    exact hsame rfl (h.of_same rfl rfl (BitVec.le_refl _))
  | add t =>
    obtain ⟨c, m', _, hw, hm, rfl⟩ := add_eq_some hs
    have hadded := h.op (reachable_inv (hsection.free hw)) hm (fun _ heq => nomatch heq)
      (fun _ _ _ _ heq => nomatch heq) (fun _ heq => nomatch heq) hsteady.fits
    exact hsame rfl (hadded.of_same rfl rfl (BitVec.le_refl _))
  | expire t nowAddress =>
    obtain ⟨cbs, now_ms, _, _, rfl⟩ := expire_eq_some hs
    obtain ⟨_, hheap, _, hcreated⟩ :=
      s.manager.takeExpired_spec (s.expireCall cbs now_ms nowAddress)
    exact hsame rfl (h.of_same hcreated (congrFun hheap i) (BitVec.le_refl _))
  | deliver t =>
    rcases deliver_eq_some hs with ⟨cbs, j, rest, hpc, rfl⟩ | ⟨cbs, hpc, rfl⟩
    · by_cases hj : j = i
      · subst j
        rw [fires_deliver hpc, if_pos rfl]
        exact h.fire (e := ⟨s.manager, cbs, s.clock, []⟩) rfl rfl rfl
          (hdue t cbs _ hpc i List.mem_cons_self) hsteady.fits rfl rfl
      · rw [fires_deliver hpc, if_neg hj]
        exact hsame rfl (h.of_same Expiry.deliver_created
          (Expiry.deliver_heap (Ne.symm hj)) (BitVec.le_refl _))
    · rw [fires_leave hpc]
      exact hsame rfl (h.of_same rfl rfl (BitVec.le_refl _))
  | cancel j =>
    exact hsame rfl (hlocked hs (fun _ heq => nomatch heq) (fun _ _ _ _ heq => nomatch heq)
      (fun _ heq => nomatch heq))
  | refresh j =>
    refine hsame rfl (hlocked hs (fun _ heq => nomatch heq) (fun _ _ _ _ heq => nomatch heq)
      fun now heq => ?_)
    cases heq
    rfl
  | reset t j ms' from_now =>
    obtain ⟨_, _, ⟨_, rfl⟩ | ⟨_, rfl⟩⟩ := reset_eq_some hs
    · exact hsame rfl h
    · exact hsame rfl (h.of_same rfl rfl (BitVec.le_refl _))
  | restart t =>
    obtain ⟨c, m', hpc, hw, hm, rfl⟩ := restart_eq_some hs
    have hreset := h.op (reachable_inv (hsection.free hw)) hm (fun _ heq => nomatch heq)
      (fun _ _ _ _ heq => hsteady.kept t c rfl hpc (by cases heq; rfl)) (fun _ heq => nomatch heq)
      hsteady.fits
    exact hsame rfl (hreset.of_same rfl rfl (BitVec.le_refl _))
  | getNextTimer =>
    exact hsame rfl (hlocked hs (fun _ heq => nomatch heq) (fun _ _ _ _ heq => nomatch heq)
      (fun _ heq => nomatch heq))
  | release j =>
    exact hsame rfl (hlocked hs (fun _ heq => nomatch heq) (fun _ _ _ _ heq => nomatch heq)
      (fun _ heq => nomatch heq))

end Paced

/-- From the first of `n` firings to the last it takes `n - 1` periods. -/
theorem Apart.span {a b : Millis} (h : l.IsChain (Apart ms)) (ha : l.head? = some a)
    (hb : l.getLast? = some b) : a.toNat + (l.length - 1) * ms.toNat ≤ b.toNat := by
  induction l generalizing a with
  | nil => cases ha
  | cons x l ih =>
    cases ha
    cases l with
    | nil =>
      cases hb
      simp
    | cons y l =>
      obtain ⟨hxy, hrest⟩ := List.isChain_cons_cons.mp h
      have hspan := ih hrest rfl (by rwa [List.getLast?_cons_cons] at hb)
      simp only [List.length_cons, Nat.add_sub_cancel] at hspan ⊢
      have hfirst : x.toNat + ms.toNat ≤ y.toNat := hxy
      rw [Nat.add_mul, Nat.one_mul]
      omega

/-- From any state that can be reached, whatever the threads do: while no reading
is taken for a rollover and the timer is not reset, its callback is copied at
readings that are a period or more apart. -/
theorem recurring_paced {start : Millis} {before tr : List (Move TimerThreads TimerAct)}
    (hbefore : Run system (initial start) before s) (hr : Run system s tr s')
    (horder : ∀ x ∈ before, ¬ x.pre.Overtaken x.act)
    (hi : i < s.manager.created) (hrec : (s.manager.heap i).m_recurring = true)
    (hsteady : ∀ x ∈ tr, Steady i (s.manager.heap i).m_ms x.pre x.act) :
    (tr.filterMap (fires i)).IsChain (Apart (s.manager.heap i).m_ms) ∧
    ∀ a ∈ (tr.filterMap (fires i)).head?, ∀ b ∈ (tr.filterMap (fires i)).getLast?,
      a.toNat + ((tr.filterMap (fires i)).length - 1) * (s.manager.heap i).m_ms.toNat ≤
        b.toNat := by
  have hstart : s.ReadingsOk ∧ s.SectionOk ∧ s.DueOk :=
    hbefore.invariant_of_guard (fun s => s.ReadingsOk ∧ s.SectionOk ∧ s.DueOk)
      (fun s a => ¬ s.Overtaken a) (fun hs hg hstep => ⟨hs.1.step hstep, hs.2.1.step hstep,
        hs.2.2.step hs.1 hs.2.1 hg hstep⟩)
      ⟨initial_readingsOk start, initial_sectionOk start, initial_dueOk start⟩ horder
  have hall : (∀ x ∈ tr, Steady i (s.manager.heap i).m_ms x.pre x.act) →
      s'.ReadingsOk ∧ s'.SectionOk ∧ s'.DueOk ∧
        Paced i (s.manager.heap i).m_ms (tr.filterMap (fires i)) s' := by
    apply hr.history fun tr t => (∀ x ∈ tr, Steady i (s.manager.heap i).m_ms x.pre x.act) →
      t.ReadingsOk ∧ t.SectionOk ∧ t.DueOk ∧
        Paced i (s.manager.heap i).m_ms (tr.filterMap (fires i)) t
    · intro tr t a t' ih hstep hsteady
      obtain ⟨hreadings, hsection, hdue, hpaced⟩ :=
        ih fun x hx => hsteady x (List.mem_append_left _ hx)
      have hlast : Steady i (s.manager.heap i).m_ms t a := hsteady ⟨t, a, t'⟩ (by simp)
      refine ⟨hreadings.step hstep, hsection.step hstep,
        hdue.step hreadings hsection hlast.order hstep, ?_⟩
      have hnext := hpaced.step hsection hdue hlast hstep
      rw [List.filterMap_append]
      have hone : [(⟨t, a, t'⟩ : Move TimerThreads TimerAct)].filterMap (fires i) =
          (fires i ⟨t, a, t'⟩).toList := by
        rw [List.filterMap_cons]
        cases fires i ⟨t, a, t'⟩ <;> rfl
      rw [hone]
      exact hnext
    · intro _
      refine ⟨hstart.1, hstart.2.1, hstart.2.2, hi, hrec, rfl, .nil, fun a ha => ?_⟩
      cases ha
  have hspaced := (hall hsteady).2.2.2.spaced
  exact ⟨hspaced, fun a ha b hb => Apart.span hspaced ha hb⟩

def steady (i : TimerPtr) (ms : Millis) (s : TimerThreads) (a : TimerAct) : Bool :=
  s.inOrder a && (match a with
      | .restart t =>
        match s.pc t with
        | .resetting c => c.timer != i
        | _ => true
      | _ => true) &&
    decide (s.clock.toNat + ms.toNat < 2 ^ 64)

theorem Steady.of_steady (h : steady i ms s a = true) : Steady i ms s a := by
  unfold steady at h
  simp only [Bool.and_eq_true, decide_eq_true_eq] at h
  obtain ⟨⟨horder, hkept⟩, hfits⟩ := h
  refine ⟨not_overtaken horder, fun t c heq hpc => ?_, hfits⟩
  subst heq
  simpa [hpc] using hkept

/-- A timer with a period of five milliseconds is delivered by one thread, late in
its loop, and then by another. -/
def ticking : List TimerAct :=
  [.add_timer 0 16 5 (some 7) true, .add 0, .tick 4000005, .listExpiredCb 1 [], .check 1,
    .expire 1 48, .tick 4000007, .deliver 1, .deliver 1, .tick 4000020, .listExpiredCb 2 [],
    .check 2, .expire 2 48, .deliver 2, .deliver 2]

theorem recurring_paced_ticking : ∃ before tr s s', Run system (initial 4000000) before s ∧
    Run system s tr s' ∧ (before ++ tr).map Move.act = ticking ∧
    tr.filterMap (fires 0) = [4000007, 4000020] ∧ (s.manager.heap 0).m_ms = 5 ∧
    (tr.filterMap (fires 0)).IsChain (Apart (s.manager.heap 0).m_ms) := by
  have hrun : (traceAll next (initial 4000000) ticking).map (fun r =>
      (r.1[2]?.map fun x => (x.pre.manager.created, (x.pre.manager.heap 0).m_recurring,
          (x.pre.manager.heap 0).m_ms),
        (r.1.drop 2).filterMap (fires 0), (r.1.take 2).all fun x => x.pre.inOrder x.act,
        (r.1.drop 2).all fun x => steady 0 5 x.pre x.act)) =
      some (some (1, true, 5), [4000007, 4000020], true, true) := by decide +kernel
  obtain ⟨tr, s', hr, hacts, hobs⟩ := Run.exists_of_traceAll next next_sound _ hrun
  simp only [Prod.mk.injEq] at hobs
  obtain ⟨hget, hfires, horder, hsteady⟩ := hobs
  obtain ⟨x, hx, hobs⟩ := Option.map_eq_some_iff.mp hget
  simp only [Prod.mk.injEq] at hobs
  obtain ⟨hcreated, hrec, hms⟩ := hobs
  obtain ⟨hbefore, hafter⟩ := hr.split_of_getElem hx
  obtain ⟨hspaced, _⟩ := recurring_paced (i := 0) hbefore hafter
    (fun y hy => not_overtaken (List.all_eq_true.mp horder y hy)) (hcreated ▸ Nat.one_pos) hrec
    (fun y hy => Steady.of_steady (hms ▸ List.all_eq_true.mp hsteady y hy))
  refine ⟨_, _, x.pre, s', hbefore, hafter, ?_, hfires, hms, hspaced⟩
  rw [List.take_append_drop]
  exact hacts

end TimerThreads

end FiberAsync
