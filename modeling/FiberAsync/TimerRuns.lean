import FiberAsync.TimerStore

/-!
# What becomes of a timer

`listExpiredCb` takes a batch out of the set and goes through it; the invariant
of the loop is the set's with the rest of the batch out. Over a run, a one-shot
timer is pending, or one call has delivered it, or one `cancel` has removed it.
-/

namespace FiberAsync

set_option autoImplicit false

open Runs Results TimerManager

namespace Expiry

variable {e : Expiry} {out : List TimerPtr} {i j : TimerPtr}

def rearmed (e : Expiry) (i : TimerPtr) : Timer :=
  { e.manager.heap i with m_next := e.ticks.headD e.clock + (e.manager.heap i).m_ms }

/-- The object of a one-shot timer after its delivery. -/
def spent (e : Expiry) (i : TimerPtr) : Timer := { e.manager.heap i with m_cb := none }

theorem deliver_recurring (h : (e.manager.heap i).m_recurring = true) :
    (e.deliver i).manager = (e.manager.setTimer i (e.rearmed i)).insertTimer i := by
  unfold deliver
  rw [if_pos h]
  rfl

theorem deliver_oneShot (h : (e.manager.heap i).m_recurring = false) :
    (e.deliver i).manager = e.manager.setTimer i (e.spent i) := by
  have hne : ¬ (e.manager.heap i).m_recurring = true := by simp [h]
  unfold deliver
  rw [if_neg hne]
  rfl

theorem deliver_inv (h : StoreInv e.manager (i :: out)) :
    StoreInv (e.deliver i).manager out := by
  cases hrec : (e.manager.heap i).m_recurring with
  | true =>
    rw [deliver_recurring hrec]
    exact (h.rekey (t := e.rearmed i) rfl).insert
  | false =>
    rw [deliver_oneShot hrec]
    exact h.disarm rfl rfl

theorem deliver_keeps : Keeps e.manager (e.deliver i).manager := by
  cases hrec : (e.manager.heap i).m_recurring with
  | true =>
    rw [deliver_recurring hrec]
    exact (Keeps.set (t := e.rearmed i) rfl).trans (Keeps.of_heap rfl rfl)
  | false =>
    rw [deliver_oneShot hrec]
    exact Keeps.set rfl

theorem deliver_created : (e.deliver i).manager.created = e.manager.created := by
  cases hrec : (e.manager.heap i).m_recurring with
  | true => rw [deliver_recurring hrec, insertTimer_created, setTimer_created]
  | false => rw [deliver_oneShot hrec, setTimer_created]

theorem deliver_cbs : (e.deliver i).cbs = e.cbs ++ [(e.manager.heap i).m_cb] := by
  unfold deliver
  dsimp only
  split <;> rfl

theorem deliver_heap (h : j ≠ i) : (e.deliver i).manager.heap j = e.manager.heap j := by
  cases hrec : (e.manager.heap i).m_recurring with
  | true => rw [deliver_recurring hrec, insertTimer_heap, setTimer_heap_of_ne h]
  | false => rw [deliver_oneShot hrec, setTimer_heap_of_ne h]

theorem deliver_mem (h : StoreInv e.manager (i :: out))
    (hj : (e.manager.heap j).m_recurring = false) :
    j ∈ (e.deliver i).manager.m_timers ↔ j ∈ e.manager.m_timers := by
  cases hrec : (e.manager.heap i).m_recurring with
  | true =>
    have hne : j ≠ i := fun heq => by
      rw [heq, hrec] at hj
      cases hj
    rw [deliver_recurring hrec,
      (h.rekey (t := e.rearmed i) rfl).perm_insert.mem_iff, List.mem_cons]
    exact ⟨fun hmem => hmem.resolve_left hne, Or.inr⟩
  | false => rw [deliver_oneShot hrec, setTimer_m_timers]

theorem deliver_mem_imp (h : j ∈ (e.deliver i).manager.m_timers) :
    j = i ∨ j ∈ e.manager.m_timers := by
  cases hrec : (e.manager.heap i).m_recurring with
  | true =>
    rw [deliver_recurring hrec] at h
    exact OrderedSet.mem_insert_imp h
  | false =>
    rw [deliver_oneShot hrec] at h
    exact Or.inr h

/-- Only a timer that is out for good loses its callback. -/
theorem deliver_callback (h : StoreInv e.manager (i :: out))
    (hj : j ∈ (e.deliver i).manager.m_timers ++ out) :
    ((e.deliver i).manager.heap j).m_cb = (e.manager.heap j).m_cb := by
  by_cases hne : j = i
  · subst j
    cases hrec : (e.manager.heap i).m_recurring with
    | true =>
      rw [deliver_recurring hrec, insertTimer_heap, setTimer_heap_self]
      rfl
    | false =>
      rw [deliver_oneShot hrec, setTimer_m_timers] at hj
      have hnodup := List.nodup_cons.mp (List.perm_middle.nodup_iff.mp h.nodup)
      exact absurd hj hnodup.1
  · rw [deliver_heap hne]

def deliverAll (e : Expiry) (out : List TimerPtr) : Expiry := out.foldl deliver e

theorem deliverAll_concat (e : Expiry) (out : List TimerPtr) (i : TimerPtr) :
    e.deliverAll (out ++ [i]) = (e.deliverAll out).deliver i := List.foldl_concat _ _ _ _

/-- One turn of the loop reads the clock at most once. -/
theorem deliver_readings (m : TimerManager) (cbs : List (Option Callback)) (now : Millis)
    (i : TimerPtr) : ∃ readings : List Millis, (readings = [] ∨ readings = [now]) ∧
      ∀ clock ticks, ∃ clock', deliver ⟨m, cbs, clock, readings ++ ticks⟩ i =
        ⟨(deliver ⟨m, cbs, now, []⟩ i).manager, (deliver ⟨m, cbs, now, []⟩ i).cbs, clock',
          ticks⟩ := by
  cases hrec : (m.heap i).m_recurring with
  | true =>
    refine ⟨[now], Or.inr rfl, fun clock ticks => ⟨now, ?_⟩⟩
    simp [deliver, hrec]
  | false =>
    refine ⟨[], Or.inl rfl, fun clock ticks => ⟨clock, ?_⟩⟩
    simp [deliver, hrec]

theorem deliverAll_rest {rest : List TimerPtr} (h : StoreInv e.manager (out ++ rest)) :
    StoreInv (e.deliverAll out).manager rest := by
  induction out generalizing e with
  | nil => exact h
  | cons i out ih => exact ih (deliver_inv h)

theorem deliverAll_inv (h : StoreInv e.manager out) : StoreInv (e.deliverAll out).manager [] := by
  apply deliverAll_rest
  rw [List.append_nil]
  exact h

theorem deliverAll_mem_imp (h : j ∈ (e.deliverAll out).manager.m_timers) :
    j ∈ out ∨ j ∈ e.manager.m_timers := by
  induction out generalizing e with
  | nil => exact Or.inr h
  | cons i out ih =>
    rcases ih h with hmem | hmem
    · exact Or.inl (List.mem_cons_of_mem i hmem)
    · rcases deliver_mem_imp hmem with rfl | hmem
      · exact Or.inl List.mem_cons_self
      · exact Or.inr hmem

theorem deliverAll_callback (h : StoreInv e.manager out)
    (hj : j ∈ (e.deliverAll out).manager.m_timers) :
    ((e.deliverAll out).manager.heap j).m_cb = (e.manager.heap j).m_cb := by
  induction out generalizing e with
  | nil => rfl
  | cons i out ih =>
    refine (ih (deliver_inv h) hj).trans (deliver_callback h ?_)
    rw [List.mem_append]
    exact (deliverAll_mem_imp (e := e.deliver i) hj).symm

theorem deliverAll_created : (e.deliverAll out).manager.created = e.manager.created := by
  induction out generalizing e with
  | nil => rfl
  | cons i out ih => exact ih.trans deliver_created

theorem deliverAll_keeps : Keeps e.manager (e.deliverAll out).manager := by
  induction out generalizing e with
  | nil => exact .of_heap rfl rfl
  | cons i out ih => exact deliver_keeps.trans ih

theorem deliverAll_cbs (h : out.Nodup) :
    (e.deliverAll out).cbs = e.cbs ++ out.map fun i => (e.manager.heap i).m_cb := by
  induction out generalizing e with
  | nil => exact (List.append_nil _).symm
  | cons i out ih =>
    obtain ⟨hi, hout⟩ := List.nodup_cons.mp h
    have hsame : (out.map fun j => ((e.deliver i).manager.heap j).m_cb) =
        out.map fun j => (e.manager.heap j).m_cb := by
      apply List.map_congr_left
      intro j hj
      have hne : j ≠ i := fun heq => hi (heq ▸ hj)
      rw [deliver_heap hne]
    refine (ih hout).trans ?_
    rw [deliver_cbs, hsame, List.append_assoc]
    rfl

theorem deliverAll_mem (h : StoreInv e.manager out) (hj : j < e.manager.created)
    (hone : (e.manager.heap j).m_recurring = false) :
    j ∈ (e.deliverAll out).manager.m_timers ↔ j ∈ e.manager.m_timers := by
  induction out generalizing e with
  | nil => rfl
  | cons i out ih =>
    have hj' : j < (e.deliver i).manager.created := deliver_created.symm ▸ hj
    have hone' : ((e.deliver i).manager.heap j).m_recurring = false :=
      (deliver_keeps.recurring j hj).trans hone
    exact (ih (deliver_inv h) hj' hone').trans (deliver_mem h hone)

end Expiry

namespace TimerManager

variable {m m' : TimerManager} {i j : TimerPtr}

/-- What `listExpiredCb` has done before its loop. -/
structure Taken (m : TimerManager) (expired : List TimerPtr) (m' : TimerManager) : Prop where
  timers : expired ++ m'.m_timers = m.m_timers
  heap : m'.heap = m.heap
  live : m'.live = m.live
  created : m'.created = m.created

theorem takeExpired_spec (m : TimerManager) (c : ExpireCall) :
    Taken m (m.takeExpired c).1 (m.takeExpired c).2 := by
  unfold takeExpired
  split
  · exact ⟨rfl, rfl, rfl, rfl⟩
  split
  · exact ⟨rfl, rfl, rfl, rfl⟩
  dsimp only
  split
  · exact ⟨rfl, rfl, rfl, rfl⟩
  split
  · exact ⟨List.append_nil _, rfl, rfl, rfl⟩
  · exact ⟨OrderedSet.upperBound_append _ _, rfl, rfl, rfl⟩

theorem StoreInv.taken {expired : List TimerPtr} (h : StoreInv m [])
    (ht : Taken m expired m') : StoreInv m' expired := by
  obtain ⟨htimers, hheap, hlive, hcreated⟩ := ht
  have hperm : (m'.m_timers ++ expired).Perm (m.m_timers ++ []) := by
    rw [List.append_nil, ← htimers]
    exact List.perm_append_comm
  have hkey : m'.key = m.key := by
    unfold key
    rw [hheap]
  constructor
  · rw [hkey]
    apply h.sorted.sublist
    rw [← htimers]
    exact List.sublist_append_right _ _
  · exact hperm.nodup_iff.mpr h.nodup
  · intro j hj
    rw [hlive]
    exact h.owned j (hperm.mem_iff.mp hj)
  · intro j hj
    rw [hheap, hperm.mem_iff]
    exact h.armed j (hlive ▸ hj)
  · intro j hj l hl heq
    rw [hheap] at heq
    exact h.addresses j (hlive ▸ hj) l (hlive ▸ hl) heq
  · intro j hj
    rw [hcreated]
    exact h.numbered j (hlive ▸ hj)

theorem listExpiredCb_eq (m : TimerManager) (c : ExpireCall) : m.listExpiredCb c =
    Expiry.deliverAll ⟨(m.takeExpired c).2, c.cbs, c.clock, c.ticks⟩ (m.takeExpired c).1 := rfl

theorem StoreInv.batch (h : StoreInv m []) (c : ExpireCall) :
    StoreInv (m.takeExpired c).2 (m.takeExpired c).1 := h.taken (m.takeExpired_spec c)

theorem StoreInv.listExpiredCb (h : StoreInv m []) (c : ExpireCall) :
    StoreInv (m.listExpiredCb c).manager [] := by
  rw [listExpiredCb_eq]
  exact Expiry.deliverAll_inv (h.batch c)

theorem listExpiredCb_keeps (m : TimerManager) (c : ExpireCall) :
    Keeps m (m.listExpiredCb c).manager := by
  obtain ⟨_, hheap, _, hcreated⟩ := m.takeExpired_spec c
  have htaken : Keeps m (m.takeExpired c).2 := .of_heap hcreated hheap
  rw [listExpiredCb_eq]
  apply htaken.trans
  exact Expiry.deliverAll_keeps (e := ⟨(m.takeExpired c).2, c.cbs, c.clock, c.ticks⟩)

theorem listExpiredCb_created (m : TimerManager) (c : ExpireCall) :
    (m.listExpiredCb c).manager.created = m.created := by
  rw [listExpiredCb_eq, Expiry.deliverAll_created]
  exact (m.takeExpired_spec c).created

/-- A call appends the callbacks of the timers it takes out, each once. -/
theorem listExpiredCb_cbs (h : StoreInv m []) (c : ExpireCall) :
    (m.listExpiredCb c).cbs =
      c.cbs ++ (m.takeExpired c).1.map fun i => (m.heap i).m_cb := by
  have hnodup := (List.nodup_append.mp (h.batch c).nodup).2.1
  rw [listExpiredCb_eq, Expiry.deliverAll_cbs hnodup, (m.takeExpired_spec c).heap]

theorem listExpiredCb_mem (h : StoreInv m []) (c : ExpireCall) (hj : j < m.created)
    (hone : (m.heap j).m_recurring = false) :
    j ∈ (m.listExpiredCb c).manager.m_timers ↔ j ∈ (m.takeExpired c).2.m_timers := by
  obtain ⟨_, hheap, _, hcreated⟩ := m.takeExpired_spec c
  rw [listExpiredCb_eq]
  apply Expiry.deliverAll_mem (h.batch c)
  · rw [hcreated]
    exact hj
  · rw [hheap]
    exact hone

def system : System TimerManager TimerOp where
  init m := ∃ now, m = .new now
  step m op m' := m.Allowed op ∧ ∃ r, m.exec op = .ok (r, m')

def next (m : TimerManager) (op : TimerOp) : Option TimerManager :=
  if m.Allowed op then (m.exec op).toOption.map Prod.snd else none

theorem next_sound {op : TimerOp} (h : m.next op = some m') : system.step m op m' := by
  obtain ⟨ha, h⟩ := Option.ite_none_right_eq_some.mp h
  obtain ⟨⟨r, _⟩, hexec, rfl⟩ := Option.map_eq_some_iff.mp h
  exact ⟨ha, r, toOption_eq_some.mp hexec⟩

/-- The timers whose callbacks a step delivers. -/
def delivered (mv : Move TimerManager TimerOp) : List TimerPtr :=
  match mv.act with
  | .listExpiredCb c => (mv.pre.takeExpired c).1
  | _ => []

/-- The timer that a `cancel` returning true removes. -/
def removed (mv : Move TimerManager TimerOp) : List TimerPtr :=
  match mv.act with
  | .cancel i =>
    match mv.pre.cancel i with
    | .ok (true, _) => [i]
    | _ => []
  | _ => []

/-- A timer not yet created counts as pending. -/
def pending (i : TimerPtr) (m : TimerManager) : Nat :=
  if m.created ≤ i ∨ i ∈ m.m_timers then 1 else 0

theorem pending_congr (hc : m'.created = m.created) (hi : i ∈ m'.m_timers ↔ i ∈ m.m_timers) :
    pending i m' = pending i m := by
  unfold pending
  rw [hc]
  simp only [hi]

theorem pending_of_mem (h : i ∈ m.m_timers) : pending i m = 1 := if_pos (Or.inr h)

theorem pending_of_not_mem (hc : i < m.created) (h : i ∉ m.m_timers) : pending i m = 0 :=
  if_neg (fun hor => hor.elim (Nat.not_le.mpr hc) h)

/-- What an operation keeps, and where it leaves each one-shot timer. -/
structure Effect (m : TimerManager) (op : TimerOp) (m' : TimerManager) : Prop where
  inv : StoreInv m' []
  keeps : Keeps m m'
  balance : ∀ i, (i < m.created → (m.heap i).m_recurring = false) →
    pending i m' + (delivered ⟨m, op, m'⟩).count i + (removed ⟨m, op, m'⟩).count i = pending i m

theorem Effect.of_same {op : TimerOp} (hinv : StoreInv m' []) (hk : Keeps m m')
    (hd : delivered ⟨m, op, m'⟩ = []) (hr : removed ⟨m, op, m'⟩ = [])
    (hc : m'.created = m.created) (hm : ∀ i, i ∈ m'.m_timers ↔ i ∈ m.m_timers) :
    Effect m op m' := by
  refine ⟨hinv, hk, fun i _ => ?_⟩
  rw [hd, hr, pending_congr hc (hm i)]
  rfl

section Effects

variable (h : StoreInv m [])
include h

theorem add_timer_effect {c : TimerCall} (ha : m.Allowed (.add_timer c)) :
    Effect m (.add_timer c) (m.add_timer c).2 := by
  have hnew := h.newTimer ha
  have hperm : (m.add_timer c).2.m_timers.Perm (m.created :: m.m_timers) := hnew.perm_insert
  refine ⟨hnew.addTimerLocked, ⟨Nat.le_succ _, fun j hj => ?_⟩, fun i _ => ?_⟩
  · exact congrArg Timer.m_recurring (Function.update_of_ne (Nat.ne_of_lt hj) _ _)
  · change pending i (m.add_timer c).2 = pending i m
    by_cases hi : i = m.created
    · subst i
      rw [pending_of_mem (hperm.mem_iff.mpr List.mem_cons_self)]
      exact (if_pos (Or.inl le_rfl)).symm
    · have hmem : i ∈ (m.add_timer c).2.m_timers ↔ i ∈ m.m_timers := by
        rw [hperm.mem_iff, List.mem_cons]
        exact ⟨fun hor => hor.resolve_left hi, Or.inr⟩
      have hle : (m.add_timer c).2.created ≤ i ↔ m.created ≤ i := by
        change m.created + 1 ≤ i ↔ m.created ≤ i
        omega
      unfold pending
      simp only [hmem, hle]

theorem refresh_effect (hi : i ∈ m.live) (now : Millis) :
    Effect m (.refresh i now) (m.refresh i now).2 := by
  rcases h.refresh_cases hi now with ⟨⟨hmem, _⟩, heq⟩ | ⟨_, heq⟩
  · rw [heq]
    have hinv := h.rearm (t := m.refreshed i now) hmem rfl
    have hkeeps := Keeps.set (m := m) (t := m.refreshed i now) (i := i) rfl
    have hmems : ∀ j, j ∈ (m.rearm i (m.refreshed i now)).m_timers ↔ j ∈ m.m_timers :=
      fun j => mem_rearm h hmem rfl
    exact .of_same hinv (hkeeps.trans (.of_heap rfl rfl)) rfl rfl rfl hmems
  · rw [heq]
    exact .of_same h (.of_heap rfl rfl) rfl rfl rfl (fun _ => Iff.rfl)

theorem reset_effect (hi : i ∈ m.live) (ms : Millis) (from_now : Bool) (seen now : Millis) :
    Effect m (.reset i ms from_now seen now) (m.reset i ms from_now seen now).2 := by
  rcases h.reset_cases hi ms from_now seen now with heq | ⟨hmem, heq⟩
  · rw [heq]
    exact .of_same h (.of_heap rfl rfl) rfl rfl rfl (fun _ => Iff.rfl)
  · rw [heq]
    have hinv := (h.erase hmem).rekey (t := m.restarted i ms from_now now) rfl
    have hkeeps := Keeps.set (m := m) (t := m.restarted i ms from_now now) (i := i) rfl
    have hmems : ∀ j, j ∈ (m.rearm i (m.restarted i ms from_now now)).m_timers ↔ j ∈ m.m_timers :=
      fun j => mem_rearm h hmem rfl
    exact .of_same hinv.addTimerLocked (hkeeps.trans (.of_heap rfl rfl)) rfl rfl rfl hmems

theorem cancel_effect (hi : i ∈ m.live) :
    ∃ b m', m.cancel i = .ok (b, m') ∧ Effect m (.cancel i) m' := by
  by_cases hcb : (m.heap i).m_cb.isSome
  · have hmem := h.mem_of_isSome hi hcb
    have heq := h.cancel_of_mem hmem hcb
    have hr : ∀ m', removed ⟨m, .cancel i, m'⟩ = [i] := by
      intro m'
      unfold removed
      dsimp only
      rw [heq]
    refine ⟨true, _, heq, (h.erase hmem).disarm rfl rfl, ?_, fun j _ => ?_⟩
    · have hkeeps := Keeps.set (m := m) (t := m.cancelled i) (i := i) rfl
      exact hkeeps.trans (.of_heap rfl rfl)
    rw [hr]
    change pending j _ + 0 + [i].count j = pending j m
    by_cases hj : j = i
    · subst j
      have hout : i ∉ m.m_timers.erase i := fun hin => (h.nodup_timers.mem_erase_iff.mp hin).1 rfl
      have hleft : pending i ((m.eraseTimer i).setTimer i (m.cancelled i)) = 0 :=
        pending_of_not_mem (h.numbered i hi) hout
      rw [hleft, pending_of_mem hmem]
      simp
    · have hcount : [i].count j = 0 := List.count_eq_zero_of_not_mem (by simpa using hj)
      rw [hcount]
      exact pending_congr rfl (List.mem_erase_of_ne hj)
  · have heq := cancel_of_none (Option.not_isSome_iff_eq_none.mp hcb)
    refine ⟨false, m, heq, .of_same h (.of_heap rfl rfl) rfl ?_ rfl (fun _ => Iff.rfl)⟩
    unfold removed
    dsimp only
    rw [heq]

theorem listExpiredCb_effect (c : ExpireCall) :
    Effect m (.listExpiredCb c) (m.listExpiredCb c).manager := by
  refine ⟨h.listExpiredCb c, m.listExpiredCb_keeps c, fun i hone => ?_⟩
  have hcreated := m.listExpiredCb_created c
  change pending i _ + (m.takeExpired c).1.count i + 0 = pending i m
  have hbatch := (m.takeExpired_spec c).timers
  have hnodup := h.nodup_timers
  rw [← hbatch] at hnodup
  obtain ⟨hexp, _, hdisj⟩ := List.nodup_append.mp hnodup
  by_cases hi : i < m.created
  · have hmem := listExpiredCb_mem h c hi (hone hi)
    by_cases hin : i ∈ (m.takeExpired c).1
    · have hout : i ∉ (m.listExpiredCb c).manager.m_timers :=
        fun hrest => hdisj i hin i (hmem.mp hrest) rfl
      rw [pending_of_not_mem (hcreated.symm ▸ hi) hout, List.count_eq_one_of_mem hexp hin,
        pending_of_mem (hbatch ▸ List.mem_append_left _ hin)]
    · have hsame : pending i (m.listExpiredCb c).manager = pending i m := by
        apply pending_congr hcreated
        rw [hmem, ← hbatch, List.mem_append]
        exact ⟨Or.inr, fun hor => hor.resolve_left hin⟩
      rw [List.count_eq_zero_of_not_mem hin, hsame]
      rfl
  · have hle := Nat.le_of_not_lt hi
    have hin : i ∉ (m.takeExpired c).1 := by
      intro hin
      exact hi (h.numbered i (h.owned_timer (hbatch ▸ List.mem_append_left _ hin)))
    rw [List.count_eq_zero_of_not_mem hin]
    unfold pending
    rw [if_pos (Or.inl hle), if_pos (Or.inl (hcreated.symm ▸ hle))]

omit h in
theorem getNextTimer_manager (m : TimerManager) (now : Millis) :
    (m.getNextTimer now).2 = { m with m_tickled := false } := by
  unfold getNextTimer
  dsimp only
  split
  · rfl
  · split <;> rfl

theorem exec_effect {op : TimerOp} (ha : m.Allowed op) :
    ∃ r m', m.exec op = .ok (r, m') ∧ Effect m op m' := by
  cases op with
  | add_timer c => exact ⟨_, _, rfl, add_timer_effect h ha⟩
  | cancel i =>
    obtain ⟨b, m', heq, heff⟩ := cancel_effect h ha
    exact ⟨.bool b, m', exec_cancel_iff.mpr ⟨b, heq, rfl⟩, heff⟩
  | refresh i now => exact ⟨_, _, rfl, refresh_effect h ha now⟩
  | reset i ms from_now seen now => exact ⟨_, _, rfl, reset_effect h ha ms from_now seen now⟩
  | listExpiredCb c => exact ⟨_, _, rfl, listExpiredCb_effect h c⟩
  | getNextTimer now =>
    refine ⟨_, _, rfl, ?_⟩
    rw [getNextTimer_manager]
    exact .of_same (h.tickled false) (.of_heap rfl rfl) rfl rfl rfl (fun _ => Iff.rfl)
  | release i =>
    exact ⟨_, _, rfl, .of_same (h.release ha.2) (.of_heap rfl rfl) rfl rfl rfl fun _ => Iff.rfl⟩

end Effects

theorem step_effect {op : TimerOp} (h : StoreInv m []) (hs : system.step m op m') :
    Effect m op m' := by
  obtain ⟨ha, r, hexec⟩ := hs
  obtain ⟨r', m'', hexec', heff⟩ := exec_effect h ha
  rw [hexec'] at hexec
  cases hexec
  exact heff

theorem LeavesTimer.callback {t : Timer} {stays : Prop} (h : m.LeavesTimer i t stays m')
    (hmem : i ∈ m.m_timers) (hcb : stays → t.m_cb = (m.heap i).m_cb) (hj : j ∈ m'.m_timers) :
    j ∈ m.m_timers ∧ (m'.heap j).m_cb = (m.heap j).m_cb := by
  by_cases hne : j = i
  · subst j
    rw [h.heap]
    exact ⟨hmem, hcb (h.mem.mp hj)⟩
  · obtain ⟨hiff, hheap⟩ := h.others j hne
    rw [hheap]
    exact ⟨hiff.mp hj, rfl⟩

/-- A pending timer keeps its callback, and a new one has that of its call. -/
theorem step_callback {op : TimerOp} (h : StoreInv m []) (hs : system.step m op m')
    (hj : j ∈ m'.m_timers) :
    j ∈ m.m_timers ∧ (m'.heap j).m_cb = (m.heap j).m_cb ∨
      ∃ c, op = .add_timer c ∧ m.created = j ∧ (m'.heap j).m_cb = c.cb := by
  obtain ⟨ha, r, hexec⟩ := hs
  cases op with
  | add_timer c =>
    cases hexec
    have hperm : (m.add_timer c).2.m_timers.Perm (m.created :: m.m_timers) :=
      (h.newTimer ha).perm_insert
    rcases List.mem_cons.mp (hperm.mem_iff.mp hj) with rfl | hmem
    · have hself : (m.add_timer c).2.heap m.created =
          Timer.new c.address c.ms c.cb c.recurring c.now := Function.update_self _ _ _
      exact Or.inr ⟨c, rfl, rfl, congrArg Timer.m_cb hself⟩
    · have hne : j ≠ m.created := Nat.ne_of_lt (h.numbered j (h.owned_timer hmem))
      exact Or.inl ⟨hmem, congrArg Timer.m_cb (Function.update_of_ne hne _ _)⟩
  | cancel i =>
    obtain ⟨b, heq, _⟩ := exec_cancel_iff.mp hexec
    rcases h.cancel_cases ha heq with ⟨hmem, _, hleaves⟩ | ⟨_, _, rfl⟩
    · exact Or.inl (hleaves.callback hmem False.elim hj)
    · exact Or.inl ⟨hj, rfl⟩
  | refresh i now =>
    cases hexec
    rcases h.refresh_cases ha now with ⟨⟨hmem, hcb⟩, _⟩ | ⟨_, heq⟩
    · exact Or.inl ((h.refresh_leaves hmem hcb now).callback hmem (fun _ => rfl) hj)
    · rw [heq] at hj ⊢
      exact Or.inl ⟨hj, rfl⟩
  | reset i ms from_now seen now =>
    cases hexec
    rcases h.reset_cases ha ms from_now seen now with heq | ⟨hmem, heq⟩
    · rw [heq] at hj ⊢
      exact Or.inl ⟨hj, rfl⟩
    · have hleaves := readd_leaves (t := m.restarted i ms from_now now) h hmem rfl
      rw [heq] at hj ⊢
      exact Or.inl (hleaves.callback hmem (fun _ => rfl) hj)
  | listExpiredCb c =>
    cases hexec
    have htaken := m.takeExpired_spec c
    have hcb := Expiry.deliverAll_callback (e := ⟨(m.takeExpired c).2, c.cbs, c.clock, c.ticks⟩)
      (h.batch c) hj
    rw [htaken.heap] at hcb
    refine Or.inl ⟨?_, hcb⟩
    rw [← htaken.timers, List.mem_append]
    exact Expiry.deliverAll_mem_imp (e := ⟨(m.takeExpired c).2, c.cbs, c.clock, c.ticks⟩) hj
  | getNextTimer now =>
    cases hexec
    rw [getNextTimer_manager] at hj ⊢
    exact Or.inl ⟨hj, rfl⟩
  | release i =>
    cases hexec
    exact Or.inl ⟨hj, rfl⟩

theorem step_callback_isSome {op : TimerOp} (h : StoreInv m []) (hs : system.step m op m')
    (hi : i < m.created) (hcb : i ∈ m.m_timers → (m.heap i).m_cb.isSome) :
    i ∈ m'.m_timers → (m'.heap i).m_cb.isSome := by
  intro hmem
  rcases step_callback h hs hmem with ⟨hold, heq⟩ | ⟨_, _, hnew, _⟩
  · rw [heq]
    exact hcb hold
  · exact absurd hnew.symm (Nat.ne_of_lt hi)

theorem new_inv (now : Millis) : StoreInv (.new now) [] where
  sorted := .nil
  nodup := .nil
  owned := fun _ hi => by cases hi
  armed := fun _ hi => by cases hi
  addresses := fun _ hi => by cases hi
  numbered := fun _ hi => by cases hi

theorem reachable_inv (h : Reachable system m) : StoreInv m [] := by
  apply h.invariant (fun m => StoreInv m []) (fun hm hstep => (step_effect hm hstep).inv)
  intro m hm
  obtain ⟨now, rfl⟩ := hm
  exact new_inv now

section OverRuns

variable {tr : List (Move TimerManager TimerOp)} {now : Millis}

theorem run_keeps (h : Run system m tr m') (hm : StoreInv m []) : Keeps m m' := by
  induction h with
  | nil => exact .of_heap rfl rfl
  | cons hstep _ ih =>
    have heff := step_effect hm hstep
    exact heff.keeps.trans (ih heff.inv)

theorem run_balance (h : Run system m tr m') (hm : StoreInv m [])
    (hone : (m'.heap i).m_recurring = false) :
    pending i m' + (tr.flatMap delivered).count i + (tr.flatMap removed).count i =
      pending i m := by
  induction h with
  | nil => rfl
  | cons hstep hrun ih =>
    have heff := step_effect hm hstep
    have hkeeps := run_keeps (.cons hstep hrun) hm
    have hstep := heff.balance i (fun hi => (hkeeps.recurring i hi).symm.trans hone)
    have hrest := ih heff.inv hone
    simp only [List.flatMap_cons, List.count_append]
    omega

/-- Every pending timer has the callback it was added with. -/
theorem run_callback (h : Run system m tr m') (hm : StoreInv m []) (hj : j ∈ m'.m_timers) :
    j ∈ m.m_timers ∧ (m'.heap j).m_cb = (m.heap j).m_cb ∨
      ∃ mv ∈ tr, ∃ c, mv.act = .add_timer c ∧ mv.pre.created = j ∧ (m'.heap j).m_cb = c.cb := by
  induction h with
  | nil => exact Or.inl ⟨hj, rfl⟩
  | cons hstep _ ih =>
    rcases ih (step_effect hm hstep).inv hj with ⟨hmem, heq⟩ | ⟨mv, hmv, hadded⟩
    · rcases step_callback hm hstep hmem with ⟨hmem', heq'⟩ | ⟨c, hact, hcreated, hcb⟩
      · exact Or.inl ⟨hmem', heq.trans heq'⟩
      · exact Or.inr ⟨_, List.mem_cons_self, c, hact, hcreated, heq.trans hcb⟩
    · exact Or.inr ⟨mv, List.mem_cons_of_mem _ hmv, hadded⟩

theorem run_callback_isSome (h : Run system (.new now) tr m)
    (hcb : ∀ mv ∈ tr, mv.act.HasCallback) : ∀ i ∈ m.m_timers, (m.heap i).m_cb.isSome := by
  intro i hi
  rcases run_callback h (new_inv now) hi with ⟨hmem, _⟩ | ⟨mv, hmv, c, hact, _, heq⟩
  · cases hmem
  · have hsome := hcb mv hmv
    rw [hact] at hsome
    rw [heq]
    exact hsome

/-- The set is strictly ordered by the comparator and holds the live timers with
a callback, and no operation erases `end()`. -/
structure Consistent (m : TimerManager) : Prop where
  sorted : m.m_timers.Pairwise fun i j => m.before i j = true
  nodup : m.m_timers.Nodup
  owned : ∀ i ∈ m.m_timers, i ∈ m.live
  armed : ∀ i ∈ m.live, (m.heap i).m_cb.isSome → i ∈ m.m_timers
  total : ∀ op, m.Allowed op → ∃ r, m.exec op = .ok r

/-- The timer is pending, or one call has delivered it, or one `cancel` has removed it. -/
def Settled (tr : List (Move TimerManager TimerOp)) (m : TimerManager) (i : TimerPtr) : Prop :=
  let deliveries := (tr.flatMap delivered).count i
  let removals := (tr.flatMap removed).count i
  i ∈ m.m_timers ∧ deliveries = 0 ∧ removals = 0 ∨
  i ∉ m.m_timers ∧ deliveries = 1 ∧ removals = 0 ∨
  i ∉ m.m_timers ∧ deliveries = 0 ∧ removals = 1

theorem StoreInv.consistent (h : StoreInv m []) : Consistent m where
  sorted := List.Pairwise.imp (fun {i j} hlt => (m.before_orders i j).mpr hlt) h.sorted
  nodup := h.nodup_timers
  owned := fun _ => h.owned_timer
  armed := fun _ hi => h.mem_of_isSome hi
  total := fun _ ha =>
    let ⟨r, m', hexec, _⟩ := exec_effect h ha
    ⟨(r, m'), hexec⟩

/-- After any sequence of operations, with any readings of the clock: the set is
consistent, if no timer was added with an empty callback it holds no other timers,
every call has appended the callbacks of the timers it delivered, and every
one-shot timer is in exactly one of the three conditions. -/
theorem timer_store (h : Run system (.new now) tr m) : Consistent m ∧
    ((∀ mv ∈ tr, mv.act.HasCallback) → ∀ i ∈ m.m_timers, (m.heap i).m_cb.isSome) ∧
    (∀ mv ∈ tr, ∀ c, mv.act = .listExpiredCb c → (mv.pre.listExpiredCb c).cbs =
      c.cbs ++ (delivered mv).map fun i => (mv.pre.heap i).m_cb) ∧
    ∀ i < m.created, (m.heap i).m_recurring = false → Settled tr m i := by
  have hinv : ∀ {s op s'}, StoreInv s [] → system.step s op s' → StoreInv s' [] :=
    fun hs hstep => (step_effect hs hstep).inv
  have hm := h.invariant (fun s => StoreInv s []) hinv (new_inv now)
  refine ⟨hm.consistent, run_callback_isSome h, ?_, ?_⟩
  · intro mv hmv c hact
    have hpre := (h.invariant_at (fun s => StoreInv s []) hinv (new_inv now) hmv).1
    rw [listExpiredCb_cbs hpre]
    unfold delivered
    rw [hact]
  · intro i hi hone
    have hbalance := run_balance h (new_inv now) hone
    have hstart : pending i (.new now) = 1 := if_pos (Or.inl (Nat.zero_le i))
    by_cases hmem : i ∈ m.m_timers
    · rw [pending_of_mem hmem, hstart] at hbalance
      exact Or.inl ⟨hmem, by omega, by omega⟩
    · rw [pending_of_not_mem hi hmem, hstart] at hbalance
      rcases Nat.eq_zero_or_pos ((tr.flatMap delivered).count i) with hd | hd
      · exact Or.inr (Or.inr ⟨hmem, hd, by omega⟩)
      · exact Or.inr (Or.inl ⟨hmem, by omega, by omega⟩)

end OverRuns

/-- Two timers with one deadline, a delivery of both that arms the second again
near the end of the clock's range, and a `cancel` of it. -/
def twoTimers : List TimerOp :=
  [.add_timer ⟨16, 5, some 0, false, 10⟩, .add_timer ⟨32, 15, some 1, true, 0⟩, .refresh 0 10,
    .listExpiredCb ⟨[], 15, false, 48, 16, [~~~0]⟩, .cancel 1, .cancel 0]

theorem timer_store_two : ∃ tr m, Run system (.new 0) tr m ∧ tr.map Move.act = twoTimers ∧
    Consistent m ∧ m.created = 2 ∧ (m.heap 0).m_recurring = false ∧ Settled tr m 0 := by
  have hrun : (traceAll next (.new 0) twoTimers).map
      (fun r => (r.2.created, (r.2.heap 0).m_recurring)) = some (2, false) := by decide +kernel
  obtain ⟨tr, m, hr, hacts, hobs⟩ := Run.exists_of_traceAll next next_sound _ hrun
  obtain ⟨hcreated, hone⟩ := Prod.mk.inj hobs
  obtain ⟨hm, _, _, hsettled⟩ := timer_store hr
  exact ⟨tr, m, hr, hacts, hm, hcreated, hone, hsettled 0 (hcreated ▸ Nat.two_pos) hone⟩

end TimerManager

end FiberAsync
