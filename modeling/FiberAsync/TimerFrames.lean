import FiberAsync.TimerRuns

/-!
# Timers that an operation is not about

A timer that is out of the set stays out of it: nothing but the loop of
`listExpiredCb` puts timers back, and only those it has taken. A timer in the
set stays there, unchanged, unless it is cancelled, refreshed, reset or expired.
-/

namespace FiberAsync

set_option autoImplicit false

open Runs TimerManager

/-- The timer that the operation is called on. -/
def TimerOp.target : TimerOp → Option TimerPtr
  | cancel i | refresh i _ | reset i _ _ _ _ => some i
  | add_timer _ | listExpiredCb _ | getNextTimer _ | release _ => none

namespace Expiry

variable {e : Expiry} {out : List TimerPtr} {i j : TimerPtr}

theorem deliverAll_heap (h : j ∉ out) :
    (e.deliverAll out).manager.heap j = e.manager.heap j := by
  induction out generalizing e with
  | nil => rfl
  | cons i out ih =>
    obtain ⟨hne, hout⟩ : j ≠ i ∧ j ∉ out := by simpa using h
    exact (ih hout).trans (deliver_heap hne)

theorem deliver_live : (e.deliver i).manager.live = e.manager.live := by
  unfold deliver
  dsimp only
  split <;> rfl

theorem deliverAll_live : (e.deliverAll out).manager.live = e.manager.live := by
  induction out generalizing e with
  | nil => rfl
  | cons i out ih => exact ih.trans deliver_live

theorem deliver_period :
    ((e.deliver i).manager.heap j).m_ms = (e.manager.heap j).m_ms := by
  by_cases hj : j = i
  · subst j
    cases hrec : (e.manager.heap i).m_recurring with
    | true =>
      rw [deliver_recurring hrec, insertTimer_heap, setTimer_heap_self]
      rfl
    | false =>
      rw [deliver_oneShot hrec, setTimer_heap_self]
      rfl
  · rw [deliver_heap hj]

theorem deliverAll_period :
    ((e.deliverAll out).manager.heap j).m_ms = (e.manager.heap j).m_ms := by
  induction out generalizing e with
  | nil => rfl
  | cons i out ih => exact ih.trans deliver_period

end Expiry

namespace TimerManager

variable {m m' : TimerManager} {op : TimerOp} {i j : TimerPtr} {c : ExpireCall}

theorem listExpiredCb_mem_imp (h : j ∈ (m.listExpiredCb c).manager.m_timers) : j ∈ m.m_timers := by
  rw [← (m.takeExpired_spec c).timers, List.mem_append]
  rw [listExpiredCb_eq] at h
  exact Expiry.deliverAll_mem_imp (e := ⟨(m.takeExpired c).2, c.cbs, c.clock, c.ticks⟩) h

theorem listExpiredCb_heap (h : j ∉ (m.takeExpired c).1) :
    (m.listExpiredCb c).manager.heap j = m.heap j := by
  rw [listExpiredCb_eq]
  refine (Expiry.deliverAll_heap h).trans ?_
  rw [(m.takeExpired_spec c).heap]

theorem listExpiredCb_live : (m.listExpiredCb c).manager.live = m.live := by
  rw [listExpiredCb_eq]
  exact Expiry.deliverAll_live.trans (m.takeExpired_spec c).live

section Operations

variable (h : StoreInv m [])
include h

/-- An operation on a timer does nothing, or it is about a pending one and about no other. -/
theorem target_cases (ha : m.Allowed op) {r : TimerReply} (hexec : m.exec op = .ok (r, m'))
    (ht : op.target = some i) :
    m' = m ∨ i ∈ m.m_timers ∧ ∃ t stays, m.LeavesTimer i t stays m' := by
  cases op with
  | cancel i' =>
    cases ht
    obtain ⟨b, heq, _⟩ := exec_cancel_iff.mp hexec
    rcases h.cancel_cases ha heq with ⟨hmem, _, hleaves⟩ | ⟨_, _, rfl⟩
    · exact Or.inr ⟨hmem, _, _, hleaves⟩
    · exact Or.inl rfl
  | refresh i' now =>
    cases ht
    cases hexec
    rcases h.refresh_cases ha now with ⟨⟨hmem, hcb⟩, _⟩ | ⟨_, heq⟩
    · exact Or.inr ⟨hmem, _, _, h.refresh_leaves hmem hcb now⟩
    · rw [heq]
      exact Or.inl rfl
  | reset i' ms from_now seen now =>
    cases ht
    cases hexec
    rcases h.reset_cases ha ms from_now seen now with heq | ⟨hmem, heq⟩
    · exact Or.inl heq
    · rw [heq]
      exact Or.inr ⟨hmem, _, _, readd_leaves h hmem rfl⟩
  | add_timer | listExpiredCb | getNextTimer | release => cases ht

theorem target_frame (ha : m.Allowed op) {r : TimerReply} (hexec : m.exec op = .ok (r, m'))
    (ht : op.target = some i) : (j ∈ m'.m_timers → j ∈ m.m_timers) ∧
      (op.target ≠ some j → j ∈ m.m_timers → j ∈ m'.m_timers ∧ m'.heap j = m.heap j) := by
  rcases target_cases h ha hexec ht with rfl | ⟨hmem, _, _, hleaves⟩
  · exact ⟨id, fun _ hj => ⟨hj, rfl⟩⟩
  · refine ⟨hleaves.sub hmem, fun hne => hleaves.kept fun heq => hne ?_⟩
    rw [ht, heq]

/-- Which timers the sections other than `listExpiredCb` leave in the set. -/
theorem mem_of_op (hs : system.step m op m') (hop : ∀ c, op ≠ .listExpiredCb c)
    (hj : j < m.created) : (j ∈ m'.m_timers → j ∈ m.m_timers) ∧
      (op.target ≠ some j → j ∈ m.m_timers → j ∈ m'.m_timers ∧ m'.heap j = m.heap j) := by
  obtain ⟨ha, r, hexec⟩ := hs
  cases op with
  | add_timer c =>
    cases hexec
    have hne : j ≠ m.created := Nat.ne_of_lt hj
    have hperm : (m.add_timer c).2.m_timers.Perm (m.created :: m.m_timers) :=
      (h.newTimer ha).perm_insert
    constructor
    · exact fun hmem => (List.mem_cons.mp (hperm.mem_iff.mp hmem)).resolve_left hne
    · intro _ hmem
      exact ⟨hperm.mem_iff.mpr (List.mem_cons_of_mem _ hmem), Function.update_of_ne hne _ _⟩
  | cancel | refresh | reset => exact target_frame h ha hexec rfl
  | listExpiredCb c => exact absurd rfl (hop c)
  | getNextTimer now =>
    cases hexec
    rw [getNextTimer_manager]
    exact ⟨id, fun _ hj => ⟨hj, rfl⟩⟩
  | release i =>
    cases hexec
    exact ⟨id, fun _ hj => ⟨hj, rfl⟩⟩

/-- An object stays alive unless the last pointer to it goes away. -/
theorem live_of_op (hs : system.step m op m') (hop : op ≠ .release j) (hj : j ∈ m.live) :
    j ∈ m'.live := by
  obtain ⟨ha, r, hexec⟩ := hs
  cases op with
  | add_timer c =>
    cases hexec
    exact List.mem_cons_of_mem _ hj
  | cancel | refresh | reset =>
    rcases target_cases h ha hexec rfl with rfl | ⟨_, _, _, hleaves⟩
    · exact hj
    · exact hleaves.live.symm ▸ hj
  | listExpiredCb c =>
    cases hexec
    rw [listExpiredCb_live]
    exact hj
  | getNextTimer now =>
    cases hexec
    rw [getNextTimer_manager]
    exact hj
  | release i =>
    cases hexec
    have hne : j ≠ i := fun heq => hop (heq ▸ rfl)
    exact (List.mem_erase_of_ne hne).mpr hj

theorem stays_out (hs : system.step m op m') (hj : j < m.created) (hout : j ∉ m.m_timers) :
    j ∉ m'.m_timers := by
  by_cases hop : ∃ c, op = .listExpiredCb c
  · obtain ⟨c, rfl⟩ := hop
    obtain ⟨_, r, hexec⟩ := hs
    cases hexec
    exact fun hmem => hout (listExpiredCb_mem_imp hmem)
  · have hop : ∀ c, op ≠ .listExpiredCb c := fun c heq => hop ⟨c, heq⟩
    exact fun hmem => hout ((mem_of_op h hs hop hj).1 hmem)

omit h in
theorem taken_mem (hmem : j ∈ (m.takeExpired c).1) : j ∈ m.m_timers := by
  rw [← (m.takeExpired_spec c).timers]
  exact List.mem_append_left _ hmem

theorem not_mem_of_taken (hmem : j ∈ (m.takeExpired c).1) (hone : (m.heap j).m_recurring = false) :
    j ∉ (m.listExpiredCb c).manager.m_timers := by
  have hj := h.numbered j (h.owned_timer (taken_mem hmem))
  have hnodup := h.nodup_timers
  rw [← (m.takeExpired_spec c).timers] at hnodup
  intro hin
  exact (List.nodup_append.mp hnodup).2.2 j hmem j ((listExpiredCb_mem h c hj hone).mp hin) rfl

theorem taken_in_order (hi : i ∈ m.m_timers)
    (hlt : (m.heap i).m_next < (m.heap j).m_next) :
    i ∉ (m.takeExpired c).1 ∧ j ∉ (m.takeExpired c).1 ∨
      ∃ before after, (m.takeExpired c).1 = before ++ i :: after ∧ j ∉ before := by
  have hkey : m.key i < m.key j := Prod.Lex.toLex_lt_toLex.mpr (Or.inl hlt)
  have hsorted := h.sorted
  rw [← (m.takeExpired_spec c).timers] at hsorted hi
  obtain ⟨hbatch, _, hcross⟩ := List.pairwise_append.mp hsorted
  by_cases hin : i ∈ (m.takeExpired c).1
  · obtain ⟨before, after, heq⟩ := List.append_of_mem hin
    refine Or.inr ⟨before, after, heq, fun hmem => ?_⟩
    rw [heq] at hbatch
    have hbefore := (List.pairwise_append.mp hbatch).2.2 j hmem i List.mem_cons_self
    exact absurd hkey (not_lt.mpr hbefore.le)
  · refine Or.inl ⟨hin, fun hmem => ?_⟩
    have hrest := (List.mem_append.mp hi).resolve_left hin
    exact absurd hkey (not_lt.mpr (hcross j hmem i hrest).le)

end Operations

end TimerManager

end FiberAsync
