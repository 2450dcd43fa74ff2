import FiberAsync.Timer
import FiberAsync.Library.Results
import FiberAsync.Library.Runs

/-!
# The timer set over whole runs

A timer's key changes only while the timer is outside the set. The invariant
therefore names the timers that an operation has taken out, and every operation
is made of four moves: take out, change a key, clear a callback, put back.
-/

namespace FiberAsync

set_option autoImplicit false

open Runs

namespace TimerManager

def key (m : TimerManager) (i : TimerPtr) : Nat ×ₗ Nat := (m.heap i).key

/-- `out` are the timers that the running operation has taken out of the set. -/
structure StoreInv (m : TimerManager) (out : List TimerPtr) : Prop where
  sorted : OrderedSet.Sorted m.key m.m_timers
  nodup : (m.m_timers ++ out).Nodup
  owned : ∀ i ∈ m.m_timers ++ out, i ∈ m.live
  armed : ∀ i ∈ m.live, (m.heap i).m_cb.isSome → i ∈ m.m_timers ++ out
  addresses : ∀ i ∈ m.live, ∀ j ∈ m.live, (m.heap i).address = (m.heap j).address → i = j
  numbered : ∀ i ∈ m.live, i < m.created

variable {m m' : TimerManager} {out : List TimerPtr} {i j : TimerPtr} {t : Timer}

theorem before_orders (m : TimerManager) : OrderedSet.Orders m.before m.key :=
  fun i j => Timer.comparator_iff (m.heap i) (m.heap j)

@[simp] theorem setTimer_m_timers : (m.setTimer i t).m_timers = m.m_timers := rfl
@[simp] theorem setTimer_created : (m.setTimer i t).created = m.created := rfl
@[simp] theorem insertTimer_heap : (m.insertTimer i).heap = m.heap := rfl
@[simp] theorem insertTimer_created : (m.insertTimer i).created = m.created := rfl

theorem setTimer_heap_of_ne (h : j ≠ i) : (m.setTimer i t).heap j = m.heap j :=
  Function.update_of_ne h _ _

@[simp] theorem setTimer_heap_self : (m.setTimer i t).heap i = t := Function.update_self _ _ _

theorem key_inj (ha : ∀ i ∈ m.live, ∀ j ∈ m.live, (m.heap i).address = (m.heap j).address → i = j)
    (hi : i ∈ m.live) (hj : j ∈ m.live) (h : m.key i = m.key j) : i = j :=
  ha i hi j hj (congrArg (fun k => (ofLex k).2) h)

namespace StoreInv

theorem nodup_timers (h : StoreInv m out) : m.m_timers.Nodup := h.sorted.nodup

theorem owned_timer (h : StoreInv m out) (hi : i ∈ m.m_timers) : i ∈ m.live :=
  h.owned i (List.mem_append_left _ hi)

theorem first_le {first : TimerPtr} {rest : List TimerPtr} (h : StoreInv m out)
    (heq : m.m_timers = first :: rest) (hi : i ∈ m.m_timers) : m.key first ≤ m.key i := by
  have hsorted := h.sorted
  rw [heq] at hi hsorted
  rcases List.mem_cons.mp hi with rfl | hi
  · exact le_refl _
  · exact le_of_lt ((List.pairwise_cons.mp hsorted).1 i hi)

theorem not_mem_out (h : StoreInv m out) (hi : i ∈ m.m_timers) : i ∉ out :=
  fun ho => (List.nodup_append.mp h.nodup).2.2 i hi i ho rfl

theorem key_ne (h : StoreInv m out) (hi : i ∈ m.live) (hout : i ∉ m.m_timers) :
    ∀ e ∈ m.m_timers, m.key e ≠ m.key i := by
  intro e he heq
  exact hout (key_inj h.addresses (h.owned_timer he) hi heq ▸ he)

theorem find_of_mem (h : StoreInv m out) (hi : i ∈ m.m_timers) : m.findTimer i = some i :=
  OrderedSet.find_of_mem m.before_orders h.sorted hi

theorem find_of_not_mem (h : StoreInv m out) (hi : i ∈ m.live) (hout : i ∉ m.m_timers) :
    m.findTimer i = none :=
  OrderedSet.find_of_not_mem m.before_orders (h.key_ne hi hout)

theorem perm_insert (h : StoreInv m (i :: out)) :
    (m.insertTimer i).m_timers.Perm (i :: m.m_timers) := by
  apply OrderedSet.perm_insert m.before_orders
  apply h.key_ne (h.owned i (by simp))
  exact fun hi => h.not_mem_out hi List.mem_cons_self

theorem erase (h : StoreInv m out) (hi : i ∈ m.m_timers) :
    StoreInv (m.eraseTimer i) (i :: out) := by
  have hperm : (m.m_timers.erase i ++ i :: out).Perm (m.m_timers ++ out) :=
    List.perm_middle.trans ((List.perm_cons_erase hi).symm.append_right out)
  constructor
  · exact h.sorted.sublist List.erase_sublist
  · exact hperm.nodup_iff.mpr h.nodup
  · exact fun j hj => h.owned j (hperm.mem_iff.mp hj)
  · exact fun j hj hcb => hperm.mem_iff.mpr (h.armed j hj hcb)
  · exact h.addresses
  · exact h.numbered

theorem insert (h : StoreInv m (i :: out)) : StoreInv (m.insertTimer i) out := by
  have hperm : ((m.insertTimer i).m_timers ++ out).Perm (m.m_timers ++ i :: out) :=
    (h.perm_insert.append_right out).trans List.perm_middle.symm
  constructor
  · exact OrderedSet.Sorted.insert m.before_orders h.sorted
  · exact hperm.nodup_iff.mpr h.nodup
  · exact fun j hj => h.owned j (hperm.mem_iff.mp hj)
  · exact fun j hj hcb => hperm.mem_iff.mpr (h.armed j hj hcb)
  · exact h.addresses
  · exact h.numbered

theorem address_set (h : StoreInv m out) (ha : t.address = (m.heap i).address) :
    ∀ j ∈ m.live, ∀ l ∈ m.live,
      ((m.setTimer i t).heap j).address = ((m.setTimer i t).heap l).address → j = l := by
  have hsame : ∀ j, ((m.setTimer i t).heap j).address = (m.heap j).address := by
    intro j
    by_cases hj : j = i
    · subst j
      rw [setTimer_heap_self, ha]
    · rw [setTimer_heap_of_ne hj]
  intro j hj l hl heq
  rw [hsame, hsame] at heq
  exact h.addresses j hj l hl heq

theorem sorted_set (h : StoreInv m out) (hi : i ∉ m.m_timers) :
    OrderedSet.Sorted (m.setTimer i t).key (m.setTimer i t).m_timers := by
  apply h.sorted.congr
  intro j hj
  have hne : j ≠ i := fun heq => hi (heq ▸ hj)
  unfold key
  rw [setTimer_heap_of_ne hne]

theorem rekey (h : StoreInv m (i :: out)) (ha : t.address = (m.heap i).address) :
    StoreInv (m.setTimer i t) (i :: out) := by
  have hi : i ∉ m.m_timers := fun hi => h.not_mem_out hi List.mem_cons_self
  refine ⟨h.sorted_set hi, h.nodup, h.owned, ?_, h.address_set ha, h.numbered⟩
  intro j hj hcb
  by_cases hne : j = i
  · subst j
    exact List.mem_append_right _ List.mem_cons_self
  · rw [setTimer_heap_of_ne hne] at hcb
    exact h.armed j hj hcb

theorem disarm (h : StoreInv m (i :: out)) (hcb : t.m_cb = none)
    (ha : t.address = (m.heap i).address) : StoreInv (m.setTimer i t) out := by
  have hi : i ∉ m.m_timers := fun hi => h.not_mem_out hi List.mem_cons_self
  obtain ⟨hiout, hnodup⟩ := List.nodup_cons.mp (List.perm_middle.nodup_iff.mp h.nodup)
  refine ⟨h.sorted_set hi, hnodup, ?_, ?_, h.address_set ha, h.numbered⟩
  · intro j hj
    apply h.owned j
    exact List.perm_middle.mem_iff.mpr (List.mem_cons_of_mem i hj)
  · intro j hj hs
    by_cases hne : j = i
    · subst j
      rw [setTimer_heap_self, hcb] at hs
      cases hs
    · rw [setTimer_heap_of_ne hne] at hs
      have hmem := List.perm_middle.mem_iff.mp (h.armed j hj hs)
      exact (List.mem_cons.mp hmem).resolve_left hne

theorem newTimer {c : TimerCall} (h : StoreInv m out)
    (hc : ∀ i ∈ m.live, (m.heap i).address ≠ c.address) :
    StoreInv (m.newTimer c) (m.created :: out) := by
  have hne : ∀ j ∈ m.live, j ≠ m.created := fun j hj => Nat.ne_of_lt (h.numbered j hj)
  have hheap : ∀ j ∈ m.live, (m.newTimer c).heap j = m.heap j :=
    fun j hj => Function.update_of_ne (hne j hj) _ _
  have hself : (m.newTimer c).heap m.created =
      Timer.new c.address c.ms c.cb c.recurring c.now := Function.update_self _ _ _
  have hnew : m.created ∉ m.m_timers ++ out := fun hmem => hne _ (h.owned _ hmem) rfl
  constructor
  · apply h.sorted.congr
    intro j hj
    exact congrArg Timer.key (hheap j (h.owned_timer hj))
  · exact List.perm_middle.nodup_iff.mpr (List.nodup_cons.mpr ⟨hnew, h.nodup⟩)
  · intro j hj
    rcases List.mem_cons.mp (List.perm_middle.mem_iff.mp hj) with rfl | hj
    · exact List.mem_cons_self
    · exact List.mem_cons_of_mem _ (h.owned j hj)
  · intro j hj hcb
    rw [List.perm_middle.mem_iff]
    rcases List.mem_cons.mp hj with rfl | hj
    · exact List.mem_cons_self
    · rw [hheap j hj] at hcb
      exact List.mem_cons_of_mem _ (h.armed j hj hcb)
  · intro j hj l hl heq
    rcases List.mem_cons.mp hj with rfl | hj <;> rcases List.mem_cons.mp hl with rfl | hl
    · rfl
    · rw [hself, hheap l hl] at heq
      exact absurd heq.symm (hc l hl)
    · rw [hself, hheap j hj] at heq
      exact absurd heq (hc j hj)
    · rw [hheap j hj, hheap l hl] at heq
      exact h.addresses j hj l hl heq
  · intro j hj
    rcases List.mem_cons.mp hj with rfl | hj
    · exact Nat.lt_succ_self _
    · exact Nat.lt_succ_of_lt (h.numbered j hj)

theorem release (h : StoreInv m []) (hi : i ∉ m.m_timers) :
    StoreInv { m with live := m.live.erase i } [] := by
  have hsub : ∀ j, j ∈ m.live.erase i → j ∈ m.live := fun j hj => List.mem_of_mem_erase hj
  refine ⟨h.sorted, h.nodup, ?_, fun j hj => h.armed j (hsub j hj),
    fun j hj l hl => h.addresses j (hsub j hj) l (hsub l hl),
    fun j hj => h.numbered j (hsub j hj)⟩
  intro j hj
  rw [List.append_nil] at hj
  have hne : j ≠ i := fun heq => hi (heq ▸ hj)
  exact (List.mem_erase_of_ne hne).mpr (h.owned_timer hj)

theorem tickled (h : StoreInv m out) (b : Bool) : StoreInv { m with m_tickled := b } out :=
  ⟨h.sorted, h.nodup, h.owned, h.armed, h.addresses, h.numbered⟩

theorem addTimerLocked (h : StoreInv m (i :: out)) : StoreInv (m.addTimerLocked i).2 out :=
  h.insert.tickled _

theorem mem_of_isSome (h : StoreInv m []) (hi : i ∈ m.live) (hcb : (m.heap i).m_cb.isSome) :
    i ∈ m.m_timers := by
  have hmem := h.armed i hi hcb
  rwa [List.append_nil] at hmem

theorem callback_of_not_mem (h : StoreInv m []) (hi : i ∈ m.live) (hout : i ∉ m.m_timers) :
    (m.heap i).m_cb = none := by
  rw [← Option.not_isSome_iff_eq_none]
  exact fun hcb => hout (h.mem_of_isSome hi hcb)

end StoreInv

/-- What no operation changes: timers are not created anew, and stay one-shot or recurring. -/
structure Keeps (m m' : TimerManager) : Prop where
  created : m.created ≤ m'.created
  recurring : ∀ j < m.created, (m'.heap j).m_recurring = (m.heap j).m_recurring

namespace Keeps

theorem of_heap (hc : m'.created = m.created) (hh : m'.heap = m.heap) : Keeps m m' :=
  ⟨hc.ge, fun j _ => by rw [hh]⟩

theorem trans {m'' : TimerManager} (h : Keeps m m') (h' : Keeps m' m'') : Keeps m m'' :=
  ⟨h.created.trans h'.created,
    fun j hj => (h'.recurring j (hj.trans_le h.created)).trans (h.recurring j hj)⟩

theorem set (ht : t.m_recurring = (m.heap i).m_recurring) : Keeps m (m.setTimer i t) := by
  refine ⟨le_rfl, fun j _ => ?_⟩
  by_cases hj : j = i
  · subst j
    rw [setTimer_heap_self, ht]
  · rw [setTimer_heap_of_ne hj]

end Keeps

/-- The timer is taken out, changed and put back. -/
def rearm (m : TimerManager) (i : TimerPtr) (t : Timer) : TimerManager :=
  ((m.eraseTimer i).setTimer i t).insertTimer i

/-- The timer is left with the given fields, in the set or not, and the others as they were. -/
structure LeavesTimer (m : TimerManager) (i : TimerPtr) (t : Timer) (stays : Prop)
    (m' : TimerManager) : Prop where
  heap : m'.heap i = t
  mem : i ∈ m'.m_timers ↔ stays
  others : ∀ j, j ≠ i → (j ∈ m'.m_timers ↔ j ∈ m.m_timers) ∧ m'.heap j = m.heap j
  live : m'.live = m.live

namespace LeavesTimer

variable {stays : Prop} (h : m.LeavesTimer i t stays m')
include h

theorem sub (hi : i ∈ m.m_timers) (hj : j ∈ m'.m_timers) : j ∈ m.m_timers := by
  by_cases hne : j = i
  · exact hne ▸ hi
  · exact (h.others j hne).1.mp hj

theorem kept (hne : j ≠ i) (hj : j ∈ m.m_timers) : j ∈ m'.m_timers ∧ m'.heap j = m.heap j :=
  ⟨(h.others j hne).1.mpr hj, (h.others j hne).2⟩

theorem rest : ∀ j ∈ m'.m_timers, j ≠ i → j ∈ m.m_timers ∧ m'.heap j = m.heap j :=
  fun j hj hne => ⟨(h.others j hne).1.mp hj, (h.others j hne).2⟩

end LeavesTimer

section Rearm

variable (h : StoreInv m []) (hi : i ∈ m.m_timers) (ha : t.address = (m.heap i).address)
include h hi ha

theorem StoreInv.rearm : StoreInv (m.rearm i t) [] := ((h.erase hi).rekey ha).insert

theorem mem_rearm : j ∈ (m.rearm i t).m_timers ↔ j ∈ m.m_timers :=
  (((h.erase hi).rekey ha).perm_insert.trans (List.perm_cons_erase hi).symm).mem_iff

theorem rearm_leaves : m.LeavesTimer i t True (m.rearm i t) where
  heap := by rw [TimerManager.rearm, insertTimer_heap, setTimer_heap_self]
  mem := (mem_rearm h hi ha).trans (iff_true_intro hi)
  others := fun _ hj => ⟨mem_rearm h hi ha, setTimer_heap_of_ne hj⟩
  live := rfl

theorem readd_leaves :
    m.LeavesTimer i t True (((m.eraseTimer i).setTimer i t).addTimerLocked i).2 := by
  obtain ⟨hheap, hmem, hothers, hlive⟩ := rearm_leaves h hi ha
  exact ⟨hheap, hmem, hothers, hlive⟩

end Rearm

def cancelled (m : TimerManager) (i : TimerPtr) : Timer := { m.heap i with m_cb := none }

theorem StoreInv.cancel_of_mem (h : StoreInv m []) (hi : i ∈ m.m_timers)
    (hcb : (m.heap i).m_cb.isSome) :
    m.cancel i = .ok (true, (m.eraseTimer i).setTimer i (m.cancelled i)) := by
  have hkey : (m.setTimer i (m.cancelled i)).key = m.key := by
    funext j
    unfold key
    by_cases hj : j = i
    · subst j
      rw [setTimer_heap_self]
      rfl
    · rw [setTimer_heap_of_ne hj]
  have hfind : (m.setTimer i (m.cancelled i)).findTimer i = some i := by
    apply OrderedSet.find_of_mem (before_orders _) _ hi
    rw [hkey]
    exact h.sorted
  unfold cancelled at hfind ⊢
  unfold cancel
  rw [if_pos hcb]
  simp only [hfind]
  rfl

theorem cancel_of_none (hcb : (m.heap i).m_cb = none) : m.cancel i = .ok (false, m) := by
  unfold cancel
  rw [hcb]
  rfl

theorem StoreInv.erase_leaves (h : StoreInv m []) :
    m.LeavesTimer i t False ((m.eraseTimer i).setTimer i t) where
  heap := setTimer_heap_self
  mem := iff_false_intro h.nodup_timers.not_mem_erase
  others := fun _ hj => ⟨List.mem_erase_of_ne hj, setTimer_heap_of_ne hj⟩
  live := rfl

theorem exec_cancel_iff {r : TimerReply} :
    m.exec (.cancel i) = .ok (r, m') ↔ ∃ b, m.cancel i = .ok (b, m') ∧ r = .bool b := by
  refine Results.map_eq_ok.trans ⟨?_, ?_⟩
  · intro h
    obtain ⟨⟨b, _⟩, heq, hr⟩ := h
    cases hr
    exact ⟨b, heq, rfl⟩
  · intro h
    obtain ⟨b, heq, rfl⟩ := h
    exact ⟨(b, m'), heq, rfl⟩

theorem StoreInv.cancel_cases (h : StoreInv m []) (hi : i ∈ m.live) {b : Bool}
    (heq : m.cancel i = .ok (b, m')) :
    i ∈ m.m_timers ∧ b = true ∧ m.LeavesTimer i (m.cancelled i) False m' ∨
      (m.heap i).m_cb = none ∧ b = false ∧ m' = m := by
  by_cases hcb : (m.heap i).m_cb.isSome
  · have hmem := h.mem_of_isSome hi hcb
    rw [h.cancel_of_mem hmem hcb] at heq
    cases heq
    exact Or.inl ⟨hmem, rfl, h.erase_leaves⟩
  · have hnone := Option.not_isSome_iff_eq_none.mp hcb
    rw [cancel_of_none hnone] at heq
    cases heq
    exact Or.inr ⟨hnone, rfl, rfl⟩

def refreshed (m : TimerManager) (i : TimerPtr) (now : Millis) : Timer :=
  { m.heap i with m_next := now + (m.heap i).m_ms }

theorem StoreInv.refresh_of_mem (h : StoreInv m []) (hi : i ∈ m.m_timers)
    (hcb : (m.heap i).m_cb.isSome) (now : Millis) :
    m.refresh i now = (true, m.rearm i (m.refreshed i now)) := by
  have hne : ¬ (m.heap i).m_cb.isNone := by simpa using Option.isSome_iff_ne_none.mp hcb
  unfold refresh
  rw [if_neg hne, h.find_of_mem hi]
  rfl

theorem refresh_of_none (hcb : (m.heap i).m_cb = none) (now : Millis) :
    m.refresh i now = (false, m) := by
  unfold refresh
  rw [hcb]
  rfl

theorem StoreInv.refresh_leaves (h : StoreInv m []) (hi : i ∈ m.m_timers)
    (hcb : (m.heap i).m_cb.isSome) (now : Millis) :
    m.LeavesTimer i (m.refreshed i now) True (m.refresh i now).2 := by
  rw [h.refresh_of_mem hi hcb]
  exact rearm_leaves h hi rfl

/-- `refresh` does nothing without a callback, or takes the timer out and puts it back. -/
theorem StoreInv.refresh_cases (h : StoreInv m []) (hi : i ∈ m.live) (now : Millis) :
    (i ∈ m.m_timers ∧ (m.heap i).m_cb.isSome) ∧
        m.refresh i now = (true, m.rearm i (m.refreshed i now)) ∨
      (m.heap i).m_cb = none ∧ m.refresh i now = (false, m) := by
  by_cases hcb : (m.heap i).m_cb.isSome
  · have hmem := h.mem_of_isSome hi hcb
    exact Or.inl ⟨⟨hmem, hcb⟩, h.refresh_of_mem hmem hcb now⟩
  · have hnone := Option.not_isSome_iff_eq_none.mp hcb
    exact Or.inr ⟨hnone, refresh_of_none hnone now⟩

def restarted (m : TimerManager) (i : TimerPtr) (ms : Millis) (from_now : Bool) (now : Millis) :
    Timer :=
  let start := if from_now then now else (m.heap i).m_next - (m.heap i).m_ms
  { m.heap i with m_ms := ms, m_next := start + ms }

theorem reset_early {ms seen : Millis} (heq : ms = seen) (now : Millis) :
    m.reset i ms false seen now = ((true, false), m) := by
  unfold reset
  rw [if_pos ⟨heq, Bool.false_ne_true⟩]

theorem reset_of_none (hcb : (m.heap i).m_cb = none) (ms : Millis) (from_now : Bool)
    (seen now : Millis) : m.reset i ms from_now seen now = ((true, false), m) := by
  unfold reset
  rw [hcb]
  exact ite_self _

theorem StoreInv.reset_of_not_mem (h : StoreInv m []) (hi : i ∈ m.live) (hout : i ∉ m.m_timers)
    (ms : Millis) (from_now : Bool) (seen now : Millis) :
    m.reset i ms from_now seen now = ((true, false), m) :=
  reset_of_none (h.callback_of_not_mem hi hout) ms from_now seen now

theorem StoreInv.reset_restarts (h : StoreInv m []) (hmem : i ∈ m.m_timers)
    (hcb : (m.heap i).m_cb.isSome) {ms seen : Millis} {from_now : Bool}
    (hgo : ms ≠ seen ∨ from_now = true) (now : Millis) :
    m.reset i ms from_now seen now =
      let r := ((m.eraseTimer i).setTimer i (m.restarted i ms from_now now)).addTimerLocked i
      ((true, r.1), r.2) := by
  have hne : ¬ (m.heap i).m_cb.isNone := by simpa using Option.isSome_iff_ne_none.mp hcb
  have hskip : ¬ (ms = seen ∧ ¬ from_now) := by
    rintro ⟨heq, hnow⟩
    exact hgo.elim (fun hms => hms heq) hnow
  unfold reset
  rw [if_neg hskip, if_neg hne, h.find_of_mem hmem]
  rfl

theorem StoreInv.reset_leaves (h : StoreInv m []) (hmem : i ∈ m.m_timers)
    (hcb : (m.heap i).m_cb.isSome) {ms seen : Millis} {from_now : Bool}
    (hgo : ms ≠ seen ∨ from_now = true) (now : Millis) :
    m.LeavesTimer i (m.restarted i ms from_now now) True (m.reset i ms from_now seen now).2 := by
  rw [h.reset_restarts hmem hcb hgo]
  exact readd_leaves h hmem rfl

/-- `reset` leaves the manager alone and announces nothing, or takes the timer out
and adds it again. -/
theorem StoreInv.reset_spec (h : StoreInv m []) (hi : i ∈ m.live) (ms : Millis) (from_now : Bool)
    (seen now : Millis) :
    (∃ b, m.reset i ms from_now seen now = ((b, false), m)) ∨
      i ∈ m.m_timers ∧ ∃ r, r = ((m.eraseTimer i).setTimer i
        (m.restarted i ms from_now now)).addTimerLocked i ∧
        m.reset i ms from_now seen now = ((true, r.1), r.2) := by
  by_cases hcb : (m.heap i).m_cb.isSome
  · by_cases hgo : ms ≠ seen ∨ from_now = true
    · have hmem := h.mem_of_isSome hi hcb
      exact Or.inr ⟨hmem, _, rfl, h.reset_restarts hmem hcb hgo now⟩
    · obtain ⟨heq, hfrom⟩ := not_or.mp hgo
      rw [Bool.not_eq_true] at hfrom
      rw [hfrom]
      exact Or.inl ⟨true, reset_early (not_not.mp heq) now⟩
  · have hnone := Option.not_isSome_iff_eq_none.mp hcb
    exact Or.inl ⟨true, reset_of_none hnone ms from_now seen now⟩

theorem StoreInv.reset_cases (h : StoreInv m []) (hi : i ∈ m.live) (ms : Millis) (from_now : Bool)
    (seen now : Millis) :
    (m.reset i ms from_now seen now).2 = m ∨
      i ∈ m.m_timers ∧ (m.reset i ms from_now seen now).2 =
        (((m.eraseTimer i).setTimer i (m.restarted i ms from_now now)).addTimerLocked i).2 := by
  rcases h.reset_spec hi ms from_now seen now with ⟨b, heq⟩ | ⟨hmem, r, rfl, heq⟩
  · rw [heq]
    exact Or.inl rfl
  · rw [heq]
    exact Or.inr ⟨hmem, rfl⟩

end TimerManager

end FiberAsync
