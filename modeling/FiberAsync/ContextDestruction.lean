import FiberAsync.ConcurrentAccounting
import FiberAsync.TableIdentity

/-!
# The destructor of an IOManager

`~IOManager` deletes what `m_fdContexts` points to, and nothing else deletes a
context. So each context is deleted once, or a growth of the table has cut its
entry off and no `delete` reaches it any more.
-/

namespace FiberAsync

set_option autoImplicit false

open Runs Results

namespace IOManager

variable {io io' : IOManager} {l l' : List (Option ContextPtr)} {p : ContextPtr} {fd : Nat}

/-- The loop of `~IOManager`: the contexts deleted, in order. -/
def deleteContexts : List (Option ContextPtr) → List ContextPtr
  | [] => []
  | some p :: rest => p :: deleteContexts rest
  | none :: rest => deleteContexts rest

/-- The contexts whose entries `resize(size)` destroys. -/
def cutOff (io : IOManager) (size : Nat) : List ContextPtr :=
  deleteContexts (io.m_fdContexts.drop size)

theorem deleteContexts_append :
    deleteContexts (l ++ l') = deleteContexts l ++ deleteContexts l' := by
  induction l with
  | nil => rfl
  | cons o rest ih =>
    cases o with
    | none => exact ih
    | some p => exact congrArg (p :: ·) ih

theorem deleteContexts_replicate (n : Nat) : deleteContexts (List.replicate n none) = [] := by
  induction n with
  | zero => rfl
  | succ n ih => exact ih

theorem mem_deleteContexts : p ∈ deleteContexts l ↔ some p ∈ l := by
  induction l with
  | nil => simp [deleteContexts]
  | cons o rest ih =>
    cases o with
    | none => simp [deleteContexts, ih]
    | some q => simp [deleteContexts, ih]

/-- The contexts made for the null entries are the next ones of the heap. -/
theorem fillNull_deleteContexts (io : IOManager) (i : Nat) (l : List (Option ContextPtr)) :
    ∃ n, (io.fillNull i l).1.allocated = io.allocated + n ∧
      (deleteContexts (io.fillNull i l).2).Perm
        (deleteContexts l ++ List.range' io.allocated n) := by
  induction l generalizing io i with
  | nil => exact ⟨0, rfl, .refl _⟩
  | cons o rest ih =>
    cases o with
    | some p =>
      obtain ⟨n, hallocated, hperm⟩ := ih io (i + 1)
      exact ⟨n, hallocated, hperm.cons p⟩
    | none =>
      obtain ⟨n, hallocated, hperm⟩ := ih (io.newContext i) (i + 1)
      refine ⟨n + 1, ?_, ?_⟩
      · change _ = io.allocated + 1 + n at hallocated
        change (fillNull (io.newContext i) (i + 1) rest).1.allocated = _
        omega
      · rw [List.range'_succ]
        exact (hperm.cons io.allocated).trans List.perm_middle.symm

/-- What a growth cuts off is not deleted, and what it makes is. -/
theorem contextResize_deleteContexts (io : IOManager) (size : Nat) :
    ∃ n, (io.contextResize size).allocated = io.allocated + n ∧
      (deleteContexts (io.contextResize size).m_fdContexts ++ io.cutOff size).Perm
        (deleteContexts io.m_fdContexts ++ List.range' io.allocated n) := by
  obtain ⟨n, hallocated, hperm⟩ := fillNull_deleteContexts io 0 (resized io.m_fdContexts size)
  refine ⟨n, hallocated, ?_⟩
  have hresized : deleteContexts (resized io.m_fdContexts size) =
      deleteContexts (io.m_fdContexts.take size) := by
    rw [resized, deleteContexts_append, deleteContexts_replicate, List.append_nil]
  have hsplit : deleteContexts io.m_fdContexts =
      deleteContexts (io.m_fdContexts.take size) ++ io.cutOff size := by
    rw [cutOff, ← deleteContexts_append, List.take_append_drop]
  rw [hresized] at hperm
  rw [hsplit, List.append_assoc]
  apply (hperm.append_right _).trans
  rw [List.append_assoc]
  exact List.perm_append_comm.append_left _

theorem growContext_deleteContexts (h : io.growContext fd = .ok (p, io')) :
    ∃ n, io'.allocated = io.allocated + n ∧
      (deleteContexts io'.m_fdContexts ++ io.cutOff (fd * 3 / 2)).Perm
        (deleteContexts io.m_fdContexts ++ List.range' io.allocated n) := by
  obtain ⟨_, rfl⟩ := growContext_ok_iff.mp h
  exact contextResize_deleteContexts io (fd * 3 / 2)

theorem initial_deleteContexts :
    (deleteContexts initial.m_fdContexts).Perm (List.range initial.allocated) := by
  obtain ⟨n, hallocated, hperm⟩ := contextResize_deleteContexts
    { contexts := fun _ => { m_fd := 0 }, allocated := 0, m_fdContexts := []
      m_pendingEventCount := 0, epoll := fun _ => none, tasks := [] } 32
  rw [Nat.zero_add] at hallocated
  change initial.allocated = n at hallocated
  rw [hallocated, List.range_eq_range']
  rw [cutOff, List.drop_nil, deleteContexts, List.append_nil] at hperm
  exact hperm

theorem cutOff_eq_nil_iff (ht : io.TableOk) (size : Nat) :
    io.cutOff size = [] ↔ io.m_fdContexts.length ≤ size := by
  constructor
  · intro hnil
    by_contra hlt
    have hget := List.getElem?_eq_getElem (Nat.lt_of_not_le hlt)
    obtain ⟨p, hp, _⟩ := ht size _ hget
    have hmem : some p ∈ io.m_fdContexts.drop size := by
      apply List.mem_of_getElem? (i := 0)
      rw [List.getElem?_drop, Nat.add_zero, hget, hp]
    have hin := mem_deleteContexts.mpr hmem
    rw [cutOff] at hnil
    rw [hnil] at hin
    cases hin
  · intro hle
    rw [cutOff, List.drop_eq_nil_of_le hle]
    rfl

end IOManager

namespace Threads

variable {s s' : Threads} {a : Act}

/-- The contexts that a step cuts off the table. -/
def cutOff (s : Threads) : Act → List ContextPtr
  | .run t =>
    match s.pc t with
    | .addGrow c => s.io.cutOff (c.fd * 3 / 2)
    | _ => []
  | _ => []

theorem cutOff_eq_nil_iff (ht : s.io.TableOk) : s.cutOff a = [] ↔ ¬ s.Shrinks a := by
  have hno : (∀ t c, a = .run t → s.pc t ≠ .addGrow c) → ¬ s.Shrinks a := by
    rintro hpc ⟨t, c, ha, hgrow, _⟩
    exact hpc t c ha hgrow
  cases a with
  | run t =>
    cases hpc : s.pc t with
    | addGrow c =>
      simp only [cutOff, hpc, IOManager.cutOff_eq_nil_iff ht]
      constructor
      · rintro hle ⟨t', c', ha, hpc', hlt⟩
        cases ha
        cases hpc.symm.trans hpc'
        omega
      · intro hkeeps
        exact le_of_not_shrinks hkeeps hpc
    | _ =>
      refine ⟨fun _ => hno fun t' c ha => ?_, fun _ => by simp only [cutOff, hpc]⟩
      cases ha
      simp [hpc]
  | _ => exact ⟨fun _ => hno fun t c ha => (nomatch ha), fun _ => rfl⟩

/-- One step: the contexts of the table and the new ones are in the table, or cut off. -/
theorem exec_deleteContexts (h : s.exec a = .ok s') :
    ∃ n, s'.io.allocated = s.io.allocated + n ∧
      (IOManager.deleteContexts s'.io.m_fdContexts ++ s.cutOff a).Perm
        (IOManager.deleteContexts s.io.m_fdContexts ++ List.range' s.io.allocated n) := by
  have hsame : IOManager.SameTable s.io s'.io → s.cutOff a = [] →
      ∃ n, s'.io.allocated = s.io.allocated + n ∧
        (IOManager.deleteContexts s'.io.m_fdContexts ++ s.cutOff a).Perm
          (IOManager.deleteContexts s.io.m_fdContexts ++ List.range' s.io.allocated n) := by
    intro htable hnil
    refine ⟨0, htable.allocated, ?_⟩
    rw [htable.table, hnil]
    exact .refl _
  cases a with
  | run t =>
    obtain ⟨sh, pc, hsteps, rfl⟩ := steps_of_run h
    rcases hsteps.table with htable | ⟨c, p, hpc, hg, _⟩
    · cases hpc : s.pc t with
      | addGrow c =>
        rw [hpc] at hsteps
        cases hsteps with
        | addGrow hg =>
          simp only [cutOff, hpc]
          exact IOManager.growContext_deleteContexts hg
      | _ => exact hsame htable (by simp only [cutOff, hpc])
    · simp only [cutOff, hpc]
      exact IOManager.growContext_deleteContexts hg
  | _ =>
    obtain ⟨_, rfl⟩ := start_ok_iff.mp h
    exact hsame (.refl _) rfl

end Threads

namespace Pool

variable {s s' : Pool} {a : PoolAct} {tr : List (Move Pool PoolAct)} {start : Millis}

def cutOff (s : Pool) : PoolAct → List ContextPtr
  | .event a => s.toThreads.cutOff a
  | _ => []

/-- The contexts that the growths of a run have cut off the table. -/
def lost (tr : List (Move Pool PoolAct)) : List ContextPtr :=
  tr.flatMap fun m => m.pre.cutOff m.act

/-- `~IOManager` and then `~Scheduler`: the contexts deleted, in order, or `none`
when `qc_assert(_stopping)` fails. -/
def destroy (s : Pool) : Option (List ContextPtr) :=
  if s._stopping then some (IOManager.deleteContexts s.io.m_fdContexts) else none

/-- The step is `_stopping = true` in `stop`. -/
def Stops (m : Move Pool PoolAct) : Prop :=
  ∃ t, m.act = .loop t ∧ m.pre.loop t = .stopping

theorem cutOff_eq : s.cutOff a = a.api.toList.flatMap s.toThreads.cutOff := by
  cases a with
  | event b => exact (List.append_nil _).symm
  | _ => rfl

theorem step_deleteContexts (hs : system.step s a s') :
    ∃ n, s'.io.allocated = s.io.allocated + n ∧
      (IOManager.deleteContexts s'.io.m_fdContexts ++ s.cutOff a).Perm
        (IOManager.deleteContexts s.io.m_fdContexts ++ List.range' s.io.allocated n) := by
  rw [cutOff_eq]
  rcases threads_step hs with ⟨hno, hsame⟩ | ⟨b, hb, _, hexec⟩
  · rw [hno, hsame]
    exact ⟨0, rfl, .refl _⟩
  · rw [hb, Option.toList_some, List.flatMap_singleton]
    exact Threads.exec_deleteContexts hexec

theorem lost_of_run (hr : Run system (initial start) tr s) :
    (IOManager.deleteContexts s.io.m_fdContexts ++ lost tr).Perm
      (List.range s.io.allocated) := by
  apply hr.history fun tr s => (IOManager.deleteContexts s.io.m_fdContexts ++ lost tr).Perm
    (List.range s.io.allocated)
  · intro tr s a s' ih hstep
    obtain ⟨n, hallocated, hperm⟩ := step_deleteContexts hstep
    have hlost : lost (tr ++ [⟨s, a, s'⟩]) = lost tr ++ s.cutOff a := by simp [lost]
    have hrange : List.range s'.io.allocated =
        List.range s.io.allocated ++ List.range' s.io.allocated n := by
      have happend := List.range'_append_1 (s := 0) (m := s.io.allocated) (n := n)
      rw [Nat.zero_add] at happend
      rw [hallocated, List.range_eq_range', List.range_eq_range', happend]
    rw [hlost, hrange, ← List.append_assoc]
    -- the contexts cut off now come after those cut off before
    have hcut : ∀ l l' l'' : List ContextPtr, (l ++ l' ++ l'').Perm (l ++ l'' ++ l') := by
      intro l l' l''
      rw [List.append_assoc, List.append_assoc]
      exact List.perm_append_comm.append_left l
    apply (hcut _ _ _).trans
    apply (hperm.append_right _).trans
    apply (hcut _ _ _).trans
    exact ih.append_right _
  · rw [lost, List.flatMap_nil, List.append_nil]
    exact IOManager.initial_deleteContexts

theorem tableOk_of_mem (hr : Run system (initial start) tr s) {m : Move Pool PoolAct}
    (hm : m ∈ tr) : m.pre.io.TableOk := by
  obtain ⟨before, after, rfl⟩ := List.append_of_mem hm
  obtain ⟨hbefore, _, _⟩ := hr.split_at
  exact (accounts_of_run hbefore (initial_accounts start) (initial_asks start)).1.pointing.table

theorem cutOff_eq_nil_iff (ht : s.io.TableOk) :
    s.cutOff a = [] ↔ ∀ b, a = .event b → ¬ s.toThreads.Shrinks b := by
  cases a with
  | event b =>
    have hiff : s.toThreads.cutOff b = [] ↔ ¬ s.toThreads.Shrinks b := Threads.cutOff_eq_nil_iff ht
    constructor
    · intro hnil b' hb
      cases hb
      exact hiff.mp hnil
    · intro hkeeps
      exact hiff.mpr (hkeeps b rfl)
  | _ => exact ⟨fun _ b hb => (nomatch hb), fun _ => rfl⟩

theorem stopping_step (hs : system.step s a s') :
    s'._stopping = true ↔ s._stopping = true ∨ Stops ⟨s, a, s'⟩ := by
  have hkeeps : s'._stopping = s._stopping → (∀ t, a = .loop t → s.loop t ≠ .stopping) →
      (s'._stopping = true ↔ s._stopping = true ∨ Stops ⟨s, a, s'⟩) := by
    intro hsame hno
    rw [hsame]
    refine ⟨Or.inl, fun h => ?_⟩
    rcases h with h | ⟨t, ha, hpc⟩
    · exact h
    · exact absurd hpc (hno t ha)
  cases stepped hs with
  | event b th _ _ _ _ => exact hkeeps (pushAll_frame _ _).2.2.2.2.2.1 (by simp)
  | loop t hl =>
    have hother : s'._stopping = s._stopping → s.loop t ≠ .stopping →
        (s'._stopping = true ↔ s._stopping = true ∨ Stops ⟨s, .loop t, s'⟩) := by
      intro hsame hpc
      apply hkeeps hsame
      rintro t' ht
      cases ht
      exact hpc
    cases hl with
    | stop hpc => exact ⟨fun _ => Or.inr ⟨t, rfl, hpc⟩, fun _ => rfl⟩
    | yes k hpc => cases k <;> exact hother rfl (by simp [hpc])
    | no k hpc =>
      have hne : s.loop t ≠ .stopping := by rcases hpc with hpc | hpc | hpc <;> simp [hpc]
      cases k <;> exact hother rfl hne
    | found _ _ _ hpc | enqueue _ _ _ hpc => exact hother rfl (by simp [hpc])
    | start _ hpc | back _ hpc | noEvents _ hpc | drained _ hpc | delivered _ hpc =>
      exact hother rfl (by simp [hpc])
    | nothing hpc | count hpc | leave hpc | ask hpc | enqueued hpc | yield hpc =>
      exact hother rfl (by simp [hpc])
  | _ => exact hkeeps rfl (by simp)

theorem stopping_of_run (hr : Run system (initial start) tr s) :
    s._stopping = true ↔ ∃ m ∈ tr, Stops m := by
  apply hr.history fun tr s => s._stopping = true ↔ ∃ m ∈ tr, Stops m
  · intro tr s a s' ih hstep
    rw [stopping_step hstep, ih]
    simp [or_and_right, exists_or]
  · simp [initial]

/-- The destructor aborts unless `stop` has been called, and it deletes every context
ever made once, those excepted that a growth has cut off the table: they are leaked,
and there are none exactly if no growth has cut the table. -/
theorem contexts_destroyed (hr : Run system (initial start) tr s) :
    (s.destroy = none ↔ ∀ m ∈ tr, ¬ Stops m) ∧
      (∀ l, s.destroy = some l → (l ++ lost tr).Perm (List.range s.io.allocated)) ∧
      (lost tr = [] ↔ ∀ m ∈ tr, ∀ b, m.act = .event b → ¬ m.pre.toThreads.Shrinks b) := by
  refine ⟨?_, fun l hl => ?_, ?_⟩
  · have hstopping := stopping_of_run hr
    unfold destroy
    split
    · rename_i h
      simpa using hstopping.mp h
    · rename_i h
      simpa using fun m hm hstops => h (hstopping.mpr ⟨m, hm, hstops⟩)
  · obtain ⟨_, hl⟩ := Option.ite_none_right_eq_some.mp hl
    rw [← Option.some.inj hl]
    exact lost_of_run hr
  · rw [lost, List.flatMap_eq_nil_iff]
    refine forall₂_congr fun m hm => ?_
    rw [cutOff_eq_nil_iff (tableOk_of_mem hr hm)]

/-- Threads 0 and 1 test the size of the table before either grows it; thread 2 calls `stop`. -/
def crossingGrowths : List PoolAct :=
  [.event (.addEvent 0 ⟨60, .READ, some 0, ⟨some 0, 0, true⟩⟩),
    .event (.addEvent 1 ⟨33, .READ, some 0, ⟨some 0, 0, true⟩⟩),
    .event (.run 0), .event (.run 1), .event (.run 0), .event (.run 1),
    .stop 2, .loop 2, .loop 2, .loop 2]

theorem contexts_destroyed_crossing : ∃ tr s l, Run system (initial 0) tr s ∧
    tr.map Move.act = crossingGrowths ∧ s.destroy = some l ∧ lost tr = List.range' 49 41 ∧
    (l ++ lost tr).Perm (List.range 90) := by
  have hrun : (traceAll next (initial 0) crossingGrowths).map (fun r =>
      (r.2.destroy.isSome, lost r.1, r.2.io.allocated)) = some (true, List.range' 49 41, 90) := by
    decide +kernel
  obtain ⟨tr, s, hr, hacts, hobs⟩ := Run.exists_of_traceAll next next_sound _ hrun
  obtain ⟨hdestroy : s.destroy.isSome = true, hobs⟩ := Prod.mk.inj hobs
  obtain ⟨hlost : lost tr = _, hallocated : s.io.allocated = 90⟩ := Prod.mk.inj hobs
  obtain ⟨l, hl⟩ := Option.isSome_iff_exists.mp hdestroy
  have hperm := (contexts_destroyed hr).2.1 l hl
  rw [hallocated] at hperm
  exact ⟨tr, s, l, hr, hacts, hl, hlost, hperm⟩

end Pool

end FiberAsync
