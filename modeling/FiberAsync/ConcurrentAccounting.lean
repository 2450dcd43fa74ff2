import FiberAsync.DeadlineOrder
import FiberAsync.EventAccounting
import FiberAsync.PoolStopping
import FiberAsync.Reregistration

/-!
# The pending counter of a running IOManager

While the sections of each context are kept apart, the counter is the number of
bits set in all contexts less the number of events that `idle` has processed,
modulo 2^64: a section under a context's mutex changes bits and counter alike, and
the last statement of a dispatch changes the counter alone. So an IOManager that
has processed more events than are registered does not stop. A section is one
step: inside it the counter is never above the bits less the processed events.
-/

namespace FiberAsync

set_option autoImplicit false

open Runs Results Counting

namespace IOManager

variable {io io' : IOManager} {p : ContextPtr} {fd : Nat} {e : Event} {r : Outcome}

/-- Bits that go from the contexts leave the counter, and those that come enter it. -/
theorem drift_eq (gone come : Nat)
    (hcount : io'.m_pendingEventCount + BitVec.ofNat 64 gone =
      io.m_pendingEventCount + BitVec.ofNat 64 come)
    (hbits : io'.bitCount + gone = io.bitCount + come) : io'.drift = io.drift := by
  unfold drift
  bv_omega

theorem bitCount_setContext (hp : p < io.allocated) (ctx : FdContext) :
    (io.setContext p ctx).bitCount + (io.contexts p).m_events.size =
      io.bitCount + ctx.m_events.size :=
  total_update _ _ (Finset.mem_range.mpr hp) ctx

theorem SameView.drift (h : SameView io io')
    (hcount : io'.m_pendingEventCount = io.m_pendingEventCount) : io'.drift = io.drift := by
  rw [IOManager.drift, IOManager.drift, h.bitCount, hcount]

theorem handOver_drift (h : io.handOver p e = .ok io') : io'.drift = io.drift := by
  have hview := handOver_sameView h
  obtain ⟨_, w, _, rfl⟩ := handOver_ok_iff.mp h
  exact hview.drift rfl

theorem triggerEvent_drift (h : io.triggerEvent p e = .ok io') : io'.drift = io.drift := by
  have hview := triggerEvent_sameView h
  obtain ⟨_, w, _, rfl⟩ := triggerEvent_ok_iff.mp h
  exact hview.drift rfl

theorem dropped_drift (hp : p < io.allocated) (hm : (io.contexts p).m_events.has e = true) :
    (io.dropped p fd e).drift = io.drift := by
  have hbits : (io.dropped p fd e).bitCount + (io.contexts p).m_events.size =
      io.bitCount + ((io.contexts p).m_events.erase e).size := bitCount_setContext hp _
  have hsize := EventMask.size_erase hm
  apply drift_eq 1 0
  · change io.m_pendingEventCount - 1 + _ = _
    bv_omega
  · omega

theorem added_drift {op : EpollOp} {c : AddCall} (hp : p < io.allocated)
    (hm : (io.contexts p).m_events.has c.event = false) : (io.added op p c).drift = io.drift := by
  have hbits : (io.added op p c).bitCount + (io.contexts p).m_events.size =
      io.bitCount + ({ io.contexts p with
        m_events := (io.contexts p).m_events.insert c.event }.setEventContext c.eventContext
          c.event).m_events.size := bitCount_setContext hp _
  rw [FdContext.setEventContext_events, EventMask.size_insert hm] at hbits
  apply drift_eq 0 1
  · change io.m_pendingEventCount + 1 + _ = _
    bv_omega
  · omega

theorem addEventLocked_drift {op : EpollOp} {c : AddCall} (hp : p < io.allocated)
    (h : io.addEventLocked op p c = .ok (r, io')) : io'.drift = io.drift := by
  rcases addEventLocked_ok_iff.mp h with ⟨_, _, rfl⟩ | ⟨hm, _, _, _, _, rfl⟩
  · rfl
  · exact added_drift hp hm

theorem delEventLocked_drift (hp : p < io.allocated)
    (h : io.delEventLocked p fd e = .ok (r, io')) : io'.drift = io.drift := by
  rcases delEventLocked_ok_iff.mp h with ⟨_, _, rfl⟩ | ⟨hm, _, _, rfl⟩
  · rfl
  · have hview := resetContext_sameView (io.dropped p fd e) p e
    exact (hview.drift rfl).trans (dropped_drift hp hm)

theorem cancelEventLocked_drift (hp : p < io.allocated)
    (h : io.cancelEventLocked p fd e = .ok (r, io')) : io'.drift = io.drift := by
  rcases cancelEventLocked_ok_iff.mp h with ⟨_, _, rfl⟩ | ⟨io₁, ht, _, _, rfl⟩
  · rfl
  · have hview := triggerEvent_sameView ht
    have hm := (triggerEvent_ok_iff.mp ht).1
    have hp₁ : p < io₁.allocated := hview.allocated ▸ hp
    exact (dropped_drift hp₁ (by rw [hview.events]; exact hm)).trans (triggerEvent_drift ht)

theorem cancelAllLocked_drift (hp : p < io.allocated)
    (h : io.cancelAllLocked p fd = .ok (r, io')) : io'.drift = io.drift := by
  rcases cancelAllLocked_ok_iff.mp h with ⟨_, _, rfl⟩ | ⟨_, io₁, io₂, h₁, h₂, _, _, rfl⟩
  · rfl
  · have hview := (triggerCounted_sameView h₁).trans (triggerCounted_sameView h₂)
    have hcount₁ := triggerCounted_count h₁
    have hcount₂ := triggerCounted_count h₂
    rw [(triggerCounted_sameView h₁).events] at hcount₂
    have hp₂ : p < io₂.allocated := hview.allocated ▸ hp
    have hbits := bitCount_setContext hp₂ { io₂.contexts p with m_events := .NONE }
    rw [hview.bitCount, hview.events, EventMask.size_NONE] at hbits
    apply drift_eq (io.contexts p).m_events.size 0
    · change io₂.m_pendingEventCount + _ = _
      rw [hcount₂, hcount₁, EventMask.size_eq]
      bv_omega
    · exact hbits

theorem growContext_drift (ht : io.TableOk) (h : io.growContext fd = .ok (p, io')) :
    io'.drift = io.drift := by
  have hr := (growContext_resized ht h).1
  rw [drift, drift, hr.bitCount, hr.rest.count]

end IOManager

theorem Removal.locked_drift {k : Removal} {io io' : IOManager} {p : ContextPtr} {fd : Nat}
    {r : Outcome} (hp : p < io.allocated) (h : k.locked io p fd = .ok (r, io')) :
    io'.drift = io.drift := by
  cases k with
  | delEvent e => exact IOManager.delEventLocked_drift hp h
  | cancelEvent e => exact IOManager.cancelEventLocked_drift hp h
  | cancelAll => exact IOManager.cancelAllLocked_drift hp h

/-- The statement `--m_pendingEventCount` at the end of a dispatch is next. -/
def Pc.finishes : Pc → Bool
  | idleDecrement _ _ _ => true
  | _ => false

namespace Shared

variable {sh sh' : Shared} {t : Tid} {pc pc' : Pc}

theorem RemoveSteps.drift {k : Removal} {cause : Cause} {fd : Nat} {at_ : RemovePc}
    {o : Option RemovePc} (hp : ∀ p ∈ at_.pointers, p < sh.io.allocated)
    (h : RemoveSteps sh t k cause fd at_ sh' o) : sh'.io.drift = sh.io.drift := by
  cases h with
  | locked hl => exact Removal.locked_drift (hp _ (List.mem_singleton_self _)) hl
  | _ => rfl

/-- One step of one thread: the drift goes down at the end of a dispatch only. -/
theorem Steps.drift (ht : sh.io.TableOk) (hp : ∀ p ∈ pc.pointers, p < sh.io.allocated)
    (h : Steps sh t pc sh' pc') :
    sh'.io.drift = sh.io.drift - BitVec.ofNat 64 pc.finishes.toNat := by
  have hsame : sh'.io.drift = sh.io.drift → pc.finishes = false →
      sh'.io.drift = sh.io.drift - BitVec.ofNat 64 pc.finishes.toNat := by
    intro hdrift hpc
    rw [hdrift, hpc]
    exact (BitVec.sub_zero _).symm
  cases h with
  | addGrow hg => exact hsame (IOManager.growContext_drift ht hg) rfl
  | addLocked hl =>
    exact hsame (IOManager.addEventLocked_drift (hp _ (List.mem_singleton_self _)) hl) rfl
  | removeStep h | removeReturn h => exact hsame (h.drift hp) rfl
  | deleteStep h | deleteReturn h =>
    exact hsame (h.drift fun q hq => hp q (List.mem_append_left _ hq)) rfl
  | idleTrigger h => exact hsame (IOManager.handOver_drift h) rfl
  | @idleReset p e _ _ => exact hsame ((IOManager.resetContext_sameView _ p e).drift rfl) rfl
  | idleDecrement =>
    change sh.io.m_pendingEventCount - 1 - BitVec.ofNat 64 sh.io.bitCount = _ - BitVec.ofNat 64 1
    unfold IOManager.drift
    bv_omega
  | _ => exact hsame rfl rfl

theorem Steps.tableOk (ht : sh.io.TableOk) (h : Steps sh t pc sh' pc') : sh'.io.TableOk := by
  rcases h.table with hsame | ⟨c, p, _, hgr, _⟩
  · exact hsame.tableOk ht
  · exact (IOManager.growContext_resized ht hgr).1.tableOk ht

/-- A pointer that a thread gets is one to an allocated context. -/
theorem Steps.pointers (ht : sh.io.TableOk) (h : Steps sh t pc sh' pc') :
    ∀ p ∈ pc'.pointers, p ∈ pc.pointers ∨ p < sh'.io.allocated := by
  have hfind : ∀ {fd p}, sh.io.findContext fd = .ok (some p) → p < sh.io.allocated := by
    intro fd p hf
    exact (ht.of_contextAt (IOManager.findContext_some_iff.mp hf).2).1
  intro p hp
  cases h with
  | addFound hf =>
    rw [List.mem_singleton.mp hp]
    exact Or.inr (hfind hf)
  | addMissing | addLocked => cases hp
  | addGrow hg =>
    rw [List.mem_singleton.mp hp]
    exact Or.inr (IOManager.growContext_resized ht hg).2
  | addUnlock | removeReturn => cases hp
  | removeStep h =>
    cases h with
    | found hf =>
      rw [List.mem_singleton.mp hp]
      exact Or.inr (hfind hf)
    | lock | locked => exact Or.inl hp
  | idleContinue | idleEnd =>
    rw [Pc.pointers_nextReport] at hp
    exact Or.inl (List.mem_cons_of_mem _ hp)
  | idleUnlock | idleDecrement =>
    rw [Pc.pointers_process] at hp
    exact Or.inl hp
  | idleReset | idleDel => exact Or.inl hp
  | deleteReturn => exact Or.inl (List.mem_append_right _ hp)
  | deleteStep h =>
    cases h with
    | found hf =>
      rcases List.mem_cons.mp hp with rfl | hp
      · exact Or.inr (hfind hf)
      · exact Or.inl hp
    | lock | locked => exact Or.inl hp
  | _ => exact Or.inl hp

end Shared

namespace Threads

variable {s s' : Threads} {t : Tid} {a : Act}

/-- Whatever the table has become, the pointers that are held are to contexts. -/
structure Pointing (s : Threads) : Prop where
  table : s.io.TableOk
  entries : ∀ fd ev, s.io.epoll fd = some ev → ev.ptr < s.io.allocated
  pointers : ∀ t, ∀ p ∈ (s.pc t).pointers, p < s.io.allocated

theorem initial_pointing : initial.Pointing where
  table := IOManager.initial_tableOk
  entries := initial_dispatchInv.entries
  pointers := fun _ _ h => by cases h

theorem Pointing.started (h : s.Pointing) {pc : Pc} (hs : s.start t pc = .ok s')
    (hpc : ∀ p ∈ pc.pointers, p < s.io.allocated) : s'.Pointing := by
  obtain ⟨_, rfl⟩ := start_ok_iff.mp hs
  refine ⟨h.table, h.entries, fun u p hp => ?_⟩
  by_cases hu : u = t
  · subst u
    simp only [Function.update_self] at hp
    exact hpc p hp
  · simp only [Function.update_of_ne hu] at hp
    exact h.pointers u p hp

theorem Pointing.run (h : s.Pointing) (hs : s.exec (.run t) = .ok s') : s'.Pointing := by
  obtain ⟨sh, pc, hsteps, rfl⟩ := steps_of_run hs
  have hgrows := (hsteps.older h.table).1
  refine ⟨hsteps.tableOk h.table, fun fd ev hev => ?_, fun u p hp => ?_⟩
  · rcases hsteps.entries hev with hin | hold
    · exact (h.pointers t _ hin).trans_le hgrows
    · exact (h.entries fd ev hold).trans_le hgrows
  · by_cases hu : u = t
    · subst u
      simp only [Function.update_self] at hp
      rcases hsteps.pointers h.table p hp with hin | hlt
      · exact (h.pointers t p hin).trans_le hgrows
      · exact hlt
    · simp only [Function.update_of_ne hu] at hp
      exact (h.pointers u p hp).trans_le hgrows

theorem Pointing.exec (h : s.Pointing) (ha : s.Allowed a) (hs : s.exec a = .ok s') :
    s'.Pointing := by
  cases a with
  | run t => exact h.run hs
  | addEvent t c => exact h.started hs (by simp [Pc.pointers])
  | remove t k fd => exact h.started hs (by simp [Pc.pointers, RemovePc.pointers])
  | report t reports => exact h.started hs (reported_allocated h.entries ha)

/-- The step is the last one of a dispatch. -/
def finishes (s : Threads) : Act → Bool
  | .run t => (s.pc t).finishes
  | _ => false

theorem Pointing.drift (h : s.Pointing) (hs : s.exec a = .ok s') :
    s'.io.drift = s.io.drift - BitVec.ofNat 64 (s.finishes a).toNat := by
  cases a with
  | run t =>
    obtain ⟨sh, pc, hsteps, rfl⟩ := steps_of_run hs
    exact hsteps.drift h.table (h.pointers t)
  | addEvent | remove | report =>
    obtain ⟨_, rfl⟩ := start_ok_iff.mp hs
    exact (BitVec.sub_zero _).symm

end Threads

namespace Pool

variable {s s' : Pool} {a : PoolAct} {t u : Tid} {k : Asker} {n : Nat}
  {tr tr' : List (Move Pool PoolAct)}

def finishes (s : Pool) : PoolAct → Bool
  | .event a => s.toThreads.finishes a
  | _ => false

/-- How many events `idle` has processed to the end. -/
def processed (tr : List (Move Pool PoolAct)) : Nat := tr.countP fun m => m.pre.finishes m.act

theorem processed_append : processed (tr ++ tr') = processed tr + processed tr' :=
  List.countP_append

theorem processed_snoc (m : Move Pool PoolAct) :
    processed (tr ++ [m]) = processed tr + (m.pre.finishes m.act).toNat := by
  rw [processed_append]
  simp only [processed, List.countP_cons, List.countP_nil]
  cases m.pre.finishes m.act <;> rfl

theorem finishes_eq : s.finishes a = a.api.any s.toThreads.finishes := by
  cases a <;> rfl

/-- The counter stands `n` below the number of bits. -/
structure Accounts (s : Pool) (n : Nat) : Prop where
  pointing : s.toThreads.Pointing
  drift : s.io.drift = 0 - BitVec.ofNat 64 n

theorem initial_accounts (start : Millis) : (initial start).Accounts 0 :=
  ⟨Threads.initial_pointing, IOManager.initial_drift.trans (by decide)⟩

theorem Accounts.step (h : s.Accounts n) (hs : system.step s a s') :
    s'.Accounts (n + (s.finishes a).toNat) := by
  rcases threads_step hs with ⟨hno, hsame⟩ | ⟨b, hb, hallowed, hexec⟩
  · rw [finishes_eq, hno]
    exact ⟨hsame ▸ h.pointing, by rw [hsame]; exact h.drift⟩
  · refine ⟨h.pointing.exec hallowed hexec, ?_⟩
    rw [h.pointing.drift hexec, h.drift, finishes_eq, hb, Option.any_some]
    bv_omega

theorem Accounts.counter (h : s.Accounts n) :
    s.io.m_pendingEventCount = BitVec.ofNat 64 s.io.bitCount - BitVec.ofNat 64 n := by
  have hdrift := h.drift
  unfold IOManager.drift at hdrift
  bv_omega

theorem Accounts.zero_iff (h : s.Accounts n) :
    s.io.m_pendingEventCount = 0 ↔ s.io.bitCount % 2 ^ 64 = n % 2 ^ 64 := by
  rw [h.counter]
  bv_omega

/-- The thread is in a call of `stopping()` that is past its first read. -/
def Asks (s : Pool) (t : Tid) (k : Asker) : Prop :=
  s.loop t = .readQueue k ∨ s.loop t = .readTimers k

theorem asks_step (hs : system.step s a s') (hask : s'.Asks t k) :
    s.Asks t k ∧ (a = .loop t → s.loop t = .readQueue k) ∨
      a = .loop t ∧ s.loop t = .readEvents k ∧ s.io.m_pendingEventCount = 0 := by
  have hmoved : ∀ {pc : PoolPc}, s'.loop t = pc →
      (∀ k, pc ≠ .readQueue k ∧ pc ≠ .readTimers k) → False := by
    intro pc hpc hne
    rcases hask with hask | hask
    · exact (hne k).1 (hpc.symm.trans hask)
    · exact (hne k).2 (hpc.symm.trans hask)
  by_cases ht : t = a.tid
  · subst ht
    cases stepped hs with
    | loop t hl =>
      cases hl with
      | noEvents k' hpc hzero =>
        rcases hask with hask | hask <;> cases (setLoop_self s).symm.trans hask
        exact Or.inr ⟨rfl, hpc, hzero⟩
      | drained k' hpc _ =>
        rcases hask with hask | hask <;> cases (setLoop_self s).symm.trans hask
        exact Or.inl ⟨Or.inl hpc, fun _ => hpc⟩
      | yes k' | no k' =>
        cases k' <;> exact (hmoved (setLoop_self s) (by simp)).elim
      | _ => exact (hmoved (setLoop_self s) (by simp)).elim
    | event b th =>
      rw [Asks, pushAll_loop] at hask
      exact Or.inl ⟨hask, fun heq => by cases heq⟩
    | timer | lift | add_task | fiber => exact Or.inl ⟨hask, fun heq => by cases heq⟩
    | _ => exact (hmoved (setLoop_self s) (by simp)).elim
  · rw [Asks, loop_of_ne hs ht] at hask
    refine Or.inl ⟨hask, fun heq => absurd ?_ ht⟩
    rw [heq]
    rfl

/-- The call of `stopping()` that the thread is in has read the counter when the
number of bits agreed with the number of processed events. -/
def Asked (n : Nat) (tr : List (Move Pool PoolAct)) (t : Tid) (k : Asker) : Prop :=
  ∃ before m after, tr = before ++ m :: after ∧ m.act = .loop t ∧
    m.pre.loop t = .readEvents k ∧
    m.pre.io.bitCount % 2 ^ 64 = (n + processed before) % 2 ^ 64 ∧
    ∀ x ∈ after, x.act = .loop t → x.pre.loop t = .readQueue k

theorem Asked.snoc {m : Move Pool PoolAct} (h : Asked n tr t k)
    (hm : m.act = .loop t → m.pre.loop t = .readQueue k) : Asked n (tr ++ [m]) t k := by
  obtain ⟨before, r, after, rfl, hact, hpc, hbits, hafter⟩ := h
  refine ⟨before, r, after ++ [m], by simp, hact, hpc, hbits, fun x hx => ?_⟩
  rcases List.mem_append.mp hx with hx | hx
  · exact hafter x hx
  · rw [List.mem_singleton.mp hx]
    exact hm

/-- From a state in which no thread is past its first read. -/
theorem accounts_of_run (hr : Run system s tr s') (hs : s.Accounts n)
    (hnone : ∀ t k, ¬ s.Asks t k) :
    s'.Accounts (n + processed tr) ∧ ∀ t k, s'.Asks t k → Asked n tr t k := by
  apply hr.history fun tr s => s.Accounts (n + processed tr) ∧ ∀ t k, s.Asks t k → Asked n tr t k
  · intro tr s a s' hinv hstep
    obtain ⟨hacc, hasked⟩ := hinv
    refine ⟨?_, fun t k hask => ?_⟩
    · rw [processed_snoc, ← Nat.add_assoc]
      exact hacc.step hstep
    · rcases asks_step hstep hask with ⟨hold, hqueue⟩ | ⟨hact, hpc, hzero⟩
      · exact (hasked t k hold).snoc hqueue
      · exact ⟨tr, ⟨s, a, s'⟩, [], rfl, hact, hpc, hacc.zero_iff.mp hzero, by simp⟩
  · exact ⟨hs, fun t k hask => absurd hask (hnone t k)⟩

theorem initial_asks (start : Millis) (t : Tid) (k : Asker) : ¬ (initial start).Asks t k := by
  rintro (h | h) <;> cases h

/-- A call of `stopping()` that returns true has read the counter at a moment when
as many bits were set in the contexts as events had been processed. -/
theorem asked_of_true (hr : Run system s tr s') (hs : s.Accounts n) (hnone : ∀ t k, ¬ s.Asks t k)
    {before after : List (Move Pool PoolAct)} {m : Move Pool PoolAct}
    (htr : tr = before ++ m :: after) (htrue : StoppingTrue m) :
    ∃ t k, m.act = .loop t ∧ Asked n before t k := by
  subst tr
  obtain ⟨hbefore, _, _⟩ := hr.split_at
  obtain ⟨t, k, hact, hpc, _⟩ := htrue
  exact ⟨t, k, hact, (accounts_of_run hbefore hs hnone).2 t k (Or.inr hpc)⟩

/-- In every run of any number of threads in which no dispatch frees a mutex that is
held, the sections of a context do not overlap, and between them the counter is the
number of bits less the number of processed events, modulo 2^64. -/
theorem counter_accounted {start : Millis} (hr : Run system (initial start) tr s)
    (hk : ∀ m ∈ tr, m.pre.KeepsMutex m.act) :
    s.Exclusive ∧ s.io.m_pendingEventCount =
      BitVec.ofNat 64 s.io.bitCount - BitVec.ofNat 64 (processed tr) := by
  have hacc := (accounts_of_run hr (initial_accounts start) (initial_asks start)).1
  rw [Nat.zero_add] at hacc
  exact ⟨exclusive_of_run hr hk, hacc.counter⟩

/-- Thread 0 registers an event, and thread 1 processes it. -/
def processing : List PoolAct :=
  .event (.addEvent 0 ⟨5, .READ, some 7, ⟨some 0, 0, true⟩⟩) ::
    List.replicate 5 (.event (.run 0)) ++
    [.enter 1, .loop 1, .loop 1, .loop 1, .epoll_wait 1 [(5, EPOLLIN)],
      .listExpiredCb 1 ⟨[], 10, false, 16, 10, []⟩, .loop 1, .loop 1] ++
    List.replicate 12 (.event (.run 1))

/-- The test of `KeepsMutex`. -/
def keepsMutex (s : Pool) : PoolAct → Bool
  | .event b => s.toThreads.keepsMutex b
  | _ => true

theorem keepsMutex_sound (h : s.keepsMutex a = true) : s.KeepsMutex a := by
  rintro b rfl
  exact Threads.keepsMutex_sound h

theorem counter_accounted_processing : ∃ tr s, Run system (initial 0) tr s ∧
    tr.map Move.act = processing ∧ s.Exclusive ∧
    s.io.m_pendingEventCount = BitVec.allOnes 64 := by
  have hrun : (traceAll next (initial 0) processing).map (fun r =>
      (r.1.all fun m => m.pre.keepsMutex m.act, r.2.io.bitCount, processed r.1)) =
      some (true, 0, 1) := by decide +kernel
  obtain ⟨tr, s, hr, hacts, hobs⟩ := Run.exists_of_traceAll next next_sound _ hrun
  simp only [Prod.mk.injEq] at hobs
  obtain ⟨hkeeps, hbits, hone⟩ := hobs
  obtain ⟨hexclusive, hcount⟩ := counter_accounted hr fun m hm =>
    keepsMutex_sound (List.all_eq_true.mp hkeeps m hm)
  rw [hbits, hone] at hcount
  exact ⟨tr, s, hr, hacts, hexclusive, hcount⟩

/-- A thread leaves `idle` by an answer of `stopping()` or an error of `epoll_wait`. -/
theorem idleTerm_step (hs : system.step s a s') (hterm : s'.idleTerm t = true) :
    s.idleTerm t = true ∨ a = .epoll_error t false ∨ StoppingTrue ⟨s, a, s'⟩ := by
  have hterminate : ∀ u, (s.terminate u).idleTerm t = true → s.idleTerm t = true ∨ u = t := by
    intro u hu
    by_cases htu : t = u
    · exact Or.inr htu.symm
    · exact Or.inl ((Function.update_of_ne htu _ _).symm.trans hu)
  cases stepped hs with
  | event b th =>
    have hkept := pushAll_induct { s with toThreads := th } (fun x => x.idleTerm = s.idleTerm)
      (fun _ _ hx => hx) (handed (th.io.tasks.drop s.io.tasks.length)) rfl
    exact Or.inl (hkept ▸ hterm)
  | loop u hl =>
    cases hl with
    | yes k hpc htimers => exact Or.inr (Or.inr ⟨u, k, rfl, hpc, htimers⟩)
    | no k => cases k <;> exact Or.inl hterm
    | _ => exact Or.inl hterm
  | epoll_failed u =>
    rcases hterminate u hterm with hold | rfl
    · exact Or.inl hold
    · exact Or.inr (Or.inl rfl)
  | _ => exact Or.inl hterm

theorem idleTerm_of_run (hr : Run system s tr s') (hterm : s'.idleTerm t = true) :
    s.idleTerm t = true ∨ (∃ m ∈ tr, m.act = .epoll_error t false) ∨ ∃ m ∈ tr, StoppingTrue m := by
  induction hr with
  | nil => exact Or.inl hterm
  | cons hs _ ih =>
    rcases ih hterm with hold | ⟨m, hm, herror⟩ | ⟨m, hm, htrue⟩
    · rcases idleTerm_step hs hold with hold | herror | htrue
      · exact Or.inl hold
      · exact Or.inr (Or.inl ⟨_, List.mem_cons_self, herror⟩)
      · exact Or.inr (Or.inr ⟨_, List.mem_cons_self, htrue⟩)
    · exact Or.inr (Or.inl ⟨m, List.mem_cons_of_mem _ hm, herror⟩)
    · exact Or.inr (Or.inr ⟨m, List.mem_cons_of_mem _ hm, htrue⟩)

/-- Once `idle` has processed more events than bits are set, and while that is so and
the sections of a context stay apart, no call of `stopping()` returns true: no thread
leaves its loop, except by an error of `epoll_wait`. -/
theorem unstoppable {start : Millis} (hr : Run system (initial start) tr s)
    (hr' : Run system s tr' s') (hk : ∀ m ∈ tr ++ tr', m.pre.KeepsMutex m.act)
    (hnone : ∀ t k, ¬ s.Asks t k)
    (hmore : ∀ before m after, tr' = before ++ m :: after →
      m.pre.io.bitCount < processed tr + processed before)
    (hfew : processed tr + processed tr' < 2 ^ 64) :
    s'.Exclusive ∧ (∀ m ∈ tr', ¬ StoppingTrue m) ∧
      ∀ t, s'.idleTerm t = true →
        s.idleTerm t = true ∨ ∃ m ∈ tr', m.act = .epoll_error t false := by
  have hacc := (accounts_of_run hr (initial_accounts start) (initial_asks start)).1
  rw [Nat.zero_add] at hacc
  have hnever : ∀ m ∈ tr', ¬ StoppingTrue m := by
    intro m hm htrue
    obtain ⟨before, after, htr⟩ := List.append_of_mem hm
    obtain ⟨t, k, _, b, r, c, hb, _, _, hbits, _⟩ := asked_of_true hr' hacc hnone htr htrue
    subst before
    have hlt := hmore b r (c ++ m :: after) (by rw [htr]; simp)
    have hfirst : processed b ≤ processed tr' := by
      rw [htr, List.append_assoc, processed_append]
      exact Nat.le_add_right _ _
    omega
  refine ⟨exclusive_of_run (hr.append hr') hk, hnever, fun t hterm => ?_⟩
  rcases idleTerm_of_run hr' hterm with hold | herror | ⟨m, hm, htrue⟩
  · exact Or.inl hold
  · exact Or.inr herror
  · exact absurd htrue (hnever m hm)

theorem loop_of_run (hr : Run system s tr s') (hu : ∀ m ∈ tr, u ≠ m.act.tid) :
    s'.loop u = s.loop u :=
  hr.invariant_of_guard (fun x => x.loop u = s.loop u) (fun _ a => u ≠ a.tid)
    (fun h hne hs => (loop_of_ne hs hne).trans h) rfl hu

/-- Thread 0 calls `stop`; thread 1 executes the task and asks `stopping()`. -/
def stoppingInVain : List PoolAct :=
  [.stop 0, .loop 0, .loop 0] ++ List.replicate 8 (.loop 1)

theorem unstoppable_after_dispatch : ∃ tr tr' s s', Run system (initial 0) tr s ∧
    Run system s tr' s' ∧ tr'.map Move.act = stoppingInVain ∧ s'._stopping = true ∧
    s'._queue = [] ∧ s'.io.bitCount = 0 ∧ s'.Exclusive ∧ (∀ m ∈ tr', ¬ StoppingTrue m) ∧
    ∀ t, s'.idleTerm t = true → s.idleTerm t = true ∨ ∃ m ∈ tr', m.act = .epoll_error t false := by
  have hrun : (traceAll next (initial 0) (processing ++ stoppingInVain)).map (fun r =>
      (r.1[26]?.map fun m => decide (m.pre.loop 0 = .outside ∧ m.pre.loop 1 = .dispatching),
        processed (r.1.take 26), processed (r.1.drop 26),
        (r.1.drop 26).all fun m => m.pre.io.bitCount = 0,
        r.1.all fun m => m.pre.keepsMutex m.act,
        decide (r.2._stopping = true ∧ r.2._queue = [] ∧ r.2.io.bitCount = 0))) =
      some (some true, 1, 0, true, true, true) := by decide +kernel
  obtain ⟨tr, s', hr, hacts, hobs⟩ := Run.exists_of_traceAll next next_sound _ hrun
  obtain ⟨hobs, hrest⟩ := Prod.mk.inj hobs
  obtain ⟨hone : processed (tr.take 26) = 1, hrest⟩ := Prod.mk.inj hrest
  obtain ⟨hzero : processed (tr.drop 26) = 0, hrest⟩ := Prod.mk.inj hrest
  obtain ⟨hbits, hrest⟩ := Prod.mk.inj hrest
  obtain ⟨hkeeps, hend⟩ := Prod.mk.inj hrest
  obtain ⟨m, hm, hobs⟩ := Option.map_eq_some_iff.mp hobs
  obtain ⟨h₀, h₁⟩ := of_decide_eq_true hobs
  obtain ⟨hstopping, hqueue, hempty⟩ := of_decide_eq_true hend
  obtain ⟨hbefore, hafter⟩ := hr.split_of_getElem hm
  have hnone : ∀ t k, ¬ m.pre.Asks t k := by
    have htids : ∀ a ∈ processing, a.tid = 0 ∨ a.tid = 1 := by decide
    intro t k hask
    by_cases ht : t = 0 ∨ t = 1
    · rcases ht with rfl | rfl
      · rcases hask with hask | hask <;> cases h₀.symm.trans hask
      · rcases hask with hask | hask <;> cases h₁.symm.trans hask
    · have hloop := loop_of_run (u := t) hbefore fun x hx => by
        have hact := List.mem_map_of_mem (f := Move.act) hx
        rw [List.map_take, hacts] at hact
        rintro rfl
        exact ht (htids _ hact)
      rcases hask with hask | hask <;> cases hloop.symm.trans hask
  have hmore : ∀ before x after, tr.drop 26 = before ++ x :: after →
      x.pre.io.bitCount < processed (tr.take 26) + processed before := by
    intro before x after htr
    have hx := of_decide_eq_true (List.all_eq_true.mp hbits x (by simp [htr]))
    omega
  have hkeeps : ∀ x ∈ tr.take 26 ++ tr.drop 26, x.pre.KeepsMutex x.act := by
    intro x hx
    rw [List.take_append_drop] at hx
    exact keepsMutex_sound (List.all_eq_true.mp hkeeps x hx)
  obtain ⟨hexclusive, hnever, hterm⟩ := unstoppable hbefore hafter hkeeps hnone hmore (by omega)
  refine ⟨_, _, _, s', hbefore, hafter, ?_, hstopping, hqueue, hempty, hexclusive, hnever, hterm⟩
  rw [List.map_drop, hacts]
  rfl

end Pool

end FiberAsync
