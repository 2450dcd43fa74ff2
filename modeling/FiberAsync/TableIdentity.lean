import FiberAsync.EventInterest
import FiberAsync.EventExclusion

/-!
# The table of contexts under concurrent growth

Only the write-locked section of `addEvent` changes `m_fdContexts`. Its size test
was made before, under the read lock, so the resize can cut off entries that
another thread has added since; when none does, a context keeps its index.
-/

namespace FiberAsync

set_option autoImplicit false

open Runs Results

namespace IOManager

variable {io io' : IOManager} {p : ContextPtr} {fd : Nat} {e : Event} {r : Outcome}

/-- The table and the descriptors of the contexts are as they were. -/
structure SameTable (io io' : IOManager) : Prop where
  allocated : io'.allocated = io.allocated
  table : io'.m_fdContexts = io.m_fdContexts
  fd : ∀ p, (io'.contexts p).m_fd = (io.contexts p).m_fd

theorem SameTable.refl (io : IOManager) : SameTable io io := ⟨rfl, rfl, fun _ => rfl⟩

theorem SameTable.trans {io₁ io₂ io₃ : IOManager} (h : SameTable io₁ io₂)
    (h' : SameTable io₂ io₃) : SameTable io₁ io₃ :=
  ⟨h'.allocated.trans h.allocated, h'.table.trans h.table, fun p => (h'.fd p).trans (h.fd p)⟩

theorem SameView.sameTable (h : SameView io io') : SameTable io io' := ⟨h.allocated, h.table, h.fd⟩

theorem SameTable.tableOk (h : SameTable io io') (ht : io.TableOk) : io'.TableOk := by
  intro j o ho
  rw [h.table] at ho
  obtain ⟨p, hp, hlt, hfd⟩ := ht j o ho
  exact ⟨p, hp, h.allocated ▸ hlt, (h.fd p).trans hfd⟩

theorem setContext_sameTable (io : IOManager) (p : ContextPtr) (ctx : FdContext)
    (hfd : ctx.m_fd = (io.contexts p).m_fd) :
    SameTable io (io.setContext p ctx) := by
  refine ⟨rfl, rfl, fun q => ?_⟩
  by_cases hq : q = p
  · subst q
    simp [setContext, hfd]
  · simp [setContext, hq]

theorem dropped_sameTable (io : IOManager) (p : ContextPtr) (fd : Nat) (e : Event) :
    SameTable io (io.dropped p fd e) :=
  let h := setContext_sameTable io p
    { io.contexts p with m_events := (io.contexts p).m_events.erase e } rfl
  ⟨h.allocated, h.table, h.fd⟩

theorem addEventLocked_sameTable {op : EpollOp} {c : AddCall}
    (h : io.addEventLocked op p c = .ok (r, io')) : SameTable io io' := by
  rcases addEventLocked_ok_iff.mp h with ⟨_, _, rfl⟩ | ⟨_, _, _, _, _, rfl⟩
  · exact .refl _
  · have hset := setContext_sameTable io p
      ({ io.contexts p with
        m_events := (io.contexts p).m_events.insert c.event }.setEventContext
          c.eventContext c.event) (FdContext.setEventContext_fd _ _ _)
    exact ⟨hset.allocated, hset.table, hset.fd⟩

theorem delEventLocked_sameTable (h : io.delEventLocked p fd e = .ok (r, io')) :
    SameTable io io' := by
  rcases delEventLocked_ok_iff.mp h with ⟨_, _, rfl⟩ | ⟨_, _, _, rfl⟩
  · exact .refl _
  · exact (dropped_sameTable io p fd e).trans (resetContext_sameView _ p e).sameTable

theorem cancelEventLocked_sameTable (h : io.cancelEventLocked p fd e = .ok (r, io')) :
    SameTable io io' := by
  rcases cancelEventLocked_ok_iff.mp h with ⟨_, _, rfl⟩ | ⟨io₁, ht, _, _, rfl⟩
  · exact .refl _
  · exact (triggerEvent_sameView ht).sameTable.trans (dropped_sameTable io₁ p fd e)

theorem cancelAllLocked_sameTable (h : io.cancelAllLocked p fd = .ok (r, io')) :
    SameTable io io' := by
  rcases cancelAllLocked_ok_iff.mp h with ⟨_, _, rfl⟩ | ⟨_, io₁, io₂, h₁, h₂, _, _, rfl⟩
  · exact .refl _
  · have hs := (triggerCounted_sameView h₁).trans (triggerCounted_sameView h₂)
    have hset := setContext_sameTable io₂ p { io₂.contexts p with m_events := .NONE } rfl
    exact hs.sameTable.trans ⟨hset.allocated, hset.table, hset.fd⟩

end IOManager

theorem Removal.locked_sameTable {k : Removal} {io io' : IOManager} {p : ContextPtr} {fd : Nat}
    {r : Outcome} (h : k.locked io p fd = .ok (r, io')) : IOManager.SameTable io io' := by
  cases k with
  | delEvent e => exact IOManager.delEventLocked_sameTable h
  | cancelEvent e => exact IOManager.cancelEventLocked_sameTable h
  | cancelAll => exact IOManager.cancelAllLocked_sameTable h

namespace Shared

variable {sh sh' : Shared} {t : Tid}

theorem RemoveSteps.sameTable {k : Removal} {cause : Cause} {fd : Nat} {at_ : RemovePc}
    {o : Option RemovePc} (h : RemoveSteps sh t k cause fd at_ sh' o) :
    IOManager.SameTable sh.io sh'.io := by
  cases h with
  | locked hl => exact Removal.locked_sameTable hl
  | _ => exact .refl _

theorem Steps.table {pc pc' : Pc} (h : Steps sh t pc sh' pc') :
    IOManager.SameTable sh.io sh'.io ∨
      ∃ c p, pc = .addGrow c ∧ sh.io.growContext c.fd = .ok (p, sh'.io) ∧ pc' = .addOp c p := by
  cases h with
  | addGrow hg => exact Or.inr ⟨_, _, rfl, hg, rfl⟩
  | addLocked hl => exact Or.inl (IOManager.addEventLocked_sameTable hl)
  | idleTrigger ht => exact Or.inl (IOManager.handOver_sameView ht).sameTable
  | @idleReset p e _ _ => exact Or.inl (IOManager.resetContext_sameView sh.io p e).sameTable
  | idleDecrement => exact Or.inl ⟨rfl, rfl, fun _ => rfl⟩
  | removeStep h | deleteStep h => exact Or.inl h.sameTable
  | removeReturn h | deleteReturn h => exact Or.inl h.sameTable
  | _ => exact Or.inl (.refl _)

end Shared

namespace Removal

theorem locked_fault {k : Removal} {io : IOManager} {p : ContextPtr} {fd : Nat} {f : Fault}
    (h : k.locked io p fd = .error f) :
    f = .epollCtl ∨ f = .eventNotSet ∨ f = .nullScheduler := by
  have htrigger : ∀ {io : IOManager} {e : Event}, io.triggerEvent p e = .error f →
      f = .eventNotSet ∨ f = .nullScheduler := by
    intro io e ht
    rcases IOManager.triggerEvent_fault ht with ⟨hf, _⟩ | ⟨hf, _⟩
    · exact Or.inl hf
    · exact Or.inr hf
  cases k with
  | delEvent e => exact Or.inl (IOManager.delEventLocked_fault h)
  | cancelEvent e =>
    rcases IOManager.cancelEventLocked_fault h with hf | ⟨_, ht⟩
    · exact Or.inl hf
    · exact Or.inr (htrigger ht)
  | cancelAll =>
    rcases IOManager.cancelAllLocked_fault h with hf | ht | ⟨_, _, ht⟩
    · exact Or.inl hf
    · exact Or.inr (htrigger (IOManager.triggerCounted_fault ht).2)
    · exact Or.inr (htrigger (IOManager.triggerCounted_fault ht).2)

end Removal

namespace IOManager

variable {io io' : IOManager} {p : ContextPtr} {fd : Nat}

/-- The faults of an index outside the table and of a null entry. -/
def TableFault (f : Fault) : Prop := f = .indexOutOfRange ∨ f = .nullContext

/-- The table after a growth made for a descriptor that is at least 2. -/
theorem growContext_table (ht : io.TableOk) (hfd : 2 ≤ fd) :
    ∃ p io', io.growContext fd = .ok (p, io') ∧ io'.TableOk ∧
      io'.m_fdContexts.length = fd * 3 / 2 ∧ io'.contextAt fd = .ok p ∧
      ∀ j < fd * 3 / 2, j < io.m_fdContexts.length →
        io'.m_fdContexts[j]? = io.m_fdContexts[j]? := by
  have hr := contextResize_resizedTo ht (fd * 3 / 2)
  obtain ⟨p, hg, hp⟩ := growContext_contextResize ht hfd
  exact ⟨p, _, hg, hr.tableOk ht, hr.length, hp, hr.kept⟩

end IOManager

/-- `1.5 * fd` fits in an `int`. -/
def AddCall.Fits (c : AddCall) : Prop := c.fd * 3 / 2 ≤ INT_MAX

def Act.Fits : Act → Prop
  | .addEvent _ c => c.Fits
  | _ => True

instance : DecidablePred AddCall.Fits := fun _ => inferInstanceAs (Decidable (_ ≤ INT_MAX))

instance : DecidablePred Act.Fits
  | .addEvent _ c => inferInstanceAs (Decidable c.Fits)
  | .remove _ _ _ | .report _ _ | .run _ => inferInstanceAs (Decidable True)

namespace Pc

theorem nextReport_ne_addFind (more : List Report) (c : AddCall) :
    nextReport more ≠ .addFind c ∧ nextReport more ≠ .addGrow c := by
  cases more <;> simp [nextReport]

theorem process_ne_addFind (p : ContextPtr) (more : List Report) (es : List Event) (c : AddCall) :
    process p more es ≠ .addFind c ∧ process p more es ≠ .addGrow c := by
  cases es <;> simp [process]

end Pc

theorem Shared.Steps.grows {sh sh' : Shared} {t : Tid} {pc pc' : Pc}
    (h : Steps sh t pc sh' pc') (c : AddCall) :
    pc' ≠ .addFind c ∧ (pc' = .addGrow c → pc = .addFind c ∧
      sh.io.findContext c.fd = .ok none) := by
  cases h with
  | addMissing hf =>
    refine ⟨by simp, fun hc => ?_⟩
    cases hc
    exact ⟨rfl, hf⟩
  | idleContinue | idleEnd =>
    exact ⟨(Pc.nextReport_ne_addFind _ c).1, fun hc => absurd hc (Pc.nextReport_ne_addFind _ c).2⟩
  | idleUnlock | idleDecrement =>
    exact ⟨(Pc.process_ne_addFind _ _ _ c).1,
      fun hc => absurd hc (Pc.process_ne_addFind _ _ _ c).2⟩
  | _ => simp

namespace Threads

variable {s s' : Threads} {a : Act}

structure TableInv (s : Threads) : Prop where
  table : s.io.TableOk
  large : 32 ≤ s.io.m_fdContexts.length
  small : s.io.m_fdContexts.length ≤ INT_MAX
  growing : ∀ t c, s.pc t = .addGrow c → 32 ≤ c.fd
  fits : ∀ t c, s.pc t = .addFind c ∨ s.pc t = .addGrow c → c.Fits

theorem initial_tableInv : initial.TableInv where
  table := IOManager.initial_tableOk
  large := Nat.le_of_eq IOManager.initial_length.symm
  small := by
    change IOManager.initial.m_fdContexts.length ≤ _
    rw [IOManager.initial_length]
    decide
  growing t c h := by cases h
  fits t c h := by rcases h with h | h <;> cases h

/-- The resize of this step cuts the table. -/
def Shrinks (s : Threads) (a : Act) : Prop :=
  ∃ t c, a = .run t ∧ s.pc t = .addGrow c ∧ c.fd * 3 / 2 < s.io.m_fdContexts.length

structure Grown (s : Threads) (c : AddCall) (p : ContextPtr) (s' : Threads) : Prop where
  grow : s.io.growContext c.fd = .ok (p, s'.io)
  table : s'.io.TableOk
  length : s'.io.m_fdContexts.length = c.fd * 3 / 2
  entry : s'.io.contextAt c.fd = .ok p
  kept : ∀ j < c.fd * 3 / 2, j < s.io.m_fdContexts.length →
    s'.io.m_fdContexts[j]? = s.io.m_fdContexts[j]?

theorem TableInv.grow_step (hi : s.TableInv) {t : Tid} {c : AddCall} (hpc : s.pc t = .addGrow c)
    (h : s.exec (.run t) = .ok s') : ∃ p, s.Grown c p s' := by
  have hfd := hi.growing t c hpc
  obtain ⟨p, io', hg, ht, hlen, hat, hkept⟩ :=
    IOManager.growContext_table hi.table (show 2 ≤ c.fd by omega)
  obtain ⟨sh, pc, hs, rfl⟩ := steps_of_run h
  rw [hpc] at hs
  cases hs with
  | addGrow hg' =>
    rw [hg'] at hg
    cases hg
    exact ⟨p, hg', ht, hlen, hat, hkept⟩

theorem TableInv.table_step (hi : s.TableInv) (h : s.exec a = .ok s') :
    IOManager.SameTable s.io s'.io ∨
      ∃ t c p, a = .run t ∧ s.pc t = .addGrow c ∧ s.Grown c p s' := by
  have hstart : ∀ {t pc}, s.start t pc = .ok s' → IOManager.SameTable s.io s'.io := by
    intro t pc h
    obtain ⟨_, rfl⟩ := start_ok_iff.mp h
    exact .refl _
  cases a with
  | addEvent t c => exact Or.inl (hstart h)
  | remove t k fd => exact Or.inl (hstart h)
  | report t reports => exact Or.inl (hstart h)
  | run t =>
    obtain ⟨sh, pc, hs, hs'⟩ := steps_of_run h
    rcases hs.table with hsame | ⟨c, _, hpc, _, _⟩
    · rw [hs']
      exact Or.inl hsame
    · obtain ⟨p, hgrown⟩ := hi.grow_step hpc h
      exact Or.inr ⟨t, c, p, rfl, hpc, hgrown⟩

/-- What the invariant says of the threads in `addEvent`. -/
theorem TableInv.adding_exec (hi : s.TableInv) (hf : a.Fits) (h : s.exec a = .ok s') (u : Tid)
    (c : AddCall) : (s'.pc u = .addGrow c → 32 ≤ c.fd) ∧
      (s'.pc u = .addFind c ∨ s'.pc u = .addGrow c → c.Fits) := by
  have hstart : ∀ {t pc}, (∀ c, pc = .addFind c → c.Fits) → (∀ c, pc ≠ .addGrow c) →
      s.start t pc = .ok s' → (s'.pc u = .addGrow c → 32 ≤ c.fd) ∧
        (s'.pc u = .addFind c ∨ s'.pc u = .addGrow c → c.Fits) := by
    intro t pc hfind hgrow h
    obtain ⟨_, rfl⟩ := start_ok_iff.mp h
    by_cases hu : u = t
    · subst u
      simp only [Function.update_self]
      refine ⟨fun hc => absurd hc (hgrow c), fun hc => ?_⟩
      rcases hc with hc | hc
      · exact hfind c hc
      · exact absurd hc (hgrow c)
    · simp only [Function.update_of_ne hu]
      exact ⟨hi.growing u c, hi.fits u c⟩
  cases a with
  | addEvent t c =>
    exact hstart (fun c' hc => by cases hc; exact hf) (fun c' => by simp) h
  | remove t k fd => exact hstart (fun c' => by simp) (fun c' => by simp) h
  | report t reports =>
    exact hstart (fun c hc => absurd hc (Pc.nextReport_ne_addFind _ c).1)
      (fun c => (Pc.nextReport_ne_addFind _ c).2) h
  | run t =>
    obtain ⟨sh, pc, hs, rfl⟩ := steps_of_run h
    by_cases hu : u = t
    · subst u
      obtain ⟨hfind, hgrow⟩ := hs.grows c
      simp only [Function.update_self]
      refine ⟨fun hc => ?_, fun hc => ?_⟩
      · -- the size test has failed, on a table of at least 32 entries
        have hnone := (hgrow hc).2
        have hlarge := hi.large
        by_contra hlt
        obtain ⟨p, _, hsome⟩ := IOManager.findContext_of_lt hi.table hi.small
          (show c.fd < s.io.m_fdContexts.length by omega)
        rw [hnone] at hsome
        cases hsome
      · rcases hc with hc | hc
        · exact absurd hc hfind
        · exact hi.fits _ c (Or.inl (hgrow hc).1)
    · simp only [Function.update_of_ne hu]
      exact ⟨hi.growing u c, hi.fits u c⟩

theorem TableInv.exec (hi : s.TableInv) (hf : a.Fits) (h : s.exec a = .ok s') : s'.TableInv := by
  have hgrowing : ∀ t c, s'.pc t = .addGrow c → 32 ≤ c.fd := fun t c =>
    (hi.adding_exec hf h t c).1
  have hfit : ∀ t c, s'.pc t = .addFind c ∨ s'.pc t = .addGrow c → c.Fits := fun t c =>
    (hi.adding_exec hf h t c).2
  rcases hi.table_step h with hsame | ⟨t, c, p, _, hpc, hgrown⟩
  · exact ⟨hsame.tableOk hi.table, hsame.table ▸ hi.large, hsame.table ▸ hi.small, hgrowing, hfit⟩
  · have hfd := hi.growing t c hpc
    have hfits : c.fd * 3 / 2 ≤ INT_MAX := hi.fits t c (Or.inr hpc)
    have hlen := hgrown.length
    refine ⟨hgrown.table, ?_, ?_, hgrowing, hfit⟩
    · omega
    · omega

theorem le_of_not_shrinks {t : Tid} {c : AddCall} (hg : ¬ s.Shrinks (.run t))
    (hpc : s.pc t = .addGrow c) : s.io.m_fdContexts.length ≤ c.fd * 3 / 2 := by
  by_contra hlt
  exact hg ⟨t, c, rfl, hpc, Nat.lt_of_not_le hlt⟩

theorem TableInv.keeps_entry (hi : s.TableInv) (hg : ¬ s.Shrinks a) (h : s.exec a = .ok s') :
    s.io.m_fdContexts.length ≤ s'.io.m_fdContexts.length ∧
      ∀ fd p, s.io.contextAt fd = .ok p → s'.io.contextAt fd = .ok p := by
  rcases hi.table_step h with hsame | ⟨t, c, q, ha, hpc, hgrown⟩
  · refine ⟨Nat.le_of_eq (congrArg List.length hsame.table).symm, fun fd p hp => ?_⟩
    rw [IOManager.contextAt_ok_iff, hsame.table]
    exact IOManager.contextAt_ok_iff.mp hp
  · have hle := le_of_not_shrinks (ha ▸ hg) hpc
    refine ⟨hgrown.length ▸ hle, fun fd p hp => ?_⟩
    have hget := IOManager.contextAt_ok_iff.mp hp
    have hfd := (List.getElem?_eq_some_iff.mp hget).1
    rw [IOManager.contextAt_ok_iff, hgrown.kept fd (by omega) hfd]
    exact hget

/-- The look-up that the next step of a thread makes: the descriptor and what is
found, `none` when the call returns because the table ends before it. -/
def lookup (s : Threads) : Act → Option (Nat × Option ContextPtr)
  | .run t =>
    match s.pc t with
    | .addFind c =>
      match s.io.findContext c.fd with
      | .ok (some p) => some (c.fd, some p)
      | _ => none
    | .addGrow c => (s.io.growContext c.fd).toOption.map fun r => (c.fd, some r.1)
    | .remove _ fd .find | .idleDeleting _ _ _ _ fd .find =>
      (s.io.findContext fd).toOption.map fun r => (fd, r)
    | _ => none
  | _ => none

def Adds (s : Threads) (a : Act) : Prop :=
  ∃ t c, a = .run t ∧ (s.pc t = .addFind c ∨ s.pc t = .addGrow c)

/-- The table never shrinks, and once an `addEvent` has obtained the context of a
descriptor every later look-up of that descriptor finds the same one. -/
structure TableStable (tr : List (Move Threads Act)) : Prop where
  grows : ∀ m ∈ tr, m.pre.io.m_fdContexts.length ≤ m.post.io.m_fdContexts.length
  same : ∀ tr₁ m₁ tr₂ m₂ tr₃, tr = tr₁ ++ m₁ :: (tr₂ ++ m₂ :: tr₃) → ∀ fd p r,
    m₁.pre.Adds m₁.act → m₁.pre.lookup m₁.act = some (fd, some p) →
      m₂.pre.lookup m₂.act = some (fd, r) → r = some p

theorem TableInv.obtained (hi : s.TableInv) (hadd : s.Adds a) {fd : Nat} {p : ContextPtr}
    (hl : s.lookup a = some (fd, some p)) (h : s.exec a = .ok s') :
    s'.io.contextAt fd = .ok p := by
  obtain ⟨t, c, rfl, hpc | hpc⟩ := hadd
  · simp only [lookup, hpc] at hl
    split at hl
    · rename_i q hf
      cases hl
      rcases hi.table_step h with hsame | ⟨t', c', _, ha, hpc', _⟩
      · rw [IOManager.contextAt_ok_iff, hsame.table]
        exact IOManager.contextAt_ok_iff.mp (IOManager.findContext_some_iff.mp hf).2
      · cases ha
        rw [hpc] at hpc'
        cases hpc'
    · cases hl
  · obtain ⟨q, hgrown⟩ := hi.grow_step hpc h
    simp only [lookup, hpc, hgrown.grow] at hl
    cases hl
    exact hgrown.entry

theorem TableInv.lookup_of_entry (hi : s.TableInv) (hg : ¬ s.Shrinks a)
    {fd : Nat} {p : ContextPtr} {r : Option ContextPtr} (hp : s.io.contextAt fd = .ok p)
    (hl : s.lookup a = some (fd, r)) : r = some p := by
  have hfd := (List.getElem?_eq_some_iff.mp (IOManager.contextAt_ok_iff.mp hp)).1
  have hfind := IOManager.findContext_of_contextAt hi.small hp
  have hmap : ∀ {fd' : Nat}, ((s.io.findContext fd').toOption.map fun r => (fd', r)) =
      some (fd, r) → r = some p := by
    intro fd' hl
    obtain ⟨o, ho, hl⟩ := Option.map_eq_some_iff.mp hl
    cases hl
    rw [hfind] at ho
    exact (Option.some.inj ho).symm
  cases a with
  | run t =>
    simp only [lookup] at hl
    split at hl
    · rename_i c hpc
      split at hl
      · rename_i q hf
        cases hl
        rw [hfind] at hf
        cases hf
        rfl
      · cases hl
    · rename_i c hpc
      have hlarge := hi.growing t c hpc
      obtain ⟨q, io', hgrow, _, _, hat, hkept⟩ :=
        IOManager.growContext_table hi.table (show 2 ≤ c.fd by omega)
      rw [hgrow] at hl
      cases hl
      have hle := le_of_not_shrinks hg hpc
      have hget := hkept c.fd (by omega) hfd
      rw [IOManager.contextAt_ok_iff.mp hat, IOManager.contextAt_ok_iff.mp hp] at hget
      cases hget
      rfl
    · exact hmap hl
    · exact hmap hl
    · cases hl
  | addEvent t c => cases hl
  | remove t k fd' => cases hl
  | report t reports => cases hl

theorem TableInv.findContext_ne_error (hi : s.TableInv) (fd : Nat) (f : Fault) :
    s.io.findContext fd ≠ .error f := by
  intro hf
  by_cases hlen : fd < s.io.m_fdContexts.length
  · obtain ⟨p, _, hp⟩ := IOManager.findContext_of_lt hi.table hi.small hlen
    rw [hp] at hf
    cases hf
  · rw [IOManager.findContext_of_le hi.small (Nat.le_of_not_lt hlen)] at hf
    cases hf

theorem TableInv.growContext_ne_error (hi : s.TableInv) {t : Tid} {c : AddCall}
    (hpc : s.pc t = .addGrow c) (f : Fault) : s.io.growContext c.fd ≠ .error f := by
  intro hf
  have hlarge := hi.growing t c hpc
  obtain ⟨_, _, hg, _⟩ := IOManager.growContext_table hi.table (show 2 ≤ c.fd by omega)
  rw [hg] at hf
  cases hf

theorem TableInv.no_tableFault (hi : s.TableInv) {f : Fault} (h : s.exec a = .error (.fault f)) :
    ¬ IOManager.TableFault f := by
  have hlocked : ∀ {k : Removal} {p fd}, k.locked s.io p fd = .error f →
      ¬ IOManager.TableFault f := by
    intro k p fd hl
    rcases Removal.locked_fault hl with rfl | rfl | rfl <;>
      exact fun hf => by rcases hf with hf | hf <;> cases hf
  obtain ⟨t, rfl, hstep⟩ := fault_of_exec h
  generalize hpc : s.pc t = pc at hstep
  cases hstep with
  | addFind hf | removeFind hf | deleteFind hf => exact absurd hf (hi.findContext_ne_error _ f)
  | addGrow hf => exact absurd hf (hi.growContext_ne_error hpc f)
  | addLocked hf =>
    rcases IOManager.addEventLocked_fault hf with rfl | rfl | rfl <;>
      exact fun hf => by rcases hf with hf | hf <;> cases hf
  | removeLocked hf => exact hlocked hf
  | deleteLocked hf => exact hlocked hf
  | idleTrigger hf =>
    rcases IOManager.handOver_fault hf with ⟨rfl, _⟩ | ⟨rfl, _⟩ <;>
      exact fun hf => by rcases hf with hf | hf <;> cases hf

/-- With descriptors whose growth fits an `int`, no index ever leaves the table,
and a run keeps the size and the entries of the table exactly when no
write-locked section resizes it to less than it has. -/
theorem tableStable_iff {tr : List (Move Threads Act)} (h : Run system initial tr s)
    (hfits : ∀ m ∈ tr, m.act.Fits) :
    (∀ a f, s.exec a = .error (.fault f) → ¬ IOManager.TableFault f) ∧
      (TableStable tr ↔ ∀ m ∈ tr, ¬ m.pre.Shrinks m.act) := by
  have keeps : ∀ {s a s'}, TableInv s → a.Fits → system.step s a s' → TableInv s' :=
    fun hi hf hs => hi.exec hf hs.2
  have hinv : ∀ m ∈ tr, TableInv m.pre ∧ TableInv m.post :=
    fun m hm => h.invariant_at_of_guard TableInv (fun _ a => a.Fits) keeps initial_tableInv
      hfits hm
  have hend := h.invariant_of_guard TableInv (fun _ a => a.Fits) keeps initial_tableInv hfits
  refine ⟨fun a f => hend.no_tableFault, fun hst m hm hsh => ?_, fun hg => ⟨fun m hm => ?_, ?_⟩⟩
  · have hgrows := hst.grows m hm
    obtain ⟨t, c, ha, hpc, hlt⟩ := hsh
    have hstep := (h.step_of_mem hm).2
    rw [ha] at hstep
    obtain ⟨p, hgrown⟩ := (hinv m hm).1.grow_step hpc hstep
    have hlen := hgrown.length
    omega
  · exact ((hinv m hm).1.keeps_entry (hg m hm) (h.step_of_mem hm).2).1
  · intro tr₁ m₁ tr₂ m₂ tr₃ htr fd p r hadd hl₁ hl₂
    have hm₁ : m₁ ∈ tr := by simp [htr]
    have hm₂ : m₂ ∈ tr := by simp [htr]
    have hafter := (hinv m₁ hm₁).1.obtained hadd hl₁ (h.step_of_mem hm₁).2
    rw [htr] at h
    obtain ⟨_, _, hrest⟩ := h.split_at
    obtain ⟨hmid, _, _⟩ := hrest.split_at
    have hentry := hmid.invariant_of_guard
      (fun s => TableInv s ∧ s.io.contextAt fd = .ok p) (fun s a => a.Fits ∧ ¬ s.Shrinks a)
      (fun hi hg hs => ⟨keeps hi.1 hg.1 hs, (hi.1.keeps_entry hg.2 hs.2).2 fd p hi.2⟩)
      ⟨(hinv m₁ hm₁).2, hafter⟩
      (fun m hm => ⟨hfits m (by simp [htr, hm]), hg m (by simp [htr, hm])⟩)
    exact hentry.1.lookup_of_entry (hg m₂ hm₂) hentry.2 hl₂

/-- Two descriptors, both past the end of the table when their size tests are
made; the smaller one is grown for last. -/
def crossedGrowth : List Act :=
  let c (fd : Nat) : AddCall := ⟨fd, .READ, some 0, ⟨some 0, 0, true⟩⟩
  [.addEvent 0 (c 60), .addEvent 1 (c 33), .run 0, .run 1, .run 0, .run 1,
    .remove 2 (.delEvent .READ) 60, .run 2]

theorem tableStable_iff_grow : ∃ tr s, Run system initial tr s ∧
    tr.map Move.act = crossedGrowth.take 5 ∧
    (∀ a f, s.exec a = .error (.fault f) → ¬ IOManager.TableFault f) ∧
    (TableStable tr ↔ ∀ m ∈ tr, ¬ m.pre.Shrinks m.act) := by
  have hrun : (traceAll next initial (crossedGrowth.take 5)).map (fun _ => ()) = some () := by
    decide +kernel
  obtain ⟨tr, s, hr, hacts, _⟩ := Run.exists_of_traceAll next next_sound _ hrun
  have hfits : ∀ a ∈ crossedGrowth.take 5, a.Fits := by decide
  refine ⟨tr, s, hr, hacts, tableStable_iff hr (fun m hm => hfits _ ?_)⟩
  rw [← hacts]
  exact List.mem_map_of_mem hm

/-- The growth for descriptor 33 cuts the table from 90 to 49 entries, and the
context that the first `addEvent` obtained for descriptor 60 is not found again. -/
theorem crossed_growth_shrinks : ∃ tr s, Run system initial tr s ∧
    tr.map Move.act = crossedGrowth ∧ (∀ a ∈ crossedGrowth, a.Fits) ∧
    tr.map (fun m => (m.pre.io.m_fdContexts.length, m.post.io.m_fdContexts.length)) =
      [(32, 32), (32, 32), (32, 32), (32, 32), (32, 90), (90, 49), (49, 49), (49, 49)] ∧
    tr.map (fun m => m.pre.lookup m.act) =
      [none, none, none, none, some (60, some 60), some (33, some 33), none, some (60, none)] ∧
    ¬ TableStable tr := by
  have hrun : (traceAll next initial crossedGrowth).map (fun r =>
      (r.1.map (fun m => (m.pre.io.m_fdContexts.length, m.post.io.m_fdContexts.length)),
        r.1.map (fun m => m.pre.lookup m.act))) =
      some ([(32, 32), (32, 32), (32, 32), (32, 32), (32, 90), (90, 49), (49, 49), (49, 49)],
        [none, none, none, none, some (60, some 60), some (33, some 33), none,
          some (60, none)]) := by
    decide +kernel
  obtain ⟨tr, s, hr, hacts, hobs⟩ := Run.exists_of_traceAll next next_sound _ hrun
  obtain ⟨hsizes, hlook⟩ := Prod.mk.inj hobs
  refine ⟨tr, s, hr, hacts, by decide, hsizes, hlook, fun hst => ?_⟩
  have hgrows : ∀ x ∈ tr.map (fun m => (m.pre.io.m_fdContexts.length,
      m.post.io.m_fdContexts.length)), x.1 ≤ x.2 := by
    intro x hx
    obtain ⟨m, hm, rfl⟩ := List.mem_map.mp hx
    exact hst.grows m hm
  rw [hsizes] at hgrows
  exact absurd hgrows (by decide)

end Threads

end FiberAsync
