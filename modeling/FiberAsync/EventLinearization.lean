import FiberAsync.EventRefinement
import FiberAsync.Library.Linearization
import FiberAsync.TableIdentity

/-!
# Calls of the event API take effect at once

Any number of threads call `addEvent`, `delEvent`, `cancelEvent` and `cancelAll`.
Each call looks up its context under one lock, may grow the table under it, chooses
its `epoll_ctl` without a lock, and changes the context under another. Seen from
outside each call is one step of the map of registrations, in the order of the
sections under the contexts' mutexes. Growths that cut the table are excluded, and
so is the dispatch of `idle`, whose steps are not one section.
-/

namespace FiberAsync

set_option autoImplicit false

open Runs Results

namespace IOManager

variable {io io' : IOManager} {p : ContextPtr} {fd : Nat} {r : Outcome}

/-- The choice between `ADD` and `MOD` changes nothing where the kernel takes it. -/
theorem added_stored {op : EpollOp} (hop : op ≠ .DEL) (c : AddCall) :
    io.added op p c = io.added (io.addOp p) p c := by
  have hstored : ∀ ev, op.stored ev = (io.addOp p).stored ev := by
    intro ev
    unfold addOp
    cases op with
    | DEL => exact absurd rfl hop
    | ADD | MOD => split <;> rfl
  simp only [added, hstored]

theorem RepInv.addEventLocked_addOp (hi : RepInv io) {op : EpollOp} {c : AddCall}
    (hp : io.contextAt c.fd = .ok p) (hop : op ≠ .DEL)
    (h : io.addEventLocked op p c = .ok (r, io')) :
    io.addEventLocked (io.addOp p) p c = .ok (r, io') := by
  apply addEventLocked_ok_iff.mpr
  rcases addEventLocked_ok_iff.mp h with hsame | ⟨hm, hslot, hrun, _, hr, hio⟩
  · exact Or.inl hsame
  · exact Or.inr ⟨hm, hslot, hrun, hi.addOp_accepts hp, hr, hio.trans (added_stored hop c)⟩

theorem RepInv.findContext (hi : RepInv io) (hp : io.contextAt fd = .ok p) :
    io.findContext fd = .ok (some p) := findContext_of_contextAt hi.small hp

end IOManager

namespace Removal

def op (k : Removal) (fd : Nat) : Op :=
  match k with
  | delEvent e => .delEvent fd e
  | cancelEvent e => .cancelEvent fd e
  | cancelAll => .cancelAll fd

variable {k : Removal} {io io' : IOManager} {p : ContextPtr} {fd : Nat} {r : Outcome}

theorem exec_op : io.exec (k.op fd) = io.withContext fd fun p => k.locked io p fd := by
  cases k <;> rfl

theorem answers (hi : io.RepInv) (h : io.exec (k.op fd) = .ok (r, io')) :
    io.Answers (k.op fd) r io' := by
  obtain ⟨r', io₁, he, ha⟩ :
      ∃ r io', io.exec (k.op fd) = .ok (r, io') ∧ io.Answers (k.op fd) r io' := by
    cases k with
    | delEvent e => exact IOManager.delEvent_answers hi fd e
    | cancelEvent e => exact IOManager.cancelEvent_answers hi fd e
    | cancelAll => exact IOManager.cancelAll_answers hi fd
  rw [h] at he
  cases he
  exact ha

theorem locked_answers (hi : io.RepInv) (hp : io.contextAt fd = .ok p)
    (h : k.locked io p fd = .ok (r, io')) : io.Answers (k.op fd) r io' := by
  apply answers hi
  rw [exec_op]
  exact IOManager.withContext_ok_iff.mpr (Or.inr ⟨p, hi.findContext hp, h⟩)

theorem missing_answers (hi : io.RepInv) (h : io.findContext fd = .ok none) :
    io.Answers (k.op fd) (.bool false) io := by
  apply answers hi
  rw [exec_op]
  exact IOManager.withContext_ok_iff.mpr (Or.inl ⟨h, rfl, rfl⟩)

end Removal

namespace Pc

/-- Where the thread is in a call of the event API. -/
def phase : Pc → Phase
  | addFind _ | addGrow _ | addOp _ _ | addLock _ _ _ | addLocked _ _ _ | remove _ _ .find
  | remove _ _ (.lock _) | remove _ _ (.locked _) => .before
  | addUnlock _ | remove _ _ (.unlock _) => .after
  | _ => .out

end Pc

namespace Threads

variable {s s' : Threads} {t u : Tid} {a : Act} {tr : List (Move Threads Act)}

/-- The call that a thread makes. -/
def called (t : Tid) : Act → Option Op
  | .addEvent u c => if u = t then some (.addEvent c) else none
  | .remove u k fd => if u = t then some (k.op fd) else none
  | _ => none

/-- What the call of the thread will return, if it takes effect in the next step. -/
def effect (s : Threads) (t : Tid) : Option Outcome :=
  match s.pc t with
  | .addLocked c op p => (s.io.addEventLocked op p c).toOption.map Prod.fst
  | .remove k fd (.locked p) => (k.locked s.io p fd).toOption.map Prod.fst
  | .remove _ fd .find =>
    match s.io.findContext fd with
    | .ok none => some (.bool false)
    | _ => none
  | _ => none

/-- The next step of the thread ends its call. -/
def returns (s : Threads) (t : Tid) : Bool :=
  match s.pc t with
  | .addUnlock _ | .remove _ _ (.unlock _) => true
  | .remove _ fd .find =>
    match s.io.findContext fd with
    | .ok none => true
    | _ => false
  | _ => false

/-- The last call of the thread. -/
def Called (tr : List (Move Threads Act)) (t : Tid) (op : Op) : Prop :=
  ∃ x, Last (fun x => (called t x.act).isSome) tr x ∧ called t x.act = some op

/-- The move is the point of the last call of its thread, and returns what it says. -/
def Point (before : List (Move Threads Act)) (x : Move Threads Act)
    (m : Move Registrations (Op × Outcome)) : Prop :=
  ∃ t, x.act = .run t ∧ x.pre.effect t = some m.act.2 ∧ Called before t m.act.1

def Silent (x : Move Threads Act) : Prop := ∀ t, x.act = .run t → x.pre.effect t = none

/-- Calls, points and returns of a thread, move by move. -/
def calls (t : Tid) (x : Move Threads Act) : Bool := (called t x.act).isSome

def points (t : Tid) (x : Move Threads Act) : Bool :=
  match x.act with
  | .run u => u = t && (x.pre.effect t).isSome
  | _ => false

def ends (t : Tid) (x : Move Threads Act) : Bool :=
  match x.act with
  | .run u => u = t && x.pre.returns t
  | _ => false

/-- What the statement is about: calls with a scheduler, for descriptors whose
growth fits an `int`, without dispatches and without growths that cut the table. -/
structure Plain (s : Threads) (a : Act) : Prop where
  calls : ∀ t reports, a ≠ .report t reports
  ready : ∀ t c, a = .addEvent t c → c.Ready ∧ c.Fits
  grows : ¬ s.Shrinks a

/-- The call and the context that a position stands for. -/
def InCall (tr : List (Move Threads Act)) (io : IOManager) (t : Tid) : Pc → Prop
  | .outside | .addUnlock _ | .remove _ _ (.unlock _) => True
  | .addFind c | .addGrow c => Called tr t (.addEvent c) ∧ c.Ready ∧ c.Fits
  | .addOp c p => (Called tr t (.addEvent c) ∧ c.Ready ∧ c.Fits) ∧ io.contextAt c.fd = .ok p
  | .addLock c op p | .addLocked c op p =>
    (Called tr t (.addEvent c) ∧ c.Ready ∧ c.Fits) ∧ io.contextAt c.fd = .ok p ∧ op ≠ .DEL
  | .remove k fd .find => Called tr t (k.op fd)
  | .remove k fd (.lock p) | .remove k fd (.locked p) =>
    Called tr t (k.op fd) ∧ io.contextAt fd = .ok p
  | _ => False

theorem InCall.mono {tr' : List (Move Threads Act)} {io io' : IOManager} {pc : Pc}
    (h : InCall tr io t pc) (hcalled : ∀ op, Called tr t op → Called tr' t op)
    (hkept : ∀ fd p, io.contextAt fd = .ok p → io'.contextAt fd = .ok p) :
    InCall tr' io' t pc := by
  cases pc with
  | outside | addUnlock => trivial
  | addFind c | addGrow c => exact ⟨hcalled _ h.1, h.2⟩
  | addOp c p => exact ⟨⟨hcalled _ h.1.1, h.1.2⟩, hkept _ _ h.2⟩
  | addLock c op p | addLocked c op p =>
    exact ⟨⟨hcalled _ h.1.1, h.1.2⟩, hkept _ _ h.2.1, h.2.2⟩
  | remove k fd at_ =>
    cases at_ with
    | find => exact hcalled _ h
    | lock p | locked p => exact ⟨hcalled _ h.1, hkept _ _ h.2⟩
    | unlock p => trivial
  | _ => exact h.elim

theorem Called.snoc {op : Op} {x : Move Threads Act} (h : Called tr t op)
    (hx : called t x.act = none) : Called (tr ++ [x]) t op := by
  obtain ⟨y, hlast, hop⟩ := h
  exact ⟨y, hlast.snoc (by simp [hx]), hop⟩

/-- The table stands for the map, and each thread is in the call that it has made. -/
structure Linear (tr : List (Move Threads Act)) (s : Threads) (m : Registrations) : Prop where
  rep : s.io.RepInv
  abs : s.io.abs = m
  inCall : ∀ t, InCall tr s.io t (s.pc t)
  paired : ∀ t, Paired (calls t) (points t) (ends t) tr (s.pc t).phase

theorem initial_linear : Linear [] initial .empty where
  rep := IOManager.initial_repInv.1
  abs := IOManager.initial_repInv.2
  inCall := fun _ => trivial
  paired := fun t => .nil (calls t) (points t) (ends t)

namespace Linear

variable {m m' : Registrations} {sh : Shared} {pc : Pc}

/-- One step of thread `t`: the other threads are where they were. -/
theorem moved (h : Linear tr s m) (hs : s' = { sh with pc := Function.update s.pc t pc })
    (hrep : sh.io.RepInv) (habs : sh.io.abs = m')
    (hkept : ∀ fd p, s.io.contextAt fd = .ok p → sh.io.contextAt fd = .ok p)
    (hin : InCall (tr ++ [⟨s, .run t, s'⟩]) sh.io t pc)
    (hturn : Turn (s.pc t).phase pc.phase false (points t ⟨s, .run t, s'⟩)
      (ends t ⟨s, .run t, s'⟩)) : Linear (tr ++ [⟨s, .run t, s'⟩]) s' m' := by
  have hpc : s'.pc = Function.update s.pc t pc := by rw [hs]
  have hio : s'.io = sh.io := by rw [hs]
  refine ⟨hio ▸ hrep, hio ▸ habs, fun u => ?_, fun u => ?_⟩
  · rw [hpc, hio]
    by_cases hu : u = t
    · subst u
      rw [Function.update_self]
      exact hin
    · rw [Function.update_of_ne hu]
      exact (h.inCall u).mono (fun op hop => hop.snoc rfl) hkept
  · rw [hpc]
    by_cases hu : u = t
    · subst u
      rw [Function.update_self]
      exact (h.paired t).snoc hturn
    · rw [Function.update_of_ne hu]
      have hpoints : points u ⟨s, .run t, s'⟩ = false := by simp [points, Ne.symm hu]
      have hends : ends u ⟨s, .run t, s'⟩ = false := by simp [ends, Ne.symm hu]
      refine (h.paired u).snoc ?_
      rw [hpoints, hends]
      exact .other _

/-- The step is inside a call and changes nothing that the map shows. -/
theorem silent (h : Linear tr s m) (hs : s' = { sh with pc := Function.update s.pc t pc })
    (heffect : s.effect t = none)
    (hturn : Turn (s.pc t).phase pc.phase false false (s.returns t))
    (hrep : sh.io.RepInv) (habs : sh.io.abs = s.io.abs)
    (hkept : ∀ fd p, s.io.contextAt fd = .ok p → sh.io.contextAt fd = .ok p)
    (hin : ∀ {tr'}, (∀ op, Called tr t op → Called tr' t op) → InCall tr' sh.io t pc) :
    Silent ⟨s, .run t, s'⟩ ∧ Linear (tr ++ [⟨s, .run t, s'⟩]) s' m := by
  refine ⟨fun u hu => ?_, ?_⟩
  · cases hu
    exact heffect
  · refine h.moved hs hrep (habs.trans h.abs) hkept (hin fun op hop => hop.snoc rfl) ?_
    simpa [points, ends, heffect] using hturn

/-- The step does what the map does in one step. -/
theorem point (h : Linear tr s m) (hs : s' = { sh with pc := Function.update s.pc t pc })
    {op : Op} {r : Outcome} (heffect : s.effect t = some r) (hcalled : Called tr t op)
    (hturn : Turn (s.pc t).phase pc.phase false true (s.returns t))
    (hanswers : s.io.Answers op r sh.io)
    (hkept : ∀ fd p, s.io.contextAt fd = .ok p → sh.io.contextAt fd = .ok p)
    (hin : ∀ tr' io, InCall tr' io t pc) :
    ∃ b m', Registrations.system.step m b m' ∧ Point tr ⟨s, .run t, s'⟩ ⟨m, b, m'⟩ ∧
      Linear (tr ++ [⟨s, .run t, s'⟩]) s' m' := by
  refine ⟨(op, r), sh.io.abs, ?_, ⟨t, rfl, heffect, hcalled⟩, ?_⟩
  · rw [← h.abs]
    exact hanswers.step
  · refine h.moved hs hanswers.inv rfl hkept (hin _ _) ?_
    simpa [points, ends, heffect] using hturn

theorem run (h : Linear tr s m) (hgrows : ¬ s.Shrinks (.run t)) (hs : s.exec (.run t) = .ok s') :
    Silent ⟨s, .run t, s'⟩ ∧ Linear (tr ++ [⟨s, .run t, s'⟩]) s' m ∨
    ∃ b m', Registrations.system.step m b m' ∧ Point tr ⟨s, .run t, s'⟩ ⟨m, b, m'⟩ ∧
      Linear (tr ++ [⟨s, .run t, s'⟩]) s' m' := by
  obtain ⟨sh, pc, hsteps, hs'⟩ := steps_of_run hs
  have hin := h.inCall t
  have hsame : ∀ {io' : IOManager}, IOManager.SameTable s.io io' →
      ∀ fd p, s.io.contextAt fd = .ok p → io'.contextAt fd = .ok p := by
    intro io' htab fd p hp
    rw [IOManager.contextAt_ok_iff] at hp ⊢
    rw [htab.table]
    exact hp
  have hid : ∀ fd p, s.io.contextAt fd = .ok p → s.io.contextAt fd = .ok p := fun _ _ hp => hp
  generalize hpc : s.pc t = pc₀ at hsteps hin
  have hother : ∀ {pc' : Pc}, pc₀.phase = pc'.phase → s.returns t = false →
      Turn (s.pc t).phase pc'.phase false false (s.returns t) := by
    intro pc' hphase hret
    rw [hpc, hphase, hret]
    exact .other _
  have hback : ∀ {pc' : Pc}, pc₀.phase = .after → pc'.phase = .out → s.returns t = true →
      Turn (s.pc t).phase pc'.phase false false (s.returns t) := by
    intro pc' hafter hout hret
    rw [hpc, hafter, hout, hret]
    exact .back
  cases hsteps with
  | addFound hf =>
    exact Or.inl (h.silent hs' (by simp [effect, hpc]) (hother rfl (by simp [returns, hpc])) h.rep
      rfl hid fun hc => ⟨⟨hc _ hin.1, hin.2⟩, (IOManager.findContext_some_iff.mp hf).2⟩)
  | addMissing hf =>
    exact Or.inl (h.silent hs' (by simp [effect, hpc]) (hother rfl (by simp [returns, hpc])) h.rep
      rfl hid fun hc => ⟨hc _ hin.1, hin.2⟩)
  | @addGrow c p io hg =>
    have htable := h.rep.ok.table
    have hresized := (IOManager.growContext_resized htable hg).1
    have hlength : s.io.m_fdContexts.length ≤ c.fd * 3 / 2 := by
      by_contra hlt
      exact hgrows ⟨t, c, rfl, hpc, Nat.lt_of_not_le hlt⟩
    obtain ⟨hrep, habs⟩ := h.rep.resized hresized hlength hin.2.2
    have hkept : ∀ fd q, s.io.contextAt fd = .ok q → io.contextAt fd = .ok q := by
      intro fd q hq
      rw [IOManager.contextAt_ok_iff] at hq ⊢
      have hlt := (List.getElem?_eq_some_iff.mp hq).1
      rw [hresized.kept fd (Nat.lt_of_lt_of_le hlt hlength) hlt]
      exact hq
    have hp : io.contextAt c.fd = .ok p := by
      obtain ⟨hat, rfl⟩ := IOManager.growContext_ok_iff.mp hg
      exact hat
    exact Or.inl (h.silent hs' (by simp [effect, hpc]) (hother rfl (by simp [returns, hpc])) hrep
      habs hkept fun hc => ⟨⟨hc _ hin.1, hin.2⟩, hp⟩)
  | @addOp c p =>
    have hop : s.io.addOp p ≠ .DEL := by
      unfold IOManager.addOp
      split <;> simp
    exact Or.inl (h.silent hs' (by simp [effect, hpc]) (hother rfl (by simp [returns, hpc])) h.rep
      rfl hid fun hc => ⟨⟨hc _ hin.1.1, hin.1.2⟩, hin.2, hop⟩)
  | addLock hfree =>
    exact Or.inl (h.silent hs' (by simp [effect, hpc]) (hother rfl (by simp [returns, hpc])) h.rep
      rfl hid fun hc => ⟨⟨hc _ hin.1.1, hin.1.2⟩, hin.2⟩)
  | @addLocked c op p r io hl =>
    obtain ⟨⟨hcalled, hready, hfits⟩, hp, hop⟩ := hin
    have hle : c.fd ≤ INT_MAX := by
      unfold AddCall.Fits at hfits
      omega
    obtain ⟨r', io', hl', hanswers⟩ := IOManager.addEventLocked_answers h.rep hp hle hready
    cases (h.rep.addEventLocked_addOp hp hop hl).symm.trans hl'
    refine Or.inr (h.point hs' (by simp [effect, hpc, hl, Except.toOption]) hcalled ?_ hanswers
      (hsame (IOManager.addEventLocked_sameTable hl)) fun _ _ => trivial)
    rw [hpc, show s.returns t = false by simp [returns, hpc]]
    exact .point
  | addUnlock =>
    exact Or.inl (h.silent hs' (by simp [effect, hpc]) (hback rfl rfl (by simp [returns, hpc]))
      h.rep rfl hid fun _ => trivial)
  | removeStep hr =>
    cases hr with
    | found hf =>
      exact Or.inl (h.silent hs' (by simp [effect, hpc, hf])
        (hother rfl (by simp [returns, hpc, hf])) h.rep rfl hid
        fun hc => ⟨hc _ hin, (IOManager.findContext_some_iff.mp hf).2⟩)
    | lock hfree =>
      exact Or.inl (h.silent hs' (by simp [effect, hpc]) (hother rfl (by simp [returns, hpc]))
        h.rep rfl hid fun hc => ⟨hc _ hin.1, hin.2⟩)
    | locked hl =>
      refine Or.inr (h.point hs' (by simp [effect, hpc, hl, Except.toOption]) hin.1 ?_
        (Removal.locked_answers h.rep hin.2 hl) (hsame (Removal.locked_sameTable hl))
        fun _ _ => trivial)
      rw [hpc, show s.returns t = false by simp [returns, hpc]]
      exact .point
  | removeReturn hr =>
    cases hr with
    | missing hf =>
      refine Or.inr (h.point hs' (by simp [effect, hpc, hf]) hin ?_
        (Removal.missing_answers h.rep hf) hid fun _ _ => trivial)
      rw [hpc, show s.returns t = true by simp [returns, hpc, hf]]
      exact .pointBack
    | unlock =>
      exact Or.inl (h.silent hs' (by simp [effect, hpc]) (hback rfl rfl (by simp [returns, hpc]))
        h.rep rfl hid fun _ => trivial)
  | _ => exact hin.elim

/-- A thread that is in no call makes one. -/
theorem started (h : Linear tr s m) {pc : Pc} {op : Op} (hs : s.start t pc = .ok s')
    (hcalled : called t a = some op) (hothers : ∀ u, u ≠ t → called u a = none)
    (hrun : ∀ u, a ≠ .run u) (hphase : pc.phase = .before)
    (hin : ∀ {tr'}, Called tr' t op → InCall tr' s.io t pc) :
    Silent ⟨s, a, s'⟩ ∧ Linear (tr ++ [⟨s, a, s'⟩]) s' m := by
  obtain ⟨hout, rfl⟩ := start_ok_iff.mp hs
  refine ⟨fun u hu => absurd hu (hrun u), h.rep, h.abs, fun u => ?_, fun u => ?_⟩
  · by_cases hu : u = t
    · subst u
      simp only [Function.update_self]
      exact hin ⟨_, Last.snoc_self (by simp [hcalled]), hcalled⟩
    · simp only [Function.update_of_ne hu]
      exact (h.inCall u).mono (fun op hop => hop.snoc (hothers u hu)) fun _ _ hp => hp
  · have hpoints : points u ⟨s, a, { s with pc := Function.update s.pc t pc }⟩ = false := by
      unfold points
      split
      case h_1 v hv => exact absurd hv (hrun v)
      case h_2 => rfl
    have hends : ends u ⟨s, a, { s with pc := Function.update s.pc t pc }⟩ = false := by
      unfold ends
      split
      case h_1 v hv => exact absurd hv (hrun v)
      case h_2 => rfl
    refine (h.paired u).snoc ?_
    rw [hpoints, hends]
    by_cases hu : u = t
    · subst u
      simp only [Function.update_self, hphase, hout, calls, hcalled, Option.isSome_some]
      exact .call
    · simp only [Function.update_of_ne hu, calls, hothers u hu, Option.isSome_none]
      exact .other _

/-- A step is inside a call, or one call takes effect in it. -/
theorem step (h : Linear tr s m) (hplain : s.Plain a) (hs : s.exec a = .ok s') :
    Silent ⟨s, a, s'⟩ ∧ Linear (tr ++ [⟨s, a, s'⟩]) s' m ∨
    ∃ b m', Registrations.system.step m b m' ∧ Point tr ⟨s, a, s'⟩ ⟨m, b, m'⟩ ∧
      Linear (tr ++ [⟨s, a, s'⟩]) s' m' := by
  cases a with
  | run t => exact h.run hplain.grows hs
  | report t reports => exact absurd rfl (hplain.calls t reports)
  | addEvent t c =>
    exact Or.inl (h.started hs (by simp [called]) (fun u hu => by simp [called, Ne.symm hu])
      (by simp) rfl fun hc => ⟨hc, hplain.ready t c rfl⟩)
  | remove t k fd =>
    exact Or.inl (h.started hs (by simp [called]) (fun u hu => by simp [called, Ne.symm hu])
      (by simp) rfl fun hc => hc)

end Linear

/-- Every run of any number of threads that call the event API, with their steps in
any order, is a run of the map of registrations in which each call is one step: it
takes effect once between its call and its return, and returns what the map answers. -/
theorem calls_linearizable (hr : Run system initial tr s)
    (hplain : ∀ x ∈ tr, x.pre.Plain x.act) :
    (∃ tr' m, Run Registrations.system .empty tr' m ∧ Linearized Silent Point tr tr' ∧
      s.io.abs = m) ∧ ∀ t, Paired (calls t) (points t) (ends t) tr (s.pc t).phase := by
  obtain ⟨tr', m, hrun, hlin, hR⟩ := Run.linearize (S := system.restrict Plain)
    (T := Registrations.system) Silent Point Linear (fun h hs => h.step hs.2 hs.1.2)
    (hr.restrict Plain hplain) initial_linear
  exact ⟨⟨tr', m, hrun, hlin, hR.abs⟩, hR.paired⟩

/-- A sufficient test for `Plain`. -/
def plain (s : Threads) (a : Act) : Bool :=
  match a, s.pc a.tid with
  | .addEvent _ c, _ =>
    c.caller.scheduler.isSome ∧ (c.cb = none → c.caller.running = true) ∧ c.Fits
  | .report _ _, _ | .run _, .outside => false
  | .run _, .addGrow c => s.io.m_fdContexts.length ≤ c.fd * 3 / 2
  | _, _ => true

theorem Plain.of_plain (h : s.plain a = true) : s.Plain a := by
  refine ⟨fun t reports heq => ?_, fun t c heq => ?_, fun hshrinks => ?_⟩
  · subst a
    cases h
  · subst a
    obtain ⟨hscheduler, hrunning, hfits⟩ := of_decide_eq_true h
    exact ⟨⟨hscheduler, hrunning⟩, hfits⟩
  · obtain ⟨t, c, rfl, hpc, hlt⟩ := hshrinks
    simp only [plain, Act.tid, hpc] at h
    exact absurd (of_decide_eq_true h) (Nat.not_le.mpr hlt)

/-- Thread 0 adds an event and thread 1 one for a descriptor beyond the table, and
thread 2 cancels the first while its call is under way. -/
def crossing : List Act :=
  [.addEvent 0 ⟨5, .READ, some 7, ⟨some 0, 0, true⟩⟩, .run 0,
    .addEvent 1 ⟨60, .WRITE, some 8, ⟨some 0, 0, true⟩⟩, .run 1, .remove 2 .cancelAll 5, .run 2,
    .run 0, .run 0, .run 1, .run 0, .run 0, .run 2, .run 1, .run 2, .run 1, .run 1, .run 2]

theorem calls_linearizable_crossing : ∃ tr s, Run system initial tr s ∧
    tr.map Move.act = crossing ∧ s.pc 0 = .outside ∧ s.pc 1 = .addUnlock 60 ∧ s.pc 2 = .outside ∧
    (∃ tr' m, Run Registrations.system .empty tr' m ∧ Linearized Silent Point tr tr' ∧
      s.io.abs = m) ∧ ∀ t, Paired (calls t) (points t) (ends t) tr (s.pc t).phase := by
  have hrun : (traceAll next initial crossing).map (fun r =>
      (r.1.all fun m => m.pre.plain m.act, r.2.pc 0, r.2.pc 1, r.2.pc 2)) =
      some (true, .outside, .addUnlock 60, .outside) := by decide +kernel
  obtain ⟨tr, s, hr, hacts, hobs⟩ := Run.exists_of_traceAll next next_sound _ hrun
  obtain ⟨hplain, hobs⟩ := Prod.mk.inj hobs
  obtain ⟨h₀, hobs⟩ := Prod.mk.inj hobs
  obtain ⟨h₁, h₂⟩ := Prod.mk.inj hobs
  exact ⟨tr, s, hr, hacts, h₀, h₁, h₂, calls_linearizable hr fun x hx =>
    .of_plain (List.all_eq_true.mp hplain x hx)⟩

end Threads

end FiberAsync
