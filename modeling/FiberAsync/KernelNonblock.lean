import FiberAsync.HookedFlags

/-!
# Sockets that the kernel must not block on

The hook layer relies on `O_NONBLOCK` of every socket with a context. `fcntl`
keeps the flag whatever the user asks for; `ioctl` passes the user's value on.
-/

namespace FiberAsync

set_option autoImplicit false

open Runs

namespace Files

variable (arg flags : BitVec 32)

theorem getLsbD_setFlags (i : Nat) : (setFlags arg flags).getLsbD i =
    if SETFL_MASK.getLsbD i then arg.getLsbD i else flags.getLsbD i := by
  rw [setFlags, BitVec.getLsbD_or, BitVec.getLsbD_and, BitVec.getLsbD_and, BitVec.getLsbD_not]
  by_cases hi : i < 32
  · cases SETFL_MASK.getLsbD i <;> simp [hi]
  · rw [BitVec.getLsbD_of_ge SETFL_MASK i (Nat.le_of_not_lt hi),
      BitVec.getLsbD_of_ge flags i (Nat.le_of_not_lt hi)]
    simp

theorem getLsbD_setFlags_nonblock : (setFlags arg flags).getLsbD 11 = arg.getLsbD 11 :=
  (getLsbD_setFlags arg flags 11).trans (if_pos (by decide))

theorem getLsbD_setNonblock {i : Nat} (hi : i ≠ 11) :
    (setNonblock arg flags).getLsbD i = flags.getLsbD i := by
  unfold setNonblock
  split
  · rw [BitVec.getLsbD_and, BitVec.getLsbD_not, getLsbD_O_NONBLOCK, decide_eq_false hi]
    by_cases hlt : i < 32
    · simp [hlt]
    · rw [BitVec.getLsbD_of_ge flags i (Nat.le_of_not_lt hlt), Bool.false_and]
  · rw [BitVec.getLsbD_or, getLsbD_O_NONBLOCK, decide_eq_false hi, Bool.or_false]

theorem getLsbD_setNonblock_nonblock :
    (setNonblock arg flags).getLsbD 11 = decide (arg ≠ 0#32) := by
  unfold setNonblock
  split
  · rename_i hzero
    simp [hzero, getLsbD_O_NONBLOCK]
  · rename_i hne
    simp [hne, getLsbD_O_NONBLOCK]

end Files

namespace Cell

/-- The kernel's flag is set if there is a context. -/
def Nonblock (x : Cell) : Prop := ∀ f u, x = (some f, some u) → f.flags.getLsbD 11 = true

theorem nonblock_some (f : File) (u : Bool) :
    Nonblock (some f, some u) ↔ f.flags.getLsbD 11 = true :=
  ⟨fun h => h f u rfl, fun h _ _ heq => by cases heq; exact h⟩

theorem nonblock_after {x : Cell} (hx : x.Nonblock) (c : Call) :
    (after c x).Nonblock ↔ ¬ ∃ fd f u, c = .fionbio fd 0#32 ∧ x = (some f, some u) := by
  have hother : (∀ fd, c ≠ .fionbio fd 0#32) → (after c x).Nonblock →
      ((after c x).Nonblock ↔ ¬ ∃ fd f u, c = .fionbio fd 0#32 ∧ x = (some f, some u)) := by
    intro hne hafter
    exact iff_of_true hafter fun ⟨fd, _, _, hc, _⟩ => hne fd hc
  cases c with
  | socket domain type protocol next =>
    refine hother (by simp) ((nonblock_some _ _).mpr ?_)
    decide
  | accept fd next =>
    refine hother (by simp) ((nonblock_some _ _).mpr ?_)
    decide
  | close fd => exact hother (by simp) fun _ _ heq => by cases heq
  | getfl fd | setsockopt fd opt => exact hother (by simp) hx
  | setfl fd arg =>
    apply hother (by simp)
    obtain ⟨_ | f, _ | u⟩ := x
    case some.some =>
      refine (nonblock_some _ _).mpr ((Files.getLsbD_setFlags_nonblock _ _).trans ?_)
      rw [BitVec.getLsbD_or, getLsbD_O_NONBLOCK, decide_eq_true rfl, Bool.or_true]
    all_goals exact fun _ _ heq => by cases heq
  | fionbio fd value =>
    obtain ⟨_ | f, _ | u⟩ := x
    case some.some =>
      have hbit := Files.getLsbD_setNonblock_nonblock value f.flags
      refine (nonblock_some _ _).trans ?_
      change (Files.setNonblock value f.flags).getLsbD 11 = true ↔ _
      rw [hbit]
      simp
    all_goals
      refine iff_of_true (fun _ _ heq => by cases heq) ?_
      simp

end Cell

namespace Process

/-- `O_NONBLOCK` is set on every open descriptor whose context is of a socket
that has been made non-blocking. -/
def KernelNonblock (s : Process Files) : Prop :=
  ∀ n p f, s.fdMgr.entry n = some p → s.kernel n = some f →
    (s.fdMgr.ctxs p).m_isSocket = true → (s.fdMgr.ctxs p).m_sysNonblock = true →
    f.flags &&& O_NONBLOCK ≠ 0#32

/-- `ioctl(fd, FIONBIO, &value)` on a socket, with zero in `value`. -/
def Clears (s : Process Files) (c : Call) : Prop :=
  ∃ fd f, c = .fionbio fd 0#32 ∧ s.kernel fd = some f ∧ f.isSock = true

variable {s s' : Process Files} {n : Nat} {c : Call} {f : File} {u : Bool}

theorem cell_eq_some : s.cell n = (some f, some u) ↔ s.kernel n = some f ∧
    ∃ p, s.fdMgr.entry n = some p ∧ (s.fdMgr.ctxs p).m_userNonblock = u := by
  unfold cell
  rw [Prod.mk.injEq, Option.map_eq_some_iff]

namespace Tracked

theorem kernelNonblock_iff (h : s.Tracked) : s.KernelNonblock ↔ ∀ n, (s.cell n).Nonblock := by
  constructor
  · intro hs n f u hcell
    obtain ⟨hf, p, hp, _⟩ := cell_eq_some.mp hcell
    have hctx := h.ctxs n p hp
    have hflag := hs n p f hp hf hctx.isSocket hctx.sysNonblock
    rw [ne_eq, and_O_NONBLOCK_eq_zero_iff] at hflag
    simpa using hflag
  · intro hs n p f hp hf _ _
    rw [ne_eq, and_O_NONBLOCK_eq_zero_iff, hs n f _ (cell_eq_some.mpr ⟨hf, p, hp, rfl⟩)]
    simp

theorem clears_iff (h : s.Tracked) : s.Clears c ↔
    ∃ fd f u, c = .fionbio fd 0#32 ∧ s.cell c.target = (some f, some u) := by
  constructor
  · intro hx
    obtain ⟨fd, f, rfl, hf, hsock⟩ := hx
    have hsome := h.sockets fd
    rw [hf, Option.any_some, hsock] at hsome
    obtain ⟨p, hp⟩ := Option.isSome_iff_exists.mp hsome
    exact ⟨fd, f, _, rfl, cell_eq_some.mpr ⟨hf, p, hp, rfl⟩⟩
  · intro hx
    obtain ⟨fd, f, u, rfl, hcell⟩ := hx
    obtain ⟨hf, p, hp, _⟩ := cell_eq_some.mp hcell
    have hsome := h.sockets fd
    change s.kernel fd = some f at hf
    change s.fdMgr.entry fd = some p at hp
    rw [hf, hp] at hsome
    exact ⟨fd, f, rfl, hf, hsome.symm⟩

/-- A call keeps `O_NONBLOCK` of all sockets unless it clears it on one. -/
theorem step_nonblock (h : s.Tracked) (hs : s.KernelNonblock) (hstep : Answered s c s') :
    s'.KernelNonblock ↔ ¬ s.Clears c := by
  obtain ⟨htracked, hcell⟩ := hstep
  rw [h.kernelNonblock_iff] at hs
  rw [htracked.kernelNonblock_iff, hcell, h.clears_iff, ← Cell.nonblock_after (hs c.target) c,
    Function.forall_update_iff s.cell fun _ x => x.Nonblock]
  exact and_iff_left fun n _ => hs n

end Tracked

/-- While the descriptors stay small, `O_NONBLOCK` is set on all sockets after
every call exactly if no call clears it with `ioctl`. -/
theorem kernelNonblock_run_iff {files : Files} {iom : Option IOManager}
    {tr : List (Move (Process Files) Call)} (hr : Run system (initial files iom) tr s)
    (hfiles : ∀ n f, files n = some f → f.isSock = false) (hsmall : ∀ m ∈ tr, m.act.Small) :
    (∀ m ∈ tr, m.post.KernelNonblock) ↔ ∀ m ∈ tr, ¬ m.pre.Clears m.act := by
  have hrestrict := hr.restrict (fun _ c => c.Small) hsmall
  have keeps : ∀ {s c t}, (Tracked s ∧ KernelNonblock s) → ¬ s.Clears c →
      (system.restrict fun _ c => c.Small).step s c t → t.Tracked ∧ t.KernelNonblock := by
    intro s c t h hclears hstep
    have hanswered := h.1.step hstep.2 hstep.1
    exact ⟨hanswered.1, (h.1.step_nonblock h.2 hanswered).mpr hclears⟩
  have hinitial : (initial files iom).Tracked := initial_tracked hfiles
  apply hrestrict.forall_iff_guard (fun s => Tracked s ∧ KernelNonblock s)
    (fun s c => ¬ s.Clears c) _ keeps _ ⟨hinitial, fun n p f hp => ?_⟩
  · intro s c t h hstep
    exact h.1.step_nonblock h.2 (h.1.step hstep.2 hstep.1)
  · rw [initial, FdManager.initial_entry] at hp
    cases hp

/-- A socket is made non-blocking and blocking again, first with `fcntl` and then with `ioctl`. -/
def clearing : List Call :=
  [.socket 2 1 0 5, .setfl 5 O_NONBLOCK, .setfl 5 0, .fionbio 5 1, .fionbio 5 0]

theorem kernel_flag_cleared : ∃ tr s, Run system (initial (fun _ => none) none) tr s ∧
    tr.map Move.act = clearing ∧ ¬ s.KernelNonblock := by
  have hrun : (traceAll next (initial (fun _ => none) none) clearing).map (fun r =>
      (r.2.fdMgr.entry 5, r.2.kernel 5, decide ((r.2.fdMgr.ctxs 0).m_isSocket = true ∧
        (r.2.fdMgr.ctxs 0).m_sysNonblock = true))) =
      some (some 0, some ⟨true, O_RDWR⟩, true) := by decide +kernel
  obtain ⟨tr, s, hr, hacts, hobs⟩ := Run.exists_of_traceAll next next_sound _ hrun
  obtain ⟨hentry, hfile, hctx⟩ : _ ∧ _ ∧ _ := by simpa only [Prod.mk.injEq] using hobs
  obtain ⟨hsocket, hsys⟩ := of_decide_eq_true hctx
  refine ⟨tr, s, hr, hacts, fun hs => ?_⟩
  exact hs 5 0 ⟨true, O_RDWR⟩ hentry hfile hsocket hsys (by decide)

theorem kernelNonblock_without_clearing : ∃ tr s,
    Run system (initial (fun _ => none) none) tr s ∧
    tr.map Move.act = clearing.take 4 ∧ ∀ m ∈ tr, m.post.KernelNonblock := by
  have hrun : (traceAll next (initial (fun _ => none) none) (clearing.take 4)).map (fun _ => ()) =
      some () := by decide +kernel
  obtain ⟨tr, s, hr, hacts, _⟩ := Run.exists_of_traceAll next next_sound _ hrun
  have hmem : ∀ m ∈ tr, m.act ∈ clearing.take 4 := by
    intro m hm
    rw [← hacts]
    exact List.mem_map_of_mem hm
  have hcalls : ∀ c ∈ clearing.take 4, c.Small ∧ ∀ fd, c ≠ .fionbio fd 0#32 := by
    simp only [clearing, List.take_succ_cons, List.take_zero, List.forall_mem_cons]
    exact ⟨⟨by decide, by simp⟩, ⟨by decide, by simp⟩, ⟨by decide, by simp⟩, ⟨by decide, by simp⟩,
      by simp⟩
  refine ⟨tr, s, hr, hacts, (kernelNonblock_run_iff hr (by simp) ?_).mpr ?_⟩
  · exact fun m hm => (hcalls _ (hmem m hm)).1
  · intro m hm hclears
    obtain ⟨fd, _, hc, _⟩ := hclears
    exact (hcalls _ (hmem m hm)).2 fd hc

end Process

end FiberAsync
