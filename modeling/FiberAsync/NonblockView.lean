import FiberAsync.KernelNonblock

/-!
# The user's view of O_NONBLOCK

The hook layer shows the user flags that it does not have in the kernel. Run
beside a process without hooks that makes the same calls, it shows the same
flags, and `do_io` waits exactly where that process would block, until a socket
is created with `SOCK_NONBLOCK`: `FdCtx::init` does not look at it.
-/

namespace FiberAsync

set_option autoImplicit false

open Runs

/-- A socket is created with `SOCK_NONBLOCK`. -/
def Call.createsNonblock : Call → Bool
  | .socket _ type _ _ => type &&& SOCK_NONBLOCK ≠ 0#32
  | _ => false

/-- What a call makes of its descriptor in a process without hooks. -/
def File.after : Call → Option File → Option File
  | .socket _ type _ _, _ => some ⟨true, O_RDWR ||| (type &&& SOCK_NONBLOCK)⟩
  | .accept _ _, _ => some ⟨true, O_RDWR⟩
  | .setfl _ arg, file => file.map (·.change (Files.setFlags arg))
  | .fionbio _ value, file => file.map (·.change (Files.setNonblock value))
  | .close _, _ => none
  | .getfl _, file | .setsockopt _ _, file => file

namespace Files

variable {files : Files} {c : Call}

theorem exec_eq (h : c.Succeeds files) :
    files.exec c = Function.update files c.target (File.after c (files c.target)) := by
  cases c with
  | socket domain type protocol next => rfl
  | accept fd next =>
    obtain ⟨f, hf, _⟩ := (Option.any_eq_true _ _).mp h.1
    simp only [exec, linux, lookup_natCast, hf]
    rfl
  | setfl fd arg =>
    obtain ⟨f, hf⟩ := h.isOpen rfl
    exact (congrArg Prod.snd (change_eq hf _)).trans (by rw [hf]; rfl)
  | fionbio fd value =>
    obtain ⟨f, hf⟩ := h.isOpen rfl
    exact (congrArg Prod.snd (change_eq hf _)).trans (by rw [hf]; rfl)
  | getfl fd =>
    obtain ⟨f, hf⟩ := h.isOpen rfl
    exact (congrArg Prod.snd (ask_eq hf _)).trans (Function.update_eq_self _ _).symm
  | setsockopt fd opt =>
    obtain ⟨f, hf⟩ := h.isOpen rfl
    exact (congrArg Prod.snd (ask_eq hf _)).trans (Function.update_eq_self _ _).symm
  | close fd =>
    obtain ⟨f, hf⟩ := h.isOpen rfl
    change files fd = some f at hf
    simp only [exec, linux, lookup_natCast, hf]
    rfl

end Files

namespace Cell

/-- The cell of a descriptor beside its file in a process without hooks. -/
inductive Agree : Cell → Option File → Prop where
  | untracked (file : Option File) : Agree (file, none) file
  | socket (f g : File) : f.isSock = g.isSock →
      (∀ i, i ≠ 11 → f.flags.getLsbD i = g.flags.getLsbD i) →
      Agree (some f, some (g.flags.getLsbD 11)) (some g)

theorem Agree.of_bits {f g : File} {user : Bool} (hsock : f.isSock = g.isSock)
    (hbits : ∀ i, i ≠ 11 → f.flags.getLsbD i = g.flags.getLsbD i)
    (huser : user = g.flags.getLsbD 11) : Agree (some f, some user) (some g) :=
  huser ▸ .socket f g hsock hbits

theorem Agree.after {x : Cell} {file : Option File} (h : Agree x file) {c : Call}
    (hc : c.createsNonblock = false) : Agree (after c x) (File.after c file) := by
  have hnew : Agree (some ⟨true, O_RDWR ||| O_NONBLOCK⟩, some false) (some ⟨true, O_RDWR⟩) := by
    refine .of_bits rfl (fun i hi => ?_) (by decide)
    rw [BitVec.getLsbD_or, getLsbD_O_NONBLOCK, decide_eq_false hi, Bool.or_false]
  cases c with
  | socket domain type protocol next =>
    have htype : type &&& SOCK_NONBLOCK = 0#32 := by simpa [Call.createsNonblock] using hc
    have hfile : File.after (.socket domain type protocol next) file = some ⟨true, O_RDWR⟩ := by
      simp only [File.after, htype, BitVec.or_zero]
    exact hfile ▸ hnew
  | accept fd next => exact hnew
  | close fd => exact .untracked none
  | getfl fd | setsockopt fd opt => exact h
  | setfl fd arg =>
    cases h with
    | untracked => exact .untracked _
    | socket f g hsock hbits =>
      refine .of_bits (f := f.change _) (g := g.change _) hsock (fun i hi => ?_) ?_
      · change (Files.setFlags (arg ||| O_NONBLOCK) f.flags).getLsbD i =
          (Files.setFlags arg g.flags).getLsbD i
        rw [Files.getLsbD_setFlags, Files.getLsbD_setFlags, BitVec.getLsbD_or, getLsbD_O_NONBLOCK,
          decide_eq_false hi, Bool.or_false, hbits i hi]
      · change decide (arg &&& O_NONBLOCK ≠ 0#32) = (Files.setFlags arg g.flags).getLsbD 11
        rw [Files.getLsbD_setFlags_nonblock, decide_and_O_NONBLOCK]
  | fionbio fd value =>
    cases h with
    | untracked => exact .untracked _
    | socket f g hsock hbits =>
      refine .of_bits (f := f.change _) (g := g.change _) hsock (fun i hi => ?_) ?_
      · change (Files.setNonblock value f.flags).getLsbD i =
          (Files.setNonblock value g.flags).getLsbD i
        rw [Files.getLsbD_setNonblock _ _ hi, Files.getLsbD_setNonblock _ _ hi, hbits i hi]
      · exact (Files.getLsbD_setNonblock_nonblock value g.flags).symm

theorem Agree.shown {f g : File} {user : Bool} (h : Agree (some f, some user) (some g)) :
    Cell.shown (some f, some user) = some g.flags := by
  cases h with
  | socket f g hsock hbits =>
    have heq : ∀ b : BitVec 32, (∀ i, b.getLsbD i = g.flags.getLsbD i) → some b = some g.flags :=
      fun b hb => congrArg some (BitVec.eq_of_getLsbD_eq fun i _ => hb i)
    cases hbit : g.flags.getLsbD 11 with
    | true =>
      refine heq (f.flags ||| O_NONBLOCK) fun i => ?_
      rw [BitVec.getLsbD_or, getLsbD_O_NONBLOCK]
      by_cases hi : i = 11
      · simp only [hi, decide_true, Bool.or_true, hbit]
      · rw [decide_eq_false hi, Bool.or_false, hbits i hi]
    | false =>
      refine heq (f.flags &&& ~~~O_NONBLOCK) fun i => ?_
      rw [BitVec.getLsbD_and, BitVec.getLsbD_not, getLsbD_O_NONBLOCK]
      by_cases hi : i = 11
      · simp only [hi, decide_true, Bool.not_true, Bool.and_false, hbit]
      · rw [decide_eq_false hi, hbits i hi, Bool.not_false, Bool.and_true]
        by_cases hlt : i < 32
        · rw [decide_eq_true hlt, Bool.and_true]
        · rw [BitVec.getLsbD_of_ge _ _ (Nat.le_of_not_lt hlt), Bool.false_and]

end Cell

namespace Process

/-- What the user sees of the sockets is what a process without hooks sees:
`F_GETFL` returns the same flags, and `do_io` passes `EAGAIN` on if the socket is
non-blocking there, and puts the fiber to sleep if it is not. -/
def ViewsAgree (s : Process Files) (files : Files) : Prop :=
  ∀ n g, files n = some g → g.isSock = true →
    (∃ s', s.fcntlGETFL (Files.linux 0) n = .ok (.ok g.flags, s')) ∧
    ∀ (α : Type) (call : Files → Returned α × Files) (so : TimeoutType),
      (call s.kernel).1 = .error .EAGAIN → ∃ step s', s.do_io n call so = .ok (step, s') ∧
        ((∃ timeout, step = .suspend timeout) ↔ g.flags &&& O_NONBLOCK = 0#32) ∧
        (step = .returns (.error .EAGAIN) ↔ g.flags &&& O_NONBLOCK ≠ 0#32)

/-- The hooked thread beside a process without hooks that makes the same calls
and is given the same descriptors. -/
def paired : System (Process Files × Files) Call where
  init x := system.init x.1 ∧ x.2 = x.1.kernel
  step x c y := system.step x.1 c y.1 ∧ c.Succeeds x.2 ∧ y.2 = x.2.exec c

/-- The cells agree with the files of the process without hooks. -/
structure Paired (x : Process Files × Files) : Prop where
  tracked : x.1.Tracked
  agree : ∀ n, Cell.Agree (x.1.cell n) (x.2 n)

variable {x y : Process Files × Files} {c : Call}

namespace Paired

theorem step (h : Paired x) (hsmall : c.Small) (hs : paired.step x c y)
    (hc : c.createsNonblock = false) : Paired y := by
  obtain ⟨hstep, hsucceeds, hfiles⟩ := hs
  obtain ⟨htracked, hcell⟩ := h.tracked.step hsmall hstep
  refine ⟨htracked, fun n => ?_⟩
  rw [hfiles, Files.exec_eq hsucceeds, hcell]
  by_cases hn : n = c.target
  · subst n
    rw [Function.update_self, Function.update_self]
    exact (h.agree c.target).after hc
  · rw [Function.update_of_ne hn, Function.update_of_ne hn]
    exact h.agree n

/-- A socket of the process without hooks has a context on the other side. -/
theorem cell_of_socket (h : Paired x) {n : Nat} {g : File} (hg : x.2 n = some g)
    (hsock : g.isSock = true) : ∃ f, x.1.cell n = (some f, some (g.flags.getLsbD 11)) := by
  have hagree := h.agree n
  rw [hg] at hagree
  generalize hcell : x.1.cell n = cell at hagree
  cases hagree with
  | untracked =>
    have hsome := h.tracked.sockets n
    have hfile : x.1.kernel n = some g := congrArg Prod.fst hcell
    have hnone : x.1.fdMgr.entry n = none := Option.map_eq_none_iff.mp (congrArg Prod.snd hcell)
    rw [hfile, hnone, Option.any_some, hsock] at hsome
    cases hsome
  | socket f => exact ⟨f, rfl⟩

theorem viewsAgree (h : Paired x) : ViewsAgree x.1 x.2 := by
  intro n g hg hsock
  obtain ⟨f, hcell⟩ := h.cell_of_socket hg hsock
  have hf : x.1.kernel n = some f := congrArg Prod.fst hcell
  have hagree := h.agree n
  rw [hg, hcell] at hagree
  refine ⟨?_, fun α call so hagain => ?_⟩
  · obtain ⟨flags, hflags, hget⟩ := h.tracked.getfl (k := 0) hf
    rw [hcell, hagree.shown] at hflags
    cases hflags
    exact ⟨x.1, hget⟩
  · obtain ⟨e, hdo, hor⟩ := h.tracked.do_io n call so
    have hresult : (x.1.sys call).1 = .error .EAGAIN := hagain
    rw [hcell] at hor
    rw [hresult] at hdo
    refine ⟨_, _, hdo, ?_⟩
    rw [ne_eq, and_O_NONBLOCK_eq_zero_iff]
    rcases hor with ⟨hfalse, timeout, rfl⟩ | ⟨htrue, rfl⟩
    · have hbit : g.flags.getLsbD 11 = false := Option.some.inj hfalse
      rw [hbit]
      simp [IoEntry.after]
    · have hbit : g.flags.getLsbD 11 = true := by simpa using htrue
      rw [hbit]
      simp [IoEntry.after]

/-- A socket created with `SOCK_NONBLOCK` is shown without `O_NONBLOCK`. -/
theorem not_viewsAgree (h : Paired x) (hsmall : c.Small) (hs : paired.step x c y)
    (hc : c.createsNonblock = true) : ¬ ViewsAgree y.1 y.2 := by
  obtain ⟨domain, type, protocol, next, rfl, htype⟩ : ∃ domain type protocol next,
      c = .socket domain type protocol next ∧ type &&& SOCK_NONBLOCK ≠ 0#32 := by
    cases c with
    | socket domain type protocol next =>
      exact ⟨domain, type, protocol, next, rfl, of_decide_eq_true hc⟩
    | _ => cases hc
  obtain ⟨hstep, hsucceeds, hfiles⟩ := hs
  obtain ⟨htracked, hcell⟩ := h.tracked.step hsmall hstep
  intro hviews
  have hnew : y.1.cell next = (some ⟨true, O_RDWR ||| O_NONBLOCK⟩, some false) := by
    rw [hcell]
    exact Function.update_self _ _ _
  have hfile : y.2 next = some ⟨true, O_RDWR ||| (type &&& SOCK_NONBLOCK)⟩ := by
    rw [hfiles]
    exact Function.update_self _ _ _
  obtain ⟨s', hget⟩ := (hviews next _ hfile rfl).1
  obtain ⟨flags, hflags, hget'⟩ := htracked.getfl (k := 0) (congrArg Prod.fst hnew)
  rw [hnew] at hflags
  rw [hget'] at hget
  cases hget
  have hbit : (O_RDWR ||| O_NONBLOCK) &&& ~~~O_NONBLOCK = O_RDWR ||| (type &&& SOCK_NONBLOCK) :=
    Option.some.inj hflags
  have hmask : type &&& SOCK_NONBLOCK = O_NONBLOCK := by
    have hsame : SOCK_NONBLOCK = O_NONBLOCK := rfl
    rw [hsame, and_O_NONBLOCK] at htype ⊢
    split at htype
    · rename_i hset
      exact if_pos hset
    · exact absurd rfl htype
  rw [hmask] at hbit
  exact absurd hbit (by decide)

end Paired

theorem initial_paired {files : Files} (iom : Option IOManager)
    (hfiles : ∀ n f, files n = some f → f.isSock = false) :
    Paired (initial files iom, files) := by
  refine ⟨initial_tracked hfiles, fun n => ?_⟩
  have hcell : (initial files iom).cell n = (files n, none) := by
    unfold cell
    rw [initial, FdManager.initial_entry]
    rfl
  rw [hcell]
  exact .untracked _

/-- While the descriptors stay small, the views agree after every call exactly
if no socket is created with `SOCK_NONBLOCK`. -/
theorem viewsAgree_run_iff {files : Files} {iom : Option IOManager}
    {tr : List (Move (Process Files × Files) Call)}
    (hr : Run paired (initial files iom, files) tr y)
    (hfiles : ∀ n f, files n = some f → f.isSock = false) (hsmall : ∀ m ∈ tr, m.act.Small) :
    (∀ m ∈ tr, ViewsAgree m.post.1 m.post.2) ↔ ∀ m ∈ tr, m.act.createsNonblock = false := by
  have hrestrict := hr.restrict (fun _ c => c.Small) hsmall
  apply hrestrict.forall_iff_guard Paired (fun _ c => c.createsNonblock = false) _ _ _
    (initial_paired iom hfiles)
  · intro x c y h hc hs
    exact h.step hs.2 hs.1 hc
  · intro x c y h hs
    constructor
    · intro hviews
      by_contra hc
      exact h.not_viewsAgree hs.2 hs.1 (by simpa using hc) hviews
    · intro hc
      exact (h.step hs.2 hs.1 hc).viewsAgree

/-- The step function of `paired`, for runs on given calls. -/
def nextPair (x : Process Files × Files) (c : Call) : Option (Process Files × Files) :=
  if c.Succeeds x.2 then (x.1.next c).map fun s => (s, x.2.exec c) else none

theorem nextPair_sound (h : nextPair x c = some y) : paired.step x c y := by
  obtain ⟨hsucceeds, h⟩ := Option.ite_none_right_eq_some.mp h
  obtain ⟨s, hs, rfl⟩ := Option.map_eq_some_iff.mp h
  exact ⟨next_sound hs, hsucceeds, rfl⟩

/-- `socket(AF_INET, SOCK_STREAM | SOCK_NONBLOCK, 0)` -/
def nonblockSocket : Call := .socket 2 0x801 0 5

theorem view_differs : ∃ tr y, Run paired (initial (fun _ => none) none, fun _ => none) tr y ∧
    tr.map Move.act = [nonblockSocket] ∧ ¬ ViewsAgree y.1 y.2 := by
  have hrun : (traceAll nextPair (initial (fun _ => none) none, fun _ => none)
      [nonblockSocket]).map (fun _ => ()) = some () := by decide +kernel
  obtain ⟨tr, y, hr, hacts, _⟩ := Run.exists_of_traceAll nextPair nextPair_sound _ hrun
  refine ⟨tr, y, hr, hacts, ?_⟩
  cases hr with
  | nil => cases hacts
  | cons hstep hrest =>
    obtain ⟨rfl, hacts'⟩ := List.cons.inj hacts
    rw [List.map_eq_nil_iff.mp hacts'] at hrest
    cases hrest
    exact (initial_paired none (by simp)).not_viewsAgree (by decide) hstep (by decide)

/-- A socket that is made non-blocking with `fcntl` and blocking with `ioctl`. -/
def switched : List Call :=
  [.socket 2 1 0 5, .setfl 5 (O_RDWR ||| O_NONBLOCK), .getfl 5, .fionbio 5 0, .getfl 5]

theorem viewsAgree_switched : ∃ tr y,
    Run paired (initial (fun _ => none) none, fun _ => none) tr y ∧ tr.map Move.act = switched ∧
    ∀ m ∈ tr, ViewsAgree m.post.1 m.post.2 := by
  have hrun : (traceAll nextPair (initial (fun _ => none) none, fun _ => none)
      switched).map (fun _ => ()) = some () := by decide +kernel
  obtain ⟨tr, y, hr, hacts, _⟩ := Run.exists_of_traceAll nextPair nextPair_sound _ hrun
  have hcalls : ∀ c ∈ switched, c.Small ∧ c.createsNonblock = false := by decide
  have hmem : ∀ m ∈ tr, m.act ∈ switched := fun m hm => hacts ▸ List.mem_map_of_mem hm
  exact ⟨tr, y, hr, hacts, (viewsAgree_run_iff hr (by simp)
    fun m hm => (hcalls _ (hmem m hm)).1).mpr fun m hm => (hcalls _ (hmem m hm)).2⟩

end Process

end FiberAsync
