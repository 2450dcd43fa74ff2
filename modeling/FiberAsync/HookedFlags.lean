import FiberAsync.StatusFlags

/-!
# What a hooked call does to a descriptor

For each descriptor the kernel's file and, when there is a context, its record
of what the user asked for. While the underlying calls succeed, exactly the open
sockets have a context, and a hooked call rewrites the cell of one descriptor.
-/

namespace FiberAsync

set_option autoImplicit false

open Runs Results

section Bits

variable (x y : BitVec 32)

theorem getLsbD_O_NONBLOCK (i : Nat) : O_NONBLOCK.getLsbD i = decide (i = 11) := by
  have htwo : O_NONBLOCK = BitVec.twoPow 32 11 := by decide
  rw [htwo, BitVec.getLsbD_twoPow]
  simp [eq_comm]

theorem and_O_NONBLOCK : x &&& O_NONBLOCK = if x.getLsbD 11 then O_NONBLOCK else 0#32 := by
  have htwo : O_NONBLOCK = BitVec.twoPow 32 11 := by decide
  rw [htwo, BitVec.and_twoPow]

theorem and_O_NONBLOCK_eq_zero_iff : x &&& O_NONBLOCK = 0#32 ↔ x.getLsbD 11 = false := by
  rw [and_O_NONBLOCK]
  cases x.getLsbD 11 <;> decide

theorem decide_and_O_NONBLOCK : decide (x &&& O_NONBLOCK ≠ 0#32) = x.getLsbD 11 := by
  simp only [ne_eq, and_O_NONBLOCK_eq_zero_iff]
  cases x.getLsbD 11 <;> rfl

theorem created_flags (type : BitVec 32) :
    (if (O_RDWR ||| (type &&& SOCK_NONBLOCK)) &&& O_NONBLOCK = 0#32 then
      Files.setFlags ((O_RDWR ||| (type &&& SOCK_NONBLOCK)) ||| O_NONBLOCK)
        (O_RDWR ||| (type &&& SOCK_NONBLOCK))
    else O_RDWR ||| (type &&& SOCK_NONBLOCK)) = O_RDWR ||| O_NONBLOCK := by
  have hsame : SOCK_NONBLOCK = O_NONBLOCK := rfl
  rw [hsame, and_O_NONBLOCK type]
  cases type.getLsbD 11 <;> decide

end Bits

/-- The file of a descriptor, and `m_userNonblock` of its context. -/
abbrev Cell := Option File × Option Bool

def File.change (f : File) (g : BitVec 32 → BitVec 32) : File := { f with flags := g f.flags }

/-- What a call makes of the cell of its descriptor. -/
def Cell.after : Call → Cell → Cell
  | .socket _ _ _ _, _ | .accept _ _, _ => (some ⟨true, O_RDWR ||| O_NONBLOCK⟩, some false)
  | .setfl _ arg, (file, some _) =>
    (file.map (·.change (Files.setFlags (arg ||| O_NONBLOCK))), some (arg &&& O_NONBLOCK ≠ 0#32))
  | .setfl _ arg, (file, none) => (file.map (·.change (Files.setFlags arg)), none)
  | .fionbio _ value, (file, user) =>
    (file.map (·.change (Files.setNonblock value)), user.map fun _ => value ≠ 0#32)
  | .close _, _ => (none, none)
  | .getfl _, c | .setsockopt _ _, c => c

/-- The flags that the user is shown: of a socket, with his own choice of `O_NONBLOCK`. -/
def Cell.shown : Cell → Option (BitVec 32)
  | (file, none) => file.map File.flags
  | (file, some true) => file.map fun f => f.flags ||| O_NONBLOCK
  | (file, some false) => file.map fun f => f.flags &&& ~~~O_NONBLOCK

namespace Files

variable {files : Files} {n k : Nat} {f : File}

@[simp] theorem lookup_natCast (files : Files) (n : Nat) : files.lookup n = files n := rfl

theorem change_eq (hf : files n = some f) (g : BitVec 32 → BitVec 32) :
    files.change n g = (.ok (), Function.update files n (some (f.change g))) := by
  simp only [change, lookup_natCast, hf]
  rfl

theorem ask_eq {α : Type} (hf : files n = some f) (g : File → α) :
    files.ask n g = (.ok (g f), files) := by
  simp only [ask, lookup_natCast, hf]

end Files

namespace Process

def cell (s : Process Files) (n : Nat) : Cell :=
  (s.kernel n, (s.fdMgr.entry n).map fun p => (s.fdMgr.ctxs p).m_userNonblock)

/-- A context that says what `FdCtx::init` says of an open socket. -/
structure OfSocket (ctx : FdCtx) : Prop where
  isSocket : ctx.m_isSocket = true
  isClosed : ctx.m_isClosed = false
  sysNonblock : ctx.m_sysNonblock = true

structure Tracked (s : Process Files) : Prop where
  enabled : s.t_hook_enable = true
  table : s.fdMgr.Ok
  ctxs : ∀ n p, s.fdMgr.entry n = some p → OfSocket (s.fdMgr.ctxs p)
  sockets : ∀ n, (s.fdMgr.entry n).isSome = (s.kernel n).any File.isSock

variable {s s' : Process Files} {n k : Nat} {f : File} {p : FdCtxPtr}

theorem sys_eq {α : Type} {g : Files → Returned α × Files} {r : Returned α} {files : Files}
    (h : g s.kernel = (r, files)) : s.sys g = (r, { s with kernel := files }) := by
  unfold sys
  rw [h]

namespace Tracked

theorem get_eq (h : s.Tracked) (n : Nat) : s.fdMgr.get n = .ok (s.fdMgr.entry n) :=
  FdManager.get_eq h.table n

theorem tracked_eq (h : s.Tracked) (n : Nat) : s.tracked n = .ok (s.fdMgr.entry n) := by
  unfold Process.tracked
  rw [h.get_eq]
  change Except.ok _ = _
  cases hp : s.fdMgr.entry n with
  | none => rfl
  | some p =>
    have hctx := h.ctxs n p hp
    simp [hctx.isSocket, hctx.isClosed]

end Tracked

/-- What a call leaves behind. -/
def Answered (s : Process Files) (c : Call) (s' : Process Files) : Prop :=
  s'.Tracked ∧ s'.cell = Function.update s.cell c.target (Cell.after c (s.cell c.target))

namespace Tracked

variable {c : Call}

theorem answered_self (h : s.Tracked) (hc : ∀ x, Cell.after c x = x) : Answered s c s := by
  refine ⟨h, ?_⟩
  rw [hc, Function.update_eq_self]

theorem answered_at (h : s.Tracked) (henabled : s'.t_hook_enable = true) (htable : s'.fdMgr.Ok)
    (hother : ∀ k, k ≠ c.target → s'.kernel k = s.kernel k ∧
      s'.fdMgr.entry k = s.fdMgr.entry k ∧
      ∀ p, s.fdMgr.entry k = some p → s'.fdMgr.ctxs p = s.fdMgr.ctxs p)
    (hctx : ∀ p, s'.fdMgr.entry c.target = some p → OfSocket (s'.fdMgr.ctxs p))
    (hsock : (s'.fdMgr.entry c.target).isSome = (s'.kernel c.target).any File.isSock)
    (hcell : s'.cell c.target = Cell.after c (s.cell c.target)) : Answered s c s' := by
  refine ⟨⟨henabled, htable, fun k p hp => ?_, fun k => ?_⟩, funext fun k => ?_⟩
  · by_cases hk : k = c.target
    · subst k
      exact hctx p hp
    · obtain ⟨_, hentry, hctxs⟩ := hother k hk
      rw [hentry] at hp
      rw [hctxs p hp]
      exact h.ctxs k p hp
  · by_cases hk : k = c.target
    · subst k
      exact hsock
    · obtain ⟨hkernel, hentry, _⟩ := hother k hk
      rw [hkernel, hentry]
      exact h.sockets k
  · by_cases hk : k = c.target
    · subst k
      rw [Function.update_self]
      exact hcell
    · obtain ⟨hkernel, hentry, hctxs⟩ := hother k hk
      rw [Function.update_of_ne hk]
      unfold cell
      rw [hkernel, hentry]
      cases hp : s.fdMgr.entry k with
      | none => rfl
      | some p => rw [Option.map_some, Option.map_some, hctxs p hp]

theorem rewrite (h : s.Tracked) (f' : File) (ctx : FdCtx) (hc : c.target = n)
    (hp : s.fdMgr.entry n = some p) (hf : s.kernel n = some f) (hsock : f'.isSock = f.isSock)
    (hctx : OfSocket ctx) (hfd : ctx.m_fd = (s.fdMgr.ctxs p).m_fd)
    (hafter : Cell.after c (some f, some (s.fdMgr.ctxs p).m_userNonblock) =
      (some f', some ctx.m_userNonblock))
    (hs' : s' = { s with
      kernel := Function.update s.kernel n (some f'), fdMgr := s.fdMgr.setCtx p ctx }) :
    Answered s c s' := by
  subst hc
  have hkernel : s'.kernel c.target = some f' := by
    rw [hs']
    exact Function.update_self _ _ _
  have hentry : s'.fdMgr.entry c.target = some p := by
    rw [hs']
    exact hp
  have hself : s'.fdMgr.ctxs p = ctx := by
    rw [hs']
    exact Function.update_self _ _ _
  refine h.answered_at (hs' ▸ h.enabled) (hs' ▸ h.table.setCtx hfd) (fun k hk => ?_)
    (fun q hq => ?_) ?_ ?_
  · rw [hs']
    refine ⟨Function.update_of_ne hk _ _, rfl, fun q hq => ?_⟩
    have hqp : q ≠ p := fun heq => hk (h.table.entry_inj hq (heq ▸ hp))
    exact Function.update_of_ne hqp _ _
  · cases hentry.symm.trans hq
    rw [hself]
    exact hctx
  · have hold := h.sockets c.target
    rw [hp, hf] at hold
    rw [hkernel, hentry]
    exact hold.trans hsock.symm
  · unfold cell
    rw [hkernel, hentry, hp, hf, Option.map_some, Option.map_some, hself, hafter]

theorem rewrite_file (h : s.Tracked) (f' : File) (hc : c.target = n) (hp : s.fdMgr.entry n = none)
    (hf : s.kernel n = some f) (hsock : f'.isSock = f.isSock)
    (hafter : Cell.after c (some f, none) = (some f', none))
    (hs' : s' = { s with kernel := Function.update s.kernel n (some f') }) : Answered s c s' := by
  subst hc
  have hkernel : s'.kernel c.target = some f' := by
    rw [hs']
    exact Function.update_self _ _ _
  have hfdMgr : s'.fdMgr = s.fdMgr := by rw [hs']
  refine h.answered_at (hs' ▸ h.enabled) (hfdMgr ▸ h.table) (fun k hk => ?_)
    (hfdMgr ▸ h.ctxs c.target) ?_ ?_
  · rw [hs']
    exact ⟨Function.update_of_ne hk _ _, rfl, fun _ _ => rfl⟩
  · have hold := h.sockets c.target
    rw [hf] at hold
    rw [hkernel, hfdMgr]
    exact hold.trans hsock.symm
  · unfold cell
    rw [hkernel, hfdMgr, hp, hf, Option.map_none, hafter]

theorem setfl (h : s.Tracked) (hf : s.kernel n = some f) (arg : BitVec 32) :
    ∃ s', s.fcntlSETFL (Files.linux k) n arg = .ok (.ok (), s') ∧
      Answered s (.setfl n arg) s' := by
  unfold fcntlSETFL
  rw [h.tracked_eq]
  cases hp : s.fdMgr.entry n with
  | none =>
    refine ⟨_, congrArg Except.ok (sys_eq (Files.change_eq hf _)), ?_⟩
    exact h.rewrite_file (f.change (Files.setFlags arg)) rfl hp hf rfl rfl rfl
  | some p =>
    have hctx := h.ctxs n p hp
    refine ⟨_, congrArg Except.ok (sys_eq (Files.change_eq hf _)), ?_⟩
    simp only [hctx.sysNonblock, if_true]
    exact h.rewrite (f.change (Files.setFlags (arg ||| O_NONBLOCK)))
      { s.fdMgr.ctxs p with m_sysNonblock := true, m_userNonblock := arg &&& O_NONBLOCK ≠ 0#32 }
      rfl hp hf rfl ⟨hctx.isSocket, hctx.isClosed, rfl⟩ rfl rfl rfl

theorem fionbio (h : s.Tracked) (hf : s.kernel n = some f) (value : BitVec 32) :
    ∃ s', s.ioctlFIONBIO (Files.linux k) n value = .ok (.ok (), s') ∧
      Answered s (.fionbio n value) s' := by
  unfold ioctlFIONBIO
  rw [h.tracked_eq]
  cases hp : s.fdMgr.entry n with
  | none =>
    refine ⟨_, congrArg Except.ok (sys_eq (Files.change_eq hf _)), ?_⟩
    exact h.rewrite_file (f.change (Files.setNonblock value)) rfl hp hf rfl rfl rfl
  | some p =>
    have hctx := h.ctxs n p hp
    refine ⟨_, congrArg Except.ok (sys_eq (Files.change_eq hf _)), ?_⟩
    exact h.rewrite (f.change (Files.setNonblock value))
      { s.fdMgr.ctxs p with m_userNonblock := value ≠ 0#32 } rfl hp hf rfl
      ⟨hctx.isSocket, hctx.isClosed, hctx.sysNonblock⟩ rfl rfl rfl

theorem getfl (h : s.Tracked) (hf : s.kernel n = some f) :
    ∃ flags, (s.cell n).shown = some flags ∧
      s.fcntlGETFL (Files.linux k) n = .ok (.ok flags, s) := by
  have hsys : s.sys ((Files.linux k).getfl_f n) = (.ok f.flags, s) :=
    sys_eq (Files.ask_eq hf File.flags)
  unfold fcntlGETFL
  rw [hsys]
  dsimp only
  rw [h.tracked_eq]
  unfold cell
  cases hp : s.fdMgr.entry n with
  | none => exact ⟨f.flags, by rw [hf]; rfl, rfl⟩
  | some p =>
    change ∃ flags, _ ∧ (if (s.fdMgr.ctxs p).m_userNonblock = true then _ else _) = _
    cases huser : (s.fdMgr.ctxs p).m_userNonblock with
    | true => exact ⟨f.flags ||| O_NONBLOCK, by rw [hf, Option.map_some, huser]; rfl, rfl⟩
    | false => exact ⟨f.flags &&& ~~~O_NONBLOCK, by rw [hf, Option.map_some, huser]; rfl, rfl⟩

theorem setsockopt (h : s.Tracked) (hf : s.kernel n = some f) (opt : SockOpt) :
    ∃ s', s.setsockopt (Files.linux k) n opt = .ok (.ok (), s') ∧
      Answered s (.setsockopt n opt) s' := by
  have hself : Answered s (.setsockopt n opt) s := h.answered_self fun _ => rfl
  cases opt with
  | other level optname => exact ⟨s, congrArg Except.ok (sys_eq (Files.ask_eq hf _)), hself⟩
  | timeout type v =>
    simp only [Process.setsockopt, h.enabled, if_true]
    rw [h.get_eq]
    cases hp : s.fdMgr.entry n with
    | none => exact ⟨s, congrArg Except.ok (sys_eq (Files.ask_eq hf _)), hself⟩
    | some p =>
      have hctx := h.ctxs n p hp
      have hkernel : Function.update s.kernel n (some f) = s.kernel :=
        Function.update_eq_self_iff.mpr hf.symm
      have hmembers : ∀ ms, OfSocket ((s.fdMgr.ctxs p).setTimeout type ms) ∧
          ((s.fdMgr.ctxs p).setTimeout type ms).m_fd = (s.fdMgr.ctxs p).m_fd ∧
          ((s.fdMgr.ctxs p).setTimeout type ms).m_userNonblock =
            (s.fdMgr.ctxs p).m_userNonblock := by
        intro ms
        cases type <;> exact ⟨⟨hctx.isSocket, hctx.isClosed, hctx.sysNonblock⟩, rfl, rfl⟩
      obtain ⟨hctx', hfd, huser⟩ := hmembers (v.tv_sec * 1000 + v.tv_usec.sdiv 1000)
      refine ⟨_, congrArg Except.ok (sys_eq (Files.ask_eq hf _)), ?_⟩
      refine h.rewrite f _ rfl hp hf rfl hctx' hfd ?_ ?_
      · rw [huser]
        rfl
      · change _ = { s with kernel := Function.update s.kernel n (some f), fdMgr := _ }
        rw [hkernel]
        rfl

theorem remove (h : s.Tracked) (henabled : s'.t_hook_enable = true) (htable : s'.fdMgr.Ok)
    (hctxs : s'.fdMgr.ctxs = s.fdMgr.ctxs)
    (hentry : s'.fdMgr.entry = Function.update s.fdMgr.entry n none)
    (hkernel : s'.kernel = Function.update s.kernel n none) : Answered s (.close n) s' := by
  have hnone : s'.fdMgr.entry n = none := by rw [hentry, Function.update_self]
  have hgone : s'.kernel n = none := by rw [hkernel, Function.update_self]
  refine h.answered_at henabled htable (fun k hk => ⟨?_, ?_, fun _ _ => by rw [hctxs]⟩)
    (fun p hp => ?_) ?_ ?_
  · rw [hkernel]
    exact Function.update_of_ne hk _ _
  · rw [hentry]
    exact Function.update_of_ne hk _ _
  · cases hnone.symm.trans hp
  · change (s'.fdMgr.entry n).isSome = (s'.kernel n).any File.isSock
    rw [hnone, hgone]
    rfl
  · change (s'.kernel n, (s'.fdMgr.entry n).map _) = (none, none)
    rw [hnone, hgone]
    rfl

theorem close (h : s.Tracked) (hf : s.kernel n = some f) {r : Returned Unit}
    (hs : s.close (Files.linux k) n = .ok (r, s')) : Answered s (.close n) s' := by
  have hclose : (Files.linux k).close_f n s.kernel = (.ok (), Function.update s.kernel n none) := by
    simp only [Files.linux, Files.lookup_natCast, hf, Int.toNat_natCast]
  unfold Process.close at hs
  rw [if_pos h.enabled, h.get_eq] at hs
  obtain ⟨o, ho, hs⟩ := bind_eq_ok.mp hs
  cases o with
  | none =>
    have hnone := Except.ok.inj ho
    rw [sys_eq hclose] at hs
    cases hs
    have hentry : Function.update s.fdMgr.entry n none = s.fdMgr.entry :=
      Function.update_eq_self_iff.mpr hnone.symm
    exact h.remove h.enabled h.table rfl hentry.symm rfl
  | some p =>
    obtain ⟨s₁, hcancel, hs⟩ := bind_eq_ok.mp hs
    obtain ⟨io, rfl⟩ : ∃ io : Option IOManager, s₁ = { s with iom := io } := by
      unfold cancelAll at hcancel
      split at hcancel
      · cases hcancel
        exact ⟨s.iom, rfl⟩
      · obtain ⟨⟨_, io⟩, _, heq⟩ := bind_eq_ok.mp hcancel
        cases heq
        exact ⟨some io, rfl⟩
    obtain ⟨m, hdel, hs⟩ := bind_eq_ok.mp hs
    obtain ⟨m', hdel', hdeleted⟩ := FdManager.del_ok h.table n
    rw [hdel'] at hdel
    cases hdel
    rw [sys_eq (s := { s with iom := io, fdMgr := m }) hclose] at hs
    cases hs
    exact h.remove h.enabled hdeleted.ok hdeleted.ctxs hdeleted.entry rfl

end Tracked

/-- The context that `get` makes for a new socket. -/
def newCtx (n : Nat) : FdCtx :=
  { FdCtx.new n with m_isInit := true, m_isSocket := true, m_sysNonblock := true }

theorem init_ok (hget : s.fdMgr.get n = .ok none) {flags : BitVec 32}
    (hf : s.kernel n = some ⟨true, flags⟩) :
    s.init (Files.linux k) (.new n) = .ok (newCtx n, { s with
      kernel := Function.update s.kernel n (some ⟨true,
        if flags &&& O_NONBLOCK = 0#32 then Files.setFlags (flags ||| O_NONBLOCK) flags
        else flags⟩) }) := by
  have htracked : s.tracked n = .ok none := by
    unfold tracked
    rw [hget]
    rfl
  have hstat : s.sys ((Files.linux k).fstat n) = (.ok true, s) :=
    sys_eq (Files.ask_eq hf File.isSock)
  have hgetfl : s.fcntlGETFL (Files.linux k) n = .ok (.ok flags, s) := by
    have hsys : s.sys ((Files.linux k).getfl_f n) = (.ok flags, s) :=
      sys_eq (Files.ask_eq hf File.flags)
    unfold fcntlGETFL
    rw [hsys]
    dsimp only
    rw [htracked]
    rfl
  have hsetfl : ∀ arg, s.fcntlSETFL (Files.linux k) n arg = .ok (.ok (), { s with
      kernel := Function.update s.kernel n (some ⟨true, Files.setFlags arg flags⟩) }) := by
    intro arg
    unfold fcntlSETFL
    rw [htracked]
    exact congrArg Except.ok (sys_eq (Files.change_eq hf _))
  have hfd : (FdCtx.new (n : Int)).m_fd = n := rfl
  simp only [init, hfd, hstat, if_true, hgetfl]
  refine bind_eq_ok.mpr ⟨_, rfl, bind_eq_ok.mpr ⟨_, ?_, rfl⟩⟩
  dsimp only
  by_cases hz : flags &&& O_NONBLOCK = 0#32
  · rw [if_pos hz, if_pos hz]
    exact bind_eq_ok.mpr ⟨_, hsetfl _, rfl⟩
  · rw [if_neg hz, if_neg hz]
    have hkernel : Function.update s.kernel n (some ⟨true, flags⟩) = s.kernel :=
      Function.update_eq_self_iff.mpr hf.symm
    rw [hkernel]

namespace Tracked

theorem place (h : s.Tracked) {c : Call} (hc : c.creates = true ∧ c.target = n) {m : FdManager}
    (hm : FdManager.Stored s.fdMgr n (newCtx n) m) (henabled : s'.t_hook_enable = true)
    (hkernel : s'.kernel = Function.update s.kernel n (some ⟨true, O_RDWR ||| O_NONBLOCK⟩))
    (hfdMgr : s'.fdMgr = m) : Answered s c s' := by
  obtain ⟨hcreates, rfl⟩ := hc
  have hafter : ∀ x, Cell.after c x = (some ⟨true, O_RDWR ||| O_NONBLOCK⟩, some false) := by
    intro x
    cases c <;> first | rfl | cases hcreates
  have hold : ∀ k p, s.fdMgr.entry k = some p → m.ctxs p = s.fdMgr.ctxs p := by
    intro k p hp
    rw [hm.ctxs]
    exact Function.update_of_ne (Nat.ne_of_lt (h.table.entries k p hp).1) _ _
  have hnew : m.ctxs s.fdMgr.allocated = newCtx c.target := by
    rw [hm.ctxs, Function.update_self]
  have hentry : m.entry c.target = some s.fdMgr.allocated := by rw [hm.entry, Function.update_self]
  have hfile : s'.kernel c.target = some ⟨true, O_RDWR ||| O_NONBLOCK⟩ := by
    rw [hkernel, Function.update_self]
  subst hfdMgr
  refine h.answered_at henabled hm.ok (fun k hk => ⟨?_, ?_, hold k⟩) (fun p hp => ?_) ?_ ?_
  · rw [hkernel]
    exact Function.update_of_ne hk _ _
  · rw [hm.entry]
    exact Function.update_of_ne hk _ _
  · cases hentry.symm.trans hp
    rw [hnew]
    exact ⟨rfl, rfl, rfl⟩
  · rw [hentry, hfile]
    rfl
  · rw [hafter]
    unfold cell
    rw [hentry, hfile, Option.map_some, hnew]
    rfl

/-- The kernel has given out a descriptor that was not open, and a context is made for it. -/
theorem create (h : s.Tracked) (hclosed : s.kernel n = none) (hsmall : n * 3 / 2 ≤ INT_MAX)
    {c : Call} (hc : c.creates = true ∧ c.target = n) (type : BitVec 32) (hs' : s' = { s with
      kernel := Function.update s.kernel n (some ⟨true, O_RDWR ||| (type &&& SOCK_NONBLOCK)⟩) }) :
    ∃ o s'', s'.getCreate (Files.linux k) n = .ok (o, s'') ∧ Answered s c s'' := by
  subst hs'
  have hnone : s.fdMgr.entry n = none := by
    have hsome := h.sockets n
    rw [hclosed] at hsome
    exact Option.isSome_eq_false_iff.mp hsome |> Option.isNone_iff_eq_none.mp
  have hget : s.fdMgr.get n = .ok none := by rw [h.get_eq, hnone]
  obtain ⟨m, hstore, hstored⟩ := FdManager.store_ok h.table
    (show (newCtx n).m_fd = n from rfl) hsmall
  have hinit := init_ok (k := k) (s := { s with
    kernel := Function.update s.kernel n (some ⟨true, O_RDWR ||| (type &&& SOCK_NONBLOCK)⟩) })
    hget (Function.update_self _ _ _)
  rw [created_flags] at hinit
  unfold getCreate
  rw [if_neg (by omega)]
  refine ⟨_, _, bind_eq_ok.mpr ⟨_, hget, bind_eq_ok.mpr ⟨_, hinit,
    bind_eq_ok.mpr ⟨_, hstore, rfl⟩⟩⟩, ?_⟩
  exact h.place hc hstored h.enabled (Function.update_idem _ _ _) rfl

theorem socket (h : s.Tracked) (hclosed : s.kernel n = none) (hsmall : n * 3 / 2 ≤ INT_MAX)
    (domain : Int) (type : BitVec 32) (protocol : Int) :
    ∃ s', s.socket (Files.linux n) domain type protocol = .ok (.ok n, s') ∧
      Answered s (.socket domain type protocol n) s' := by
  obtain ⟨o, s', hs', hanswered⟩ := h.create (c := .socket domain type protocol n) (k := n) hclosed
    hsmall ⟨rfl, rfl⟩ type rfl
  have hsys := sys_eq (s := s) (g := (Files.linux n).socket_f domain type protocol) rfl
  refine ⟨s', ?_, hanswered⟩
  unfold Process.socket
  rw [hsys]
  exact (if_pos h.enabled).trans (bind_eq_ok.mpr ⟨_, hs', rfl⟩)

/-- `do_io` waits for the sockets that the user has not made non-blocking. -/
theorem ioEntry (h : s.Tracked) (n : Nat) (so : TimeoutType) : ∃ e, s.ioEntry n so = .ok e ∧
    ((s.cell n).2 = some false ∧ (∃ timeout, e = .wait timeout) ∨
      (s.cell n).2 ≠ some false ∧ e = .direct) := by
  unfold Process.ioEntry cell
  rw [if_pos h.enabled, h.get_eq]
  cases hp : s.fdMgr.entry n with
  | none => exact ⟨.direct, rfl, Or.inr ⟨by simp, rfl⟩⟩
  | some p =>
    have hctx := h.ctxs n p hp
    cases huser : (s.fdMgr.ctxs p).m_userNonblock with
    | true =>
      refine ⟨.direct, ?_, Or.inr ⟨by simp [huser], rfl⟩⟩
      exact bind_eq_ok.mpr ⟨_, rfl, by simp [hctx.isClosed, huser]⟩
    | false =>
      refine ⟨.wait ((s.fdMgr.ctxs p).getTimeout so), ?_, Or.inl ⟨by simp [huser], _, rfl⟩⟩
      exact bind_eq_ok.mpr ⟨_, rfl, by simp [hctx.isClosed, hctx.isSocket, huser]⟩

theorem do_io (h : s.Tracked) (n : Nat) {α : Type} (g : Files → Returned α × Files)
    (so : TimeoutType) : ∃ e : IoEntry, s.do_io n g so = .ok (e.after (s.sys g).1, (s.sys g).2) ∧
      ((s.cell n).2 = some false ∧ (∃ timeout, e = .wait timeout) ∨
        (s.cell n).2 ≠ some false ∧ e = .direct) := by
  obtain ⟨e, he, hor⟩ := h.ioEntry n so
  have hopen : e ≠ .closed := by
    rcases hor with ⟨_, timeout, rfl⟩ | ⟨_, rfl⟩ <;> simp
  exact ⟨e, bind_eq_ok.mpr ⟨e, he, if_neg hopen⟩, hor⟩

theorem accept {fd : Nat} (h : s.Tracked) (hclosed : s.kernel n = none)
    (hsmall : n * 3 / 2 ≤ INT_MAX) (hf : s.kernel fd = some f) :
    ∃ s', s.accept (Files.linux n) fd = .ok (.returns (.ok n), s') ∧
      Answered s (.accept fd n) s' := by
  have hflags : O_RDWR = O_RDWR ||| (0#32 &&& SOCK_NONBLOCK) := by decide
  obtain ⟨o, s', hs', hanswered⟩ := h.create (c := .accept fd n) (k := n) hclosed hsmall ⟨rfl, rfl⟩
    0#32 rfl
  rw [← hflags] at hs'
  have haccept : (Files.linux n).accept_f fd s.kernel =
      (.ok (n : Int), Function.update s.kernel n (some ⟨true, O_RDWR⟩)) := by
    simp only [Files.linux, Files.lookup_natCast, hf]
    rfl
  obtain ⟨e, hdo, hor⟩ := h.do_io fd ((Files.linux n).accept_f fd) .SO_RCVTIMEO
  rw [sys_eq haccept] at hdo
  have hafter : e.after (.ok (n : Int)) = .returns (.ok (n : Int)) := by
    rcases hor with ⟨_, timeout, rfl⟩ | ⟨_, rfl⟩ <;> rfl
  rw [hafter] at hdo
  refine ⟨s', bind_eq_ok.mpr ⟨_, hdo, ?_⟩, hanswered⟩
  exact (if_pos (Int.natCast_nonneg n)).trans (bind_eq_ok.mpr ⟨_, hs', rfl⟩)

theorem step (h : s.Tracked) {c : Call} (hsmall : c.Small) (hs : system.step s c s') :
    Answered s c s' := by
  obtain ⟨hsucceeds, hexec⟩ := hs
  have hresult : ∀ {α : Type} {x : Except Fault (α × Process Files)} {r : α} {t : Process Files},
      x = .ok (r, t) → x.map Prod.snd = .ok s' → t = s' := by
    intro α x r t hx hmap
    rw [hx] at hmap
    exact Except.ok.inj hmap
  cases c with
  | socket domain type protocol next =>
    obtain ⟨t, ht, hanswered⟩ := h.socket (hsucceeds.fresh rfl) (hsmall rfl) domain type protocol
    exact hresult ht hexec ▸ hanswered
  | accept fd next =>
    obtain ⟨hfile, hclosed, _⟩ := hsucceeds
    obtain ⟨f, hf, _⟩ := (Option.any_eq_true _ _).mp hfile
    obtain ⟨t, ht, hanswered⟩ := h.accept hclosed (hsmall rfl) hf
    exact hresult ht hexec ▸ hanswered
  | setfl fd arg =>
    obtain ⟨f, hf⟩ := hsucceeds.isOpen rfl
    obtain ⟨t, ht, hanswered⟩ := h.setfl hf arg
    exact hresult ht hexec ▸ hanswered
  | getfl fd =>
    obtain ⟨f, hf⟩ := hsucceeds.isOpen rfl
    obtain ⟨flags, _, ht⟩ := h.getfl hf
    exact hresult ht hexec ▸ h.answered_self fun _ => rfl
  | fionbio fd value =>
    obtain ⟨f, hf⟩ := hsucceeds.isOpen rfl
    obtain ⟨t, ht, hanswered⟩ := h.fionbio hf value
    exact hresult ht hexec ▸ hanswered
  | setsockopt fd opt =>
    obtain ⟨f, hf⟩ := hsucceeds.isOpen rfl
    obtain ⟨t, ht, hanswered⟩ := h.setsockopt hf opt
    exact hresult ht hexec ▸ hanswered
  | close fd =>
    obtain ⟨f, hf⟩ := hsucceeds.isOpen rfl
    cases hclose : s.close (Files.linux 0) fd with
    | error e =>
      have herror := congrArg (Except.map Prod.snd) hclose
      exact absurd (herror.symm.trans hexec) (by simp [Except.map])
    | ok r =>
      have hr : r = (r.1, s') := Prod.ext rfl (hresult hclose hexec)
      exact h.close hf (hr ▸ hclose)

end Tracked

theorem initial_tracked {files : Files} {iom : Option IOManager}
    (hfiles : ∀ n f, files n = some f → f.isSock = false) : (initial files iom).Tracked where
  enabled := rfl
  table := FdManager.initial_ok
  ctxs := fun n p hp => by
    rw [initial, FdManager.initial_entry] at hp
    cases hp
  sockets := fun n => by
    rw [initial, FdManager.initial_entry]
    change _ = (files n).any File.isSock
    cases hf : files n with
    | none => rfl
    | some f => exact (hfiles n f hf).symm

end Process

end FiberAsync
