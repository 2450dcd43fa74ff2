import FiberAsync.StatusFlags

/-!
# What the hooked calls keep

A relation between states of the kernel that every underlying call respects is
respected by the hooked calls made of them. On Linux, without `close`, a socket
stays a socket.
-/

namespace FiberAsync

set_option autoImplicit false

open Results

/-- Every underlying call but `accept_f` and `close_f` goes to a related state. -/
structure Syscalls.Keeps {κ : Type} (calls : Syscalls κ) (R : κ → κ → Prop) : Prop where
  refl : ∀ k, R k k
  trans : ∀ {k k' k''}, R k k' → R k' k'' → R k k''
  socket_f : ∀ domain type protocol k, R k (calls.socket_f domain type protocol k).2
  getfl_f : ∀ fd k, R k (calls.getfl_f fd k).2
  setfl_f : ∀ fd arg k, R k (calls.setfl_f fd arg k).2
  fionbio_f : ∀ fd value k, R k (calls.fionbio_f fd value k).2
  setsockopt_f : ∀ fd opt k, R k (calls.setsockopt_f fd opt k).2
  fstat : ∀ fd k, R k (calls.fstat fd k).2

namespace Syscalls.Keeps

variable {κ : Type} {calls : Syscalls κ} {R : κ → κ → Prop} {s s' : Process κ} {fd : Int}

theorem fcntlSETFL (h : calls.Keeps R) {arg : BitVec 32} {r : Returned Unit}
    (hs : s.fcntlSETFL calls fd arg = .ok (r, s')) : R s.kernel s'.kernel := by
  obtain ⟨_ | p, _, hs⟩ := bind_eq_ok.mp hs
  all_goals
    cases hs
    exact h.setfl_f _ _ _

theorem fcntlGETFL (h : calls.Keeps R) {r : Returned (BitVec 32)}
    (hs : s.fcntlGETFL calls fd = .ok (r, s')) : R s.kernel s'.kernel := by
  obtain ⟨_ | p, _, hs⟩ := bind_eq_ok.mp hs
  case none =>
    cases hs
    exact h.getfl_f _ _
  case some =>
    dsimp only at hs
    split at hs <;> cases hs
    all_goals exact h.getfl_f _ _

theorem ioctlFIONBIO (h : calls.Keeps R) {value : BitVec 32} {r : Returned Unit}
    (hs : s.ioctlFIONBIO calls fd value = .ok (r, s')) : R s.kernel s'.kernel := by
  obtain ⟨_ | p, _, hs⟩ := bind_eq_ok.mp hs
  all_goals
    cases hs
    exact h.fionbio_f _ _ _

theorem init (h : calls.Keeps R) {ctx ctx' : FdCtx} (hs : s.init calls ctx = .ok (ctx', s')) :
    R s.kernel s'.kernel := by
  have hstat : R s.kernel (s.sys (calls.fstat ctx.m_fd)).2.kernel := h.fstat _ _
  unfold Process.init at hs
  dsimp only at hs
  split at hs <;> split at hs
  case h_2.isTrue =>
    obtain ⟨⟨r, t⟩, hget, hs⟩ := bind_eq_ok.mp hs
    obtain ⟨u, hset, hs⟩ := bind_eq_ok.mp hs
    cases hs
    have hflags : ∀ flags : BitVec 32, (if flags &&& O_NONBLOCK = 0#32 then
        t.fcntlSETFL calls ctx.m_fd (flags ||| O_NONBLOCK) >>= fun x => .ok x.2
        else .ok t) = .ok s' → R t.kernel s'.kernel := by
      intro flags hset
      split at hset
      · obtain ⟨⟨r', t'⟩, hcall, heq⟩ := bind_eq_ok.mp hset
        cases heq
        exact h.fcntlSETFL hcall
      · cases hset
        exact h.refl _
    exact h.trans (h.trans hstat (h.fcntlGETFL hget)) (hflags _ hset)
  case h_1.isTrue hsock => cases hsock
  all_goals
    cases hs
    exact hstat

theorem getCreate (h : calls.Keeps R) {o : Option FdCtxPtr}
    (hs : s.getCreate calls fd = .ok (o, s')) : R s.kernel s'.kernel := by
  unfold Process.getCreate at hs
  split at hs
  · cases hs
    exact h.refl _
  · obtain ⟨_ | p, _, hs⟩ := bind_eq_ok.mp hs
    case some =>
      cases hs
      exact h.refl _
    case none =>
      obtain ⟨⟨ctx, t⟩, hinit, hs⟩ := bind_eq_ok.mp hs
      obtain ⟨⟨p, m⟩, _, hs⟩ := bind_eq_ok.mp hs
      cases hs
      have hkernel : R s.kernel t.kernel := h.init hinit
      exact hkernel

theorem socket (h : calls.Keeps R) {domain protocol : Int} {type : BitVec 32} {r : Returned Int}
    (hs : s.socket calls domain type protocol = .ok (r, s')) : R s.kernel s'.kernel := by
  have hsocket : R s.kernel (s.sys (calls.socket_f domain type protocol)).2.kernel :=
    h.socket_f _ _ _ _
  unfold Process.socket at hs
  dsimp only at hs
  split at hs
  · split at hs
    · cases hs
      exact hsocket
    · obtain ⟨⟨o, t⟩, hget, hs⟩ := bind_eq_ok.mp hs
      cases hs
      exact h.trans hsocket (h.getCreate hget)
  · cases hs
    exact hsocket

theorem setsockopt (h : calls.Keeps R) {opt : SockOpt} {r : Returned Unit}
    (hs : s.setsockopt calls fd opt = .ok (r, s')) : R s.kernel s'.kernel := by
  unfold Process.setsockopt at hs
  split at hs
  · split at hs
    · obtain ⟨_ | p, _, hs⟩ := bind_eq_ok.mp hs
      all_goals
        cases hs
        exact h.setsockopt_f _ _ _
    · cases hs
      exact h.setsockopt_f _ _ _
  · cases hs
    exact h.setsockopt_f _ _ _

end Syscalls.Keeps

namespace Files

/-- An open socket. -/
def IsSocket (files : Files) (n : Nat) : Prop := (files n).any File.isSock = true

instance (files : Files) (n : Nat) : Decidable (files.IsSocket n) :=
  inferInstanceAs (Decidable (_ = true))

variable {files : Files} {n : Nat}

theorem IsSocket.update (h : files.IsSocket n) {k : Nat} {f : File}
    (hf : k = n → f.isSock = true) : IsSocket (Function.update files k (some f)) n := by
  unfold IsSocket
  by_cases hn : n = k
  · subst n
    rw [Function.update_self]
    exact hf rfl
  · rw [Function.update_of_ne hn]
    exact h

theorem IsSocket.change (h : files.IsSocket n) (fd : Int) (g : BitVec 32 → BitVec 32) :
    IsSocket (files.change fd g).2 n := by
  unfold Files.change
  split
  case h_1 file hfile =>
    refine h.update fun hn => ?_
    cases fd with
    | ofNat k =>
      change files k = some file at hfile
      change k = n at hn
      rw [IsSocket, ← hn, hfile] at h
      exact h
    | negSucc k => cases hfile
  case h_2 => exact h

theorem IsSocket.ask (h : files.IsSocket n) {α : Type} (fd : Int) (g : File → α) :
    IsSocket (files.ask fd g).2 n := by
  unfold Files.ask
  split <;> exact h

theorem linux_keeps (k n : Nat) :
    (linux k).Keeps fun files files' => files.IsSocket n → files'.IsSocket n where
  refl := fun _ h => h
  trans := fun h h' hs => h' (h hs)
  socket_f := fun _ _ _ _ h => h.update fun _ => rfl
  getfl_f := fun fd _ h => h.ask fd _
  setfl_f := fun fd _ _ h => h.change fd _
  fionbio_f := fun fd _ _ h => h.change fd _
  setsockopt_f := fun fd _ _ h => h.ask fd _
  fstat := fun fd _ h => h.ask fd _

theorem IsSocket.accept_f (h : files.IsSocket n) (k : Nat) (fd : Int) :
    IsSocket ((linux k).accept_f fd files).2 n := by
  dsimp only [linux]
  split
  · exact h.update fun _ => rfl
  · exact h

theorem IsSocket.close_f (h : files.IsSocket n) {fd : Nat} (hne : n ≠ fd) (k : Nat) :
    IsSocket ((linux k).close_f fd files).2 n := by
  dsimp only [linux]
  split
  · unfold IsSocket
    dsimp only
    rw [Int.toNat_natCast, Function.update_of_ne hne]
    exact h
  · exact h

end Files

end FiberAsync
