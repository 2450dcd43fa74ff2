import FiberAsync.FdContext
import FiberAsync.Library.Results
import Mathlib.Logic.Function.Basic

/-!
# IOManager and its table of contexts

Contexts live on a heap that `contextResize` allocates from and never frees;
`m_fdContexts` only holds pointers into it. A context whose table entry is cut
off by a resize therefore stays allocated, with whatever is registered in it.
-/

namespace FiberAsync

set_option autoImplicit false

open Results

/-- What `epoll_ctl` stored for a descriptor: the event mask and `data.ptr`. -/
structure EpollEvent where
  events : BitVec 32
  ptr : ContextPtr
  deriving DecidableEq, Repr

structure IOManager where
  contexts : ContextPtr → FdContext
  allocated : Nat
  m_fdContexts : List (Option ContextPtr)
  m_pendingEventCount : BitVec 64
  /-- the interest list of `m_epfd`, by descriptor -/
  epoll : Nat → Option EpollEvent
  /-- the `add_task` calls made so far, oldest first -/
  tasks : List Waiter

def INT_MAX : Nat := 2147483647

namespace IOManager

/-- `m_fdContexts.resize(size)`. -/
def resized (l : List (Option ContextPtr)) (size : Nat) : List (Option ContextPtr) :=
  l.take size ++ List.replicate (size - l.length) none

/-- `new FdContext` with `m_fd = i`. -/
def newContext (io : IOManager) (i : Nat) : IOManager :=
  { io with
    contexts := Function.update io.contexts io.allocated { m_fd := i }
    allocated := io.allocated + 1 }

/-- The loop of `contextResize` over the entries from index `i` on. -/
def fillNull (io : IOManager) (i : Nat) :
    List (Option ContextPtr) → IOManager × List (Option ContextPtr)
  | [] => (io, [])
  | some p :: rest =>
    let r := fillNull io (i + 1) rest
    (r.1, some p :: r.2)
  | none :: rest =>
    let r := fillNull (io.newContext i) (i + 1) rest
    (r.1, some io.allocated :: r.2)

def contextResize (io : IOManager) (size : Nat) : IOManager :=
  let r := io.fillNull 0 (resized io.m_fdContexts size)
  { r.1 with m_fdContexts := r.2 }

/-- The conversion `(int)size` of a 64-bit size. -/
def toInt (size : Nat) : Int := (BitVec.ofNat 32 size).toInt

/-- `m_fdContexts[fd]`, which the callers dereference. -/
def contextAt (io : IOManager) (fd : Nat) : Except Fault ContextPtr :=
  match io.m_fdContexts[fd]? with
  | some (some p) => .ok p
  | some none => .error .nullContext
  | none => .error .indexOutOfRange

/-- The read-locked part of every operation: the entry, or `none` if the table ends
before `fd`. -/
def findContext (io : IOManager) (fd : Nat) : Except Fault (Option ContextPtr) :=
  if (fd : Int) < toInt io.m_fdContexts.length then
    io.contextAt fd >>= fun p => .ok (some p)
  else .ok none

def setContext (io : IOManager) (p : ContextPtr) (ctx : FdContext) : IOManager :=
  { io with contexts := Function.update io.contexts p ctx }

/-- The write-locked part of `addEvent`; `fd * 1.5` is truncated to a `size_t`. -/
def growContext (io : IOManager) (fd : Nat) : Except Fault (ContextPtr × IOManager) :=
  let io := io.contextResize (fd * 3 / 2)
  io.contextAt fd >>= fun p => .ok (p, io.setContext p { io.contexts p with m_fd := fd })

/-- A manager after the constructor: 32 contexts and nothing registered. -/
def initial : IOManager :=
  contextResize
    { contexts := fun _ => { m_fd := 0 }
      allocated := 0
      m_fdContexts := []
      m_pendingEventCount := 0
      epoll := fun _ => none
      tasks := [] } 32

/-- Nothing but the heap and the table differs. -/
structure SameRest (io io' : IOManager) : Prop where
  count : io'.m_pendingEventCount = io.m_pendingEventCount
  epoll : io'.epoll = io.epoll
  tasks : io'.tasks = io.tasks

/-- What `fillNull` does to the heap and to the list of entries. -/
structure Filled (io : IOManager) (i : Nat) (l : List (Option ContextPtr))
    (io' : IOManager) (l' : List (Option ContextPtr)) : Prop where
  rest : SameRest io io'
  grows : io.allocated ≤ io'.allocated
  old : ∀ p < io.allocated, io'.contexts p = io.contexts p
  length : l'.length = l.length
  kept : ∀ (j : Nat) (p : ContextPtr), l[j]? = some (some p) → l'[j]? = some (some p)
  fresh : ∀ j : Nat, l[j]? = some none → ∃ p, io.allocated ≤ p ∧ p < io'.allocated ∧
    l'[j]? = some (some p) ∧ io'.contexts p = { m_fd := i + j }
  placed : ∀ p, io.allocated ≤ p → p < io'.allocated →
    ∃ j : Nat, l'[j]? = some (some p) ∧ io'.contexts p = { m_fd := i + j }

theorem newContext_contexts_of_lt (io : IOManager) (i : Nat) {p : ContextPtr}
    (h : p < io.allocated) : (io.newContext i).contexts p = io.contexts p :=
  Function.update_of_ne (Nat.ne_of_lt h) _ _

theorem newContext_contexts_self (io : IOManager) (i : Nat) :
    (io.newContext i).contexts io.allocated = { m_fd := i } :=
  Function.update_self _ _ _

theorem fillNull_filled (io : IOManager) (i : Nat) (l : List (Option ContextPtr)) :
    Filled io i l (io.fillNull i l).1 (io.fillNull i l).2 := by
  induction l generalizing io i with
  | nil =>
    exact ⟨⟨rfl, rfl, rfl⟩, Nat.le_refl _, fun _ _ => rfl, rfl, by simp, by simp,
      fun p h h' => absurd h' (Nat.not_lt.mpr h)⟩
  | cons o rest ih =>
    cases o with
    | some q =>
      have h := ih io (i + 1)
      refine ⟨h.rest, h.grows, h.old, by simp [fillNull, h.length], ?_, ?_, ?_⟩
      · intro j p hj
        cases j with
        | zero => simpa [fillNull] using hj
        | succ j => simpa [fillNull] using h.kept j p (by simpa using hj)
      · intro j hj
        cases j with
        | zero => simp at hj
        | succ j =>
          obtain ⟨p, hlo, hhi, hp, hc⟩ := h.fresh j (by simpa using hj)
          refine ⟨p, hlo, hhi, by simpa [fillNull] using hp, ?_⟩
          rw [show i + (j + 1) = i + 1 + j by omega]
          exact hc
      · intro p hlo hhi
        obtain ⟨j, hj, hc⟩ := h.placed p hlo hhi
        refine ⟨j + 1, by simpa [fillNull] using hj, ?_⟩
        rw [show i + (j + 1) = i + 1 + j by omega]
        exact hc
    | none =>
      have h := ih (io.newContext i) (i + 1)
      have hself : (io.fillNull i (none :: rest)).1.contexts io.allocated = { m_fd := i } := by
        rw [← io.newContext_contexts_self i]
        exact h.old io.allocated (Nat.lt_succ_self _)
      have hgrow : io.allocated < (io.fillNull i (none :: rest)).1.allocated := h.grows
      refine ⟨⟨h.rest.count, h.rest.epoll, h.rest.tasks⟩, Nat.le_of_lt hgrow, ?_,
        by simp [fillNull, h.length], ?_, ?_, ?_⟩
      · intro p hp
        rw [← io.newContext_contexts_of_lt i hp]
        exact h.old p (Nat.lt_succ_of_lt hp)
      · intro j p hj
        cases j with
        | zero => simp at hj
        | succ j => simpa [fillNull] using h.kept j p (by simpa using hj)
      · intro j hj
        cases j with
        | zero =>
          exact ⟨io.allocated, Nat.le_refl _, hgrow, by simp [fillNull], by simpa using hself⟩
        | succ j =>
          obtain ⟨p, hlo, hhi, hp, hc⟩ := h.fresh j (by simpa using hj)
          refine ⟨p, Nat.le_of_succ_le hlo, hhi, by simpa [fillNull] using hp, ?_⟩
          rw [show i + (j + 1) = i + 1 + j by omega]
          exact hc
      · intro p hlo hhi
        rcases Nat.eq_or_lt_of_le hlo with rfl | hlo
        · exact ⟨0, by simp [fillNull], hself⟩
        · obtain ⟨j, hj, hc⟩ := h.placed p hlo hhi
          refine ⟨j + 1, by simpa [fillNull] using hj, ?_⟩
          rw [show i + (j + 1) = i + 1 + j by omega]
          exact hc

theorem resized_length (l : List (Option ContextPtr)) (size : Nat) :
    (resized l size).length = size := by
  simp only [resized, List.length_append, List.length_take, List.length_replicate]
  omega

theorem resized_getElem? (l : List (Option ContextPtr)) {size j : Nat} (h : j < size) :
    (resized l size)[j]? = some (l[j]?.getD none) := by
  by_cases hj : j < l.length
  · have htake : j < (l.take size).length := by simp; omega
    rw [resized, List.getElem?_append_left htake, List.getElem?_take_of_lt h,
      List.getElem?_eq_getElem hj, Option.getD_some]
  · have htake : (l.take size).length ≤ j := by simp; omega
    rw [resized, List.getElem?_append_right htake, List.getElem?_eq_none (Nat.le_of_not_lt hj),
      List.getElem?_replicate]
    simp only [List.length_take, Option.getD_none, ite_eq_left_iff]
    omega

/-- Every entry of the table points to an allocated context made for its index. -/
def TableOk (io : IOManager) : Prop :=
  ∀ (j : Nat) (o : Option ContextPtr), io.m_fdContexts[j]? = some o →
    ∃ p, o = some p ∧ p < io.allocated ∧ (io.contexts p).m_fd = j

/-- What `contextResize` does, over a table with valid entries. -/
structure ResizedTo (io : IOManager) (size : Nat) (io' : IOManager) : Prop where
  rest : SameRest io io'
  grows : io.allocated ≤ io'.allocated
  old : ∀ p < io.allocated, io'.contexts p = io.contexts p
  placed : ∀ p, io.allocated ≤ p → p < io'.allocated →
    ∃ j : Nat, io'.m_fdContexts[j]? = some (some p) ∧ io'.contexts p = { m_fd := j }
  length : io'.m_fdContexts.length = size
  kept : ∀ j < size, j < io.m_fdContexts.length → io'.m_fdContexts[j]? = io.m_fdContexts[j]?
  fresh : ∀ j < size, io.m_fdContexts.length ≤ j → ∃ p, io.allocated ≤ p ∧ p < io'.allocated ∧
    io'.m_fdContexts[j]? = some (some p) ∧ io'.contexts p = { m_fd := j }

theorem contextResize_resizedTo {io : IOManager} (h : io.TableOk) (size : Nat) :
    ResizedTo io size (io.contextResize size) := by
  have hf := fillNull_filled io 0 (resized io.m_fdContexts size)
  refine ⟨⟨hf.rest.count, hf.rest.epoll, hf.rest.tasks⟩, hf.grows, hf.old, ?_,
    hf.length.trans (resized_length _ _), ?_, ?_⟩
  · intro p hlo hhi
    obtain ⟨j, hj, hc⟩ := hf.placed p hlo hhi
    rw [Nat.zero_add] at hc
    exact ⟨j, hj, hc⟩
  · intro j hj hlen
    have hget := List.getElem?_eq_getElem hlen
    obtain ⟨p, hp, _⟩ := h j _ hget
    have hres := resized_getElem? io.m_fdContexts hj
    rw [hget, Option.getD_some, hp] at hres
    rw [hget, hp]
    exact hf.kept j p hres
  · intro j hj hlen
    have hres := resized_getElem? io.m_fdContexts hj
    rw [List.getElem?_eq_none hlen, Option.getD_none] at hres
    obtain ⟨p, hlo, hhi, hp, hc⟩ := hf.fresh j hres
    rw [Nat.zero_add] at hc
    exact ⟨p, hlo, hhi, hp, hc⟩

theorem ResizedTo.unused {io io' : IOManager} {size : Nat} (hr : ResizedTo io size io')
    (p : ContextPtr) (hlo : io.allocated ≤ p) (hhi : p < io'.allocated) :
    (io'.contexts p).m_events = .NONE := by
  obtain ⟨j, _, hc⟩ := hr.placed p hlo hhi
  rw [hc]

theorem ResizedTo.entry {io io' : IOManager} {size : Nat} (h : io.TableOk)
    (hr : ResizedTo io size io') {j : Nat} (hj : j < size) :
    ∃ p, io'.m_fdContexts[j]? = some (some p) ∧ p < io'.allocated ∧ (io'.contexts p).m_fd = j := by
  by_cases hlen : j < io.m_fdContexts.length
  · have hget := List.getElem?_eq_getElem hlen
    obtain ⟨p, hp, hlt, hfd⟩ := h j _ hget
    refine ⟨p, ?_, Nat.lt_of_lt_of_le hlt hr.grows, ?_⟩
    · rw [hr.kept j hj hlen, hget, hp]
    · rw [hr.old p hlt, hfd]
  · obtain ⟨p, _, hlt, hp, hc⟩ := hr.fresh j hj (Nat.le_of_not_lt hlen)
    exact ⟨p, hp, hlt, by rw [hc]⟩

theorem ResizedTo.tableOk {io io' : IOManager} {size : Nat} (h : io.TableOk)
    (hr : ResizedTo io size io') : io'.TableOk := by
  intro j o ho
  have hj : j < size := by
    rw [← hr.length]
    exact (List.getElem?_eq_some_iff.mp ho).1
  obtain ⟨p, hp, hlt, hfd⟩ := hr.entry h hj
  rw [hp] at ho
  exact ⟨p, (Option.some.inj ho).symm, hlt, hfd⟩

theorem contextAt_ok_iff {io : IOManager} {fd : Nat} {p : ContextPtr} :
    io.contextAt fd = .ok p ↔ io.m_fdContexts[fd]? = some (some p) := by
  unfold contextAt
  rcases io.m_fdContexts[fd]? with _ | _ | q <;> simp

theorem TableOk.contextAt_of_lt {io : IOManager} (h : io.TableOk) {fd : Nat}
    (hfd : fd < io.m_fdContexts.length) :
    ∃ p, io.contextAt fd = .ok p ∧ p < io.allocated ∧ (io.contexts p).m_fd = fd := by
  have hget := List.getElem?_eq_getElem hfd
  obtain ⟨p, hp, hlt, hm⟩ := h fd _ hget
  exact ⟨p, contextAt_ok_iff.mpr (hget.trans (congrArg some hp)), hlt, hm⟩

theorem TableOk.of_contextAt {io : IOManager} (h : io.TableOk) {fd : Nat} {p : ContextPtr}
    (hp : io.contextAt fd = .ok p) : p < io.allocated ∧ (io.contexts p).m_fd = fd := by
  obtain ⟨q, hq, hlt, hm⟩ := h fd _ (contextAt_ok_iff.mp hp)
  cases hq
  exact ⟨hlt, hm⟩

theorem findContext_some_iff {io : IOManager} {fd : Nat} {p : ContextPtr} :
    io.findContext fd = .ok (some p) ↔
      (fd : Int) < toInt io.m_fdContexts.length ∧ io.contextAt fd = .ok p := by
  unfold findContext
  split
  · rename_i h
    simp [bind_eq_ok, h]
  · rename_i h
    simp [h]

theorem findContext_none_iff {io : IOManager} {fd : Nat} :
    io.findContext fd = .ok none ↔ ¬ (fd : Int) < toInt io.m_fdContexts.length := by
  unfold findContext
  split
  · rename_i h
    simp [bind_eq_ok, h]
  · rename_i h
    simp [h]

theorem toInt_of_lt {n : Nat} (h : n < 2 ^ 31) : toInt n = n := by
  rw [toInt, BitVec.toInt_eq_toNat_of_lt] <;>
    simp only [BitVec.toNat_ofNat] <;> omega

theorem findContext_of_contextAt {io : IOManager} {fd : Nat} {p : ContextPtr}
    (hsmall : io.m_fdContexts.length ≤ INT_MAX) (hp : io.contextAt fd = .ok p) :
    io.findContext fd = .ok (some p) := by
  have hlt := (List.getElem?_eq_some_iff.mp (contextAt_ok_iff.mp hp)).1
  have hint := toInt_of_lt (Nat.lt_succ_of_le hsmall)
  apply findContext_some_iff.mpr ⟨_, hp⟩
  omega

theorem findContext_of_lt {io : IOManager} {fd : Nat} (ht : io.TableOk)
    (hsmall : io.m_fdContexts.length ≤ INT_MAX) (h : fd < io.m_fdContexts.length) :
    ∃ p, io.contextAt fd = .ok p ∧ io.findContext fd = .ok (some p) := by
  obtain ⟨p, hp, _⟩ := ht.contextAt_of_lt h
  exact ⟨p, hp, findContext_of_contextAt hsmall hp⟩

theorem findContext_of_le {io : IOManager} {fd : Nat} (hsmall : io.m_fdContexts.length ≤ INT_MAX)
    (h : io.m_fdContexts.length ≤ fd) : io.findContext fd = .ok none := by
  have hint := toInt_of_lt (Nat.lt_succ_of_le hsmall)
  apply findContext_none_iff.mpr
  omega

theorem initial_tableOk : initial.TableOk :=
  (contextResize_resizedTo (fun j o h => by simp at h) 32).tableOk (fun j o h => by simp at h)

theorem initial_length : initial.m_fdContexts.length = 32 :=
  (contextResize_resizedTo (fun j o h => by simp at h) 32).length

end IOManager

end FiberAsync
