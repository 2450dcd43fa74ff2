import FiberAsync.FdContext
import FiberAsync.Library.OrderedSet
import Mathlib.Data.Prod.Lex

/-!
# Timers and their manager

The functions of `timer.cc`. A timer is a handle into the heap of timer objects
and the manager's set is a list of handles from `begin()` to `end()`. Every
function is the section that holds the manager's lock; what a function read
before it took the lock is among its arguments, and so is every clock reading.
-/

namespace FiberAsync

set_option autoImplicit false

/-- `uint64_t` milliseconds -/
abbrev Millis := BitVec 64
abbrev TimerPtr := Nat

structure Timer where
  m_ms : Millis
  m_next : Millis
  m_cb : Option Callback
  m_recurring : Bool
  /-- `get()` of the pointers to it -/
  address : Nat
  deriving DecidableEq, Repr

namespace Timer

/-- `Timer(ms, cb, recurring, manager)` -/
def new (address : Nat) (ms : Millis) (cb : Option Callback) (recurring : Bool) (now : Millis) :
    Timer where
  m_ms := ms
  m_next := ms + now
  m_cb := cb
  m_recurring := recurring
  address := address

/-- `Timer(next)`, only for comparisons -/
def ofNext (address : Nat) (next : Millis) : Timer where
  m_ms := 0
  m_next := next
  m_cb := none
  m_recurring := false
  address := address

def Comparator : Option Timer → Option Timer → Bool
  | none, none => false
  | none, some _ => true
  | some _, none => false
  | some lhs, some rhs =>
    if lhs.m_next < rhs.m_next then true
    else if rhs.m_next < lhs.m_next then false
    else lhs.address < rhs.address

def key (t : Timer) : Nat ×ₗ Nat := toLex (t.m_next.toNat, t.address)

theorem comparator_iff (lhs rhs : Timer) :
    Comparator (some lhs) (some rhs) = true ↔ lhs.key < rhs.key := by
  unfold Comparator key
  rw [Prod.Lex.toLex_lt_toLex]
  dsimp only
  split_ifs with hlt hgt
  · simpa using Or.inl (BitVec.lt_def.mp hlt)
  · simp only [BitVec.lt_def] at hlt hgt
    simp only [false_iff]
    omega
  · simp only [BitVec.lt_def] at hlt hgt
    simp only [decide_eq_true_eq]
    omega

theorem key_le_iff {t u : Timer} :
    t.key ≤ u.key ↔ t.m_next < u.m_next ∨ t.m_next = u.m_next ∧ t.address ≤ u.address := by
  unfold key
  rw [Prod.Lex.toLex_le_toLex, BitVec.lt_def, BitVec.toNat_inj]

theorem m_next_le_of_key_le {t u : Timer} (h : t.key ≤ u.key) : t.m_next ≤ u.m_next := by
  rcases key_le_iff.mp h with hlt | ⟨heq, _⟩
  · exact BitVec.le_of_lt hlt
  · exact heq ▸ BitVec.le_refl _

end Timer

/-- `add_timer(ms, cb, recurring)`: the new object's address and its reading of the clock. -/
structure TimerCall where
  address : Nat
  ms : Millis
  cb : Option Callback
  recurring : Bool
  now : Millis
  deriving DecidableEq, Repr

/-- `listExpiredCb(cbs)`: what it has read before it takes the write lock, the
address of `now_timer`, the clock then, and where it moves before later readings. -/
structure ExpireCall where
  cbs : List (Option Callback)
  now_ms : Millis
  sawEmpty : Bool
  nowAddress : Nat
  clock : Millis
  ticks : List Millis
  deriving DecidableEq, Repr

inductive TimerFault where
  /-- `m_timers.erase(it)` with `it == m_timers.end()` -/
  | eraseEnd
  deriving DecidableEq, Repr

structure TimerManager where
  heap : TimerPtr → Timer
  /-- the objects that some pointer owns -/
  live : List TimerPtr
  created : Nat
  m_timers : List TimerPtr
  m_tickled : Bool
  m_previousTime : Millis

namespace TimerManager

def new (now : Millis) : TimerManager where
  heap := fun _ => Timer.ofNext 0 0
  live := []
  created := 0
  m_timers := []
  m_tickled := false
  m_previousTime := now

variable (m : TimerManager)

def before (i j : TimerPtr) : Bool := Timer.Comparator (some (m.heap i)) (some (m.heap j))

def setTimer (i : TimerPtr) (t : Timer) : TimerManager :=
  { m with heap := Function.update m.heap i t }

/-- `m_timers.insert(timer)` -/
def insertTimer (i : TimerPtr) : TimerManager :=
  { m with m_timers := OrderedSet.insert m.before i m.m_timers }

/-- `m_timers.erase(it)` -/
def eraseTimer (i : TimerPtr) : TimerManager := { m with m_timers := m.m_timers.erase i }

/-- `m_timers.find(timer)`; `none` is `end()`. -/
def findTimer (i : TimerPtr) : Option TimerPtr := OrderedSet.find m.before i m.m_timers

/-- `new Timer(ms, cb, recurring, this)` -/
def newTimer (c : TimerCall) : TimerManager :=
  { m with
    heap := Function.update m.heap m.created (Timer.new c.address c.ms c.cb c.recurring c.now)
    live := m.created :: m.live
    created := m.created + 1 }

/-- `add_timer(timer, lock)`, and whether it calls `OnTimerInsertedAtFront`. -/
def addTimerLocked (i : TimerPtr) : Bool × TimerManager :=
  let m := m.insertTimer i
  let tickle := m.m_timers.head? = m.findTimer i ∧ ¬ m.m_tickled
  (tickle, { m with m_tickled := m.m_tickled || tickle })

def add_timer (c : TimerCall) : Bool × TimerManager := (m.newTimer c).addTimerLocked m.created

def cancel (i : TimerPtr) : Except TimerFault (Bool × TimerManager) :=
  if (m.heap i).m_cb.isSome then
    let m := m.setTimer i { m.heap i with m_cb := none }
    match m.findTimer i with
    | some it => .ok (true, m.eraseTimer it)
    | none => .error .eraseEnd
  else .ok (false, m)

def refresh (i : TimerPtr) (now : Millis) : Bool × TimerManager :=
  if (m.heap i).m_cb.isNone then (false, m)
  else
    match m.findTimer i with
    | none => (false, m)
    | some it =>
      let m := m.eraseTimer it
      let m := m.setTimer i { m.heap i with m_next := now + (m.heap i).m_ms }
      (true, m.insertTimer i)

/-- The result, and whether `OnTimerInsertedAtFront` is called. `seen` is the
period that the test before the lock read. -/
def reset (i : TimerPtr) (ms : Millis) (from_now : Bool) (seen now : Millis) :
    (Bool × Bool) × TimerManager :=
  if ms = seen ∧ ¬ from_now then ((true, false), m)
  else if (m.heap i).m_cb.isNone then ((true, false), m)
  else
    match m.findTimer i with
    | none => ((false, false), m)
    | some it =>
      let m := m.eraseTimer it
      let start := if from_now then now else (m.heap i).m_next - (m.heap i).m_ms
      let m := m.setTimer i { m.heap i with m_ms := ms, m_next := start + ms }
      let (tickle, m) := m.addTimerLocked i
      ((true, tickle), m)

def detectClockRollover (now_ms : Millis) : Bool × TimerManager :=
  (now_ms < m.m_previousTime ∧ now_ms < m.m_previousTime - 60 * 60 * 1000,
    { m with m_previousTime := now_ms })

/-- `listExpiredCb` up to the loop: the vector `expired`, taken out of the set. -/
def takeExpired (c : ExpireCall) : List TimerPtr × TimerManager :=
  if c.sawEmpty then ([], m)
  else
    match m.m_timers with
    | [] => ([], m)
    | first :: _ =>
      let (rollover, m) := m.detectClockRollover c.now_ms
      if ¬ rollover ∧ (m.heap first).m_next > c.now_ms then ([], m)
      else
        let now_timer := Timer.ofNext c.nowAddress c.now_ms
        let (expired, rest) :=
          if rollover then (m.m_timers, [])
          else OrderedSet.upperBound
            (fun e => Timer.Comparator (some now_timer) (some (m.heap e))) m.m_timers
        (expired, { m with m_timers := rest })

end TimerManager

/-- The variables of the loop in `listExpiredCb`, and the clock. -/
structure Expiry where
  manager : TimerManager
  cbs : List (Option Callback)
  clock : Millis
  ticks : List Millis

/-- The body of the loop. A recurring timer is armed again by a new reading. -/
def Expiry.deliver (e : Expiry) (i : TimerPtr) : Expiry :=
  let m := e.manager
  let timer := m.heap i
  let cbs := e.cbs ++ [timer.m_cb]
  if timer.m_recurring then
    let now := e.ticks.headD e.clock
    { manager := (m.setTimer i { timer with m_next := now + timer.m_ms }).insertTimer i
      cbs := cbs
      clock := now
      ticks := e.ticks.tail }
  else { e with manager := m.setTimer i { timer with m_cb := none }, cbs := cbs }

namespace TimerManager

def listExpiredCb (m : TimerManager) (c : ExpireCall) : Expiry :=
  let (expired, m) := m.takeExpired c
  expired.foldl Expiry.deliver ⟨m, c.cbs, c.clock, c.ticks⟩

def getNextTimer (m : TimerManager) (now_ms : Millis) : Millis × TimerManager :=
  let m := { m with m_tickled := false }
  match m.m_timers with
  | [] => (~~~0, m)
  | next :: _ =>
    if now_ms ≥ (m.heap next).m_next then (0, m) else ((m.heap next).m_next - now_ms, m)

end TimerManager

inductive TimerOp where
  | add_timer (c : TimerCall)
  | cancel (i : TimerPtr)
  | refresh (i : TimerPtr) (now : Millis)
  | reset (i : TimerPtr) (ms : Millis) (from_now : Bool) (seen now : Millis)
  | listExpiredCb (c : ExpireCall)
  | getNextTimer (now : Millis)
  /-- the last pointer to a timer goes away -/
  | release (i : TimerPtr)
  deriving DecidableEq, Repr

/-- A call of `reset` after its comparison, with the period that it saw. -/
structure ResetCall where
  timer : TimerPtr
  ms : Millis
  from_now : Bool
  seen : Millis
  deriving DecidableEq, Repr

def ResetCall.op (c : ResetCall) (now : Millis) : TimerOp :=
  .reset c.timer c.ms c.from_now c.seen now

/-- The call takes the timer out of the set and puts it back. -/
def TimerOp.reinserts (i : TimerPtr) : TimerOp → Bool
  | refresh j _ => j = i
  | reset j ms from_now seen _ => j = i ∧ (ms ≠ seen ∨ from_now)
  | _ => false

/-- No timer is added with an empty callback. -/
def TimerOp.HasCallback : TimerOp → Prop
  | add_timer c => c.cb.isSome
  | _ => True

instance (op : TimerOp) : Decidable op.HasCallback := by
  cases op <;> unfold TimerOp.HasCallback <;> infer_instance

inductive TimerReply where
  | timer (i : TimerPtr)
  | bool (b : Bool)
  | callbacks (cbs : List (Option Callback))
  | timeout (ms : Millis)
  | released
  deriving DecidableEq, Repr

namespace TimerManager

def exec (m : TimerManager) : TimerOp → Except TimerFault (TimerReply × TimerManager)
  | .add_timer c => .ok (.timer m.created, (m.add_timer c).2)
  | .cancel i => (m.cancel i).map fun r => (.bool r.1, r.2)
  | .refresh i now => .ok (.bool (m.refresh i now).1, (m.refresh i now).2)
  | .reset i ms from_now seen now =>
    let r := m.reset i ms from_now seen now
    .ok (.bool r.1.1, r.2)
  | .listExpiredCb c =>
    let e := m.listExpiredCb c
    .ok (.callbacks e.cbs, e.manager)
  | .getNextTimer now => .ok (.timeout (m.getNextTimer now).1, (m.getNextTimer now).2)
  | .release i => .ok (.released, { m with live := m.live.erase i })

/-- A new object is at no live object's address, and the pointers that
operations go through own a timer. -/
def Allowed (m : TimerManager) : TimerOp → Prop
  | .add_timer c => ∀ i ∈ m.live, (m.heap i).address ≠ c.address
  | .cancel i | .refresh i _ | .reset i _ _ _ _ => i ∈ m.live
  | .release i => i ∈ m.live ∧ i ∉ m.m_timers
  | .listExpiredCb _ | .getNextTimer _ => True

instance (m : TimerManager) (op : TimerOp) : Decidable (m.Allowed op) := by
  cases op <;> unfold Allowed <;> infer_instance

end TimerManager

end FiberAsync
