import Mathlib.Data.BitVec
import Mathlib.Data.Fintype.Basic

/-!
# Events and event masks

`enum Event` is used both as a single event and as the mask `m_events`. A mask
carries the proof that it only has bits of the enumeration, so a mask is
determined by the events it has and an empty mask is the value `NONE`.
-/

namespace FiberAsync

set_option autoImplicit false

inductive Event where
  | READ
  | WRITE
  deriving DecidableEq, Repr

namespace Event

def bits : Event → BitVec 32
  | READ => 0x1#32
  | WRITE => 0x4#32

def index : Event → Nat
  | READ => 0
  | WRITE => 2

theorem bits_eq_twoPow (e : Event) : e.bits = BitVec.twoPow 32 e.index := by
  cases e <;> decide

theorem index_inj {e e' : Event} : e.index = e'.index ↔ e = e' := by
  cases e <;> cases e' <;> decide

instance : Fintype Event := ⟨{READ, WRITE}, fun e => by cases e <;> decide⟩

end Event

def EPOLLIN : BitVec 32 := 0x1#32
def EPOLLOUT : BitVec 32 := 0x4#32
def EPOLLERR : BitVec 32 := 0x8#32
def EPOLLHUP : BitVec 32 := 0x10#32
def EPOLLET : BitVec 32 := 0x80000000#32

structure EventMask where
  bits : BitVec 32
  known : bits &&& ~~~(Event.READ.bits ||| Event.WRITE.bits) = 0#32
  deriving DecidableEq

namespace EventMask

def NONE : EventMask := ⟨0#32, by decide⟩

/-- The test `m & e`. -/
def has (m : EventMask) (e : Event) : Bool := m.bits &&& e.bits != 0#32

theorem has_eq_getLsbD (m : EventMask) (e : Event) : m.has e = m.bits.getLsbD e.index := by
  rw [has, e.bits_eq_twoPow, BitVec.and_twoPow]
  cases h : m.bits.getLsbD e.index <;> cases e <;> simp [Event.index] <;> decide

theorem known_getLsbD (m : EventMask) {i : Nat} (hi : i < 32) (h0 : i ≠ 0) (h2 : i ≠ 2) :
    m.bits.getLsbD i = false := by
  have hmask : ∀ i < 32, i ≠ 0 → i ≠ 2 →
      (~~~(Event.READ.bits ||| Event.WRITE.bits)).getLsbD i = true := by decide
  have hzero := congrArg (fun b : BitVec 32 => b.getLsbD i) m.known
  simpa [hmask i hi h0 h2] using hzero

theorem ext_has {m m' : EventMask} (h : ∀ e, m.has e = m'.has e) : m = m' := by
  have hbits : m.bits = m'.bits := by
    apply BitVec.eq_of_getLsbD_eq
    intro i hi
    by_cases h0 : i = 0
    · subst i
      simpa [has_eq_getLsbD, Event.index] using h .READ
    · by_cases h2 : i = 2
      · subst i
        simpa [has_eq_getLsbD, Event.index] using h .WRITE
      · rw [m.known_getLsbD hi h0 h2, m'.known_getLsbD hi h0 h2]
  cases m
  cases m'
  simpa using hbits

/-- `m | e`. -/
def insert (m : EventMask) (e : Event) : EventMask where
  bits := m.bits ||| e.bits
  known := by
    have he : e.bits &&& ~~~(Event.READ.bits ||| Event.WRITE.bits) = 0#32 := by
      cases e <;> decide
    rw [BitVec.and_or_distrib_right, m.known, he, BitVec.or_zero]

/-- `m & ~e`. -/
def erase (m : EventMask) (e : Event) : EventMask where
  bits := m.bits &&& ~~~e.bits
  known := by
    rw [BitVec.and_assoc, BitVec.and_comm (~~~e.bits), ← BitVec.and_assoc, m.known,
      BitVec.zero_and]

@[simp] theorem has_NONE (e : Event) : NONE.has e = false := by cases e <;> decide

@[simp] theorem has_insert (m : EventMask) (e e' : Event) :
    (m.insert e).has e' = (m.has e' || decide (e = e')) := by
  simp only [has_eq_getLsbD, insert, e.bits_eq_twoPow, BitVec.getLsbD_or, BitVec.getLsbD_twoPow,
    Event.index_inj]
  cases e <;> cases e' <;> simp [Event.index]

@[simp] theorem has_erase (m : EventMask) (e e' : Event) :
    (m.erase e).has e' = (m.has e' && decide (e ≠ e')) := by
  simp only [has_eq_getLsbD, erase, e.bits_eq_twoPow, BitVec.getLsbD_and, BitVec.getLsbD_not,
    BitVec.getLsbD_twoPow, Event.index_inj]
  cases e <;> cases e' <;> simp [Event.index]

theorem eq_NONE_iff (m : EventMask) : m = NONE ↔ ∀ e, m.has e = false :=
  ⟨fun h e => h ▸ has_NONE e, fun h => ext_has fun e => by rw [h e, has_NONE]⟩

theorem ne_NONE_iff (m : EventMask) : m ≠ NONE ↔ ∃ e, m.has e = true := by
  rw [ne_eq, eq_NONE_iff]
  simp

/-- `m & m'`. -/
def inter (m m' : EventMask) : EventMask where
  bits := m.bits &&& m'.bits
  known := by rw [BitVec.and_assoc, m'.known, BitVec.and_zero]

@[simp] theorem has_inter (m m' : EventMask) (e : Event) :
    (m.inter m').has e = (m.has e && m'.has e) := by
  simp only [has_eq_getLsbD, inter, BitVec.getLsbD_and]

/-- The events of a word of `epoll` bits: `real_events` in `IOManager::idle`. -/
def ofEpoll (events : BitVec 32) : EventMask :=
  let real_events := NONE
  let real_events := if events &&& EPOLLIN ≠ 0#32 then real_events.insert .READ else real_events
  if events &&& EPOLLOUT ≠ 0#32 then real_events.insert .WRITE else real_events

theorem has_ofEpoll (events : BitVec 32) (e : Event) :
    (ofEpoll events).has e = events.getLsbD e.index := by
  have test : ∀ i < 32, events &&& BitVec.twoPow 32 i ≠ 0#32 ↔ events.getLsbD i = true := by
    intro i hi
    rw [BitVec.and_twoPow]
    cases h : events.getLsbD i <;> simp
    intro hz
    have := congrArg BitVec.toNat hz
    have hlt := Nat.pow_lt_pow_right (by decide : 1 < 2) hi
    simp [BitVec.toNat_twoPow, Nat.mod_eq_of_lt hlt] at this
  have hin : EPOLLIN = BitVec.twoPow 32 0 := by decide
  have hout : EPOLLOUT = BitVec.twoPow 32 2 := by decide
  simp only [ofEpoll, hin, hout, test 0 (by decide), test 2 (by decide)]
  cases e <;> cases h0 : events.getLsbD 0 <;> cases h2 : events.getLsbD 2 <;>
    simp [Event.index, h0, h2, -BitVec.getLsbD_eq_getElem]

end EventMask

end FiberAsync
