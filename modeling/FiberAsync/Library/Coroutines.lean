import FiberAsync.Library.Runs
import Mathlib.Logic.Function.Basic

/-!
# Asymmetric coroutines

A coroutine runs until it yields, finishes or resumes another one, and then goes
on exactly where it stopped: nobody else can move the place it has reached. The
coroutines that are running are a chain, each resumed by the next. Bodies are
given at the creation and at each renewal, and run from start to end.
-/

namespace FiberAsync.Coroutines

set_option autoImplicit false

open Runs

universe u v

/-- A place in the code of one coroutine. -/
inductive Place where
  /-- before the first statement of its body -/
  | entry
  /-- in the body, no switch made since its start -/
  | start
  /-- behind the switch with that number -/
  | after (switch : Nat)
  deriving DecidableEq, Repr

inductive Status where
  | absent
  | ready
  | active
  | finished
  deriving DecidableEq, Repr

structure Machine (ι : Type u) (β : Type v) where
  /-- the coroutine that runs, the one that resumed it, and so on -/
  chain : List ι
  status : ι → Status
  /-- where each coroutine goes on when it gets control -/
  place : ι → Place
  switches : Nat
  /-- the bodies given to a coroutine, those it has begun, and those it has ended -/
  made : ι → List β
  begun : ι → List β
  ended : ι → List β

inductive Act (ι : Type u) (β : Type v) where
  | create (i : ι) (b : β)
  | renew (i : ι) (b : β)
  | resume (i : ι)
  | enter
  | yield
  | finish

variable {ι : Type u} {β : Type v} [DecidableEq ι]

namespace Machine

variable (t : Machine ι β)

/-- A new body for a coroutine that has none to run. -/
def give (i : ι) (b : β) : Machine ι β :=
  { t with
    status := Function.update t.status i .ready
    place := Function.update t.place i .entry
    made := Function.update t.made i (t.made i ++ [b]) }

/-- The running coroutine `i` stops at its next place. -/
def stop (i : ι) (status : Status) (chain : List ι) : Machine ι β :=
  { t with
    chain := chain
    status := Function.update t.status i status
    place := Function.update t.place i (.after t.switches)
    switches := t.switches + 1 }

def resumed (i c : ι) : Machine ι β :=
  { t with
    chain := i :: t.chain
    status := Function.update t.status i .active
    place := Function.update t.place c (.after t.switches)
    switches := t.switches + 1 }

def entered (i : ι) : Machine ι β :=
  { t with
    place := Function.update t.place i .start
    begun := Function.update t.begun i (t.made i) }

def finished (i : ι) (chain : List ι) : Machine ι β :=
  { t.stop i .finished chain with ended := Function.update t.ended i (t.begun i) }

end Machine

variable {t t' : Machine ι β}

inductive Step (t : Machine ι β) : Act ι β → Machine ι β → Prop where
  | create {i : ι} {b : β} : t.status i = .absent → Step t (.create i b) (t.give i b)
  | renew {i : ι} {b : β} : t.status i = .finished → Step t (.renew i b) (t.give i b)
  | resume {i c : ι} {rest : List ι} : t.chain = c :: rest → t.place c ≠ .entry →
      t.status i = .ready → Step t (.resume i) (t.resumed i c)
  | enter {i : ι} {rest : List ι} {b : β} : t.chain = i :: rest → t.place i = .entry →
      t.made i = t.begun i ++ [b] → Step t .enter (t.entered i)
  | yield {i c : ι} {rest : List ι} {b : β} : t.chain = i :: c :: rest → t.place i ≠ .entry →
      t.begun i = t.ended i ++ [b] → Step t .yield (t.stop i .ready (c :: rest))
  | finish {i c : ι} {rest : List ι} {b : β} : t.chain = i :: c :: rest → t.place i ≠ .entry →
      t.begun i = t.ended i ++ [b] → Step t .finish (t.finished i (c :: rest))

def system (init : Machine ι β → Prop) : System (Machine ι β) (Act ι β) where
  init := init
  step := Step

/-- Every body that was given is run once, in order: at most the last one has
not ended, and it has begun unless its coroutine is still at the entry. -/
structure OnceAt (t : Machine ι β) (i : ι) : Prop where
  ended : ∃ pending : Option β, t.made i = t.ended i ++ pending.toList ∧
    (t.status i = .absent ∨ t.status i = .finished → pending = none) ∧
    (t.status i = .ready → pending.isSome)
  begun : t.begun i = if t.place i = .entry then t.ended i else t.made i

def Once (t : Machine ι β) : Prop := ∀ i, OnceAt t i

/-- The chain holds the active coroutines, without repetition. -/
structure ChainOk (t : Machine ι β) : Prop where
  nodup : t.chain.Nodup
  active : ∀ i, i ∈ t.chain ↔ t.status i = .active
  absent : ∀ i, t.status i = .absent → t.place i = .entry

omit [DecidableEq ι] in
theorem OnceAt.of_same {i : ι} (h : OnceAt t i) (hm : t'.made i = t.made i)
    (hb : t'.begun i = t.begun i) (he : t'.ended i = t.ended i)
    (hs : t'.status i = t.status i) (hp : t'.place i = .entry ↔ t.place i = .entry) :
    OnceAt t' i := by
  refine ⟨?_, ?_⟩
  · rw [hm, he, hs]
    exact h.ended
  · rw [hb, he, hm, h.begun]
    exact (if_congr hp rfl rfl).symm

theorem ChainOk.step (h : ChainOk t) {a : Act ι β} (hs : Step t a t') : ChainOk t' := by
  have hgive : ∀ {i b}, t.status i ≠ .active → ChainOk (t.give i b) := by
    intro i b hi
    refine ⟨h.nodup, fun j => ?_, fun j hj => ?_⟩
    · by_cases hji : j = i
      · subst j
        simp [Machine.give, h.active, hi]
      · simp [Machine.give, hji, h.active]
    · by_cases hji : j = i
      · simp [Machine.give, hji]
      · simp only [Machine.give, Function.update_of_ne hji] at hj ⊢
        exact h.absent j hj
  have hstop : ∀ {i c rest status}, t.chain = i :: c :: rest → status ≠ .active →
      status ≠ .absent → ChainOk (t.stop i status (c :: rest)) := by
    intro i c rest status hc hne hab
    have hnodup := h.nodup
    rw [hc] at hnodup
    obtain ⟨hi, hrest⟩ := List.nodup_cons.mp hnodup
    refine ⟨hrest, fun j => ?_, fun j hj => ?_⟩
    · by_cases hji : j = i
      · subst j
        simpa [Machine.stop, hne] using hi
      · have hj := h.active j
        rw [hc, List.mem_cons] at hj
        simpa [Machine.stop, hji] using hj
    · by_cases hji : j = i
      · subst j
        simp [Machine.stop, hab] at hj
      · simp only [Machine.stop, Function.update_of_ne hji] at hj ⊢
        exact h.absent j hj
  cases hs with
  | create hi => exact hgive (by simp [hi])
  | renew hi => exact hgive (by simp [hi])
  | yield hc hp hb => exact hstop hc (by simp) (by simp)
  | finish hc hp hb =>
    have hfin : ChainOk (t.stop _ .finished _) := hstop hc (by simp) (by simp)
    exact ⟨hfin.nodup, hfin.active, hfin.absent⟩
  | enter hc hp hm =>
    rename_i i rest b
    refine ⟨h.nodup, h.active, fun j hj => ?_⟩
    have hji : j ≠ i := by
      intro hji
      have hact := (h.active i).mp (by simp [hc])
      rw [← hji] at hact
      exact absurd (hact.symm.trans hj) (by simp)
    simp only [Machine.entered, Function.update_of_ne hji] at hj ⊢
    exact h.absent j hj
  | resume hc hp hi =>
    rename_i i c rest
    have hout : i ∉ t.chain := fun hmem => by
      rw [(h.active i).mp hmem] at hi
      cases hi
    refine ⟨List.nodup_cons.mpr ⟨hout, h.nodup⟩, fun j => ?_, fun j hj => ?_⟩
    · by_cases hji : j = i
      · subst j
        simp [Machine.resumed]
      · simpa [Machine.resumed, hji] using h.active j
    · have hji : j ≠ i := by
        rintro rfl
        simp [Machine.resumed] at hj
      have hjc : j ≠ c := by
        rintro rfl
        have hact := (h.active j).mp (by simp [hc])
        simp only [Machine.resumed, Function.update_of_ne hji] at hj
        exact absurd (hact.symm.trans hj) (by simp)
      simp only [Machine.resumed, Function.update_of_ne hji, Function.update_of_ne hjc] at hj ⊢
      exact h.absent j hj

omit [DecidableEq ι] in
/-- A coroutine without a body to run has ended all it was given. -/
theorem OnceAt.idle {i : ι} (h : OnceAt t i) (hi : t.status i = .absent ∨ t.status i = .finished) :
    t.made i = t.ended i ∧ t.begun i = t.ended i := by
  obtain ⟨pending, hmade, hnone, _⟩ := h.ended
  obtain rfl := hnone hi
  simp only [Option.toList_none, List.append_nil] at hmade
  refine ⟨hmade, ?_⟩
  rw [h.begun]
  split
  · rfl
  · exact hmade

theorem OnceAt.give {i : ι} {b : β} (h : OnceAt t i)
    (hi : t.status i = .absent ∨ t.status i = .finished) : OnceAt (t.give i b) i := by
  obtain ⟨hmade, hbegun⟩ := h.idle hi
  refine ⟨⟨some b, ?_, ?_, fun _ => rfl⟩, ?_⟩
  · simp [Machine.give, hmade]
  · simp [Machine.give]
  · simpa [Machine.give] using hbegun

theorem Once.step (h : Once t) (hc : ChainOk t) {a : Act ι β} (hs : Step t a t') : Once t' := by
  have hactive : ∀ {i rest}, t.chain = i :: rest → t.status i = .active :=
    fun hchain => (hc.active _).mp (by simp [hchain])
  intro j
  cases hs with
  | create hi | renew hi =>
    rename_i i b
    by_cases hj : j = i
    · subst j
      exact (h i).give (by simp [hi])
    · exact (h j).of_same (by simp [Machine.give, hj]) rfl rfl (by simp [Machine.give, hj])
        (by simp [Machine.give, hj])
  | resume hchain hp hi =>
    rename_i i c rest
    have hci : c ≠ i := by
      rintro rfl
      rw [hactive hchain] at hi
      cases hi
    by_cases hj : j = i
    · subst j
      obtain ⟨⟨pending, hmade, _, hsome⟩, hbegun⟩ := h i
      refine ⟨⟨pending, hmade, ?_, ?_⟩, ?_⟩
      · simp [Machine.resumed]
      · simp [Machine.resumed]
      · simpa [Machine.resumed, Ne.symm hci] using hbegun
    · refine (h j).of_same rfl rfl rfl (by simp [Machine.resumed, hj]) ?_
      by_cases hjc : j = c
      · subst j
        simpa [Machine.resumed] using hp
      · simp [Machine.resumed, hjc]
  | enter hchain hp hb =>
    rename_i i rest b
    by_cases hj : j = i
    · subst j
      refine ⟨(h i).ended, ?_⟩
      simp [Machine.entered]
    · exact (h j).of_same rfl (by simp [Machine.entered, hj]) rfl rfl
        (by simp [Machine.entered, hj])
  | yield hchain hp hb =>
    rename_i i c rest b
    by_cases hj : j = i
    · subst j
      have hbegun := (h i).begun
      rw [if_neg hp] at hbegun
      refine ⟨⟨some b, ?_, ?_, fun _ => rfl⟩, ?_⟩
      · exact hbegun.symm.trans hb
      · simp [Machine.stop]
      · simpa [Machine.stop] using hbegun
    · exact (h j).of_same rfl rfl rfl (by simp [Machine.stop, hj]) (by simp [Machine.stop, hj])
  | finish hchain hp hb =>
    rename_i i c rest b
    by_cases hj : j = i
    · subst j
      have hbegun := (h i).begun
      rw [if_neg hp] at hbegun
      refine ⟨⟨none, ?_, by simp, ?_⟩, ?_⟩
      · simp [Machine.finished, Machine.stop, hbegun]
      · simp [Machine.finished, Machine.stop]
      · simpa [Machine.finished, Machine.stop] using hbegun
    · exact (h j).of_same rfl rfl (by simp [Machine.finished, hj])
        (by simp [Machine.finished, Machine.stop, hj])
        (by simp [Machine.finished, Machine.stop, hj])

/-- The moves that put the place of a coroutine where it is: those it makes
itself and those that give it a body. -/
def Concerns (i : ι) (m : Move (Machine ι β) (Act ι β)) : Prop :=
  m.pre.chain.head? = some i ∨ ∃ b, m.act = .create i b ∨ m.act = .renew i b

/-- Where a coroutine that is `ready` goes on: behind its last yield, or at the
entry of the body it was given. -/
def Waits (t₀ : Machine ι β) (tr : List (Move (Machine ι β) (Act ι β))) (t : Machine ι β)
    (i : ι) : Prop :=
  (∃ y, Last (Concerns i) tr y ∧ y.act = .yield ∧ y.pre.chain.head? = some i ∧
    t.place i = .after y.pre.switches) ∨
  (∃ y, Last (Concerns i) tr y ∧ (∃ b, y.act = .create i b ∨ y.act = .renew i b) ∧
    t.place i = .entry) ∨
  (∀ y ∈ tr, ¬ Concerns i y) ∧ t₀.status i = .ready ∧ t.place i = t₀.place i

/-- `c` waits behind the last resume of `i`. -/
def WaitsFor (tr : List (Move (Machine ι β) (Act ι β))) (t : Machine ι β) (i c : ι) : Prop :=
  ∃ r, Last (fun m => m.act = .resume i) tr r ∧ r.pre.chain.head? = some c ∧
    t.place c = .after r.pre.switches

structure History (t₀ : Machine ι β) (tr : List (Move (Machine ι β) (Act ι β)))
    (t : Machine ι β) : Prop where
  chain : ChainOk t
  waits : ∀ i, t.status i = .ready → Waits t₀ tr t i
  waitsFor : ∀ above i c rest, t.chain = above ++ i :: c :: rest → WaitsFor tr t i c

section Histories

variable {t₀ : Machine ι β} {tr : List (Move (Machine ι β) (Act ι β))} {a : Act ι β} {i c : ι}

omit [DecidableEq ι]

theorem ChainOk.head_ne (h : ChainOk t) (hi : t.status i = .ready) : t.chain.head? ≠ some i := by
  intro hhead
  have hact := (h.active i).mp (List.mem_of_mem_head? hhead)
  rw [hi] at hact
  cases hact

theorem Waits.keep (h : Waits t₀ tr t i) (hx : ¬ Concerns i ⟨t, a, t'⟩)
    (hp : t'.place i = t.place i) : Waits t₀ (tr ++ [⟨t, a, t'⟩]) t' i := by
  rcases h with ⟨y, hlast, hy⟩ | ⟨y, hlast, hy⟩ | ⟨hnone, hi⟩
  · exact Or.inl ⟨y, hlast.snoc hx, hp ▸ hy⟩
  · exact Or.inr (Or.inl ⟨y, hlast.snoc hx, hp ▸ hy⟩)
  · refine Or.inr (Or.inr ⟨fun y hy => ?_, hp ▸ hi⟩)
    rcases List.mem_append.mp hy with hy | hy
    · exact hnone y hy
    · rw [List.mem_singleton.mp hy]
      exact hx

theorem WaitsFor.keep (h : WaitsFor tr t i c) (ha : a ≠ .resume i)
    (hp : t'.place c = t.place c) : WaitsFor (tr ++ [⟨t, a, t'⟩]) t' i c := by
  obtain ⟨r, hlast, hc, hplace⟩ := h
  exact ⟨r, hlast.snoc ha, hc, hp.trans hplace⟩

end Histories

/-- Only its own moves and those that give it a body move a coroutine. -/
theorem Step.place_eq {a : Act ι β} (hs : Step t a t') {i : ι}
    (hi : ¬ Concerns i ⟨t, a, t'⟩) : t'.place i = t.place i := by
  have hhead : ∀ {j rest}, t.chain = j :: rest → i ≠ j := by
    rintro j rest hc rfl
    exact hi (Or.inl (by simp [hc]))
  have hgive : ∀ {j b}, a = .create j b ∨ a = .renew j b → i ≠ j := by
    rintro j b ha rfl
    exact hi (Or.inr ⟨b, ha⟩)
  cases hs with
  | create hj => exact Function.update_of_ne (hgive (Or.inl rfl)) _ _
  | renew hj => exact Function.update_of_ne (hgive (Or.inr rfl)) _ _
  | resume hc hp hj => exact Function.update_of_ne (hhead hc) _ _
  | enter hc hp hm => exact Function.update_of_ne (hhead hc) _ _
  | yield hc hp hb => exact Function.update_of_ne (hhead hc) _ _
  | finish hc hp hb => exact Function.update_of_ne (hhead hc) _ _

theorem Step.ready_cases {a : Act ι β} (hs : Step t a t') {i : ι} (hi : t'.status i = .ready) :
    (∃ b, a = .create i b ∨ a = .renew i b) ∧ t'.place i = .entry ∨
      a = .yield ∧ t.chain.head? = some i ∧ t'.place i = .after t.switches ∨
      t.status i = .ready ∧ ∀ b, a ≠ .create i b ∧ a ≠ .renew i b := by
  cases hs with
  | create hj | renew hj =>
    rename_i j b
    by_cases hij : i = j
    · subst j
      exact Or.inl ⟨⟨b, by simp⟩, Function.update_self _ _ _⟩
    · refine Or.inr (Or.inr ⟨(Function.update_of_ne hij _ _).symm.trans hi, fun b => ?_⟩)
      simp [Ne.symm hij]
  | resume hc hp hj =>
    rename_i j c rest
    refine Or.inr (Or.inr ⟨?_, by simp⟩)
    by_cases hij : i = j
    · subst j
      exact hj
    · exact (Function.update_of_ne hij _ _).symm.trans hi
  | enter hc hp hm => exact Or.inr (Or.inr ⟨hi, by simp⟩)
  | yield hc hp hb =>
    rename_i j c rest b
    by_cases hij : i = j
    · subst j
      exact Or.inr (Or.inl ⟨rfl, by simp [hc], Function.update_self _ _ _⟩)
    · exact Or.inr (Or.inr ⟨(Function.update_of_ne hij _ _).symm.trans hi, by simp⟩)
  | finish hc hp hb =>
    rename_i j c rest b
    refine Or.inr (Or.inr ⟨?_, by simp⟩)
    by_cases hij : i = j
    · subst j
      simp [Machine.finished, Machine.stop] at hi
    · exact (Function.update_of_ne hij _ _).symm.trans hi

theorem Step.chain_cases {a : Act ι β} (hs : Step t a t') :
    (∃ i c rest, a = .resume i ∧ t.chain = c :: rest ∧ t'.chain = i :: t.chain ∧
        t.status i = .ready ∧ t'.place c = .after t.switches) ∨
      (∀ i, a ≠ .resume i) ∧ (t'.chain = t.chain ∨ ∃ i, t.chain = i :: t'.chain) := by
  cases hs with
  | create hj => exact Or.inr ⟨by simp, Or.inl rfl⟩
  | renew hj => exact Or.inr ⟨by simp, Or.inl rfl⟩
  | resume hc hp hj =>
    exact Or.inl ⟨_, _, _, rfl, hc, rfl, hj, Function.update_self _ _ _⟩
  | enter hc hp hm => exact Or.inr ⟨by simp, Or.inl rfl⟩
  | yield hc hp hb => exact Or.inr ⟨by simp, Or.inr ⟨_, hc⟩⟩
  | finish hc hp hb => exact Or.inr ⟨by simp, Or.inr ⟨_, hc⟩⟩

theorem History.step {t₀ : Machine ι β} {tr : List (Move (Machine ι β) (Act ι β))}
    {a : Act ι β} (h : History t₀ tr t) (hs : Step t a t') :
    History t₀ (tr ++ [⟨t, a, t'⟩]) t' := by
  refine ⟨h.chain.step hs, fun i hi => ?_, fun above i c rest hc => ?_⟩
  · rcases hs.ready_cases hi with ⟨⟨b, hb⟩, hp⟩ | ⟨rfl, hhead, hp⟩ | ⟨hready, hnot⟩
    · exact Or.inr (Or.inl ⟨_, Last.snoc_self (Or.inr ⟨b, hb⟩), ⟨b, hb⟩, hp⟩)
    · exact Or.inl ⟨_, Last.snoc_self (Or.inl hhead), rfl, hhead, hp⟩
    · have hx : ¬ Concerns i ⟨t, a, t'⟩ := by
        rintro (hhead | ⟨b, hb⟩)
        · exact h.chain.head_ne hready hhead
        · exact hb.elim (hnot b).1 (hnot b).2
      exact (h.waits i hready).keep hx (hs.place_eq hx)
  · have hwaiting : ∀ {above' i c rest}, t.chain = above' ++ i :: c :: rest →
        t'.place c = t.place c := by
      intro above' i c rest hchain
      have hnodup := h.chain.nodup
      have hact := (h.chain.active c).mp (by simp [hchain])
      apply hs.place_eq
      rintro (hhead | ⟨b, hb⟩)
      · rw [hchain] at hhead hnodup
        cases above' with
        | nil =>
          obtain rfl : i = c := by simpa using hhead
          simp at hnodup
        | cons x above' =>
          obtain rfl : x = c := by simpa using hhead
          simp at hnodup
      · have hidle : t.status c = .absent ∨ t.status c = .finished := by
          rcases hb with rfl | rfl
          · cases hs with
            | create hj => exact Or.inl hj
          · cases hs with
            | renew hj => exact Or.inr hj
        rcases hidle with hi | hi <;> rw [hact] at hi <;> cases hi
    rcases hs.chain_cases with ⟨j, d, below, rfl, hold, hnew, hready, hp⟩ | ⟨hne, hsame⟩
    · cases above with
      | nil =>
        rw [hnew, hold] at hc
        obtain ⟨rfl, rfl, rfl⟩ : j = i ∧ d = c ∧ below = rest := by simpa using hc
        exact ⟨_, Last.snoc_self rfl, by simp [hold], hp⟩
      | cons x above =>
        rw [hnew, List.cons_append] at hc
        obtain ⟨rfl, hold'⟩ := List.cons.inj hc
        have hij : j ≠ i := by
          rintro rfl
          have hact := (h.chain.active j).mp (by simp [hold'])
          rw [hready] at hact
          cases hact
        exact (h.waitsFor above i c rest hold').keep (by simp [hij]) (hwaiting hold')
    · rcases hsame with hsame | ⟨j, hsame⟩
      · rw [hsame] at hc
        exact (h.waitsFor above i c rest hc).keep (hne i) (hwaiting hc)
      · rw [hc, ← List.cons_append] at hsame
        exact (h.waitsFor _ i c rest hsame).keep (hne i) (hwaiting hsame)

/-- A coroutine that yields or ends goes back behind the resume that started
its segment. -/
theorem History.returns {t₀ : Machine ι β} {tr : List (Move (Machine ι β) (Act ι β))}
    {a : Act ι β} (h : History t₀ tr t) (hs : Step t a t') (ha : a = .yield ∨ a = .finish) :
    ∃ i c r, t.chain.head? = some i ∧ t'.chain.head? = some c ∧
      Last (fun m => m.act = .resume i) tr r ∧ r.pre.chain.head? = some c ∧
      t'.place c = .after r.pre.switches := by
  obtain ⟨i, c, rest, hold, hnew⟩ :
      ∃ i c rest, t.chain = i :: c :: rest ∧ t'.chain = c :: rest := by
    rcases ha with rfl | rfl
    · cases hs with
      | yield hc hp hb => exact ⟨_, _, _, hc, rfl⟩
    · cases hs with
      | finish hc hp hb => exact ⟨_, _, _, hc, rfl⟩
  obtain ⟨r, hlast, hc, hplace⟩ := h.waitsFor [] i c rest hold
  refine ⟨i, c, r, by simp [hold], by simp [hnew], hlast, hc, ?_⟩
  rw [hs.place_eq, hplace]
  rintro (hhead | ⟨b, hb⟩)
  · have hnodup := h.chain.nodup
    rw [hold] at hhead hnodup
    obtain rfl : i = c := by simpa using hhead
    simp at hnodup
  · rcases ha with rfl | rfl <;> simp at hb

/-- A coroutine that is resumed goes on where it waits. -/
theorem History.continues {t₀ : Machine ι β} {tr : List (Move (Machine ι β) (Act ι β))} {i : ι}
    (h : History t₀ tr t) (hs : Step t (.resume i) t') :
    t'.chain.head? = some i ∧ t'.place i = t.place i ∧ Waits t₀ tr t i := by
  cases hs with
  | resume hc hp hi =>
    rename_i c rest
    refine ⟨rfl, Function.update_of_ne ?_ _ _, h.waits i hi⟩
    rintro rfl
    exact h.chain.head_ne hi (by simp [hc])

/-- What every run of coroutines does: control goes back to where the last
resume left it, and goes on where the coroutine left it. -/
theorem Run.history_of_start {t₀ : Machine ι β} {tr : List (Move (Machine ι β) (Act ι β))}
    {init : Machine ι β → Prop} (hr : Run (system init) t₀ tr t) (hchain : ChainOk t₀)
    (hone : ∃ i, t₀.chain = [i]) : History t₀ tr t := by
  apply hr.history (History t₀) (fun h hs => h.step hs)
  refine ⟨hchain, fun i hi => ?_, fun above i c rest hc => ?_⟩
  · exact Or.inr (Or.inr ⟨by simp, hi, rfl⟩)
  · obtain ⟨j, hj⟩ := hone
    rw [hj] at hc
    cases above <;> simp at hc

end FiberAsync.Coroutines
