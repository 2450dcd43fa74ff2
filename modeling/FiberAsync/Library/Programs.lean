import FiberAsync.Library.Results

/-!
# Programs that ask their environment

A program returns a value, or asks a question and goes on with the answer. A
path of a program is what it asks and is answered until it returns, whatever the
environment answers. The rules are for checking the paths of programs, question by
question, with a partial automaton, also where the paths are cut into parts that
are executed in another order.
-/

namespace FiberAsync.Programs

set_option autoImplicit false

open Results

inductive Prog (Req : Type) (Ans : Req → Type) (α : Type) where
  | ret (a : α)
  | ask (r : Req) (k : Ans r → Prog Req Ans α)

/-- A question and its answer. -/
structure Asked (Req : Type) (Ans : Req → Type) where
  req : Req
  ans : Ans req

namespace Prog

variable {Req : Type} {Ans : Req → Type} {α β : Type}

protected def bind : Prog Req Ans α → (α → Prog Req Ans β) → Prog Req Ans β
  | ret a, f => f a
  | ask r k, f => ask r fun x => (k x).bind f

instance : Monad (Prog Req Ans) where
  pure := ret
  bind := Prog.bind

/-- A question whose answer is the value. -/
def request (r : Req) : Prog Req Ans (Ans r) := ask r ret

@[simp] theorem ret_bind (a : α) (f : α → Prog Req Ans β) : (ret a >>= f) = f a := rfl

@[simp] theorem pure_bind (a : α) (f : α → Prog Req Ans β) :
    ((pure a : Prog Req Ans α) >>= f) = f a := rfl

@[simp] theorem ask_bind (r : Req) (k : Ans r → Prog Req Ans α) (f : α → Prog Req Ans β) :
    (ask r k >>= f) = ask r fun x => k x >>= f := rfl

@[simp] theorem request_bind (r : Req) (f : Ans r → Prog Req Ans β) :
    (request r >>= f) = ask r f := rfl

section Paths

inductive Path : Prog Req Ans α → List (Asked Req Ans) → α → Prop where
  | ret (a : α) : Path (ret a) [] a
  | ask {r : Req} {k : Ans r → Prog Req Ans α} {l : List (Asked Req Ans)} {a : α} (x : Ans r) :
      Path (k x) l a → Path (ask r k) (⟨r, x⟩ :: l) a

variable {p : Prog Req Ans α} {f : α → Prog Req Ans β} {l : List (Asked Req Ans)}

theorem Path.of_bind {b : β} (h : Path (p >>= f) l b) :
    ∃ l₁ a l₂, l = l₁ ++ l₂ ∧ Path p l₁ a ∧ Path (f a) l₂ b := by
  induction p generalizing l with
  | ret a => exact ⟨[], a, l, rfl, .ret a, h⟩
  | ask r k ih =>
    cases h with
    | ask x hrest =>
      obtain ⟨l₁, a, l₂, rfl, hk, hf⟩ := ih x hrest
      exact ⟨_, a, l₂, rfl, .ask x hk, hf⟩

end Paths

section Pieces

/-- A list put together from pieces. -/
inductive Pieces {τ : Type} (piece : List τ → Prop) : List τ → Prop where
  | nil : Pieces piece []
  | cons {x l : List τ} : piece x → Pieces piece l → Pieces piece (x ++ l)

namespace Pieces

variable {τ : Type} {piece : List τ → Prop} {l l' x : List τ}

theorem single (h : piece x) : Pieces piece x := by
  rw [← List.append_nil x]
  exact .cons h .nil

theorem append (h : Pieces piece l) (h' : Pieces piece l') : Pieces piece (l ++ l') := by
  induction h with
  | nil => exact h'
  | cons hx _ ih =>
    rw [List.append_assoc]
    exact .cons hx ih

theorem flatten {ls : List (List τ)} (h : ∀ l ∈ ls, Pieces piece l) : Pieces piece ls.flatten := by
  induction ls with
  | nil => exact .nil
  | cons l ls ih =>
    obtain ⟨hhead, htail⟩ := List.forall_mem_cons.mp h
    rw [List.flatten_cons]
    exact hhead.append (ih htail)

end Pieces

/-- From one stop, or the start, to another stop, or the end. -/
def Part {τ : Type} (stop : τ → Bool) (l x : List τ) : Prop :=
  ∃ before after, l = before ++ (x ++ after) ∧
    (∀ e, before.getLast? = some e → stop e = true) ∧ ∀ e, after.head? = some e → stop e = true

variable {τ : Type} {piece : List τ → Prop} {stop : τ → Bool} {l x : List τ}

theorem Part.self : Part stop l l := ⟨[], [], by simp, by simp, by simp⟩

/-- If a piece with a stop is nothing else, then a list of pieces can be cut at
a stop, before it and after it. -/
theorem Pieces.cut (hstop : ∀ x, piece x → ∀ e ∈ x, stop e = true → x = [e])
    (h : Pieces piece l) {a b : List τ} (hl : l = a ++ b)
    (hb : (∀ e, b.head? = some e → stop e = true) ∨ ∀ e, a.getLast? = some e → stop e = true) :
    Pieces piece a ∧ Pieces piece b := by
  induction h generalizing a with
  | nil =>
    obtain ⟨rfl, rfl⟩ := List.nil_eq_append_iff.mp hl
    exact ⟨.nil, .nil⟩
  | @cons x rest hx hrest ih =>
    rcases List.append_eq_append_iff.mp hl with ⟨a', rfl, rfl⟩ | ⟨b', rfl, rfl⟩
    · have hb' : (∀ e, b.head? = some e → stop e = true) ∨
          ∀ e, a'.getLast? = some e → stop e = true := by
        refine hb.imp id fun ha e he => ha e ?_
        rw [List.getLast?_append, he]
        rfl
      obtain ⟨ha, hb⟩ := ih rfl hb'
      exact ⟨.cons hx ha, hb⟩
    · cases a with
      | nil => exact ⟨.nil, .cons hx hrest⟩
      | cons e a =>
        cases b' with
        | nil =>
          rw [List.append_nil] at hx
          exact ⟨.single hx, hrest⟩
        | cons e' b' =>
          -- the cut is inside of a piece, which then has a stop beside another event
          have hinside : ∃ e₀ ∈ e :: a ++ e' :: b', stop e₀ = true := by
            rcases hb with hb | ha
            · exact ⟨e', by simp, hb e' rfl⟩
            · obtain ⟨e₀, hlast⟩ := Option.isSome_iff_exists.mp
                (List.getLast?_isSome.mpr (List.cons_ne_nil e a))
              exact ⟨e₀, List.mem_append_left _ (List.mem_of_getLast? hlast), ha e₀ hlast⟩
          obtain ⟨e₀, hmem, he₀⟩ := hinside
          have hlen := congrArg List.length (hstop _ hx e₀ hmem he₀)
          simp at hlen

theorem Pieces.part (hstop : ∀ x, piece x → ∀ e ∈ x, stop e = true → x = [e])
    (h : Pieces piece l) (hx : Part stop l x) : Pieces piece x := by
  obtain ⟨before, after, hl, hbefore, hafter⟩ := hx
  obtain ⟨_, hrest⟩ := h.cut hstop hl (Or.inr hbefore)
  exact (hrest.cut hstop rfl (Or.inl hafter)).1

/-- The paths of a program are put together from pieces. -/
def Made (piece : List (Asked Req Ans) → Prop) (p : Prog Req Ans α) : Prop :=
  ∀ l a, Path p l a → Pieces piece l

namespace Made

variable {piece : List (Asked Req Ans) → Prop} {p : Prog Req Ans α} {f : α → Prog Req Ans β}

theorem ret (a : α) : Made piece (ret a : Prog Req Ans α) := by
  intro l b h
  cases h
  exact .nil

theorem bind (hp : Made piece p) (hf : ∀ a, Made piece (f a)) : Made piece (p >>= f) := by
  intro l b h
  obtain ⟨l₁, a, l₂, rfl, h₁, h₂⟩ := h.of_bind
  exact (hp l₁ a h₁).append (hf a l₂ b h₂)

theorem ask {r : Req} {k : Ans r → Prog Req Ans α} (hr : ∀ x, piece [⟨r, x⟩])
    (hk : ∀ x, Made piece (k x)) : Made piece (ask r k) := by
  intro l a h
  cases h with
  | ask x h => exact .cons (hr x) (hk x _ a h)

theorem request {r : Req} (hr : ∀ x, piece [⟨r, x⟩]) :
    Made piece (request r : Prog Req Ans (Ans r)) :=
  .ask hr .ret

theorem of_piece (h : ∀ l a, Path p l a → piece l) : Made piece p := by
  intro l a hpath
  exact .single (h l a hpath)

end Made

end Pieces

section Judgements

variable {ρ : Type} (next : ρ → Asked Req Ans → Option ρ) (bad : Asked Req Ans → Bool)

/-- From `h` the automaton goes through every path of the program to what `Q`
says, unless something bad is on the path: then it gets stuck. -/
def Judged (h : ρ) (p : Prog Req Ans α) (Q : α → ρ) : Prop :=
  ∀ l a, Path p l a → l.foldlM next h = if l.any bad then none else some (Q a)

/-- From `h` the automaton gets stuck on every path. -/
def Rejected (h : ρ) (p : Prog Req Ans α) : Prop :=
  ∀ l a, Path p l a → l.foldlM next h = none

variable {next bad} {h : ρ} {p : Prog Req Ans α} {f : α → Prog Req Ans β}
  {Q : α → ρ} {R : β → ρ}

theorem Judged.ret {a : α} (ha : Q a = h) : Judged next bad h (ret a) Q := by
  intro l b hpath
  cases hpath
  simp [ha]

theorem Judged.bind (hp : Judged next bad h p Q)
    (hf : ∀ a, Judged next bad (Q a) (f a) R) : Judged next bad h (p >>= f) R := by
  intro l b hpath
  obtain ⟨l₁, a, l₂, rfl, hfirst, hsecond⟩ := hpath.of_bind
  rw [List.foldlM_append, hp l₁ a hfirst, List.any_append]
  cases l₁.any bad
  · exact hf a l₂ b hsecond
  · rfl

theorem Judged.ask {r : Req} {k : Ans r → Prog Req Ans α} {h' : Ans r → ρ}
    (hnext : ∀ x, next h ⟨r, x⟩ = some (h' x))
    (hgood : ∀ x, bad ⟨r, x⟩ = false → Judged next bad (h' x) (k x) Q)
    (hbad : ∀ x, bad ⟨r, x⟩ = true → Rejected next (h' x) (k x)) :
    Judged next bad h (ask r k) Q := by
  intro l a hpath
  cases hpath with
  | @ask _ _ l _ x hk =>
    rw [List.foldlM_cons, hnext, List.any_cons]
    cases hx : bad ⟨r, x⟩
    · exact hgood x hx l a hk
    · exact hbad x hx l a hk

theorem Judged.ask_good {r : Req} {k : Ans r → Prog Req Ans α} {h' : Ans r → ρ}
    (hnext : ∀ x, next h ⟨r, x⟩ = some (h' x)) (hgood : ∀ x, bad ⟨r, x⟩ = false)
    (hk : ∀ x, Judged next bad (h' x) (k x) Q) : Judged next bad h (Prog.ask r k) Q := by
  refine .ask hnext (fun x _ => hk x) (fun x hx => ?_)
  rw [hgood x] at hx
  cases hx

theorem Rejected.bind (hp : Rejected next h p) : Rejected next h (p >>= f) := by
  intro l b hpath
  obtain ⟨l₁, a, l₂, rfl, hfirst, _⟩ := hpath.of_bind
  rw [List.foldlM_append, hp l₁ a hfirst]
  rfl

/-- The automaton goes on after a question and gets stuck later. -/
theorem Rejected.later {r : Req} {k : Ans r → Prog Req Ans α} {h' : Ans r → ρ}
    (hnext : ∀ x, next h ⟨r, x⟩ = some (h' x)) (hk : ∀ x, Rejected next (h' x) (k x)) :
    Rejected next h (Prog.ask r k) := by
  intro l a hpath
  cases hpath with
  | @ask _ _ l _ x hrest =>
    rw [List.foldlM_cons, hnext]
    exact hk x l a hrest

theorem Rejected.here {r : Req} {k : Ans r → Prog Req Ans α} (hnext : ∀ x, next h ⟨r, x⟩ = none) :
    Rejected next h (Prog.ask r k) := by
  intro l a hpath
  cases hpath with
  | @ask _ _ l _ x hrest =>
    rw [List.foldlM_cons, hnext]
    rfl

/-- Pieces after each of which the automaton is back where it was. -/
theorem Pieces.foldlM {piece : List (Asked Req Ans) → Prop} {l : List (Asked Req Ans)}
    (hpiece : ∀ x, piece x → x.foldlM next h = if x.any bad then none else some h)
    (hl : Pieces piece l) : l.foldlM next h = if l.any bad then none else some h := by
  induction hl with
  | nil => rfl
  | @cons x l hx _ ih =>
    rw [List.foldlM_append, hpiece x hx, List.any_append]
    cases x.any bad
    · exact ih
    · rfl

end Judgements

section Execution

variable {σ ε : Type} (answer : σ → (r : Req) → Except ε (Ans r × σ))

/-- The path of a program whose questions are answered from a state, and the
state it ends in. -/
def run : Prog Req Ans α → σ → Except ε ((α × List (Asked Req Ans)) × σ)
  | ret a, s => .ok ((a, []), s)
  | ask r k, s => answer s r >>= fun x => (k x.1).run x.2 >>= fun y =>
    .ok ((y.1.1, ⟨r, x.1⟩ :: y.1.2), y.2)

/-- The value and the state at the end of that path. -/
def exec : Prog Req Ans α → σ → Except ε (α × σ)
  | ret a, s => .ok (a, s)
  | ask r k, s => answer s r >>= fun x => (k x.1).exec x.2

@[simp] theorem exec_ret (a : α) (s : σ) : exec answer (ret a) s = .ok (a, s) := rfl

@[simp] theorem exec_pure (a : α) (s : σ) :
    exec answer (pure a : Prog Req Ans α) s = .ok (a, s) := rfl

theorem exec_ask (r : Req) (k : Ans r → Prog Req Ans α) (s : σ) :
    exec answer (ask r k) s = answer s r >>= fun x => exec answer (k x.1) x.2 := rfl

theorem exec_bind (p : Prog Req Ans α) (f : α → Prog Req Ans β) (s : σ) :
    exec answer (p >>= f) s = exec answer p s >>= fun x => exec answer (f x.1) x.2 := by
  induction p generalizing s with
  | ret a => rfl
  | ask r k ih =>
    rw [ask_bind, exec_ask, exec_ask]
    cases answer s r with
    | error e => rfl
    | ok x => exact ih x.1 x.2

theorem run_bind (p : Prog Req Ans α) (f : α → Prog Req Ans β) (s : σ) :
    run answer (p >>= f) s = run answer p s >>= fun x => run answer (f x.1.1) x.2 >>= fun y =>
      .ok ((y.1.1, x.1.2 ++ y.1.2), y.2) := by
  induction p generalizing s with
  | ret a =>
    change run answer (f a) s = run answer (f a) s >>= fun y => .ok ((y.1.1, y.1.2), y.2)
    cases run answer (f a) s <;> rfl
  | ask r k ih =>
    rw [ask_bind]
    change (answer s r >>= fun x => run answer (k x.1 >>= f) x.2 >>= _) =
      (answer s r >>= fun x => run answer (k x.1) x.2 >>= _) >>= _
    cases answer s r with
    | error e => rfl
    | ok x =>
      change (run answer (k x.1 >>= f) x.2 >>= _) = (run answer (k x.1) x.2 >>= _) >>= _
      rw [ih]
      cases run answer (k x.1) x.2 with
      | error e => rfl
      | ok y =>
        change (run answer (f y.1.1) y.2 >>= _) >>= _ = run answer (f y.1.1) y.2 >>= _
        cases run answer (f y.1.1) y.2 <;> rfl

variable {answer} {p : Prog Req Ans α} {s t : σ} {a : α} {l : List (Asked Req Ans)}

theorem run_ask {r : Req} {k : Ans r → Prog Req Ans α} : run answer (ask r k) s = .ok ((a, l), t) ↔
    ∃ x l', answer s r = .ok x ∧ run answer (k x.1) x.2 = .ok ((a, l'), t) ∧
      l = ⟨r, x.1⟩ :: l' := by
  constructor
  · intro h
    obtain ⟨x, hx, h⟩ := bind_eq_ok.mp h
    obtain ⟨⟨⟨b, l'⟩, u⟩, hrest, h⟩ := bind_eq_ok.mp h
    cases h
    exact ⟨x, l', hx, hrest, rfl⟩
  · intro h
    obtain ⟨x, l', hx, hrest, rfl⟩ := h
    exact bind_eq_ok.mpr ⟨x, hx, bind_eq_ok.mpr ⟨_, hrest, rfl⟩⟩

theorem exec_of_run (h : run answer p s = .ok ((a, l), t)) : exec answer p s = .ok (a, t) := by
  induction p generalizing s l with
  | ret b =>
    cases h
    rfl
  | ask r k ih =>
    obtain ⟨x, l', hx, hrest, rfl⟩ := run_ask.mp h
    rw [exec_ask, hx]
    exact ih x.1 hrest

end Execution

section Observations

variable {σ ε : Type} (answer : σ → (r : Req) → Except ε (Ans r × σ)) (seen : Req → Bool)

/-- The questions on a path that are seen. -/
def observed (l : List (Asked Req Ans)) : List Req := (l.map Asked.req).filter seen

/-- From `s` the program returns `a` in `t`, and `L` is what is seen of it. -/
def Shows (p : Prog Req Ans α) (s : σ) (L : List Req) (a : α) (t : σ) : Prop :=
  ∃ l, run answer p s = .ok ((a, l), t) ∧ observed seen l = L

variable {answer} {seen} {p : Prog Req Ans α} {f : α → Prog Req Ans β} {r : Req}
  {k : Ans r → Prog Req Ans α} {s t u : σ} {a b : α} {x : Ans r} {L : List Req}

theorem observed_append (l l' : List (Asked Req Ans)) :
    observed seen (l ++ l') = observed seen l ++ observed seen l' := by
  simp [observed]

theorem shows_ret : Shows answer seen (ret b) s L a t ↔ b = a ∧ s = t ∧ L = [] := by
  constructor
  · intro h
    obtain ⟨l, hrun, hl⟩ := h
    cases hrun
    exact ⟨rfl, rfl, hl.symm⟩
  · intro h
    obtain ⟨rfl, rfl, rfl⟩ := h
    exact ⟨[], rfl, rfl⟩

theorem shows_ask_unseen (hr : seen r = false) : Shows answer seen (ask r k) s L a t ↔
    ∃ x, answer s r = .ok x ∧ Shows answer seen (k x.1) x.2 L a t := by
  have hobserved : ∀ (x : Ans r) (l : List (Asked Req Ans)),
      observed seen (⟨r, x⟩ :: l) = observed seen l :=
    fun x l => List.filter_cons_of_neg (by simp [hr])
  constructor
  · intro h
    obtain ⟨l, hrun, hl⟩ := h
    obtain ⟨x, l', hx, hrest, rfl⟩ := run_ask.mp hrun
    exact ⟨x, hx, l', hrest, (hobserved x.1 l').symm.trans hl⟩
  · intro h
    obtain ⟨x, hx, l, hrest, hl⟩ := h
    exact ⟨_, run_ask.mpr ⟨x, l, hx, hrest, rfl⟩, (hobserved x.1 l).trans hl⟩

theorem shows_ask_answered (hr : seen r = false) (hx : answer s r = .ok (x, u)) :
    Shows answer seen (ask r k) s L a t ↔ Shows answer seen (k x) u L a t := by
  rw [shows_ask_unseen hr]
  constructor
  · intro h
    obtain ⟨y, hy, hrest⟩ := h
    cases hx.symm.trans hy
    exact hrest
  · exact fun h => ⟨(x, u), hx, h⟩

theorem shows_ask_seen (hr : seen r = true) (hx : answer s r = .ok (x, u)) :
    Shows answer seen (ask r k) s L a t ↔ ∃ L', L = r :: L' ∧ Shows answer seen (k x) u L' a t := by
  have hobserved : ∀ (x : Ans r) (l : List (Asked Req Ans)),
      observed seen (⟨r, x⟩ :: l) = r :: observed seen l :=
    fun x l => List.filter_cons_of_pos hr
  constructor
  · intro h
    obtain ⟨l, hrun, hl⟩ := h
    obtain ⟨y, l', hy, hrest, rfl⟩ := run_ask.mp hrun
    cases hx.symm.trans hy
    exact ⟨_, hl.symm.trans (hobserved x l'), l', hrest, rfl⟩
  · intro h
    obtain ⟨L', rfl, l, hrest, rfl⟩ := h
    exact ⟨_, run_ask.mpr ⟨(x, u), l, hx, hrest, rfl⟩, hobserved x l⟩

theorem shows_ask_seen_cons (hr : seen r = true) (hx : answer s r = .ok (x, u)) :
    Shows answer seen (ask r k) s (r :: L) a t ↔ Shows answer seen (k x) u L a t := by
  rw [shows_ask_seen hr hx]
  constructor
  · intro h
    obtain ⟨L', hL, hrest⟩ := h
    cases hL
    exact hrest
  · exact fun h => ⟨L, rfl, h⟩

theorem shows_bind {b : β} : Shows answer seen (p >>= f) s L b t ↔ ∃ a u L₁ L₂,
    Shows answer seen p s L₁ a u ∧ Shows answer seen (f a) u L₂ b t ∧ L = L₁ ++ L₂ := by
  unfold Shows
  rw [run_bind]
  constructor
  · intro h
    obtain ⟨l, hrun, rfl⟩ := h
    obtain ⟨⟨⟨a, l₁⟩, u⟩, hp, hrest⟩ := bind_eq_ok.mp hrun
    obtain ⟨⟨⟨b', l₂⟩, v⟩, hf, heq⟩ := bind_eq_ok.mp hrest
    cases heq
    exact ⟨a, u, _, _, ⟨l₁, hp, rfl⟩, ⟨l₂, hf, rfl⟩, observed_append l₁ l₂⟩
  · intro h
    obtain ⟨a, u, _, _, ⟨l₁, hp, rfl⟩, ⟨l₂, hf, rfl⟩, rfl⟩ := h
    refine ⟨l₁ ++ l₂, ?_, observed_append l₁ l₂⟩
    rw [hp]
    change (run answer (f a) u >>= _) = _
    rw [hf]
    rfl

theorem Shows.bind {b : β} {L' : List Req} (hp : Shows answer seen p s L a u)
    (hf : Shows answer seen (f a) u L' b t) : Shows answer seen (p >>= f) s (L ++ L') b t :=
  shows_bind.mpr ⟨a, u, L, L', hp, hf, rfl⟩

end Observations

section Watched

variable {σ ε τ : Type} (answer : σ → (r : Req) → Except ε (Ans r × σ))
  (serve : τ → Req → Option τ)

/-- A second part of the state is asked first and may not let the program go on: the
execution ends with `none` there. -/
def watched (s : σ × τ) (r : Req) : Except (Option ε) (Ans r × σ × τ) :=
  match serve s.2 r with
  | none => .error none
  | some w =>
    match answer s.1 r with
    | .error e => .error (some e)
    | .ok x => .ok (x.1, x.2, w)

variable {answer} {serve} {p : Prog Req Ans α} {s t : σ} {a : α} {l : List (Asked Req Ans)}
  {seen : Req → Bool} {L : List Req}

theorem exec_watched (h : run answer p s = .ok ((a, l), t)) (w : τ) :
    exec (watched answer serve) p (s, w) =
      ((l.map Asked.req).foldlM serve w).elim (.error none) fun w' => .ok (a, t, w') := by
  induction p generalizing s l w with
  | ret b =>
    cases h
    rfl
  | ask r k ih =>
    obtain ⟨x, l', hx, hrest, rfl⟩ := run_ask.mp h
    rw [exec_ask, List.map_cons, List.foldlM_cons]
    unfold watched
    dsimp only
    rw [hx]
    cases serve w r with
    | none => rfl
    | some w' => exact ih x.1 hrest w'

/-- Only the questions that change the second part have to be seen. -/
theorem foldlM_observed (hseen : ∀ w r, seen r = false → serve w r = some w)
    (l : List (Asked Req Ans)) (w : τ) :
    (observed seen l).foldlM serve w = (l.map Asked.req).foldlM serve w := by
  induction l generalizing w with
  | nil => rfl
  | cons e l ih =>
    rw [List.map_cons, List.foldlM_cons]
    cases he : seen e.req with
    | true =>
      have hcons : observed seen (e :: l) = e.req :: observed seen l := List.filter_cons_of_pos he
      rw [hcons, List.foldlM_cons]
      exact congrArg _ (funext ih)
    | false =>
      have hcons : observed seen (e :: l) = observed seen l :=
        List.filter_cons_of_neg (by rw [he]; exact Bool.false_ne_true)
      rw [hcons, hseen w e.req he]
      exact ih w

theorem Shows.exec_watched (hseen : ∀ w r, seen r = false → serve w r = some w)
    (h : Shows answer seen p s L a t) (w : τ) : exec (watched answer serve) p (s, w) =
      (L.foldlM serve w).elim (.error none) fun w' => .ok (a, t, w') := by
  obtain ⟨l, hrun, rfl⟩ := h
  rw [foldlM_observed hseen]
  exact Prog.exec_watched hrun w

end Watched

end Prog

end FiberAsync.Programs
