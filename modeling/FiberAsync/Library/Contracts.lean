import FiberAsync.Library.Programs

/-!
# What a program may ask

A contract says which questions are allowed after which questions and answers. A
program keeps to it when, whatever it is answered, all that it asks is allowed;
the postcondition reads the value that is returned and what has been asked. What
is left of a program in the middle of a path keeps to the contract as well, so
that programs can be executed in turns.
-/

namespace FiberAsync.Programs.Prog

set_option autoImplicit false

variable {Req : Type} {Ans : Req → Type} {α β : Type}

/-- The program keeps to the contract from `l` on. -/
def Keeps (allowed : List (Asked Req Ans) → Req → Prop) :
    Prog Req Ans α → List (Asked Req Ans) → (α → List (Asked Req Ans) → Prop) → Prop
  | ret a, l, Q => Q a l
  | ask r k, l, Q => allowed l r ∧ ∀ x, Keeps allowed (k x) (l ++ [⟨r, x⟩]) Q

namespace Keeps

variable {allowed : List (Asked Req Ans) → Req → Prop} {p : Prog Req Ans α}
  {f : α → Prog Req Ans β} {l : List (Asked Req Ans)} {r : Req}
  {Q R : α → List (Asked Req Ans) → Prop} {S : β → List (Asked Req Ans) → Prop}

theorem ret {a : α} (h : Q a l) : Keeps allowed (ret a) l Q := h

theorem ask {k : Ans r → Prog Req Ans α} (hr : allowed l r)
    (hk : ∀ x, Keeps allowed (k x) (l ++ [⟨r, x⟩]) Q) : Keeps allowed (ask r k) l Q := ⟨hr, hk⟩

theorem request {Q : Ans r → List (Asked Req Ans) → Prop} (hr : allowed l r)
    (hQ : ∀ x, Q x (l ++ [⟨r, x⟩])) : Keeps allowed (request r) l Q := ⟨hr, hQ⟩

/-- A postcondition may also read that nothing asked before is forgotten. -/
theorem imp (h : Keeps allowed p l Q) (hQ : ∀ a l', l <+: l' → Q a l' → R a l') :
    Keeps allowed p l R := by
  induction p generalizing l with
  | ret a => exact hQ a l (List.prefix_refl l) h
  | ask r k ih =>
    refine ⟨h.1, fun x => ih x (h.2 x) fun a l' hl => ?_⟩
    exact hQ a l' ((List.prefix_append l _).trans hl)

theorem bind (hp : Keeps allowed p l R)
    (hf : ∀ a l', l <+: l' → R a l' → Keeps allowed (f a) l' S) :
    Keeps allowed (p >>= f) l S := by
  induction p generalizing l with
  | ret a => exact hf a l (List.prefix_refl l) hp
  | ask r k ih =>
    refine ⟨hp.1, fun x => ih x (hp.2 x) fun a l' hl => ?_⟩
    exact hf a l' ((List.prefix_append l _).trans hl)

end Keeps

end FiberAsync.Programs.Prog
