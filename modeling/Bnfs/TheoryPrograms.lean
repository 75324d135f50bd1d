import Mathlib.Data.Option.Basic
import Mathlib.Order.Defs.Unbundled
import Mathlib.Tactic.SplitIfs

/-! Programs over a state and what they keep. A preorder on states says what a program may change; a
program keeps it when its final state is always related to its initial one. The rules follow the way
programs are put together, so a property of a long program comes down to its calls. A program may also give a log of
its events, or consist of commands, each of which is carried out at once and replies with a value, or faults; such a
program can be run as a whole, or command by command, with those of other programs in between. -/

namespace Programs

variable {State α β : Type}

/-- However it is started, the program leads to a related state. -/
def Keeps (R : State → State → Prop) (x : StateM State α) : Prop := ∀ s, R s (x s).2

variable {R : State → State → Prop}

theorem Keeps.mono {S : State → State → Prop} {x : StateM State α} (h : Keeps R x)
    (hle : ∀ s t, R s t → S s t) : Keeps S x :=
  fun s => hle _ _ (h s)

variable [IsPreorder State R]

theorem Keeps.pure (a : α) : Keeps R (pure a : StateM State α) := fun s => refl_of R s

theorem Keeps.bind {x : StateM State α} {f : α → StateM State β} (hx : Keeps R x)
    (hf : ∀ a, Keeps R (f a)) : Keeps R (x >>= f) :=
  fun s => trans_of R (hx s) (hf _ _)

omit [IsPreorder State R] in
theorem Keeps.ite {c : Prop} [Decidable c] {x y : StateM State α} (hx : c → Keeps R x)
    (hy : ¬ c → Keeps R y) : Keeps R (if c then x else y) := by
  split_ifs with h
  · exact hx h
  · exact hy h

variable {Event Arg : Type}

/-- A program over a state that also gives the log of its own events. -/
def Logged (State Event α : Type) : Type := State → List Event × (α × State)

instance : Monad (Logged State Event) where
  pure a := fun s => ([], (a, s))
  bind x f := fun s => ((x s).1 ++ (f (x s).2.1 (x s).2.2).1, (f (x s).2.1 (x s).2.2).2)

/-- A program that has nothing to log. -/
def silent (x : StateM State α) : Logged State Event α := fun s => ([], x s)

/-- A program whose result says what to log. -/
def logging (events : α → List Event) (x : StateM State α) : Logged State Event α := fun s => (events (x s).1, x s)

/-- A call that notes what it is called with. -/
def noting (note : Arg → Event) (x : Arg → StateM State α) (arg : Arg) : Logged State Event α := fun s =>
  ([note arg], x arg s)

/-- A call of two arguments. -/
def noting₂ (note : Arg → Event) (x : Arg → Arg → StateM State α) (first second : Arg) : Logged State Event α :=
  fun s => ([note first, note second], x first second s)

theorem pure_log (a : α) (s : State) : (pure a : Logged State Event α) s = ([], (a, s)) := rfl

theorem bind_log (x : Logged State Event α) (f : α → Logged State Event β) (s : State) :
    (x >>= f) s = ((x s).1 ++ (f (x s).2.1 (x s).2.2).1, (f (x s).2.1 (x s).2.2).2) := rfl

/-- Without the log it is the given program. -/
def Erases (y : Logged State Event α) (x : StateM State α) : Prop := ∀ s, (y s).2 = x s

namespace Erases

theorem pure (a : α) : Erases (pure a : Logged State Event α) (pure a) := fun _ => rfl

theorem silent (x : StateM State α) : Erases (silent x : Logged State Event α) x := fun _ => rfl

theorem logging (events : α → List Event) (x : StateM State α) : Erases (logging events x) x := fun _ => rfl

theorem noting (note : Arg → Event) (x : Arg → StateM State α) (arg : Arg) : Erases (noting note x arg) (x arg) :=
  fun _ => rfl

theorem bind {y : Logged State Event α} {x : StateM State α} {g : α → Logged State Event β} {f : α → StateM State β}
    (hx : Erases y x) (hf : ∀ a, Erases (g a) (f a)) : Erases (y >>= g) (x >>= f) := fun s => by
  rw [bind_log, hx s]
  exact hf (x s).1 (x s).2

theorem ite {c : Prop} [Decidable c] {y y' : Logged State Event α} {x x' : StateM State α} (h : c → Erases y x)
    (h' : ¬ c → Erases y' x') : Erases (if c then y else y') (if c then x else x') := by
  split_ifs with hc
  · exact h hc
  · exact h' hc

end Erases

end Programs

namespace Commands

/-- A program that ends with an `α`. What it does next depends on what the last command replied. -/
inductive Prog {C : Type} (R : C → Type) (α : Type) : Type where
  | done (a : α)
  | fault
  | command (c : C) (next : R c → Prog R α)

variable {C : Type} {R : C → Type} {α β σ : Type}

protected def Prog.bind : Prog R α → (α → Prog R β) → Prog R β
  | .done a, f => f a
  | .fault, _ => .fault
  | .command c next, f => .command c fun r => (next r).bind f

instance : Monad (Prog R) where
  pure := .done
  bind := .bind

/-- What a command does to a state. -/
abbrev Exec (R : C → Type) (σ : Type) := (c : C) → σ → Option (R c × σ)

/-- The program as a whole. -/
def Prog.run (exec : Exec R σ) : Prog R α → σ → Option (α × σ)
  | .done a, s => some (a, s)
  | .fault, _ => none
  | .command c next, s => (exec c s).bind fun r => (next r.1).run exec r.2

theorem run_bind (exec : Exec R σ) (p : Prog R α) (f : α → Prog R β) (s : σ) :
    (p >>= f).run exec s = (p.run exec s).bind fun r => (f r.1).run exec r.2 := by
  change (p.bind f).run exec s = _
  induction p generalizing s with
  | done a => rfl
  | fault => rfl
  | command c next ih =>
      rw [Prog.bind, Prog.run, Prog.run, Option.bind_assoc]
      congr 1
      funext r
      exact ih r.1 r.2

end Commands
