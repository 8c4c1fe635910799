import Mathlib.Data.List.Basic

/-!
# Programs over calls

A program is a tree of calls to an environment (a kernel, a network) with one continuation for
each possible reply, and it ends with a result or an error. The same tree is run to the end, run
with some of its calls failing, or cut short by a kill, so a property of the code can speak about
every point at which it may stop.
-/

namespace Effects

/-- A program with result `α` and errors `ε` that makes calls `c : C` and is answered in `R c`. -/
inductive Prog {C : Type} (R : C → Type) (ε α : Type) : Type where
  /-- The program has ended. -/
  | done (r : Except ε α)
  /-- One call; the rest of the program depends on the reply. -/
  | call (c : C) (next : R c → Prog R ε α)

/-- What a call does to the state of the environment. -/
structure Machine {C : Type} (R : C → Type) (S : Type) where
  /-- The reply of a call and the state it leaves. -/
  exec : (c : C) → S → R c × S
  /-- The states that a kill in the middle of a call may leave. -/
  torn : C → S → S → Prop

/-- The machine that also keeps the calls it has answered. -/
def Machine.recording {C : Type} {R : C → Type} {S : Type} (M : Machine R S) : Machine R (S × List C) where
  exec c s := ((M.exec c s.1).1, (M.exec c s.1).2, s.2 ++ [c])
  torn c s t := M.torn c s.1 t.1 ∧ t.2 = s.2 ++ [c]

namespace Prog

variable {C : Type} {R : C → Type} {S E ε ε' α β : Type}

/-- Run one program and then, unless it ended with an error, another that depends on its result. -/
def bind : Prog R ε α → (α → Prog R ε β) → Prog R ε β
  | .done (.ok a), f => f a
  | .done (.error e), _ => .done (.error e)
  | .call c next, f => .call c fun r => (next r).bind f

instance : Monad (Prog R ε) where
  pure a := .done (.ok a)
  bind := Prog.bind

/-- End with an error. -/
def fail (e : ε) : Prog R ε α := .done (.error e)

/-- The program that makes one call and returns its reply. -/
def request (c : C) : Prog R ε (R c) := .call c fun r => .done (.ok r)

/-- Run a program and hand over its error, if it ends with one, as a result. -/
def attempt : Prog R ε α → Prog R ε' (Except ε α)
  | .done r => .done (.ok r)
  | .call c next => .call c fun r => (next r).attempt

/-- End with the error of a pure computation, or with its result. -/
def lift (r : Except ε α) : Prog R ε α := .done r

/-- Run a program to its end. -/
def run (M : Machine R S) : Prog R ε α → S → Except ε α × S
  | .done r, s => (r, s)
  | .call c next, s => (next (M.exec c s).1).run M (M.exec c s).2

/-- The state after the first calls of a program. -/
def after (M : Machine R S) : Nat → Prog R ε α → S → S
  | n + 1, .call c next, s => (next (M.exec c s).1).after M n (M.exec c s).2
  | _, _, s => s

/-- Run a program to its end while some calls fail: the plan says for each call in turn whether
it fails, and with what error. A call that fails leaves the state alone; after the end of the plan
no call fails. The outcome comes with what is left of the plan. -/
def runPlan (M : Machine R S) (refuse : (c : C) → E → R c) :
    Prog R ε α → List (Option E) → S → Except ε α × S × List (Option E)
  | .done r, plan, s => (r, s, plan)
  | .call c next, some e :: plan, s => (next (refuse c e)).runPlan M refuse plan s
  | .call c next, none :: plan, s => (next (M.exec c s).1).runPlan M refuse plan (M.exec c s).2
  | .call c next, [], s => (next (M.exec c s).1).runPlan M refuse [] (M.exec c s).2

/-- Some run of the program, in which some calls may fail, ends well. -/
def Succeeds (M : Machine R S) (refuse : (c : C) → E → R c) (p : Prog R ε α) (s : S) (a : α) (t : S) :
    Prop :=
  ∃ plan rest, p.runPlan M refuse plan s = (.ok a, t, rest)

/-- Every call that the program may make has a property. -/
def Only (P : C → Prop) : Prog R ε α → Prop
  | .done _ => True
  | .call c next => P c ∧ ∀ r, (next r).Only P

/-- As long as all replies have a property, every call that the program makes has one, and so has its
result. -/
def Obeys (P : C → Prop) (G : (c : C) → R c → Prop) (Q : α → Prop) : Prog R ε α → Prop
  | .done r => ∀ a, r = .ok a → Q a
  | .call c next => P c ∧ ∀ r, G c r → (next r).Obeys P G Q

/-- In states with a property, calls of a kind keep it and have replies of a kind, also when they are
refused. -/
structure Upholds (M : Machine R S) (refuse : (c : C) → E → R c) (P : C → Prop) (G : (c : C) → R c → Prop)
    (I : S → Prop) : Prop where
  answered : ∀ c s, P c → I s → G c (M.exec c s).1 ∧ I (M.exec c s).2
  torn : ∀ c s t, P c → I s → M.torn c s t → I t
  refused : ∀ c e, P c → G c (refuse c e)

/-- `Cut M p s s'`: a kill at some point of `p`, started in `s`, may leave `s'`. -/
inductive Cut (M : Machine R S) : Prog R ε α → S → S → Prop where
  /-- Killed before the next call, or after the last one. -/
  | here (p : Prog R ε α) (s : S) : Cut M p s s
  /-- Killed in the middle of the next call. -/
  | torn {c : C} {next : R c → Prog R ε α} {s s' : S} (h : M.torn c s s') :
      Cut M (.call c next) s s'
  /-- Killed after the next call has been answered. -/
  | later {c : C} {next : R c → Prog R ε α} {s s' : S}
      (h : Cut M (next (M.exec c s).1) (M.exec c s).2 s') : Cut M (.call c next) s s'

/-- `Safe M I p Q s`: started in `s`, the program `p` leaves a state with `I` wherever it is killed,
and ends with an outcome and a state related by `Q`. -/
def Safe (M : Machine R S) (I : S → Prop) (p : Prog R ε α) (Q : Except ε α → S → Prop) (s : S) :
    Prop :=
  (∀ s', Cut M p s s' → I s') ∧ Q (p.run M s).1 (p.run M s).2

/-- A run of the program ends with an outcome and a state that are related. -/
def Ends (M : Machine R S) (p : Prog R ε α) (Q : Except ε α → S → Prop) (s : S) : Prop :=
  Q (p.run M s).1 (p.run M s).2

/-- A run of the program, in which any call may be refused, ends with a result and a state that are
related if it ends well. -/
def Returns (M : Machine R S) (refuse : (c : C) → E → R c) (p : Prog R ε α) (Q : α → S → Prop) (s : S) :
    Prop :=
  ∀ a t, Succeeds M refuse p s a t → Q a t

/-- `Visits M refuse p s s'`: a run of `p` from `s`, in which any call may be refused, may be in `s'`
at some point, also in the middle of a call. -/
inductive Visits (M : Machine R S) (refuse : (c : C) → E → R c) : Prog R ε α → S → S → Prop where
  /-- Before the next call, or after the last one. -/
  | here (p : Prog R ε α) (s : S) : Visits M refuse p s s
  /-- In the middle of the next call. -/
  | torn {c : C} {next : R c → Prog R ε α} {s s' : S} (h : M.torn c s s') :
      Visits M refuse (.call c next) s s'
  /-- After the next call has been refused. -/
  | refused {c : C} {next : R c → Prog R ε α} {s s' : S} (e : E)
      (h : Visits M refuse (next (refuse c e)) s s') : Visits M refuse (.call c next) s s'
  /-- After the next call has been answered. -/
  | answered {c : C} {next : R c → Prog R ε α} {s s' : S}
      (h : Visits M refuse (next (M.exec c s).1) (M.exec c s).2 s') :
      Visits M refuse (.call c next) s s'

/-- A property of the state holds at every point of every run in which any call may be refused. -/
def Throughout (M : Machine R S) (refuse : (c : C) → E → R c) (I : S → Prop) (p : Prog R ε α) (s : S) :
    Prop :=
  ∀ s', Visits M refuse p s s' → I s'

/-- A property of the state holds at every point of every run in which any call may be refused, and a run that ends
well ends with a result and a state that are related. -/
structure Sustains (M : Machine R S) (refuse : (c : C) → E → R c) (I : S → Prop) (p : Prog R ε α)
    (Q : α → S → Prop) (s : S) : Prop where
  throughout : Throughout M refuse I p s
  returns : Returns M refuse p Q s

/-- The program stops with an error as soon as a call is refused. -/
def Strict (refuse : (c : C) → E → R c) : Prog R ε α → Prop
  | .done _ => True
  | .call c next =>
    (∀ e, ∃ stop, next (refuse c e) = .done (.error stop)) ∧ ∀ r, (next r).Strict refuse

/-- Every error that a run of the program may end with has a property, whichever calls are refused. -/
def ErrorsIn (M : Machine R S) (refuse : (c : C) → E → R c) (P : ε → Prop) (p : Prog R ε α) : Prop :=
  ∀ s plan e t rest, p.runPlan M refuse plan s = (.error e, t, rest) → P e

/-- Every run of the program, in which any call may be refused, ends with an outcome and a state that are
related. -/
def Concludes (M : Machine R S) (refuse : (c : C) → E → R c) (p : Prog R ε α) (Q : Except ε α → S → Prop)
    (s : S) : Prop :=
  ∀ plan r t rest, p.runPlan M refuse plan s = (r, t, rest) → Q r t

/-- What the end of a first part has to be for the second part to end as required. -/
def Then (M : Machine R S) (f : α → Prog R ε β) (Q : Except ε β → S → Prop) : Except ε α → S → Prop
  | .ok a, s => (f a).Ends M Q s
  | .error e, s => Q (.error e) s

end Prog

end Effects
