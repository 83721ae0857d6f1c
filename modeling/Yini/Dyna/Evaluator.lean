import Yini.Dyna.Machine
import Yini.Dyna.Tree
import Yini.Grammar.Document

/-!
Evaluating deferred expressions.  There are two ways: on the tree of the expression, or by its
program.  An `Evaluator` keeps the programs that it has made, by the text of the expression, so that
an expression is read only once.  Looking a program up and keeping one are steps of their own.
-/

namespace Yini

/-- How an expression is evaluated. -/
inductive Strategy where
  | treeWalk
  | bytecode
deriving DecidableEq

/-- The program of the text of an expression. -/
def Program.ofSource (text : String) : Except Fault Program := do
  Program.ofValue (← Value.ofSource text)

/-- The value of the text of an expression, on its tree. -/
def evaluateTree (text : String) (c : Context) : Except Fault Value := do
  (← Value.ofSource text).evaluate c

/-- The programs made so far. -/
structure Evaluator where
  programs : Table Program := ∅

namespace Evaluator

/-- The evaluator with one more program kept. -/
def keep (e : Evaluator) (text : String) (p : Program) : Evaluator := ⟨e.programs.insert text p⟩

/-- The program of an expression: the one that was kept, or a new one, which is kept then. -/
def program (e : Evaluator) (text : String) : Except Fault Program × Evaluator :=
  match e.programs.get? text with
  | some p => (.ok p, e)
  | none =>
    match Program.ofSource text with
    | .ok p => (.ok p, e.keep text p)
    | .error fault => (.error fault, e)

/-- The value of the text of an expression in a context. -/
def evaluate (e : Evaluator) (text : String) (c : Context) (s : Strategy) :
    Except Fault Value × Evaluator :=
  match s with
  | .treeWalk => (evaluateTree text c, e)
  | .bytecode =>
    match e.program text with
    | (.ok p, e) => (p.run c, e)
    | (.error fault, e) => (.error fault, e)

/-- The value of a deferred expression in a context.  Any other value is its own value. -/
def evaluateDyna (e : Evaluator) (v : Value) (c : Context) (s : Strategy) :
    Except Fault Value × Evaluator :=
  match v with
  | .atom (.dyna text) _ => e.evaluate text c s
  | v => (.ok v, e)

/-- How many programs are kept. -/
def size (e : Evaluator) : Nat := e.programs.size

/-- The evaluator without programs. -/
def clear (_ : Evaluator) : Evaluator := ⟨∅⟩

end Evaluator

end Yini
