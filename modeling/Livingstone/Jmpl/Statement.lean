import Livingstone.Jmpl.Logic

/-! Statements of the JMPL compiler (`code/constraint`) and the logic expressions that
`compile` builds for them. The logic expressions are objects of a heap: `And` and `Or`
are changed in place by the destructive operations, and one object may stand under
several others. -/

namespace Livingstone
namespace Jmpl

abbrev Ref := ℕ

inductive Node where
  | equality (e : Equality)
  | trueExpression
  | falseExpression
  | andExpression (subExpressions : List Ref)
  | orExpression (subExpressions : List Ref)
  | notExpression (expression : Ref)
  deriving Repr

abbrev Heap := List Node

/-- Java code that makes and changes logic expressions. -/
abbrev Build := StateT Heap (Except String)

namespace Build

def new (n : Node) : Build Ref := fun h => .ok (h.length, h ++ [n])

def get (r : Ref) : Build Node := fun h =>
  match h[r]? with
  | none => .error "NullPointerException"
  | some n => .ok (n, h)

def set (r : Ref) (n : Node) : Build Unit := fun h => .ok ((), h.set r n)

/-- `conjunction(LogicExpression)`, which `TrueExpression` overrides. -/
def conjunction (r x : Ref) : Build Ref := do
  match ← get r with
  | .trueExpression => return x
  | _ => new (.andExpression [r, x])

/-- `disjunction(LogicExpression)`, which `FalseExpression` overrides. -/
def disjunction (r x : Ref) : Build Ref := do
  match ← get r with
  | .falseExpression => return x
  | _ => new (.orExpression [r, x])

def destructiveConjunction (r x : Ref) : Build Ref := do
  match ← get r with
  | .andExpression xs =>
    set r (.andExpression (xs ++ [x]))
    return r
  | _ => conjunction r x

def destructiveDisjunction (r x : Ref) : Build Ref := do
  match ← get r with
  | .orExpression xs =>
    set r (.orExpression (xs ++ [x]))
    return r
  | _ => disjunction r x

/-- A deep copy; the first argument bounds the depth of the recursion. -/
def copy : ℕ → Ref → Build Ref
  | 0, _ => throw "StackOverflowError"
  | n + 1, r => do
    match ← get r with
    | .equality e => new (.equality e)
    | .trueExpression => return r
    | .falseExpression => return r
    | .andExpression xs => do
      let ys ← xs.mapM (copy n)
      new (.andExpression ys)
    | .orExpression xs => do
      let ys ← xs.mapM (copy n)
      new (.orExpression ys)
    | .notExpression x => do
      let y ← copy n x
      new (.notExpression y)

def negation (depth : ℕ) (r : Ref) : Build Ref := do
  match ← get r with
  | .trueExpression => new .falseExpression
  | .falseExpression => new .trueExpression
  | .notExpression x => copy depth x
  | _ => new (.notExpression r)

/-- The members are built one after another and added to the expression. -/
def addAll (add : Ref → Ref → Build Ref) (r : Ref) (members : List (Build Ref)) : Build Ref :=
  members.foldlM (fun r m => do add r (← m)) r

def collect (add : Ref → Ref → Build Ref) (n : Node) (members : List (Build Ref)) : Build Ref := do
  let r ← new n
  addAll add r members

end Build

open Build

inductive Expression where
  | andExpression (expressions : List Expression)
  | orExpression (expressions : List Expression)
  | negationExpression (subExpression : Expression)
  | equalityExpression (arguments : List String)
  | inequalityExpression (arguments : List String)

mutual

inductive Statement where
  | expression (e : Expression)
  | statementGroup (statements : List Statement)
  | ifStatement (test : Expression) (thenStatement : Statement)
      (elseStatement : Option Statement)
  | iffStatement (test : Expression) (thenStatement : Statement)
  | switchStatement (key : String) (caseGroups : List CaseGroup)

inductive CaseGroup where
  | mk (names : List String) (statements : List Statement)

end

/-- What `refreshCache` of an equality or an inequality refuses. -/
def cacheArguments (arguments : List String) : Except String Unit :=
  match arguments with
  | [] => .error
      "syntax error: constraint must have at least two arguments\n  a constraint has empty arguments"
  | [_] => .error
      "syntax error: constraint must have at least two arguments\n  a constraint has only one argument"
  | _ => .ok ()

namespace Expression

mutual

def cache : Expression → Except String Unit
  | .andExpression es => cacheAll es
  | .orExpression es => cacheAll es
  | .negationExpression e => cache e
  | .equalityExpression arguments => cacheArguments arguments
  | .inequalityExpression arguments => cacheArguments arguments

def cacheAll : List Expression → Except String Unit
  | [] => .ok ()
  | e :: es => do
    cache e
    cacheAll es

end

/-- `refreshExpression` of an equality: the first argument equals each of the others. -/
def equalities (arguments : List String) : List (Build Ref) :=
  match arguments with
  | [] => []
  | left :: rest => rest.map fun argument => new (.equality ⟨left, argument⟩)

/-- Two of the arguments in the order of the two loops. -/
def argumentPairs : List String → List (String × String)
  | [] => []
  | left :: rest => rest.map (fun right => (left, right)) ++ argumentPairs rest

def inequality (p : String × String) : Build Ref := do
  let e ← new (.equality ⟨p.1, p.2⟩)
  new (.notExpression e)

mutual

def refreshExpression : Expression → Build Ref
  | .andExpression es => collect destructiveConjunction (.andExpression []) (refreshAll es)
  | .orExpression es => collect destructiveDisjunction (.orExpression []) (refreshAll es)
  | .negationExpression e => do
    let x ← refreshExpression e
    new (.notExpression x)
  | .equalityExpression arguments =>
    collect destructiveConjunction (.andExpression []) (equalities arguments)
  | .inequalityExpression arguments =>
    collect destructiveConjunction (.andExpression []) ((argumentPairs arguments).map inequality)

def refreshAll : List Expression → List (Build Ref)
  | [] => []
  | e :: es => refreshExpression e :: refreshAll es

end

end Expression

namespace Statement

mutual

def cache : Statement → Except String Unit
  | .expression e => e.cache
  | .statementGroup ss => cacheAll ss
  | .ifStatement test thenS none => do
    test.cache
    cache thenS
  | .ifStatement test thenS (some elseS) => do
    test.cache
    cache thenS
    cache elseS
  | .iffStatement test thenS => do
    test.cache
    cache thenS
  | .switchStatement _ cs => cacheCases cs

def cacheAll : List Statement → Except String Unit
  | [] => .ok ()
  | s :: ss => do
    cache s
    cacheAll ss

def cacheCases : List CaseGroup → Except String Unit
  | [] => .ok ()
  | .mk _ ss :: cs => do
    cacheAll ss
    cacheCases cs

end

/-- `AbstractIfStatement.refreshExpression`; the expressions of the test and of the `then` part
are used again by its callers. -/
def abstractIf (depth : ℕ) (test thenS : Build Ref) : Build (Ref × Ref × Ref) := do
  let r ← new (.orExpression [])
  let t ← test
  let r ← destructiveDisjunction r (← negation depth t)
  let s ← thenS
  let r ← destructiveDisjunction r s
  return (r, t, s)

/-- The second disjunction of an if with an else and of an iff. -/
def otherImplication (r : Ref) (left : Build Ref) (right : Ref) : Build Ref := do
  let o ← new (.orExpression [])
  let _ ← destructiveDisjunction o (← left)
  let _ ← destructiveDisjunction o right
  destructiveConjunction r o

/-- What `CaseGroup.compileStatement` adds for one name. -/
def caseOf (key : String) (s : Ref) (name : String) : Build Ref := do
  let e ← new (.equality ⟨key, name⟩)
  let n ← new (.notExpression e)
  let o ← new (.orExpression [])
  let _ ← destructiveDisjunction o n
  destructiveDisjunction o s

def compileStatement (key : String) (names : List String) (r : Ref) (statement : Build Ref) :
    Build Ref := do
  let s ← statement
  addAll destructiveConjunction r (names.map (caseOf key s))

def compileCaseGroup (key : String) (names : List String) (statements : List (Build Ref)) :
    Build Ref := do
  let r ← new (.andExpression [])
  statements.foldlM (compileStatement key names) r

mutual

def refreshExpression (depth : ℕ) : Statement → Build Ref
  | .expression e => e.refreshExpression
  | .statementGroup ss => collect destructiveConjunction (.andExpression []) (refreshAll depth ss)
  | .ifStatement test thenS none => do
    let (r, _, _) ← abstractIf depth test.refreshExpression (refreshExpression depth thenS)
    return r
  | .ifStatement test thenS (some elseS) => do
    let (r, t, _) ← abstractIf depth test.refreshExpression (refreshExpression depth thenS)
    let e ← refreshExpression depth elseS
    otherImplication r (return t) e
  | .iffStatement test thenS => do
    let (r, t, s) ← abstractIf depth test.refreshExpression (refreshExpression depth thenS)
    otherImplication r (negation depth s) t
  | .switchStatement key cs =>
    collect destructiveConjunction (.andExpression []) (refreshCases depth key cs)

def refreshAll (depth : ℕ) : List Statement → List (Build Ref)
  | [] => []
  | s :: ss => refreshExpression depth s :: refreshAll depth ss

def refreshCases (depth : ℕ) (key : String) : List CaseGroup → List (Build Ref)
  | [] => []
  | .mk names ss :: cs =>
    compileCaseGroup key names (refreshAll depth ss) :: refreshCases depth key cs

end

def compile (depth : ℕ) (s : Statement) : Build Ref := fun h =>
  match s.cache with
  | .error e => .error e
  | .ok () => s.refreshExpression depth h

end Statement

end Jmpl
end Livingstone
