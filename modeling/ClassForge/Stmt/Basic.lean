import ClassForge.Expr.Basic

set_option autoImplicit false

namespace ClassForge

mutual

inductive Stmt where
  | mk (line : Nat) (action : Action)

inductive Action where
  | ret (value : Option Expr)
  | raise (value : Expr)
  | eval (value : Expr)
  | declare (isFinal : Bool) (type : TypeName) (name : String) (value : Expr)
  | assign (target : Head) (value : Expr)
  | cond (chain : IfChain)
  | loop (condition : Expr) (body : List Stmt)
  | select (scrutinee : Expr) (branches : List Branch) (default : Option (List Stmt))

inductive IfChain where
  | mk (condition : Expr) (body : List Stmt) (otherwise : Otherwise)

inductive Otherwise where
  | skip
  | elif (chain : IfChain)
  | block (body : List Stmt)

inductive Branch where
  | mk (labels : List Int) (body : List Stmt)

end

def Branch.labels : Branch → List Int
  | .mk labels _ => labels

def Branch.body : Branch → List Stmt
  | .mk _ body => body

def Branch.cases (branches : List Branch) : List (Int × Nat) :=
  (branches.zipIdx.flatMap (fun (branch, index) => branch.labels.map (·, index))).mergeSort
    (fun a b => a.1 ≤ b.1)

def Expr.isTrue : Expr → Bool
  | .operand (.atom (.literal token) none) _ => token.isWord "true"
  | .operand (.atom (.nested inner) none) _ => inner.isTrue
  | _ => false

mutual

-- Whether control never leaves the statement at its end. There is no way out of a loop but to return or throw,
-- so a loop without exit condition counts.
def Stmt.terminates : Stmt → Bool
  | .mk _ action => action.terminates

def Action.terminates : Action → Bool
  | .ret _ => true
  | .raise _ => true
  | .cond chain => chain.terminates
  | .loop condition _ => condition.isTrue
  | .select _ branches (some body) => Stmt.lastTerminates body && Branch.allTerminate branches
  | _ => false

def IfChain.terminates : IfChain → Bool
  | .mk _ body otherwise => Stmt.lastTerminates body && otherwise.terminates

def Otherwise.terminates : Otherwise → Bool
  | .skip => false
  | .elif chain => chain.terminates
  | .block body => Stmt.lastTerminates body

def Branch.allTerminate : List Branch → Bool
  | [] => true
  | .mk _ body :: rest => Stmt.lastTerminates body && Branch.allTerminate rest

def Stmt.lastTerminates : List Stmt → Bool
  | [] => false
  | [stmt] => stmt.terminates
  | _ :: rest => Stmt.lastTerminates rest

end

end ClassForge
