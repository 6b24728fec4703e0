/-
# Occurrences of expressions

The expressions that occur in a tree, in the order of the text: an expression before its parts, the
target of a call before its arguments, and the expressions of a statement before the statements
nested in it.
-/
import JavaMinus.Source.Program

namespace JavaMinus.Source

mutual

def Expr.occurrences : Expr → List Expr
  | .int tag value => [.int tag value]
  | .bool tag value => [.bool tag value]
  | .name tag text => [.name tag text]
  | .this tag => [.this tag]
  | .binary tag op lhs rhs => .binary tag op lhs rhs :: (lhs.occurrences ++ rhs.occurrences)
  | .not tag operand => .not tag operand :: operand.occurrences
  | .index tag array i => .index tag array i :: (array.occurrences ++ i.occurrences)
  | .length tag array => .length tag array :: array.occurrences
  | .call tag target method args =>
      .call tag target method args :: (target.occurrences ++ Expr.occurrencesIn args)
  | .newArray tag size => .newArray tag size :: size.occurrences
  | .newObject tag className => [.newObject tag className]
  | .paren tag inner => .paren tag inner :: inner.occurrences

def Expr.occurrencesIn : List Expr → List Expr
  | [] => []
  | e :: es => e.occurrences ++ Expr.occurrencesIn es

end

/-- The expressions that belong to a statement itself. -/
def Stmt.ownExprs : Stmt → List Expr
  | .block _ _ => []
  | .ifThen _ condition _ => [condition]
  | .ifElse _ condition _ _ => [condition]
  | .while _ condition _ => [condition]
  | .expr e => [e]
  | .assign _ _ value => [value]
  | .assignElement _ _ index value => [index, value]
  | .return _ value => value.toList

mutual

def Stmt.occurrences : Stmt → List Expr
  | .block _ body => Stmt.occurrencesIn body
  | .ifThen _ condition thenBranch => condition.occurrences ++ thenBranch.occurrences
  | .ifElse _ condition thenBranch elseBranch =>
      condition.occurrences ++ (thenBranch.occurrences ++ elseBranch.occurrences)
  | .while _ condition body => condition.occurrences ++ body.occurrences
  | .expr e => e.occurrences
  | .assign _ _ value => value.occurrences
  | .assignElement _ _ index value => index.occurrences ++ value.occurrences
  | .return _ value => Expr.occurrencesIn value.toList

def Stmt.occurrencesIn : List Stmt → List Expr
  | [] => []
  | s :: ss => s.occurrences ++ Stmt.occurrencesIn ss

end

def Program.occurrences (p : Program) : List Expr :=
  p.methods.flatMap fun m => Stmt.occurrencesIn m.body

end JavaMinus.Source
