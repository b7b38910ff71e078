/-! Registries of grammar rules. Rules of a list are tried in order and the first that applies is taken. -/
namespace StackToolchain.Source

inductive DeclRule where
  | function
  | global
  deriving DecidableEq, Repr

inductive StmtRule where
  | scope
  | cond
  | loop
  | var
  | ret
  | write
  | assign
  | expression
  deriving DecidableEq, Repr

inductive ValueRule where
  | integer
  | call
  | named
  | parentheses
  /-- a minus sign before a value, read as zero minus the value -/
  | negate
  deriving DecidableEq, Repr

def DeclRule.name : DeclRule → String
  | function => "function"
  | global => "global"

def StmtRule.name : StmtRule → String
  | scope => "scope"
  | cond => "if"
  | loop => "while"
  | var => "var"
  | ret => "return"
  | write => "write"
  | assign => "assign"
  | expression => "expression"

def ValueRule.name : ValueRule → String
  | integer => "integer"
  | call => "call"
  | named => "variable"
  | parentheses => "parentheses"
  | negate => "negate"

def DeclRule.ofName? (name : String) : Option DeclRule :=
  [function, global].find? (·.name == name)

def StmtRule.ofName? (name : String) : Option StmtRule :=
  [scope, cond, loop, var, ret, write, assign, expression].find? (·.name == name)

def ValueRule.ofName? (name : String) : Option ValueRule :=
  [integer, call, named, parentheses, negate].find? (·.name == name)

structure Grammar where
  decls : List DeclRule
  stmts : List StmtRule
  values : List ValueRule
  deriving DecidableEq, Repr

namespace Grammar

/-- The standard registry. Calls come before variables and assignments before expressions. -/
def standard : Grammar where
  decls := [.function, .global]
  stmts := [.scope, .cond, .loop, .var, .ret, .write, .assign, .expression]
  values := [.integer, .call, .named, .parentheses]

end Grammar

end StackToolchain.Source
