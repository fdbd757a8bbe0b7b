import ObjectFlow.Handle

/-!
# Types, expressions and statements

Programs are given in three-address form: a statement does one thing, and its
operands are variables.  Branch targets are positions in the statement list of the
method.  `Stmt.writes?` and `Stmt.uses` say which variables a statement writes and
reads.
-/

namespace ObjectFlow

/-- The types of variables and fields. -/
inductive Ty where
  | boolean
  | byte
  | short
  | char
  | int
  | long
  | float
  | double
  | object (type : ClassId)
  | array (element : Ty)
  deriving DecidableEq, Repr

namespace Ty

/-- Whether a variable of this type holds a number of at most 32 bits, so that its
value is tracked by constant propagation. -/
def holdsInt : Ty → Bool
  | boolean | byte | short | char | int => true
  | _ => false

/-- The class of an object type. -/
def class? : Ty → Option ClassId
  | object type => some type
  | _ => none

def isReference : Ty → Bool
  | object _ | array _ => true
  | _ => false

/-- Every class that the type names is one of the first `classes`. -/
def namesOnly (classes : Nat) : Ty → Bool
  | object type => type.index < classes
  | array element => element.namesOnly classes
  | _ => true

/-- The spelling of a type in messages. -/
def spelling : Ty → String
  | boolean => "Boolean"
  | byte => "Byte"
  | short => "Short"
  | char => "Char"
  | int => "Int"
  | long => "Long"
  | float => "Float"
  | double => "Double"
  | object type => "Class(ClassId(" ++ toString type.index ++ "))"
  | array element => "Array(" ++ element.spelling ++ ")"

end Ty

/-- How a call names its target. -/
inductive CallKind where
  /-- The method of the named class itself, without receiver. -/
  | static
  /-- The method that the named class has or inherits. -/
  | special
  /-- The method that the class of the receiver has or inherits. -/
  | virtual
  /-- The same, where the named class is an interface. -/
  | interface
  deriving DecidableEq, Repr

namespace CallKind

def text : CallKind → String
  | static => "STATIC"
  | special => "SPECIAL"
  | virtual => "VIRTUAL"
  | interface => "INTERFACE"

/-- Kinds are ordered from static to interface. -/
def rank : CallKind → Nat
  | static => 0
  | special => 1
  | virtual => 2
  | interface => 3

def sort (kinds : List CallKind) : List CallKind := kinds.mergeSort fun a b => a.rank ≤ b.rank

end CallKind

/-- A method as a call names it: a class, and a name with parameter types. -/
structure MethodRef where
  declaringClass : ClassId
  subsignature : String
  deriving DecidableEq, Repr

/-- A call. -/
structure Call where
  kind : CallKind
  target : MethodRef
  /-- The receiver, absent for calls without one. -/
  base : Option VarId
  args : List VarId
  /-- The variable that takes the returned value. -/
  result : Option VarId
  deriving DecidableEq, Repr

def Call.isStatic (call : Call) : Bool := call.kind == .static

inductive BinaryOp where
  | add
  | sub
  | mul
  | div
  | rem
  | eq
  | ne
  | lt
  | le
  | gt
  | ge
  | shl
  | shr
  | ushr
  | and
  | or
  | xor
  deriving DecidableEq, Repr

namespace BinaryOp

/-- Division and remainder stop a run when the divisor is zero. -/
def mayThrow : BinaryOp → Bool
  | div | rem => true
  | _ => false

/-- Comparisons give one or zero. -/
def isCondition : BinaryOp → Bool
  | eq | ne | lt | le | gt | ge => true
  | _ => false

end BinaryOp

/-- Right-hand sides of assignments, and conditions of branches. -/
inductive Exp where
  | literal (value : Int32)
  | var (var : VarId)
  | binary (op : BinaryOp) (lhs rhs : VarId)
  deriving DecidableEq, Repr

/-- The variables that an expression reads, from left to right. -/
def Exp.uses : Exp → List VarId
  | literal _ => []
  | var v => [v]
  | binary _ lhs rhs => [lhs, rhs]

inductive Stmt where
  /-- `lhs = new type` -/
  | alloc (lhs : VarId) (type : Ty)
  /-- `lhs = rhs` -/
  | copy (lhs rhs : VarId)
  /-- `lhs = rhs` for a number. -/
  | assign (lhs : VarId) (rhs : Exp)
  /-- `lhs = base.field`; the field is static when there is no base. -/
  | loadField (lhs : VarId) (base : Option VarId) (field : FieldId)
  /-- `base.field = rhs`; the field is static when there is no base. -/
  | storeField (base : Option VarId) (field : FieldId) (rhs : VarId)
  /-- `lhs = base[index]` -/
  | loadArray (lhs base index : VarId)
  /-- `base[index] = rhs` -/
  | storeArray (base index rhs : VarId)
  | invoke (call : Call)
  /-- Goes to the target when the condition is not zero. -/
  | branch (condition : Exp) (target : Nat)
  | jump (target : Nat)
  /-- Goes to the first case with the value of the variable, else to the default. -/
  | switch (var : VarId) (cases : List (Int32 × Nat)) (default : Nat)
  | ret (value : Option VarId)
  | nop
  deriving DecidableEq, Repr

namespace Stmt

/-- The variable that a statement writes. -/
def writes? : Stmt → Option VarId
  | alloc lhs _ => some lhs
  | copy lhs _ => some lhs
  | assign lhs _ => some lhs
  | loadField lhs _ _ => some lhs
  | loadArray lhs _ _ => some lhs
  | invoke call => call.result
  | _ => none

/-- The variables that a statement reads, in the order of its operands. -/
def uses : Stmt → List VarId
  | alloc _ _ | jump _ | nop => []
  | copy _ rhs => [rhs]
  | assign _ rhs => rhs.uses
  | loadField _ base _ => base.toList
  | storeField base _ rhs => base.toList ++ [rhs]
  | loadArray _ base index => [base, index]
  | storeArray base index rhs => [base, index, rhs]
  | invoke call => call.base.toList ++ call.args
  | branch condition _ => condition.uses
  | switch var _ _ => [var]
  | ret value => value.toList

/-- The call that a statement makes. -/
def call? : Stmt → Option Call
  | invoke call => some call
  | _ => none

def isCall (stmt : Stmt) : Bool := stmt.call?.isSome

end Stmt

end ObjectFlow
