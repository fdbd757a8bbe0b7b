import ObjectFlow.Program.Statement

/-!
# Values of constant propagation

A variable has no value yet, one constant, or too many values.  A fact gives a value
to every variable; the variables without a value are left out of it, so that equal
facts are equal lists.
-/

namespace ObjectFlow.Dataflow

inductive Value where
  /-- No value has come here yet. -/
  | undefined
  | constant (value : Int32)
  /-- Not a constant. -/
  | nac
  deriving DecidableEq, Repr

namespace Value

def isUndef : Value → Bool
  | undefined => true
  | _ => false

def isConstant : Value → Bool
  | constant _ => true
  | _ => false

def isNac : Value → Bool
  | nac => true
  | _ => false

def constant? : Value → Option Int32
  | constant value => some value
  | _ => none

/-- The value of a variable that has either of two values. -/
def meet : Value → Value → Value
  | nac, _ => nac
  | _, nac => nac
  | undefined, v => v
  | v, undefined => v
  | constant a, constant b => if a = b then constant a else nac

def text : Value → String
  | undefined => "UNDEF"
  | constant value => toString value.toInt
  | nac => "NAC"

/-- Whether two positions in an array may be the same one. -/
def mayEqual : Value → Value → Bool
  | undefined, _ => false
  | _, undefined => false
  | constant a, constant b => a == b
  | _, _ => true

end Value

/-- The values of variables, by ascending variable. -/
structure Fact where
  entries : List (VarId × Value) := []
  deriving DecidableEq, Repr

namespace Fact

def size (fact : Fact) : Nat := fact.entries.length

def get (fact : Fact) (var : VarId) : Value := (fact.entries.lookup var).getD .undefined

def remove (fact : Fact) (var : VarId) : Fact := ⟨fact.entries.filter (·.1 ≠ var)⟩

/-- Puts an entry at its place. -/
def insertEntry (var : VarId) (value : Value) : List (VarId × Value) → List (VarId × Value)
  | [] => [(var, value)]
  | (v, x) :: rest =>
    if var < v then (var, value) :: (v, x) :: rest
    else if var = v then (var, value) :: rest
    else (v, x) :: insertEntry var value rest

/-- Gives a value to a variable. -/
def update (fact : Fact) (var : VarId) (value : Value) : Fact :=
  if value.isUndef then fact.remove var else ⟨insertEntry var value fact.entries⟩

/-- Gives a value to a variable, and tells whether its entry changed. -/
def updateChanged (fact : Fact) (var : VarId) (value : Value) : Fact × Bool :=
  let old := fact.entries.lookup var
  (fact.update var value, if value.isUndef then old.isSome else old ≠ some value)

/-- Takes the entry of a variable away, and tells whether there was one. -/
def removeChanged (fact : Fact) (var : VarId) : Fact × Bool :=
  (fact.remove var, (fact.entries.lookup var).isSome)

/-- Takes over another fact, and tells whether it is a different one. -/
def copyFrom (fact other : Fact) : Fact × Bool :=
  if fact = other then (fact, false) else (other, true)

/-- Takes `fact` into `target`, variable by variable. -/
def meetInto (fact target : Fact) : Fact :=
  fact.entries.foldl (fun target (var, value) => target.update var (value.meet (target.get var)))
    target

end Fact

end ObjectFlow.Dataflow
