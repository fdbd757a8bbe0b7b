import ObjectFlow.ControlFlow
import ObjectFlow.Table

/-!
# Facts at nodes

A dataflow analysis attaches two facts to every node: one for the point before it and
one for the point after it.
-/

namespace ObjectFlow.Dataflow

structure Facts (φ : Type) where
  before : Table Node φ := {}
  after : Table Node φ := {}
  deriving DecidableEq, Repr

namespace Facts

variable {φ : Type}

def setBefore (facts : Facts φ) (node : Node) (fact : φ) : Facts φ :=
  { facts with before := facts.before.set node fact }

def setAfter (facts : Facts φ) (node : Node) (fact : φ) : Facts φ :=
  { facts with after := facts.after.set node fact }

/-- The nodes with a fact after them, in ascending order. -/
def nodes (facts : Facts φ) : List Node := Node.sort facts.after.keys

/-- The number of nodes with a fact after them. -/
def size (facts : Facts φ) : Nat := facts.after.size

end Facts

end ObjectFlow.Dataflow
