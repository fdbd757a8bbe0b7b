import ObjectFlow.Config.Error

/-!
# Settings of the analyses

The points-to analysis is set by how it tells calls apart and by how deep the
contexts of objects are; the dataflow analysis by whether it uses points-to facts.  A
preset fixes all settings at once.
-/

namespace ObjectFlow.Config

inductive Preset where
  | fast
  | balanced
  | thorough
  deriving DecidableEq, Repr

namespace Preset

def name : Preset → String
  | fast => "fast"
  | balanced => "balanced"
  | thorough => "thorough"

/-- The preset with a name, in upper or lower case.  The names hold letters that no
other character has as its lower case, so that folding the ASCII letters decides. -/
def ofName (name : String) : Except Error Preset :=
  match String.ofList (name.toList.map Char.toLower) with
  | "fast" => .ok fast
  | "balanced" => .ok balanced
  | "thorough" => .ok thorough
  | _ => .error (.unknownPreset name)

end Preset

/-- What the context of a call is made of, and of how many parts. -/
inductive Strategy where
  /-- All calls share one context. -/
  | insensitive
  /-- The last `k` call sites. -/
  | callSite (k : Nat)
  /-- The last `k` receivers. -/
  | object (k : Nat)
  /-- The classes whose methods allocated the last `k` receivers. -/
  | type (k : Nat)
  deriving DecidableEq, Repr

namespace Strategy

def depth : Strategy → Nat
  | insensitive => 0
  | callSite k => k
  | object k => k
  | type k => k

def name : Strategy → String
  | insensitive => "insensitive"
  | callSite _ => "call_site"
  | object _ => "object"
  | type _ => "type"

end Strategy

/-- The largest depth of contexts. -/
def maxDepth : Nat := 8

/-- Settings of the points-to analysis. -/
structure PointsTo where
  context : Strategy
  /-- The depth of the contexts of objects; one less than that of calls when absent. -/
  heapDepth : Option Nat
  deriving DecidableEq, Repr

namespace PointsTo

def ofPreset : Preset → PointsTo
  | .fast => ⟨.insensitive, none⟩
  | .balanced => ⟨.object 1, none⟩
  | .thorough => ⟨.object 2, some 1⟩

/-- The settings that stand where none are given. -/
def standard : PointsTo := ofPreset .balanced

/-- The depth of the contexts of objects that is used. -/
def effectiveHeapDepth (config : PointsTo) : Nat :=
  config.heapDepth.getD (config.context.depth - 1)

/-- Contexts that tell calls apart have a depth from one to `maxDepth`. -/
def depthError? (config : PointsTo) : Option Error :=
  let k := config.context.depth
  if config.context = .insensitive ∨ (1 ≤ k ∧ k ≤ maxDepth) then none
  else
    some (.range "context.k" (toString k) "1" (toString maxDepth)
      "Context depth must be at least 1; use 'insensitive' for k = 0")

/-- The context of an object is no deeper than that of a call. -/
def heapError? (config : PointsTo) : Option Error :=
  let k := config.context.depth
  match config.heapDepth with
  | none => none
  | some heapDepth =>
    if heapDepth ≤ k then none
    else
      some (.conflict
        ("heap_context_depth " ++ toString heapDepth ++ " exceeds context depth k=" ++ toString k)
        ("set heap_context_depth to at most " ++ toString k))

/-- Refuses settings that contradict themselves. -/
def validate (config : PointsTo) : Except Error Unit :=
  match config.depthError? <|> config.heapError? with
  | some error => .error error
  | none => .ok ()

end PointsTo

/-- Settings of the dataflow analysis. -/
structure Dataflow where
  /-- Loads take the values of the stores that may alias them; otherwise a loaded value
  is unknown. -/
  aliasAware : Bool
  deriving DecidableEq, Repr

namespace Dataflow

def ofPreset (_ : Preset) : Dataflow := ⟨true⟩

/-- The settings that stand where none are given. -/
def standard : Dataflow := ofPreset .balanced

end Dataflow

end ObjectFlow.Config
