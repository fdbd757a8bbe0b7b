import ObjectFlow.Config.Analysis
import ObjectFlow.Json.Decoder

/-!
# Configurations as JSON

The settings of a stage may leave out any field, which then has its standard value,
but may have no other field.
-/

namespace ObjectFlow.Config

open Json (Decoder)
open Json.Decoder (field optionalField defaultField record recordWith variant choice holdsNothing)

namespace Preset

def toJson (preset : Preset) : Json := .str preset.name

def decode : Decoder Preset :=
  choice [("fast", fast), ("balanced", balanced), ("thorough", thorough)]

end Preset

namespace Strategy

def toJson (strategy : Strategy) : Json :=
  match strategy with
  | insensitive => .obj [("kind", .str strategy.name)]
  | _ => .obj [("kind", .str strategy.name), ("k", .nat strategy.depth)]

/-- The name of a variant that holds nothing. -/
def tag : Decoder String :=
  variant fun _ name held => if holdsNothing held then some name else none

/-- A strategy, from a reader of its name. -/
def decodeWith (tag : Decoder String) : Decoder Strategy :=
  record ["kind", "k"] fun levels fields =>
    match fields with
    | [kind, k] => do
      match ← field tag levels kind with
      | "insensitive" => if holdsNothing k then some insensitive else none
      | "call_site" => (field .word64 levels k).map callSite
      | "object" => (field .word64 levels k).map object
      | "type" => (field .word64 levels k).map type
      | _ => none
    | _ => none

/-- A strategy; in an array its name is a text. -/
def decode : Decoder Strategy
  | levels, .array items => decodeWith .text levels (.array items)
  | levels, json => decodeWith tag levels json

end Strategy

namespace PointsTo

def toJson (config : PointsTo) : Json :=
  .obj [("context", config.context.toJson),
    ("heap_context_depth", .ofOption .nat config.heapDepth)]

def decode : Decoder PointsTo :=
  recordWith .defaulted ["context", "heap_context_depth"] fun levels fields =>
    match fields with
    | [context, heapDepth] => do
      return {
        context := ← defaultField standard.context Strategy.decode levels context
        heapDepth := ← defaultField standard.heapDepth (.optional .word64) levels heapDepth }
    | _ => none

end PointsTo

namespace Dataflow

def toJson (config : Dataflow) : Json := .obj [("alias_aware", .bool config.aliasAware)]

def decode : Decoder Dataflow :=
  recordWith .defaulted ["alias_aware"] fun levels fields =>
    match fields with
    | [aliasAware] => do
      return ⟨← defaultField standard.aliasAware .bool levels aliasAware⟩
    | _ => none

end Dataflow

namespace Analysis

def toJson (config : Analysis) : Json :=
  .obj [("preset", config.preset.toJson),
    ("pta", .ofOption PointsTo.toJson config.pointsTo),
    ("dataflow", .ofOption Dataflow.toJson config.dataflow)]

def decode : Decoder Analysis :=
  record ["preset", "pta", "dataflow"] fun levels fields =>
    match fields with
    | [preset, pointsTo, dataflow] => do
      return {
        preset := ← field Preset.decode levels preset
        pointsTo := ← optionalField PointsTo.decode levels pointsTo
        dataflow := ← optionalField Dataflow.decode levels dataflow }
    | _ => none

end Analysis

end ObjectFlow.Config
