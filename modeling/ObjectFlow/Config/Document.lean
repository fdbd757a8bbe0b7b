import ObjectFlow.Config.Codec
import ObjectFlow.Json.Printer
import ObjectFlow.Yaml.Decoder
import ObjectFlow.Yaml.Parser

/-!
# Configuration documents

A configuration is kept in a YAML document: a version, a preset, and under `overrides`
the settings that replace those of the preset.  The version is looked at first, because
it says how the rest is to be read.
-/

namespace ObjectFlow.Config

open Yaml (optionalField defaultField)

/-- The versions of documents that can be read. -/
def supportedVersions : List Nat := [1]

namespace Strategy

/-- A strategy from its name and its depth.  Without a depth it is null or left out. -/
def ofName? (name : String) (k : Option Yaml) : Option Strategy :=
  match name with
  | "insensitive" =>
    match k with
    | none | some .null => some insensitive
    | some _ => none
  | "call_site" => (k.bind Yaml.word64?).map callSite
  | "object" => (k.bind Yaml.word64?).map object
  | "type" => (k.bind Yaml.word64?).map type
  | _ => none

/-- Reads a strategy.  Other fields are skipped.  A depth that comes before the name has
no tag. -/
def ofYaml? (yaml : Yaml) : Option Strategy := do
  match (← yaml.fields?).filter fun (name, _) => ["kind", "k"].contains name with
  | [("kind", kind)] => ofName? (← kind.variant?) none
  | [("kind", kind), ("k", k)] => ofName? (← kind.variant?) (some k)
  | [("k", .tagged _ _), _] => none
  | [("k", k), ("kind", kind)] => ofName? (← kind.variant?) (some k)
  | _ => none

end Strategy

def PointsTo.ofYaml? (yaml : Yaml) : Option PointsTo := do
  let fields ← yaml.record? ["context", "heap_context_depth"]
  return {
    context := ← defaultField standard.context Strategy.ofYaml? (fields.lookup "context")
    heapDepth := ← defaultField standard.heapDepth
      (fun depth => optionalField Yaml.word64? (some depth)) (fields.lookup "heap_context_depth") }

def Dataflow.ofYaml? (yaml : Yaml) : Option Dataflow := do
  let fields ← yaml.record? ["alias_aware"]
  return ⟨← defaultField standard.aliasAware Yaml.bool? (fields.lookup "alias_aware")⟩

namespace Analysis

/-- The version of a document, if it is one that can be read. -/
def versionOf (document : Yaml) : Except Error Nat :=
  match (document.get? "version").map Yaml.untag with
  | none => .error .missingVersion
  | some (.integer (.ofNat version)) =>
    if UInt32.size ≤ version then
      .error (.validation ("'version' " ++ toString version ++ " out of range"))
    else if supportedVersions.contains version then .ok version
    else .error (.unsupportedVersion version supportedVersions)
  | some _ => .error (.validation "'version' must be an integer")

/-- The settings of the two stages that a document gives. -/
def overridesOf? (yaml : Yaml) : Option (Option PointsTo × Option Dataflow) := do
  let fields ← yaml.record? ["pta", "dataflow"]
  return (← optionalField PointsTo.ofYaml? (fields.lookup "pta"),
    ← optionalField Dataflow.ofYaml? (fields.lookup "dataflow"))

/-- The name of the preset, and the settings that replace its own. -/
def contentOf? (document : Yaml) : Option (String × Option PointsTo × Option Dataflow) := do
  let fields ← document.record? ["version", "preset", "overrides"]
  let preset ← (← fields.lookup "preset").text?
  let overrides ← optionalField overridesOf? (fields.lookup "overrides")
  return (preset, overrides.getD (none, none))

/-- Reads a configuration and refuses it if it contradicts itself. -/
def ofYaml (document : Yaml) : Except Error Analysis := do
  let _ ← versionOf document
  match contentOf? document with
  | none => .error .malformed
  | some (name, pointsTo, dataflow) =>
    let preset ← Preset.ofName name
    build { preset, pointsTo, dataflow }

/-- Reads a configuration from its text. -/
def ofText (text : String) : Except Error Analysis :=
  match Yaml.parse? text with
  | none => .error .malformed
  | some document => ofYaml document

/-- Reads a configuration from the content of a file; there is none when the file
cannot be read. -/
def ofFile (content : Option String) : Except Error Analysis :=
  match content with
  | none => .error .unreadable
  | some text => ofText text

end Analysis

/-! ### Writing documents -/

/-- A key with a block under it. -/
def block (key : String) (lines : List String) : List String :=
  (key ++ ":") :: lines.map ("  " ++ ·)

def Strategy.lines (strategy : Strategy) : List String :=
  ("kind: " ++ strategy.name) ::
    match strategy with
    | insensitive => []
    | _ => ["k: " ++ toString strategy.depth]

def PointsTo.lines (config : PointsTo) : List String :=
  block "context" config.context.lines ++
    ["heap_context_depth: " ++
      match config.heapDepth with
      | none => "null"
      | some depth => toString depth]

def Dataflow.lines (config : Dataflow) : List String :=
  ["alias_aware: " ++ if config.aliasAware then "true" else "false"]

namespace Analysis

/-- The settings that replace those of the preset. -/
def overrideLines (config : Analysis) : List String :=
  (config.pointsTo.elim [] fun stage => block "pta" stage.lines) ++
    config.dataflow.elim [] fun stage => block "dataflow" stage.lines

/-- The text of a configuration. -/
def toText (config : Analysis) : String :=
  let overrides :=
    match config.overrideLines with
    | [] => []
    | lines => block "overrides" lines
  let lines := ["version: 1", "preset: " ++ config.preset.name] ++ overrides
  String.join (lines.map (· ++ "\n"))

/-- Everything about a configuration: its settings, those in use, and its texts. -/
def report (config : Analysis) : List (String × Json) :=
  [("dataflow", config.effectiveDataflow.toJson), ("json", .str config.toJson.compress),
    ("preset", .str config.preset.name), ("pta", config.effectivePointsTo.toJson),
    ("yaml", .str config.toText)]

end Analysis

end ObjectFlow.Config
