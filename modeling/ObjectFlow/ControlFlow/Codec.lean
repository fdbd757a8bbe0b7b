import ObjectFlow.ControlFlow
import ObjectFlow.Program.Codec

/-!
# Nodes and edge kinds as JSON
-/

namespace ObjectFlow

open Json (Decoder)
open Json.Decoder (field variant holdsNothing)

def Point.toJson : Point → Json
  | entry => .str "Entry"
  | stmt index => .obj [("Stmt", .nat index)]
  | exit => .str "Exit"

def Node.toJson (node : Node) : Json :=
  .obj [("method", node.method.toJson), ("point", node.point.toJson)]

namespace EdgeKind

/-- The kinds that hold nothing, by name. -/
def plain : List (String × EdgeKind) :=
  [("Entry", entry), ("FallThrough", fallThrough), ("Goto", goto), ("IfTrue", ifTrue),
    ("IfFalse", ifFalse), ("SwitchDefault", switchDefault), ("Return", ret)]

def toJson : EdgeKind → Json
  | entry => .str "Entry"
  | fallThrough => .str "FallThrough"
  | goto => .str "Goto"
  | ifTrue => .str "IfTrue"
  | ifFalse => .str "IfFalse"
  | switchCase value => .obj [("SwitchCase", .integer value.toInt)]
  | switchDefault => .str "SwitchDefault"
  | ret => .str "Return"

def decode : Decoder EdgeKind :=
  variant fun levels name held =>
    if name == "SwitchCase" then (field .int32 levels held).map switchCase
    else if holdsNothing held then plain.lookup name
    else none

end EdgeKind

end ObjectFlow
