import ObjectFlow.Digit
import ObjectFlow.Yaml.Mark

/-!
# Scalars of whole lines

A block scalar holds the indented lines after its header.  In a literal one each line
break counts; in a folded one a single line break between two lines that start with no
blank becomes a space.  The header says what becomes of the line breaks at the end, and
may say how far the lines are indented.
-/

namespace ObjectFlow.Yaml

/-- What becomes of the line breaks at the end. -/
inductive Chomping where
  /-- One is kept. -/
  | clip
  /-- None is kept. -/
  | strip
  /-- All are kept. -/
  | keep
  deriving DecidableEq, Repr

/-- The chomping that stands next, if any does. -/
def scanChomping : List Mark → Chomping × List Mark
  | ⟨'+', _, _, _⟩ :: rest => (.keep, rest)
  | ⟨'-', _, _, _⟩ :: rest => (.strip, rest)
  | marks => (.clip, marks)

/-- The indentation that stands next, which is not zero, if any does. -/
def scanIndent : List Mark → Option (Option Nat × List Mark)
  | [] => some (none, [])
  | mark :: rest =>
    match Digit.value? 10 mark.char with
    | none => some (none, mark :: rest)
    | some 0 => none
    | some indent => some (some indent, rest)

/-- Reads the header, with its line: chomping and indentation in any order. -/
def scanHeader (marks : List Mark) : Option (Chomping × Option Nat × List Mark) := do
  let (before, rest) := scanChomping marks
  let (indent, rest) ← scanIndent rest
  let (chomping, rest) := if before = .clip then scanChomping rest else (before, rest)
  return (chomping, indent, ← skipLine? rest)

/-- What was read of a block scalar. -/
structure Block where
  /-- The characters that are settled, the last one first. -/
  done : List Char := []
  /-- The line break after the last line that is not empty. -/
  ending : Option Char := none
  /-- The line breaks of the empty lines after it, the last one first. -/
  empties : List Char := []
  /-- The last line starts with a blank. -/
  blank : Bool := false

namespace Block

/-- Starts a line with its first character. -/
def startLine (literal : Bool) (block : Block) (c : Char) : Block :=
  let folded := !literal && block.ending = some '\n' && !block.blank && !isBlank c
  let joint :=
    if folded then if block.empties.isEmpty then [' '] else []
    else block.ending.toList
  { done := c :: (block.empties ++ joint ++ block.done), blank := isBlank c }

/-- The characters of the scalar, the last one first. -/
def content (chomping : Chomping) (block : Block) : List Char :=
  match chomping with
  | .strip => block.done
  | .clip => block.ending.toList ++ block.done
  | .keep => block.empties ++ block.ending.toList ++ block.done

/-- Reads lines as long as they have the indentation.  Where it is not given, the widest
of the first lines up to one that is not empty gives it, if that is at least `least`. -/
def scan (literal : Bool) (least : Nat) (indent : Option Nat) (widest : Nat) (inLine : Bool)
    (block : Block) : List Mark → Option (Block × List Mark)
  | [] => some (block, [])
  | mark :: rest =>
    let c := mark.char
    let outside := indent.all (mark.column < ·)
    let widest := max widest mark.column
    if inLine then
      if isBreak c then scan literal least indent widest false { block with ending := some c } rest
      else scan literal least indent widest true { block with done := c :: block.done } rest
    else if outside && c = ' ' then scan literal least indent widest false block rest
    else if outside && c = '\t' then none
    else if isBreak c then
      scan literal least indent widest false { block with empties := c :: block.empties } rest
    else
      let margin := indent.getD (max widest least)
      if mark.column = margin then
        scan literal least (some margin) widest true (block.startLine literal c) rest
      else some (block, mark :: rest)

end Block

/-- Reads a block scalar after its first character.  `margin` is the column of the block
around it. -/
def scanBlockScalar (literal : Bool) (margin : Option Nat) (marks : List Mark) :
    Option (String × List Mark) := do
  let (chomping, step, rest) ← scanHeader marks
  let least := max 1 (margin.elim 0 (· + 1))
  let (block, rest) ← Block.scan literal least (step.map (margin.getD 0 + ·)) 0 false {} rest
  return (String.ofList (block.content chomping).reverse, rest)

end ObjectFlow.Yaml
