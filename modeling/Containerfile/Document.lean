import Containerfile.Directive
import Containerfile.Instruction.Grammar

/-!
# Documents

A build file is a list of items: directives first, then comments, blank lines and instructions in
any order.  A directive whose name was there before is no directive any more, and with it the
directives end.

## Main definitions

* `Item` — an item of a file.
* `Document` — a file, with `Document.text` and `Document.escape`.
* `Document.read`, `Document.parse` — from text.
-/

namespace Containerfile

/-! ## Items -/

/-- An item of a file. -/
inductive Item where
  | instruction (instruction : Instruction)
  | comment (comment : Comment)
  | blankLines (lines : BlankLines)
  | directive (directive : Directive)
deriving DecidableEq, Repr

namespace Item

/-- The parts of an item. -/
def parts : Item → List Token
  | instruction i => i.parts
  | comment c => c.parts
  | blankLines b => b.parts
  | directive d => d.parts

/-- The item with other parts. -/
def withParts : Item → List Token → Item
  | instruction i, ts => instruction (i.withParts ts)
  | comment _, ts => comment ⟨ts⟩
  | blankLines _, ts => blankLines ⟨ts⟩
  | directive _, ts => directive ⟨ts⟩

/-- The item as it stands in the file. -/
def text (item : Item) : Text :=
  Token.textAll item.parts

/-- The instruction that an item is. -/
def instruction? : Item → Option Instruction
  | instruction i => some i
  | _ => none

/-- Whether the item opens a stage. -/
def opensStage : Item → Bool
  | instruction i => i.form == .stage
  | _ => false

end Item

/-! ## Documents -/

/-- A build file. -/
structure Document where
  items : List Item
deriving DecidableEq, Repr

namespace Document

/-- The escape character of a file that selects none. -/
def defaultEscape : Char := '\\'

/-- The directives at the start of a list of items. -/
def leadingDirectives : List Item → List Directive
  | .directive d :: items => d :: leadingDirectives items
  | _ => []

/-- The directives at the top of the file. -/
def directives (d : Document) : List Directive :=
  leadingDirectives d.items

/-- The escape character that directives select. -/
def selectedEscape (ds : List Directive) : Char :=
  (ds.findSome? Directive.escape?).getD defaultEscape

/-- The escape character of the file. -/
def escape (d : Document) : Char :=
  selectedEscape d.directives

/-- The text of items. -/
def textOf (items : List Item) : Text :=
  items.flatMap Item.text

/-- The text of the file. -/
def text (d : Document) : Text :=
  textOf d.items

/-- The instructions. -/
def instructions (d : Document) : List Instruction :=
  d.items.filterMap Item.instruction?

/-- The index, among items, of the instruction with a number; numbers start at zero. -/
def instructionIndexIn : Nat → List Item → Option Nat
  | _, [] => none
  | n, item :: items =>
    match item.instruction?, n with
    | none, n => (instructionIndexIn n items).map (· + 1)
    | some _, 0 => some 0
    | some _, n + 1 => (instructionIndexIn n items).map (· + 1)

/-- The index of the item that is the instruction with a number. -/
def instructionIndex? (d : Document) (position : Nat) : Option Nat :=
  instructionIndexIn position d.items

/-! ## From text -/

/-- Reads directives as long as there are any; the names in `seen` have been there. -/
def readDirectives (seen : List Text) (s : Text) : Outcome (List Directive) :=
  match Directive.body s with
  | .ok ts r =>
    let name := Directive.name ⟨ts⟩
    if seen.any (Text.sameLetters name) then .ok [] s
    else if r.length < s.length then (readDirectives (name :: seen) r).map (⟨ts⟩ :: ·)
    else .ok [⟨ts⟩] r
  | .stuck _ => .ok [] s
  | .failed e => .failed e
termination_by s.length

/-- Reads an item that is no directive. -/
def readItem (escape : Char) (s : Text) : Outcome Item :=
  match BlankLines.body s with
  | .ok ts r => .ok (.blankLines ⟨ts⟩) r
  | .failed e => .failed e
  | .stuck _ =>
    match Lexeme.commentBody s with
    | .ok ts r => .ok (.comment ⟨ts⟩) r
    | .failed e => .failed e
    | .stuck _ => (Instruction.read escape s).map Item.instruction

/-- Reads items to the end of the text. -/
def readItems (escape : Char) (s : Text) : Outcome (List Item) :=
  if s.isEmpty then .ok [] s
  else
    match readItem escape s with
    | .ok item r =>
      if r.length < s.length then (readItems escape r).map (item :: ·) else .ok [item] r
    | .stuck r => .stuck r
    | .failed e => .failed e
termination_by s.length

/-- Reads a file. -/
def read (s : Text) : Outcome (List Item) :=
  match readDirectives [] s with
  | .ok ds r => (readItems (selectedEscape ds) r).map (ds.map Item.directive ++ ·)
  | .stuck r => .stuck r
  | .failed e => .failed e

/-- The file that a text is. -/
def parse (s : Text) : Except ParseError Document :=
  ((read s).complete s).map mk

end Document

end Containerfile
