import Containerfile.Document
import Containerfile.Expansion
import Containerfile.Instruction.Pairs

/-!
# Resolving a document

The references of a file are resolved from top to bottom.  Before the first stage, `ARG` declares
global arguments, and these are what a `FROM` sees.  Each stage starts with no variables at all; its
own `ARG`s and `ENV`s add to them, and an `ARG` without a value takes up the global one of its name.
A declared argument takes its value from the caller if the caller gives one.

## Main definitions

* `Scope` — the variables in force at a place of the file.
* `Scope.resolveItem` — one item resolved, and the scope behind it.
* `Document.resolve`, `Document.resolveInstruction` — the resolution of a file and of one of its
  instructions.
-/

namespace Containerfile

/-! ## Scopes -/

/-- What stays the same throughout a file. -/
structure Setting where
  /-- The escape character of the file. -/
  escape : Char
  /-- The values that the caller gives to declared arguments. -/
  buildArgs : Bindings
  removeEscapes : Bool
deriving DecidableEq, Repr

/-- The variables in force at a place of a file. -/
structure Scope where
  /-- The global arguments declared so far. -/
  globals : Bindings
  /-- The variables of the stage, unless no stage has been opened. -/
  stage : Option Bindings
deriving DecidableEq, Repr

namespace Setting

/-- The expansion of references under given variables. -/
def expansion (s : Setting) (bindings : Bindings) : Expansion where
  escape := s.escape
  bindings := bindings
  removeEscapes := s.removeEscapes

end Setting

namespace Scope

/-- The scope at the start of a file. -/
def start : Scope :=
  ⟨.empty, none⟩

/-- The variables that a reference sees. -/
def visible (scope : Scope) : Bindings :=
  scope.stage.getD scope.globals

/-- The scope with other visible variables. -/
def withVisible (scope : Scope) (bindings : Bindings) : Scope :=
  match scope.stage with
  | none => { scope with globals := bindings }
  | some _ => { scope with stage := some bindings }

/-- The value that a declaration without a value of its own takes up: in a stage, the global one. -/
def inherited (scope : Scope) (name : Text) : Option Text :=
  match scope.stage with
  | none => none
  | some _ => scope.globals.value? name

/-! ## Items -/

/-- The value of a declared argument: the caller's, else its own, else the inherited one. -/
def declaredValue (setting : Setting) (scope : Scope) (declaration : KeyValue) : Option Text :=
  (setting.buildArgs.value? declaration.key).or
    (declaration.value?.or (scope.inherited declaration.key))

/-- Resolves the declarations among the parts of an `ARG` from left to right; each is in force for
the next. -/
def declare (setting : Setting) : Scope → List Token → Except Error (List Token × Scope)
  | scope, [] => .ok ([], scope)
  | scope, t :: ts =>
    match t.keyValue? with
    | none => do
      let (us, after) ← declare setting scope ts
      return (t :: us, after)
    | some declaration => do
      let parts ← (setting.expansion scope.visible).substituteAll declaration.parts
      let resolved : KeyValue := ⟨parts⟩
      let value := declaredValue setting scope resolved
      let next := scope.withVisible (scope.visible.insert resolved.key value)
      let (us, after) ← declare setting next ts
      return (resolved.token :: us, after)

/-- The scope after the assignments of an `ENV`, which count only in a stage. -/
def assign (scope : Scope) (assignments : List (Text × Text)) : Scope :=
  match scope.stage with
  | none => scope
  | some b => { scope with stage := some (b.extend (assignments.map fun p => (p.1, some p.2))) }

/-- Resolves an instruction, and gives the scope behind it. -/
def resolveInstruction (setting : Setting) (scope : Scope) (i : Instruction) :
    Except Error (Instruction × Scope) :=
  match i.form with
  | .stage => do
    let resolved ← i.expand (setting.expansion scope.globals)
    return (resolved, { scope with stage := some .empty })
  | .arg => do
    let (parts, after) ← declare setting scope i.parts
    return (i.withParts parts, after)
  | .env => do
    let resolved ← i.expand (setting.expansion scope.visible)
    return (resolved, scope.assign resolved.assignments)
  | _ => do
    let resolved ← i.expand (setting.expansion scope.visible)
    return (resolved, scope)

/-- Resolves an item, and gives the scope behind it. -/
def resolveItem (setting : Setting) (scope : Scope) : Item → Except Error (Item × Scope)
  | .instruction i => do
    let (resolved, after) ← scope.resolveInstruction setting i
    return (.instruction resolved, after)
  | item => .ok (item, scope)

/-- Resolves items in order. -/
def resolveItems (setting : Setting) : Scope → List Item → Except Error (List Item)
  | _, [] => .ok []
  | scope, item :: items => do
    let (resolved, after) ← scope.resolveItem setting item
    let rest ← resolveItems setting after items
    return resolved :: rest

end Scope

/-! ## Documents -/

namespace Document

/-- What the resolution of the file starts from. -/
def setting (d : Document) (buildArgs : Bindings) (options : ResolutionOptions) : Setting where
  escape := d.escape
  buildArgs := buildArgs
  removeEscapes := options.removeEscapes

/-- Resolves the file. -/
def resolve (d : Document) (buildArgs : Bindings) (options : ResolutionOptions) :
    Resolution Document :=
  .settle options text d
    ((Scope.resolveItems (d.setting buildArgs options) .start d.items).map mk)

/-- The item at an index, resolved with what stands before it. -/
def resolvedItem (d : Document) (buildArgs : Bindings) (options : ResolutionOptions)
    (index : Nat) : Except Error (Option Item) :=
  (Scope.resolveItems (d.setting buildArgs options) .start (d.items.take (index + 1))).map
    fun items => items[index]?

/-- Resolves the instruction with a number, in the scope that it has in the file. -/
def resolveInstruction (d : Document) (position : Nat) (buildArgs : Bindings)
    (options : ResolutionOptions) : Resolution Document :=
  match d.instructionIndex? position with
  | none => ⟨.error (.instructionNotFound position), d⟩
  | some index =>
    match d.resolvedItem buildArgs options index with
    | .error e => ⟨.error e, d⟩
    | .ok none => ⟨.error (.instructionNotFound position), d⟩
    | .ok (some item) =>
      ⟨.ok item.text, if options.inline then ⟨d.items.set index item⟩ else d⟩

end Document

end Containerfile
