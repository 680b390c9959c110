import Containerfile.Token

/-!
# Editing lists of tokens

Edits act on the children of one node and address them by index.  A replacement takes the slot of
what it replaces, so that the neighbours keep their place and their layout; where a token is added,
and what goes with one that is removed, depends on the construct and is an argument.

## Main definitions

* `Children.set` — replaces, adds or removes one child.
* `Children.removeRange`, `Children.insertAt`, `Children.setLeafText?` — the other edits.
* `Children.firstLeaf?`, `Children.indexOfLeaf?`, `Children.afterLast` — finding children.
-/

namespace Containerfile

namespace Children

/-! ## Finding -/

/-- The text of the first leaf of a kind. -/
def firstLeaf? (kind : LeafKind) (ts : List Token) : Option Text :=
  ts.findSome? (Token.leafText? kind)

/-- The index of the first leaf of a kind. -/
def indexOfLeaf? (kind : LeafKind) (ts : List Token) : Option Nat :=
  ts.findIdx? (Token.isLeaf kind)

/-- The index behind the last child that satisfies `p`; zero if none does. -/
def afterLast (p : Token → Bool) : List Token → Nat
  | [] => 0
  | t :: ts =>
    match afterLast p ts with
    | 0 => if p t then 1 else 0
    | n + 1 => n + 2

/-! ## Changing -/

/-- The list with tokens inserted before the child at an index; past the end, behind the last
child. -/
def insertAt (index : Nat) (inserted ts : List Token) : List Token :=
  ts.take index ++ inserted ++ ts.drop index

/-- The list without the children from `first` on, up to and with `last`; none, if `last` comes
before `first`. -/
def removeBetween (first last : Nat) (ts : List Token) : List Token :=
  ts.take first ++ ts.drop (max first (last + 1))

/-- The list without the children at two indices and between them, in either order.  An index past
the end stands for the last child. -/
def removeRange (i j : Nat) (ts : List Token) : List Token :=
  match ts.length with
  | 0 => ts
  | n + 1 => removeBetween (min (min i j) n) (min (max i j) n) ts

/-- Replaces, adds or removes one child.  With a child and a replacement, the replacement takes the
child's slot; with only one of them, `remove` or `add` decides; an index past the end counts as no
child. -/
def set (current : Option Nat) (replacement : Option Token)
    (add : Token → List Token → List Token) (remove : Nat → List Token → List Token)
    (ts : List Token) : List Token :=
  match current.filter (· < ts.length), replacement with
  | some i, some t => ts.set i t
  | some i, none => remove i ts
  | none, some t => add t ts
  | none, none => ts

/-- Adds a child behind the others. -/
def append (t : Token) (ts : List Token) : List Token :=
  ts ++ [t]

/-- Removes one child. -/
def erase (index : Nat) (ts : List Token) : List Token :=
  ts.eraseIdx index

/-- The list with the text of the leaf at an index replaced, if there is a leaf. -/
def setLeafText? (index : Nat) (text : Text) (ts : List Token) : Option (List Token) :=
  match ts[index]? with
  | some (.leaf kind _) => some (ts.set index (.leaf kind text))
  | _ => none

end Children

end Containerfile
