import Containerfile.Text

/-!
# The token tree

A build file is held as a tree whose leaves, read from left to right, are the text of the file:
blanks, comments, line continuations and quotes are leaves like any other, so nothing is lost by
reading a file and writing it again.

Leaves and inner nodes carry a kind.  The kind is stored and never guessed from the text, so an
edit can change the text of a leaf without changing what the leaf is.

## Main definitions

* `LeafKind`, `NodeKind`, `Token` — the tree.
* `Token.text`, `Token.textAll` — the text of a token and of a list of tokens.
* `Token.isSeparator`, `Token.isTrivia` — tokens that stand between arguments, or end a line.
* `Token.descendants` — a list of tokens with all that lies below, in the order of the text.
-/

namespace Containerfile

/-! ## Kinds -/

/-- What a run of text is. -/
inductive LeafKind where
  /-- An instruction's keyword, or one within an instruction. -/
  | keyword
  /-- Punctuation, quotes, braces, brackets, the dashes of a flag, the escape character. -/
  | symbol
  /-- Spaces and tabs. -/
  | blank
  /-- A line end. -/
  | newline
  /-- Text of a literal or of a comment. -/
  | fragment
  /-- The number sign that starts a comment. -/
  | commentMark
  /-- A name. -/
  | identifier
  /-- The operator of a reference. -/
  | operator
  /-- The dollar sign that starts a reference. -/
  | referenceMark
deriving DecidableEq, Repr

/-- The seven forms that an instruction can have. -/
inductive Form where
  /-- `FROM`, which opens a stage. -/
  | stage
  | arg
  | env
  | label
  /-- `RUN`, `CMD` and `ENTRYPOINT`. -/
  | command
  | onBuild
  /-- The instructions whose arguments are words, one line, or an array. -/
  | generic
deriving DecidableEq, Repr

/-- What the children of a node form. -/
inductive NodeKind where
  /-- Literal text; `references` tells whether a dollar sign can start a reference in it. -/
  | literal (references : Bool)
  | reference
  | keyValue
  | continuation
  | comment
  | execForm
  /-- An instruction within an instruction, with the escape character that it was read with. -/
  | instruction (form : Form) (escape : Char)
deriving DecidableEq, Repr

/-- A node of the tree. -/
inductive Token where
  | leaf (kind : LeafKind) (text : Text)
  | node (kind : NodeKind) (children : List Token)
deriving Repr

namespace Token

/-! ## Equality -/

mutual

/-- Equality of trees is decided leaf by leaf. -/
def decEq : (a b : Token) → Decidable (a = b)
  | leaf k s, leaf l t =>
    if h : k = l ∧ s = t then isTrue (by rw [h.1, h.2])
    else isFalse fun e => by cases e; exact h ⟨rfl, rfl⟩
  | node k ts, node l us =>
    match decEqAll ts us with
    | isTrue hs =>
      if h : k = l then isTrue (by rw [h, hs]) else isFalse fun e => by cases e; exact h rfl
    | isFalse hs => isFalse fun e => by cases e; exact hs rfl
  | leaf _ _, node _ _ => isFalse nofun
  | node _ _, leaf _ _ => isFalse nofun

/-- Equality of lists of trees. -/
def decEqAll : (ts us : List Token) → Decidable (ts = us)
  | [], [] => isTrue rfl
  | t :: ts, u :: us =>
    match decEq t u with
    | isTrue h =>
      match decEqAll ts us with
      | isTrue hs => isTrue (by rw [h, hs])
      | isFalse hs => isFalse fun e => by cases e; exact hs rfl
    | isFalse h => isFalse fun e => by cases e; exact h rfl
  | [], _ :: _ => isFalse nofun
  | _ :: _, [] => isFalse nofun

end

instance : DecidableEq Token :=
  decEq

/-! ## Text -/

mutual

/-- The text of a token: that of its leaves, in order. -/
def text : Token → Text
  | leaf _ s => s
  | node _ ts => textAll ts

/-- The text of a list of tokens. -/
def textAll : List Token → Text
  | [] => []
  | t :: ts => text t ++ textAll ts

end

@[simp] theorem textAll_append (ts us : List Token) :
    textAll (ts ++ us) = textAll ts ++ textAll us := by
  induction ts with
  | nil => rfl
  | cons t ts ih => simp [textAll, ih]

/-! ## Views -/

/-- The children of a token; a leaf has none. -/
def children : Token → List Token
  | leaf _ _ => []
  | node _ ts => ts

/-- The kind of a leaf. -/
def leafKind? : Token → Option LeafKind
  | leaf k _ => some k
  | node _ _ => none

/-- The text of a leaf of the given kind. -/
def leafText? (kind : LeafKind) : Token → Option Text
  | leaf k s => if k = kind then some s else none
  | node _ _ => none

/-- Whether the token is a leaf of the given kind. -/
def isLeaf (kind : LeafKind) (t : Token) : Bool :=
  t.leafKind? == some kind

/-- Whether the token is a literal. -/
def isLiteral : Token → Bool
  | node (.literal _) _ => true
  | _ => false

/-- Whether the token is a key with an optional value. -/
def isKeyValue : Token → Bool
  | node .keyValue _ => true
  | _ => false

/-- Whether the token is an array of quoted strings. -/
def isExecForm : Token → Bool
  | node .execForm _ => true
  | _ => false

/-- Whether the token only separates arguments: blanks, line continuations, and the comments that
these carry along. -/
def isSeparator : Token → Bool
  | leaf k _ => k == .blank
  | node .continuation _ => true
  | node .comment _ => true
  | node _ _ => false

/-- Whether the token is a separator or a line end. -/
def isTrivia (t : Token) : Bool :=
  t.isSeparator || t.isLeaf .newline

mutual

/-- A token followed by all that lies below it, in the order of the text. -/
def subtokens : Token → List Token
  | leaf k s => [leaf k s]
  | node k ts => node k ts :: descendants ts

/-- The tokens of a list, each followed by all that lies below it. -/
def descendants : List Token → List Token
  | [] => []
  | t :: ts => subtokens t ++ descendants ts

end

/-- What is below a list of tokens is at or below one of them. -/
theorem mem_descendants {u : Token} {ts : List Token} :
    u ∈ descendants ts ↔ ∃ t ∈ ts, u ∈ t.subtokens := by
  induction ts with
  | nil => simp [descendants]
  | cons t ts ih => simp [descendants, ih]

/-- What holds of the leaves, and of a node if it holds of its children, holds of every token. -/
theorem induction {motive : Token → Prop} (leaf : ∀ kind s, motive (.leaf kind s))
    (node : ∀ kind ts, (∀ t ∈ ts, motive t) → motive (.node kind ts)) : ∀ t, motive t
  | .leaf kind s => leaf kind s
  | .node kind ts => node kind ts fun t _ => induction leaf node t

/-! ## Leaves by kind -/

/-- A symbol. -/
def symbol (s : Text) : Token := leaf .symbol s

/-- A run of blanks. -/
def blank (s : Text) : Token := leaf .blank s

/-- A line end. -/
def newline (s : Text) : Token := leaf .newline s

/-- A run of literal text. -/
def fragment (s : Text) : Token := leaf .fragment s

/-- A name. -/
def identifier (s : Text) : Token := leaf .identifier s

end Token

end Containerfile
