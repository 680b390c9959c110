import Containerfile.Error
import Containerfile.Token

/-!
# The head of a reference

A reference to a variable is `$NAME`, `${NAME}` or `${NAME<op>word}`.  The first two are read in
one go.  Of the third only the head is read here, up to the word, because the word is literal text
that can hold references again.

## Main definitions

* `Modifier` — the six operators.
* `Reference.Head`, `Reference.head` — what a text that may start a reference starts with.
-/

namespace Containerfile

/-! ## Operators -/

/-- The operator of a reference with a word. -/
inductive Modifier where
  /-- `-`: the word, if the variable is unset. -/
  | defaultIfUnset
  /-- `:-`: the word, if the variable is unset or empty. -/
  | defaultIfUnsetOrEmpty
  /-- `+`: the word, if the variable is set. -/
  | alternateIfSet
  /-- `:+`: the word, if the variable is set and not empty. -/
  | alternateIfSetAndNonempty
  /-- `?`: a failure, if the variable is unset. -/
  | errorIfUnset
  /-- `:?`: a failure, if the variable is unset or empty. -/
  | errorIfUnsetOrEmpty
deriving DecidableEq, Repr

namespace Modifier

/-- The operator as it is written. -/
def operator : Modifier → Text
  | defaultIfUnset => ['-']
  | defaultIfUnsetOrEmpty => [':', '-']
  | alternateIfSet => ['+']
  | alternateIfSetAndNonempty => [':', '+']
  | errorIfUnset => ['?']
  | errorIfUnsetOrEmpty => [':', '?']

/-- Whether a variable with an empty value counts as unset: so it does in the forms with a
colon. -/
def emptyIsUnset : Modifier → Bool
  | defaultIfUnset => false
  | defaultIfUnsetOrEmpty => true
  | alternateIfSet => false
  | alternateIfSetAndNonempty => true
  | errorIfUnset => false
  | errorIfUnsetOrEmpty => true

/-- The operator that a text starts with, and what follows it. -/
def read? : Text → Option (Modifier × Text)
  | ':' :: '-' :: r => some (defaultIfUnsetOrEmpty, r)
  | ':' :: '+' :: r => some (alternateIfSetAndNonempty, r)
  | ':' :: '?' :: r => some (errorIfUnsetOrEmpty, r)
  | '-' :: r => some (defaultIfUnset, r)
  | '+' :: r => some (alternateIfSet, r)
  | '?' :: r => some (errorIfUnset, r)
  | _ => none

/-- The operator that a text is. -/
def ofText? (s : Text) : Option Modifier :=
  match read? s with
  | some (m, []) => some m
  | _ => none

theorem length_lt_of_read? {s r : Text} {m : Modifier} (h : read? s = some (m, r)) :
    r.length < s.length := by
  unfold read? at h
  split at h <;> cases h <;> simp only [List.length_cons] <;> omega

end Modifier

/-! ## Heads -/

namespace Reference

/-- What a text that may start a reference starts with. -/
inductive Head where
  /-- No reference; `rest` is the text from where one could not go on. -/
  | absent (rest : Text)
  /-- A reference without a word, and what follows it. -/
  | whole (parts : List Token) (rest : Text)
  /-- The head of a reference with a word, and what follows the operator. -/
  | modified (name : Text) (modifier : Modifier) (rest : Text)
  /-- A brace that opens no reference. -/
  | malformed (problem : Problem)
deriving DecidableEq, Repr

/-- The parts of `$NAME`. -/
def bareParts (name : Text) : List Token :=
  [.leaf .referenceMark ['$'], .identifier name]

/-- The parts of `${NAME}`. -/
def bracedParts (name : Text) : List Token :=
  [.leaf .referenceMark ['$'], .symbol ['{'], .identifier name, .symbol ['}']]

/-- The parts of `${NAME<op>word}`. -/
def modifiedParts (name : Text) (modifier : Modifier) (word : List Token) : List Token :=
  [.leaf .referenceMark ['$'], .symbol ['{'], .identifier name, .leaf .operator modifier.operator,
    .node (.literal true) word, .symbol ['}']]

/-- What follows the name of a braced reference: the closing brace or an operator.  A line that
ends here lacks the brace; anything else is no operator. -/
def headBraced (name : Text) : Text → Head
  | '}' :: r => .whole (bracedParts name) r
  | r =>
    match Modifier.read? r with
    | some (m, r') => .modified name m r'
    | none => if r.atLineEnd then .malformed .missingBrace else .malformed .badSubstitution

/-- What the text starts with.  A bare name does not start with a digit; a braced one can. -/
def head : Text → Head
  | '$' :: '{' :: s =>
    match s.takeWhile isNameChar with
    | [] => .malformed .badSubstitution
    | c :: name => headBraced (c :: name) (s.dropWhile isNameChar)
  | '$' :: s =>
    match s.takeWhile isNameChar with
    | [] => .absent s
    | c :: name =>
      if c.isDigit then .absent s else .whole (bareParts (c :: name)) (s.dropWhile isNameChar)
  | s => .absent s

/-! ## Progress -/

theorem length_lt_of_headBraced {name s : Text} :
    (∀ parts r, headBraced name s = .whole parts r → r.length < s.length) ∧
      (∀ n m r, headBraced name s = .modified n m r → r.length < s.length) := by
  unfold headBraced
  split
  · constructor
    · intro parts r h
      cases h
      simp
    · intro n m r h
      cases h
  · split
    · rename_i h
      have := Modifier.length_lt_of_read? h
      constructor
      · intro parts r h
        cases h
      · intro n m r h
        cases h
        exact this
    · split <;> exact ⟨(nofun : ∀ _ _, _ → _), (nofun : ∀ _ _ _, _ → _)⟩

private theorem length_dropWhile_le (p : Char → Bool) (s : Text) :
    (s.dropWhile p).length ≤ s.length :=
  (List.dropWhile_sublist p).length_le

theorem length_lt_of_head_whole {s r : Text} {parts : List Token}
    (h : head s = .whole parts r) : r.length < s.length := by
  unfold head at h
  split at h
  · rename_i s
    split at h
    · cases h
    · have := length_lt_of_headBraced.1 _ _ h
      have := length_dropWhile_le isNameChar s
      simp only [List.length_cons]
      omega
  · rename_i s _
    split at h
    · cases h
    · split at h
      · cases h
      · cases h
        have := length_dropWhile_le isNameChar s
        simp only [List.length_cons]
        omega
  · cases h

theorem length_lt_of_head_modified {s r name : Text} {m : Modifier}
    (h : head s = .modified name m r) : r.length < s.length := by
  unfold head at h
  split at h
  · rename_i s
    split at h
    · cases h
    · have := length_lt_of_headBraced.2 _ _ _ h
      have := length_dropWhile_le isNameChar s
      simp only [List.length_cons]
      omega
  · split at h
    · cases h
    · split at h <;> cases h
  · cases h

end Reference

end Containerfile
