import Containerfile.Expansion
import Containerfile.Proofs.Steps

/-!
# Expansion of parameters

Text with references in it can be described without looking at how it is read: it is a sequence of
segments, plain characters, escaped ones, and references, whose words are such sequences again.
The segments have a written form, and a meaning, which is what a shell makes of them.  Reading the
written form and resolving what was read gives the meaning.

The proof is in two halves.  The scan of the written form takes the pieces of the segments, one
step for each, and the tokens that the pieces are joined to have the meaning of the segments as
their value.  Joining runs of text is what makes the second half more than a walk along the
segments: escapes are dropped from a joined run as a whole, so its parts must not share an escape.

## Main definitions

* `Segments` — text with references; `Segments.render` is its written form.
* `Segments.WellFormed` — the segments are told apart by their written form.
* `Segments.eval` — what the segments stand for.
* `Segments.Refused` — a reference that counts asks for a variable that is not there.

## Main results

* `Segments.scans_render` — the scan of the written form.
* `Segments.substituteParts_pieces` — the value of what was scanned.
* `Segments.resolve_render` — resolution gives the meaning of the segments.
-/

namespace Containerfile

/-! ## Segments -/

/-- A sequence of segments of text. -/
inductive Segments where
  | nil
  /-- A character that stands for itself. -/
  | plain (c : Char) (rest : Segments)
  /-- A character with the escape character before it. -/
  | escaped (c : Char) (rest : Segments)
  /-- `$NAME` -/
  | bare (name : Text) (rest : Segments)
  /-- `${NAME}` -/
  | braced (name : Text) (rest : Segments)
  /-- `${NAME<op>word}` -/
  | modified (name : Text) (op : Modifier) (word rest : Segments)
deriving DecidableEq, Repr

/-- Whether a variable counts as set for an operator: without a colon if it has a value, with one
if it has a value that is not empty. -/
def Modifier.countsAsSet : Modifier → Option Text → Bool
  | defaultIfUnset, value | alternateIfSet, value | errorIfUnset, value => value.isSome
  | defaultIfUnsetOrEmpty, value | alternateIfSetAndNonempty, value | errorIfUnsetOrEmpty, value =>
    value.any (· ≠ [])

/-- Whether the word counts, given whether the variable does: the alternate word of a variable
that is set, the default and the message of one that is not. -/
def Modifier.usesWord : Modifier → Bool → Bool
  | alternateIfSet, isSet | alternateIfSetAndNonempty, isSet => isSet
  | _, isSet => !isSet

namespace Segments

/-- The written form. -/
def render (escape : Char) : Segments → Text
  | nil => []
  | plain c rest => c :: rest.render escape
  | escaped c rest => escape :: c :: rest.render escape
  | bare name rest => '$' :: name ++ rest.render escape
  | braced name rest => '$' :: '{' :: name ++ '}' :: rest.render escape
  | modified name op word rest =>
    '$' :: '{' :: name ++ (op.operator ++ (word.render escape ++ '}' :: rest.render escape))

/-- The written form of the segments is theirs alone.  `inWord` holds for the word of a reference,
which a closing brace would end. -/
def WellFormed (escape : Char) (inWord : Bool) : Segments → Prop
  | nil => True
  | plain c rest =>
    c ≠ '$' ∧ c ≠ escape ∧ isLineBreak c = false ∧ (inWord = true → c ≠ '}') ∧
      rest.WellFormed escape inWord
  | escaped c rest => isLineBreak c = false ∧ rest.WellFormed escape inWord
  | bare name rest =>
    name ≠ [] ∧ name.all isNameChar = true ∧ name.head?.any Char.isDigit = false ∧
      (rest.render escape).head?.any isNameChar = false ∧ rest.WellFormed escape inWord
  | braced name rest => name ≠ [] ∧ name.all isNameChar = true ∧ rest.WellFormed escape inWord
  | modified name _ word rest =>
    name ≠ [] ∧ name.all isNameChar = true ∧ word.WellFormed escape true ∧
      rest.WellFormed escape inWord

/-- Well-formed segments can be told by looking at them. -/
instance decidableWellFormed (escape : Char) :
    (inWord : Bool) → (segs : Segments) → Decidable (segs.WellFormed escape inWord)
  | _, nil => isTrue trivial
  | inWord, plain _ rest =>
    have := decidableWellFormed escape inWord rest
    inferInstanceAs (Decidable (_ ∧ _ ∧ _ ∧ _ ∧ _))
  | inWord, escaped _ rest =>
    have := decidableWellFormed escape inWord rest
    inferInstanceAs (Decidable (_ ∧ _))
  | inWord, bare _ rest =>
    have := decidableWellFormed escape inWord rest
    inferInstanceAs (Decidable (_ ∧ _ ∧ _ ∧ _ ∧ _))
  | inWord, braced _ rest =>
    have := decidableWellFormed escape inWord rest
    inferInstanceAs (Decidable (_ ∧ _ ∧ _))
  | inWord, modified _ _ word rest =>
    have := decidableWellFormed escape true word
    have := decidableWellFormed escape inWord rest
    inferInstanceAs (Decidable (_ ∧ _ ∧ _ ∧ _))

/-- The refusal of a variable, which says the word, or that the variable is not there. -/
def refusal (name word : Text) : Error :=
  .variableUnset name (if word = [] then name ++ ": parameter null or not set".toList else word)

/-- What a reference with an operator stands for, given the value of its variable and what its word
stands for. -/
def modifiedValue (name : Text) (op : Modifier) (value : Option Text) (word : Except Error Text) :
    Except Error Text :=
  match op with
  | .defaultIfUnset | .defaultIfUnsetOrEmpty =>
    if op.countsAsSet value then .ok (value.getD []) else word
  | .alternateIfSet | .alternateIfSetAndNonempty => if op.countsAsSet value then word else .ok []
  | .errorIfUnset | .errorIfUnsetOrEmpty =>
    if op.countsAsSet value then .ok (value.getD [])
    else word.bind fun w => .error (refusal name w)

/-- What the segments stand for.  A value is inserted as it is. -/
def eval (escape : Char) (removeEscapes : Bool) (bindings : Bindings) :
    Segments → Except Error Text
  | nil => .ok []
  | plain c rest => (rest.eval escape removeEscapes bindings).map (c :: ·)
  | escaped c rest =>
    (rest.eval escape removeEscapes bindings).map
      ((if removeEscapes then [c] else [escape, c]) ++ ·)
  | bare name rest | braced name rest =>
    (rest.eval escape removeEscapes bindings).map ((bindings.value? name).getD [] ++ ·)
  | modified name op word rest =>
    (modifiedValue name op (bindings.value? name) (word.eval escape removeEscapes bindings)).bind
      fun v => (rest.eval escape removeEscapes bindings).map (v ++ ·)

/-- A reference that counts asks for a variable that does not count as set. -/
def Refused (bindings : Bindings) : Segments → Prop
  | nil => False
  | plain _ rest | escaped _ rest | bare _ rest | braced _ rest => rest.Refused bindings
  | modified name op word rest =>
    ((op = .errorIfUnset ∨ op = .errorIfUnsetOrEmpty) ∧
        op.countsAsSet (bindings.value? name) = false) ∨
      (op.usesWord (op.countsAsSet (bindings.value? name)) = true ∧ word.Refused bindings) ∨
      rest.Refused bindings

end Segments

/-! ## Scanning -/

/-- A continuation needs a line end. -/
theorem Lexeme.continuation_stuck {escape : Char} {s : Text} (hs : '\n' ∉ s) :
    ∃ m, Lexeme.continuation escape (escape :: s) = .stuck m := by
  refine (Lexeme.continuation_eq_ok_or_stuck escape (escape :: s)).resolve_left fun hok => ?_
  obtain ⟨ts, r, hline⟩ := Lexeme.continuation_cons_eq_ok.1 hok
  have hmem : '\n' ∈ s.dropWhile isBlank := by
    rcases Lexeme.newline_eq_ok.1 hline with ⟨h, -⟩ | ⟨h, -⟩ <;> simp [h]
  exact hs ((List.dropWhile_sublist _).mem hmem)

namespace Reference

theorem span_name {name s : Text} (hname : name.all isNameChar = true)
    (hs : s.head?.any isNameChar = false) :
    (name ++ s).takeWhile isNameChar = name ∧ (name ++ s).dropWhile isNameChar = s := by
  have hall : ∀ c ∈ name, isNameChar c = true := by simpa using hname
  rw [List.takeWhile_append_of_pos hall, List.dropWhile_append_of_pos hall]
  simpa using Text.span_append hs []

theorem head_bare_append {name s : Text} (hne : name ≠ []) (hname : name.all isNameChar = true)
    (hdigit : name.head?.any Char.isDigit = false) (hs : s.head?.any isNameChar = false) :
    head ('$' :: name ++ s) = .whole (bareParts name) s := by
  obtain ⟨htake, hdrop⟩ := span_name hname hs
  cases name with
  | nil => exact absurd rfl hne
  | cons c name =>
    have hc : c ≠ '{' := by
      rintro rfl
      simp [show isNameChar '{' = false from rfl] at hname
    have hdigit : c.isDigit = false := by simpa using hdigit
    rw [List.cons_append] at htake hdrop ⊢
    rw [List.cons_append, head_bare hc, htake, hdrop]
    simp [hdigit]

theorem head_braced_append {name s : Text} (hne : name ≠ []) (hname : name.all isNameChar = true)
    (hs : s.head?.any isNameChar = false) :
    head ('$' :: '{' :: name ++ s) = headBraced name s := by
  obtain ⟨htake, hdrop⟩ := span_name hname hs
  cases name with
  | nil => exact absurd rfl hne
  | cons c name =>
    rw [List.cons_append, List.cons_append, head.eq_1, htake, hdrop]

end Reference

theorem Reference.headBraced_operator (name : Text) (op : Modifier) (s : Text) :
    headBraced name (op.operator ++ s) = .modified name op s := by
  unfold headBraced
  split
  · rename_i h
    cases op <;> cases h
  · rw [Modifier.read?_operator]

namespace Literal

variable {escape : Char} {inWord : Bool} {s : Text}

/-- The style of free text, and of the word of a reference. -/
def freeStyle (inWord : Bool) : Style :=
  { Style.free with braceEnds := inWord }

/-- The piece of a character that stands for itself. -/
def charPiece (c : Char) : Piece :=
  if isBlank c then .blank c else .text [c]

theorem step_plain {c : Char} (hdollar : c ≠ '$') (hescape : c ≠ escape)
    (hbreak : isLineBreak c = false) (hbrace : inWord = true → c ≠ '}') :
    step (freeStyle inWord) escape none (c :: s) = .take [charPiece c] none s := by
  have hend : ¬ (inWord = true ∧ c = '}') := fun h => hbrace h.1 h.2
  by_cases hblank : isBlank c = true <;>
    simp [step, stepUnquoted, stepChar, freeStyle, Style.free, charPiece, hdollar, hescape, hend,
      hblank, Text.atLineEnd_eq_false hbreak]

theorem step_escaped {c : Char} (hbreak : ∀ d ∈ c :: s, isLineBreak d = false) :
    step (freeStyle inWord) escape none (escape :: c :: s) =
      .take [.text [escape, c]] none s := by
  have hline : '\n' ∉ c :: s := fun hmem => Bool.noConfusion (hbreak '\n' hmem)
  obtain ⟨m, hstuck⟩ := @Lexeme.continuation_stuck escape _ hline
  have hend := Text.atLineEnd_eq_false (s := s) (hbreak c List.mem_cons_self)
  simp [step, stepEscape, stepEscaped, hstuck, hend]

theorem step_dollar (he : IsEscape escape) :
    step (freeStyle inWord) escape none ('$' :: s) = stepDollar none s := by
  have hescape : '$' ≠ escape := by
    rintro rfl
    rcases he with h | h <;> cases h
  simp [step, stepUnquoted, stepChar, freeStyle, Style.free, hescape, Text.atLineEnd,
    show isBlank '$' = false from rfl]

end Literal

namespace Segments

open Literal

/-- The pieces of the written form. -/
def pieces (escape : Char) : Segments → List Piece
  | nil => []
  | plain c rest => charPiece c :: rest.pieces escape
  | escaped c rest => .text [escape, c] :: rest.pieces escape
  | bare name rest => .token (.node .reference (Reference.bareParts name)) :: rest.pieces escape
  | braced name rest => .token (.node .reference (Reference.bracedParts name)) :: rest.pieces escape
  | modified name op word rest =>
    referencePiece name op (word.pieces escape) :: rest.pieces escape

variable {escape : Char} {segs : Segments} {inWord : Bool}

theorem isLineBreak_of_mem_name {name : Text} (hname : name.all isNameChar = true) :
    ∀ c ∈ name, isLineBreak c = false := by
  intro c hc
  have hordinary := IsEscape.ordinary (.inl rfl) (q := isNameChar) rfl c
  exact (hordinary (List.all_eq_true.1 hname c hc)).2

theorem isLineBreak_of_mem_operator (op : Modifier) : ∀ c ∈ op.operator, isLineBreak c = false := by
  have hall : (op.operator.all fun c => !isLineBreak c) = true := by cases op <;> rfl
  simpa using hall

/-- The written form is on one line. -/
theorem isLineBreak_of_mem_render (he : IsEscape escape) (h : segs.WellFormed escape inWord) :
    ∀ c ∈ segs.render escape, isLineBreak c = false := by
  induction segs generalizing inWord with
  | nil => simp [render]
  | plain c rest ih =>
    obtain ⟨-, -, hc, -, hrest⟩ := h
    simp only [render, List.forall_mem_cons]
    exact ⟨hc, ih hrest⟩
  | escaped c rest ih =>
    obtain ⟨hc, hrest⟩ := h
    simp only [render, List.forall_mem_cons]
    exact ⟨he.isLineBreak, hc, ih hrest⟩
  | bare name rest ih =>
    obtain ⟨-, hname, -, -, hrest⟩ := h
    simp only [render, List.cons_append, List.forall_mem_cons, List.forall_mem_append]
    exact ⟨rfl, isLineBreak_of_mem_name hname, ih hrest⟩
  | braced name rest ih =>
    obtain ⟨-, hname, hrest⟩ := h
    simp only [render, List.cons_append, List.forall_mem_cons, List.forall_mem_append]
    exact ⟨rfl, rfl, isLineBreak_of_mem_name hname, rfl, ih hrest⟩
  | modified name op word rest ihword ih =>
    obtain ⟨-, hname, hword, hrest⟩ := h
    simp only [render, List.cons_append, List.forall_mem_cons, List.forall_mem_append]
    exact ⟨rfl, rfl, isLineBreak_of_mem_name hname, isLineBreak_of_mem_operator op, ihword hword,
      rfl, ih hrest⟩

theorem head?_any_append {s t : Text} {p : Char → Bool} (hs : s.head?.any p = false)
    (ht : t.head?.any p = false) : (s ++ t).head?.any p = false := by
  cases s with
  | nil => exact ht
  | cons c s => exact hs

/-- The scan of the written form takes the pieces of the segments.  What is behind ends the text,
and is on the same line. -/
theorem scans_render (he : IsEscape escape) (h : segs.WellFormed escape inWord) {tail : Text}
    (hline : ∀ c ∈ tail, isLineBreak c = false) (hname : tail.head?.any isNameChar = false)
    (hend : step (freeStyle inWord) escape none tail = .stop) :
    Scans escape (freeStyle inWord) none (segs.render escape ++ tail) (segs.pieces escape)
      tail := by
  induction segs generalizing inWord tail with
  | nil => exact .stop hend
  | plain c rest ih =>
    obtain ⟨hdollar, hescape, hbreak, hbrace, hrest⟩ := h
    exact .take (step_plain hdollar hescape hbreak hbrace) (ih hrest hline hname hend)
  | escaped c rest ih =>
    obtain ⟨hc, hrest⟩ := h
    have hbreak : ∀ d ∈ c :: (rest.render escape ++ tail), isLineBreak d = false := by
      simp only [List.forall_mem_cons, List.forall_mem_append]
      exact ⟨hc, isLineBreak_of_mem_render he hrest, hline⟩
    exact .take (step_escaped hbreak) (ih hrest hline hname hend)
  | bare name rest ih =>
    obtain ⟨hne, hall, hdigit, hnext, hrest⟩ := h
    have hstep : step (freeStyle inWord) escape none ('$' :: name ++ (rest.render escape ++ tail)) =
        .take [.token (.node .reference (Reference.bareParts name))] none
          (rest.render escape ++ tail) := by
      rw [List.cons_append, step_dollar he, stepDollar, ← List.cons_append,
        Reference.head_bare_append hne hall hdigit (head?_any_append hnext hname)]
    rw [render, List.append_assoc]
    exact .take hstep (ih hrest hline hname hend)
  | braced name rest ih =>
    obtain ⟨hne, hall, hrest⟩ := h
    have hstep : step (freeStyle inWord) escape none
          ('$' :: '{' :: name ++ '}' :: (rest.render escape ++ tail)) =
        .take [.token (.node .reference (Reference.bracedParts name))] none
          (rest.render escape ++ tail) := by
      rw [List.cons_append, step_dollar he, stepDollar, ← List.cons_append,
        Reference.head_braced_append hne hall rfl]
      rfl
    rw [render, List.append_assoc]
    exact .take hstep (ih hrest hline hname hend)
  | modified name op word rest ihword ih =>
    obtain ⟨hne, hall, hword, hrest⟩ := h
    have hoperator : ∀ s, (op.operator ++ s).head?.any isNameChar = false := by
      intro s
      cases op <;> rfl
    have hstep :
        ∀ s, step (freeStyle inWord) escape none ('$' :: '{' :: name ++ (op.operator ++ s)) =
          .reference name op s := by
      intro s
      rw [List.cons_append, step_dollar he, stepDollar, ← List.cons_append,
        Reference.head_braced_append hne hall (hoperator s), Reference.headBraced_operator]
    have hbehind : ∀ c ∈ '}' :: (rest.render escape ++ tail), isLineBreak c = false := by
      simp only [List.forall_mem_cons, List.forall_mem_append]
      exact ⟨rfl, isLineBreak_of_mem_render he hrest, hline⟩
    have hscan := ihword hword hbehind rfl (step_closingBrace he _)
    simp only [render, List.append_assoc, List.cons_append] at hstep ⊢
    exact .reference (hstep _) hscan (ih hrest hline hname hend)

end Segments

/-! ## Values -/

/-- A view of tokens that joins the texts of fragments. -/
structure JoinsFragments (view : List Token → Text) : Prop where
  nil : view [] = []
  fragment (s : Text) (ts : List Token) : view (.fragment s :: ts) = s ++ view ts

theorem joinsFragments_textAll : JoinsFragments Token.textAll :=
  ⟨rfl, fun _ _ => rfl⟩

theorem joinsFragments_valueOf : JoinsFragments Literal.valueOf :=
  ⟨rfl, fun _ _ => rfl⟩

namespace Expansion

variable {x : Expansion} {view : List Token → Text}

theorem dropEscapes_cons {escape c : Char} (hc : c ≠ escape) (s : Text) :
    dropEscapes escape (c :: s) = c :: dropEscapes escape s := by
  cases s with
  | nil => rfl
  | cons d s => rw [dropEscapes, if_neg hc]

theorem dropEscapes_escape (escape c : Char) (s : Text) :
    dropEscapes escape (escape :: c :: s) = c :: dropEscapes escape s := by
  rw [dropEscapes, if_pos rfl]

theorem substituteParts_fragment (hview : JoinsFragments view) (s : Text) (ts : List Token) :
    (x.substituteParts (.fragment s :: ts)).map view =
      ((x.substituteParts ts).map view).map (x.fragmentText s ++ ·) := by
  have hstep : x.substituteParts (.fragment s :: ts) =
      (x.substituteParts ts).map (.fragment (x.fragmentText s) :: ·) := rfl
  rw [hstep]
  cases x.substituteParts ts with
  | error e => rfl
  | ok us => simp [Except.map, hview.fragment]

/-- A text put in front of tokens adds to their value by itself, if it shares no escape with what is
behind it. -/
theorem substituteParts_prependText (hview : JoinsFragments view) {s : Text}
    (hs : ∀ t, x.fragmentText (s ++ t) = x.fragmentText s ++ x.fragmentText t) (ts : List Token) :
    (x.substituteParts (Literal.prependText s ts)).map view =
      ((x.substituteParts ts).map view).map (x.fragmentText s ++ ·) := by
  unfold Literal.prependText
  split
  · rename_i t ts
    rw [substituteParts_fragment hview, hs, ← Token.fragment, substituteParts_fragment hview]
    cases x.substituteParts ts with
    | error e => rfl
    | ok us => simp [Except.map]
  · exact substituteParts_fragment hview s _

theorem substituteParts_reference (hview : JoinsFragments view) (parts ts : List Token) :
    (x.substituteParts (.node .reference parts :: ts)).map view =
      (x.expand parts (x.expandWord parts)).bind fun v =>
        ((x.substituteParts ts).map view).map (v ++ ·) := by
  rw [substituteParts, substitutePart]
  cases x.expand parts (x.expandWord parts) with
  | error e => rfl
  | ok v =>
    cases x.substituteParts ts with
    | error e => rfl
    | ok us => exact congrArg Except.ok (hview.fragment v us)

theorem applyModifier_eq (name : Text) (op : Modifier) (value : Option Text)
    (word : Except Error Text) :
    applyModifier name op value word = Segments.modifiedValue name op value word := by
  have hrefusal :
      (fun w => (.error (.variableUnset name (unsetMessage name w)) : Except Error Text)) =
        fun w => .error (Segments.refusal name w) := by
    funext w
    cases w <;> rfl
  rcases value with _ | _ | ⟨c, v⟩ <;> cases op <;>
    first | rfl | exact congrArg word.bind hrefusal

variable (hkeep : x.undeclared = .empty)

include hkeep in
theorem expand_of_modifierOf_none {parts : List Token} (word : Except Error Text)
    (h : Reference.modifierOf parts = none) :
    x.expand parts word = .ok ((x.bindings.value? (Reference.nameOf parts)).getD []) := by
  unfold expand
  rw [hkeep, h]
  cases hfound : x.bindings.find? (Reference.nameOf parts) <;> simp [Bindings.value?, hfound]

include hkeep in
theorem expand_modifiedParts (name : Text) (op : Modifier) (ts : List Token)
    (word : Except Error Text) :
    x.expand (Reference.modifiedParts name op ts) word =
      Segments.modifiedValue name op (x.bindings.value? name) word := by
  have hname : Reference.nameOf (Reference.modifiedParts name op ts) = name := rfl
  have hop : Reference.modifierOf (Reference.modifiedParts name op ts) = some op := by
    cases op <;> rfl
  unfold expand
  rw [hkeep, hname, hop, ← applyModifier_eq]
  cases hfound : x.bindings.find? name <;> simp [Bindings.value?, hfound]

end Expansion

namespace Segments

open Literal

variable {escape : Char} {segs : Segments} {inWord : Bool}

/-- The tokens of the pieces have the meaning of the segments as their value. -/
theorem substituteParts_pieces {x : Expansion} (hkeep : x.undeclared = .empty)
    (h : segs.WellFormed x.escape inWord) {view : List Token → Text} (hview : JoinsFragments view) :
    (x.substituteParts (assemble (segs.pieces x.escape))).map view =
      segs.eval x.escape x.removeEscapes x.bindings := by
  induction segs generalizing inWord view with
  | nil => exact congrArg Except.ok hview.nil
  | plain c rest ih =>
    obtain ⟨-, hescape, -, -, hrest⟩ := h
    have hc : ∀ t, x.fragmentText ([c] ++ t) = x.fragmentText [c] ++ x.fragmentText t := by
      intro t
      by_cases hremove : x.removeEscapes = true <;>
        simp [Expansion.fragmentText, hremove, Expansion.dropEscapes_cons hescape,
          Expansion.dropEscapes]
    have hassemble : assemble ((plain c rest).pieces x.escape) =
        prependText [c] (assemble (rest.pieces x.escape)) := by
      simp only [pieces, charPiece]
      split <;> rfl
    have htext : x.fragmentText [c] = [c] := by
      simp [Expansion.fragmentText, Expansion.dropEscapes]
    rw [hassemble, Expansion.substituteParts_prependText hview hc, htext, ih hrest hview]
    rfl
  | escaped c rest ih =>
    have hc : ∀ t, x.fragmentText ([x.escape, c] ++ t) =
        x.fragmentText [x.escape, c] ++ x.fragmentText t := by
      intro t
      by_cases hremove : x.removeEscapes = true <;>
        simp [Expansion.fragmentText, hremove, Expansion.dropEscapes_escape, Expansion.dropEscapes]
    have htext : x.fragmentText [x.escape, c] =
        if x.removeEscapes then [c] else [x.escape, c] := by
      simp [Expansion.fragmentText, Expansion.dropEscapes]
    rw [pieces, assemble, Expansion.substituteParts_prependText hview hc, htext, ih h.2 hview]
    rfl
  | bare name rest ih =>
    obtain ⟨-, -, -, -, hrest⟩ := h
    rw [pieces, assemble, Expansion.substituteParts_reference hview,
      Expansion.expand_of_modifierOf_none hkeep _ rfl, ih hrest hview]
    rfl
  | braced name rest ih =>
    obtain ⟨-, -, hrest⟩ := h
    rw [pieces, assemble, Expansion.substituteParts_reference hview,
      Expansion.expand_of_modifierOf_none hkeep _ rfl, ih hrest hview]
    rfl
  | modified name op word rest ihword ih =>
    obtain ⟨-, -, hword, hrest⟩ := h
    have hvalue : x.expandWord (Reference.modifiedParts name op (assemble (word.pieces x.escape))) =
        word.eval x.escape x.removeEscapes x.bindings := by
      rw [← ihword hword joinsFragments_valueOf]
      rfl
    rw [pieces, referencePiece, assemble, Expansion.substituteParts_reference hview, hvalue,
      Expansion.expand_modifiedParts hkeep, ih hrest hview]
    rfl

theorem parse_render (he : IsEscape escape) (h : segs.WellFormed escape false) :
    Literal.parse (segs.render escape) escape true = .ok ⟨true, assemble (segs.pieces escape)⟩ := by
  have hscan :
      Scans escape (freeStyle false) none (segs.render escape ++ []) (segs.pieces escape) [] :=
    scans_render he h nofun rfl rfl
  rw [List.append_nil] at hscan
  have hbody := body_eq_ok.2 ⟨_, _, hscan, rfl, rfl, .inr rfl⟩
  exact except_map_eq_ok.2 ⟨_, Outcome.complete_eq_ok.2 hbody, rfl⟩

/-! ## Failures -/

theorem exists_map_error {f : Text → Text} {r : Except Error Text} :
    (∃ e, r.map f = .error e) ↔ ∃ e, r = .error e := by
  cases r <;> simp [Except.map]

theorem exists_append_error {q r : Except Error Text} :
    (∃ e, (q.bind fun v => r.map (v ++ ·)) = .error e) ↔
      (∃ e, q = .error e) ∨ ∃ e, r = .error e := by
  cases q <;> cases r <;> simp [Except.bind, Except.map]

/-- A reference with an operator fails if it asks for a variable that does not count as set, and
if its word counts and fails. -/
theorem exists_modifiedValue_error {name : Text} {op : Modifier} {value : Option Text}
    {word : Except Error Text} :
    (∃ e, modifiedValue name op value word = .error e) ↔
      ((op = .errorIfUnset ∨ op = .errorIfUnsetOrEmpty) ∧ op.countsAsSet value = false) ∨
        (op.usesWord (op.countsAsSet value) = true ∧ ∃ e, word = .error e) := by
  cases word <;> cases op <;> cases hset : Modifier.countsAsSet _ value <;>
    simp [modifiedValue, hset, Modifier.usesWord, Except.bind]

theorem exists_eval_error {removeEscapes : Bool} {bindings : Bindings} :
    (∃ e, segs.eval escape removeEscapes bindings = .error e) ↔ segs.Refused bindings := by
  induction segs with
  | nil => simp [eval, Refused]
  | plain c rest ih => rw [eval, exists_map_error, ih, Refused]
  | escaped c rest ih => rw [eval, exists_map_error, ih, Refused]
  | bare name rest ih => rw [eval, exists_map_error, ih, Refused]
  | braced name rest ih => rw [eval, exists_map_error, ih, Refused]
  | modified name op word rest ihword ih =>
    rw [eval, exists_append_error, exists_modifiedValue_error, ihword, ih, Refused, or_assoc]

/-- **Parameter expansion.**  The written form of well-formed segments is read, and resolution
gives what the segments stand for.  It fails exactly if a reference that counts asks for a
variable that does not count as set. -/
theorem resolve_render (segs : Segments) (he : IsEscape escape) (h : segs.WellFormed escape false)
    (bindings : Bindings) (options : ResolutionOptions) :
    ∃ l, Literal.parse (segs.render escape) escape true = .ok l ∧
      (l.resolve escape bindings options).answer =
        segs.eval escape options.removeEscapes bindings ∧
      ((∃ e, (l.resolve escape bindings options).answer = .error e) ↔ segs.Refused bindings) := by
  let x : Expansion := { escape, bindings, removeEscapes := options.removeEscapes }
  refine ⟨_, parse_render he h, ?_⟩
  have hvalue := substituteParts_pieces (x := x) rfl h joinsFragments_textAll
  have hanswer :
      (Literal.resolve ⟨true, assemble (segs.pieces escape)⟩ escape bindings options).answer =
        segs.eval escape options.removeEscapes bindings := by
    rw [← hvalue]
    unfold Literal.resolve Literal.expand
    cases hparts : x.substituteParts (assemble (segs.pieces escape)) with
    | error e => simp [Resolution.settle, Expansion.substituteLiteral, x, hparts, Except.map]
    | ok us =>
      simp [Resolution.settle, Expansion.substituteLiteral, x, hparts, Except.map, Literal.text]
  exact ⟨hanswer, by rw [hanswer, exists_eval_error]⟩

/-- In `a${X:-\}${Y+$Z}} b` a word stands inside a word and holds an escaped brace, and the value of
`Z` looks like a reference. -/
theorem resolve_render_nested :
    ∃ l, Literal.parse "a$\x7bX:-\\\x7d$\x7bY+$Z\x7d\x7d b".toList '\\' true = .ok l ∧
      (l.resolve '\\'
        ⟨[("X".toList, some []), ("Y".toList, some []), ("Z".toList, some "$X".toList)]⟩
        { removeEscapes := true }).answer = .ok "a\x7d$X b".toList := by
  obtain ⟨l, hparse, hanswer, -⟩ := resolve_render
    (.plain 'a' (.modified ['X'] .defaultIfUnsetOrEmpty
      (.escaped '}' (.modified ['Y'] .alternateIfSet (.bare ['Z'] .nil) .nil))
      (.plain ' ' (.plain 'b' .nil)))) (.inl rfl) (by decide)
    ⟨[("X".toList, some []), ("Y".toList, some []), ("Z".toList, some "$X".toList)]⟩
    { removeEscapes := true }
  exact ⟨l, hparse, hanswer.trans (by decide)⟩

end Segments

end Containerfile
