import Containerfile.Proofs.Locations
import Containerfile.Proofs.Rereading
import Mathlib.Logic.Function.Iterate

/-!
# Reading ends

The readers repeat and refer to themselves without counting: arguments are read as long as there
are any, the word of a reference is literal text again, a deferred instruction is an instruction.
All this ends because each round takes some text, whatever the escape character is.

A repetition is written here as what one round does, given a reader for the rounds that follow
(`Grammar.manyRound`, `Literal.scanRound`, …), without any test that the text has become shorter.
That it ends is said by unrolling it (`Ends`): as many levels as the text has characters, and one
more, give the answer, and what stands below them does not matter.

## Main definitions

* `Ends` — a recursion ends within the size of what it is applied to.
* `IsArgument`, `IsRepeated` — the readers of one argument, and the readers that are repeated.
* `Advancing`, `Descending`, `Ending` — what takes text, what is applied to less text, and what
  ends.

## Main results

* `ends_of_smaller` — a recursion ends if its answers depend on its answers for what is smaller.
* `reading_ends` — every step takes text, and so every reader ends.
-/

namespace Containerfile

open Grammar Lexeme

/-! ## Recursions -/

/-- The recursion `F` ends with the answers of `f`.  Unrolled to more levels than the size of what
it is applied to, it gives this answer whatever the calls below the last level would give, so
these calls are not made. -/
def Ends {σ α : Type} (size : σ → Nat) (F : (σ → α) → σ → α) (f : σ → α) : Prop :=
  ∀ (n : Nat) (below : σ → α) (x : σ), size x < n → F^[n] below x = f x

/-- A recursion ends if it has the right answer wherever its calls for what is smaller have. -/
theorem ends_of_smaller {σ α : Type} {size : σ → Nat} {F : (σ → α) → σ → α} {f : σ → α}
    (h : ∀ self x, (∀ y, size y < size x → self y = f y) → F self x = f x) : Ends size F f := by
  -- On the levels: the calls of the top level are made one level below, for what is smaller.
  intro n below
  induction n with
  | zero => exact fun x hx => absurd hx (Nat.not_lt_zero _)
  | succ n ih =>
    intro x hx
    rw [Function.iterate_succ_apply']
    refine h _ x fun y hy => ih y ?_
    omega

/-! ## Repetitions -/

namespace Grammar

/-- One round of a repetition; `self` reads the rounds that follow. -/
def manyRound (g self : Grammar) : Grammar := fun s =>
  match g s with
  | .ok ts r => (self r).map (ts ++ ·)
  | .stuck _ => .ok [] s
  | .failed e => .failed e

theorem ends_many {g : Grammar} (hg : Advances g) : Ends List.length (manyRound g) (many g) := by
  refine ends_of_smaller fun self s h => ?_
  rw [many]
  unfold manyRound
  cases hs : g s with
  | ok ts r =>
    have hlt := hg _ _ _ hs
    dsimp only
    rw [h r hlt, if_pos hlt]
    cases many g r <;> rfl
  | stuck r => rfl
  | failed e => rfl

theorem Advances.commit {g : Grammar} (what : String) (hg : Advances g) :
    Advances (commit what g) :=
  fun s ts r h => hg s ts r (commit_eq_ok.1 h)

end Grammar

/-! ## Literals -/

namespace Literal

/-- What a scan is applied to. -/
structure Call where
  style : Style
  /-- The open quote. -/
  quote : Option Quote
  text : Text

/-- One step of a scan; `self` makes the steps that follow, and scans the word of a reference. -/
def scanRound (escape : Char) (self : Call → Scanned) (call : Call) : Scanned :=
  match step call.style escape call.quote call.text with
  | .stop =>
    match call.quote with
    | some q => .error ⟨.malformed .unterminatedQuote, q.rest⟩
    | none => .ok ([], call.text)
  | .take ps q r => (self ⟨call.style, q, r⟩).prepend ps
  | .last ps r => .ok (ps, r)
  | .reference name m r =>
    match closeReference call.text name m (self ⟨.modifierWord, none, r⟩) with
    | .ok (parts, r') =>
      (self ⟨call.style, call.quote, r'⟩).prepend [.token (.node .reference parts)]
    | .error e => .error e
  | .malformed problem => .error ⟨.malformed problem, call.text⟩

theorem ends_scan (escape : Char) :
    Ends (fun call : Call => call.text.length) (scanRound escape)
      fun call => scan call.style escape call.quote call.text := by
  refine ends_of_smaller fun self call h => ?_
  obtain ⟨style, quote, s⟩ := call
  dsimp only
  rw [scan_eq]
  unfold scanRound
  cases hstep : step style escape quote s with
  | stop | last | malformed => rfl
  | take ps q r => simp only [h ⟨style, q, r⟩ (length_lt_of_step_take hstep)]
  | reference name m r =>
    -- Two calls: one for the word, and one for the literal behind the brace that the word leads to.
    simp only [h ⟨.modifierWord, none, r⟩ (length_lt_of_step_reference hstep)]
    cases hclose : closeReference s name m (scan .modifierWord escape none r) with
    | error e => rfl
    | ok closed =>
      obtain ⟨parts, r'⟩ := closed
      obtain ⟨ws, hw, -⟩ := closeReference_eq_ok.1 hclose
      have hlt := Scans.length_lt_of_reference hstep (scan_eq_ok.1 hw)
      simp only [h ⟨style, quote, r'⟩ hlt]

end Literal

/-! ## Instructions -/

theorem Instruction.ends_read (escape : Char) :
    Ends List.length (readWith escape) (read escape) := by
  refine ends_of_smaller fun self s h => ?_
  rw [read_eq]
  exact readWith_congr h

/-! ## Files -/

namespace Document

/-- What reading directives is applied to. -/
structure DirectivesCall where
  /-- The names that have been there. -/
  seen : List Text
  text : Text

/-- One round of reading directives. -/
def directivesRound (self : DirectivesCall → Outcome (List Directive)) (call : DirectivesCall) :
    Outcome (List Directive) :=
  match Directive.body call.text with
  | .ok ts r =>
    let name := Directive.name ⟨ts⟩
    if call.seen.any (Text.sameLetters name) then .ok [] call.text
    else (self ⟨name :: call.seen, r⟩).map (⟨ts⟩ :: ·)
  | .stuck _ => .ok [] call.text
  | .failed e => .failed e

theorem ends_readDirectives :
    Ends (fun call : DirectivesCall => call.text.length) directivesRound
      fun call => readDirectives call.seen call.text := by
  refine ends_of_smaller fun self call h => ?_
  obtain ⟨seen, s⟩ := call
  dsimp only
  rw [readDirectives]
  unfold directivesRound
  cases hs : Directive.body s with
  | ok ts r =>
    have hlt := Directive.advances_body _ _ _ hs
    simp only [h ⟨_, r⟩ hlt, hlt, if_true]
  | stuck r => rfl
  | failed e => rfl

/-- One round of reading items to the end of the text. -/
def itemsRound (escape : Char) (self : Text → Outcome (List Item)) (s : Text) :
    Outcome (List Item) :=
  if s.isEmpty then .ok [] s
  else
    match readItem escape s with
    | .ok item r => (self r).map (item :: ·)
    | .stuck r => .stuck r
    | .failed e => .failed e

theorem ends_readItems (escape : Char) :
    Ends List.length (itemsRound escape) (readItems escape) := by
  refine ends_of_smaller fun self s h => ?_
  rw [readItems]
  unfold itemsRound
  split
  · rfl
  · cases hs : readItem escape s with
    | ok item r =>
      have hlt := length_lt_of_readItem hs
      simp only [h r hlt, hlt, if_true]
    | stuck r => rfl
    | failed e => rfl

/-- Reads a file, with the given readers of its directives and of its other items. -/
def readBy (directives : DirectivesCall → Outcome (List Directive))
    (items : Char → Text → Outcome (List Item)) (s : Text) : Outcome (List Item) :=
  match directives ⟨[], s⟩ with
  | .ok ds r => (items (selectedEscape ds) r).map (ds.map Item.directive ++ ·)
  | .stuck r => .stuck r
  | .failed e => .failed e

theorem readBy_unrolled {s : Text} {n : Nat} (hn : s.length < n)
    (below : DirectivesCall → Outcome (List Directive))
    (below' : Char → Text → Outcome (List Item)) :
    readBy (directivesRound^[n] below) (fun escape => (itemsRound escape)^[n] (below' escape)) s =
      read s := by
  unfold readBy read
  rw [ends_readDirectives n below ⟨[], s⟩ hn]
  dsimp only
  cases hds : readDirectives [] s with
  | ok ds r =>
    have hr : r.length ≤ s.length := by
      have hlen := congrArg List.length (lossless_readDirectives [] s ds r hds)
      rw [List.length_append] at hlen
      omega
    simp only [ends_readItems (selectedEscape ds) n _ r (Nat.lt_of_le_of_lt hr hn)]
  | stuck r => rfl
  | failed e => rfl

end Document

/-! ## All readers -/

/-- The readers of one argument. -/
inductive IsArgument (escape : Char) : Grammar → Prop where
  | flag : IsArgument escape (KeyValue.flag escape)
  | declaration : IsArgument escape (KeyValue.declaration escape isStageChar)
  | variablePair : IsArgument escape (KeyValue.pair escape isStageChar)
  | labelPair : IsArgument escape (KeyValue.pair escape isKeyChar)
  | name : IsArgument escape (identifier isStageChar)
  | stageKeyword : IsArgument escape (Lexeme.keyword "AS".toList)
  | literal (style : Style) : IsArgument escape (Literal.grammar style escape)
  | array (references : Bool) : IsArgument escape (ExecForm.grammar escape references)

/-- The readers that are repeated until one is stuck. -/
inductive IsRepeated (escape : Char) : Grammar → Prop where
  /-- The lines that a continuation takes with it. -/
  | filler : IsRepeated escape (either commentLine blankLine)
  /-- The parts of a separator. -/
  | gap : IsRepeated escape (either blanks (continuation escape))
  | blankLine : IsRepeated escape blankLine
  | argument {g : Grammar} (hg : IsArgument escape g) : IsRepeated escape (argument escape g)
  /-- The elements of an array behind the first one. -/
  | element (references : Bool) : IsRepeated escape (ExecForm.nextElement escape references)

section

variable {escape : Char} {g : Grammar}

theorem IsArgument.shrinks (h : IsArgument escape g) : Shrinks g := by
  have hreaders := arrayReaders_lossless escape
  cases h with
  | flag => exact hreaders.flag.shrinks
  | declaration => exact hreaders.declaration.shrinks
  | variablePair => exact hreaders.variablePair.shrinks
  | labelPair => exact hreaders.labelPair.shrinks
  | name => exact hreaders.stageName.shrinks
  | stageKeyword => exact hreaders.stageKeyword.shrinks
  | literal style =>
    exact compositional_shrinks.node _ rfl (Literal.lossless_body style escape).shrinks
  | array references => exact (hreaders.array references).shrinks

theorem IsArgument.advances_required (h : IsArgument escape g) (what : String) :
    Advances (required escape what g) :=
  ((advances_separator escape).commit what).seq (compositional_shrinks.commit what h.shrinks)

theorem IsRepeated.advances (h : IsRepeated escape g) : Advances g := by
  cases h with
  | filler => exact advances_filler
  | gap => exact advances_gap escape
  | blankLine => exact advances_blankLine
  | argument hg => exact advances_argument hg.shrinks
  | element references => exact ExecForm.advances_nextElement escape references

end

/-- What takes at least one character whenever it succeeds. -/
structure Advancing (escape : Char) : Prop where
  separator : Advances (Lexeme.separator escape)
  continuation : Advances (Lexeme.continuation escape)
  commentLine : Advances Lexeme.commentLine
  blankLine : Advances Lexeme.blankLine
  blankLines : Advances BlankLines.body
  directive : Advances Directive.body
  argument : ∀ g, IsArgument escape g → Advances (Lexeme.argument escape g)
  required : ∀ what g, IsArgument escape g → Advances (Lexeme.required escape what g)
  repeated : ∀ g, IsRepeated escape g → Advances g
  item : ∀ s item r, Document.readItem escape s = .ok item r → r.length < s.length

theorem advancing (escape : Char) : Advancing escape where
  separator := advances_separator escape
  continuation := advances_continuation escape
  commentLine := advances_commentLine
  blankLine := advances_blankLine
  blankLines := BlankLines.advances_body
  directive := Directive.advances_body
  argument _ hg := advances_argument hg.shrinks
  required what _ hg := hg.advances_required what
  repeated _ hg := hg.advances
  item _ _ _ h := Document.length_lt_of_readItem h

/-- Where a reader is applied within itself, there is less text left. -/
structure Descending (escape : Char) : Prop where
  /-- The next step of a scan. -/
  step : ∀ style quote s ps q r,
    Literal.step style escape quote s = .take ps q r → r.length < s.length
  /-- The word of a reference within a literal. -/
  word : ∀ style quote s name m r,
    Literal.step style escape quote s = .reference name m r → r.length < s.length
  /-- The literal behind a reference with a word. -/
  behindWord : ∀ style quote s name m r ps r',
    Literal.step style escape quote s = .reference name m r →
    Literal.scan .modifierWord escape none r = .ok (ps, '}' :: r') → r'.length < s.length
  /-- The word of a reference that stands alone. -/
  reference : ∀ s name m r, Reference.head s = .modified name m r → r.length < s.length
  /-- The deferred instruction. -/
  deferral : Advances (Instruction.deferral escape)
  /-- An instruction is read without a look at how longer texts are read. -/
  instruction : ∀ (f g : Text → Outcome Instruction) s, (∀ r, r.length < s.length → f r = g r) →
    Instruction.readWith escape f s = Instruction.readWith escape g s

theorem descending (escape : Char) : Descending escape where
  step _ _ _ _ _ _ := Literal.length_lt_of_step_take
  word _ _ _ _ _ _ := Literal.length_lt_of_step_reference
  behindWord _ _ _ _ _ _ _ _ hstep hword :=
    Literal.Scans.length_lt_of_reference hstep (Literal.scan_eq_ok.1 hword)
  reference _ _ _ _ := Reference.length_lt_of_head_modified
  deferral := Instruction.advances_deferral escape
  instruction _ _ _ := Instruction.readWith_congr

/-- What is repeated or refers to itself ends. -/
structure Ending (escape : Char) : Prop where
  repetition : ∀ g, IsRepeated escape g → Ends List.length (manyRound g) (many g)
  literal : Ends (fun call : Literal.Call => call.text.length) (Literal.scanRound escape)
    fun call => Literal.scan call.style escape call.quote call.text
  instruction : Ends List.length (Instruction.readWith escape) (Instruction.read escape)
  directives : Ends (fun call : Document.DirectivesCall => call.text.length)
    Document.directivesRound
    fun call => Document.readDirectives call.seen call.text
  items : Ends List.length (Document.itemsRound escape) (Document.readItems escape)

theorem ending (escape : Char) : Ending escape where
  repetition _ hg := ends_many hg.advances
  literal := Literal.ends_scan escape
  instruction := Instruction.ends_read escape
  directives := Document.ends_readDirectives
  items := Document.ends_readItems escape

/-- **Reading ends because it takes text.**  Whatever the escape character is, every step takes at
least one character and every reader is applied within itself only to less text.  So each repetition
and each recursion ends within as many levels as the text has characters, and one more; and so does
reading a file. -/
theorem reading_ends :
    (∀ escape, Advancing escape ∧ Descending escape ∧ Ending escape) ∧
      ∀ (s : Text) (n : Nat) (below : Document.DirectivesCall → Outcome (List Directive))
        (below' : Char → Text → Outcome (List Item)), s.length < n →
        Document.parse s = ((Document.readBy (Document.directivesRound^[n] below)
          (fun escape => (Document.itemsRound escape)^[n] (below' escape)) s).complete s).map
            .mk := by
  refine ⟨fun escape => ⟨advancing escape, descending escape, ending escape⟩, ?_⟩
  intro s n below below' hn
  rw [Document.readBy_unrolled hn]
  rfl

/-- A deferred instruction, with the blank for the escape character and in a file. -/
theorem reading_ends_deferred :
    let s : Text := "ONBUILD RUN x".toList
    s.length < 14 ∧ (Instruction.readWith ' ')^[14] .stuck s = Instruction.read ' ' s ∧
      Document.parse s =
        ((Document.readBy (Document.directivesRound^[14] fun call => .stuck call.text)
          (fun escape => (Document.itemsRound escape)^[14] .stuck) s).complete s).map .mk := by
  intro s
  have hs : s.length < 14 := by decide
  exact ⟨hs, (reading_ends.1 ' ').2.2.instruction 14 .stuck s hs,
    reading_ends.2 s 14 _ (fun _ => .stuck) hs⟩

end Containerfile
