import Containerfile.Proofs.Commands
import Containerfile.Proofs.Substitution

/-!
# Words with quotes

A word is a sequence of chunks, with or without quotes around them, and quotes may open and close
anywhere in it.  The words of an instruction are told apart by the blanks outside quotes.  What a
word says is its text without the quotes of its chunks; the references in it are those outside
single quotes, and resolving the instruction replaces these and nothing else.

## Main definitions

* `Word.Span`, `Word.Chunk`, `Word` — words, with the blanks before them.
* `Word.write` — a word with or without its quotes, with a given text for each reference.

## Main results

* `Word.body_text` — a word is read up to the next blank.
* `Instruction.arguments_of_words` — the arguments of an instruction with words.
-/

namespace Containerfile

open Grammar Lexeme

/-! ## Words as data -/

namespace Word

/-- The quotes around a chunk of a word. -/
inductive Quoting where
  | none
  | single
  | double
deriving DecidableEq, Repr

/-- Text, or a reference in braces. -/
inductive Span where
  | text (s : Text)
  | reference (name : Text)
deriving DecidableEq, Repr

/-- Spans, perhaps with quotes around them. -/
structure Chunk where
  quoting : Quoting
  spans : List Span
deriving DecidableEq, Repr

/-- The quote that opens and closes a chunk. -/
def Quoting.mark? : Quoting → Option Char
  | none => .none
  | single => some '\''
  | double => some '"'

/-- Whether a character stands for itself.  In single quotes a dollar sign does, too. -/
def Quoting.allows (escape : Char) (quoting : Quoting) (c : Char) : Bool :=
  c != escape && !isLineBreak c &&
    match quoting with
    | none => !isBlank c && !isQuote c && c != '$'
    | single => c != '\''
    | double => c != '"' && c != '$'

/-- Whether a span can be written.  There are no references in single quotes. -/
def Span.isWritable (escape : Char) (quoting : Quoting) : Span → Bool
  | text s => s.all (quoting.allows escape)
  | reference name => quoting != .single && name != [] && name.all isNameChar

/-- A reference as it is written. -/
def braced (name : Text) : Text :=
  '$' :: '{' :: name ++ ['}']

/-- A span with a text for a reference. -/
def Span.write (value : Text → Text) : Span → Text
  | text s => s
  | reference name => value name

/-- The name of a reference. -/
def Span.name? : Span → Option Text
  | text _ => none
  | reference name => some name

/-- A chunk with or without its quotes, with a text for each reference. -/
def Chunk.write (quotes : Bool) (value : Text → Text) (chunk : Chunk) : Text :=
  let mark := if quotes then chunk.quoting.mark?.toList else []
  mark ++ chunk.spans.flatMap (·.write value) ++ mark

end Word

/-- A word and the blanks before it. -/
structure Word (escape : Char) where
  blanks : Text
  chunks : List Word.Chunk
  blanks_ne_nil : blanks ≠ []
  isBlank_of_mem : ∀ c ∈ blanks, isBlank c = true
  isWritable : ∀ chunk ∈ chunks, ∀ span ∈ chunk.spans, span.isWritable escape chunk.quoting = true
  /-- There is some text, if only a pair of quotes. -/
  ne_nil : chunks.flatMap (·.write true Word.braced) ≠ []

namespace Word

variable {escape : Char}

/-- A word with or without its quotes, with a text for each reference. -/
def write (quotes : Bool) (value : Text → Text) (word : Word escape) : Text :=
  word.chunks.flatMap (·.write quotes value)

/-- The word as it stands in the file. -/
def text (word : Word escape) : Text :=
  word.write true braced

/-- The word without the quotes of its chunks. -/
def unquoted (word : Word escape) : Text :=
  word.write false braced

/-- The word with the values of variables for its references, and nothing for a variable without
one. -/
def expanded (bindings : Bindings) (word : Word escape) : Text :=
  word.write true fun name => (bindings.value? name).getD []

/-- The names that the word refers to. -/
def references (word : Word escape) : List Text :=
  word.chunks.flatMap fun chunk => chunk.spans.filterMap Span.name?

/-! ## Reading words -/

open Literal

/-- The pieces of a span. -/
def Span.pieces : Span → List Piece
  | text s => s.map fun c => .text [c]
  | reference name => [.token (.node .reference (Reference.bracedParts name))]

/-- The pieces of the quote that opens or closes a chunk. -/
def Quoting.pieces (quoting : Quoting) : List Piece :=
  quoting.mark?.toList.map fun c => .token (.symbol [c])

/-- The pieces of a chunk. -/
def Chunk.pieces (chunk : Chunk) : List Piece :=
  chunk.quoting.pieces ++ chunk.spans.flatMap Span.pieces ++ chunk.quoting.pieces

/-- The pieces of a word. -/
def pieces (word : Word escape) : List Piece :=
  word.chunks.flatMap Chunk.pieces

/-- The quote that is open within a chunk. -/
def Quoting.IsOpen (quoting : Quoting) (quote : Option Quote) : Prop :=
  quote.map Quote.mark = quoting.mark?

theorem Quoting.isOpen_none : Quoting.none.IsOpen .none :=
  rfl

section Steps

variable {quoting : Quoting} {quote : Option Quote} {c : Char} {s : Text}

theorem step_allowed {style : Style} (hstyle : style = .word ∨ style = .value)
    (hquote : quoting.IsOpen quote) (hc : quoting.allows escape c = true) :
    step style escape quote (c :: s) = .take [.text [c]] quote s := by
  unfold Quoting.allows at hc
  simp only [Bool.and_eq_true, bne_iff_ne, ne_eq, Bool.not_eq_true'] at hc
  obtain ⟨⟨hescape, hbreak⟩, hc⟩ := hc
  have hend := Text.atLineEnd_eq_false (s := s) hbreak
  rcases hstyle with rfl | rfl <;> cases quoting <;> cases quote <;>
    simp_all [step, stepUnquoted, stepQuoted, stepChar, Style.word, Style.value, Quoting.IsOpen,
      Quoting.mark?]

theorem step_braced (he : IsEscape escape) (hquote : quoting.IsOpen quote) {name : Text}
    (hname : (Span.reference name).isWritable escape quoting = true) :
    step .word escape quote (braced name ++ s) =
      .take [.token (.node .reference (Reference.bracedParts name))] quote s := by
  unfold Span.isWritable at hname
  simp only [Bool.and_eq_true, bne_iff_ne, ne_eq] at hname
  obtain ⟨⟨hsingle, hne⟩, hname⟩ := hname
  have hescape : '$' ≠ escape := by rcases he with rfl | rfl <;> decide
  have hhead : Reference.head (braced name ++ s) = .whole (Reference.bracedParts name) s := by
    have h := Reference.head_braced_append (s := '}' :: s) hne hname rfl
    simpa [braced, Reference.headBraced] using h
  have hdollar : step .word escape quote (braced name ++ s) =
      stepDollar quote ('{' :: name ++ '}' :: s) := by
    cases quoting with
    | none | double =>
      cases quote <;>
        simp_all [step, stepUnquoted, stepQuoted, stepChar, Style.word, Quoting.IsOpen,
          Quoting.mark?, braced, isQuote, isBlank, Text.atLineEnd]
    | single => exact absurd rfl hsingle
  rw [hdollar, stepDollar]
  have hsource : '$' :: ('{' :: name ++ '}' :: s) = braced name ++ s := by simp [braced]
  rw [hsource, hhead]

theorem step_open (he : IsEscape escape) (hc : isQuote c = true) :
    step .word escape none (c :: s) = .take [.token (.symbol [c])] (some ⟨c, c :: s⟩) s := by
  have hquote : c = '"' ∨ c = '\'' := by simpa [isQuote] using hc
  rcases hquote with rfl | rfl <;> rcases he with rfl | rfl <;> rfl

theorem step_close (he : IsEscape escape) (hc : isQuote c = true) (r : Text) :
    step .word escape (some ⟨c, r⟩) (c :: s) = .take [.token (.symbol [c])] none s := by
  have hquote : c = '"' ∨ c = '\'' := by simpa [isQuote] using hc
  rcases hquote with rfl | rfl <;> rcases he with rfl | rfl <;> rfl

end Steps

section Scans

variable {quoting : Quoting} {quote : Option Quote} {r m : Text} {ps : List Piece}

/-- Text that stands for itself is taken character by character. -/
theorem scans_text {style : Style} (hstyle : style = .word ∨ style = .value)
    (hquote : quoting.IsOpen quote) {s : Text}
    (hs : ∀ c ∈ s, quoting.allows escape c = true) (h : Scans escape style quote r ps m) :
    Scans escape style quote (s ++ r) (s.map (fun c => .text [c]) ++ ps) m := by
  induction s with
  | nil => exact h
  | cons c s ih =>
    obtain ⟨hc, hs⟩ := List.forall_mem_cons.1 hs
    change Scans escape style quote (c :: (s ++ r))
      ([.text [c]] ++ (s.map (fun c => .text [c]) ++ ps)) m
    exact .take (step_allowed hstyle hquote hc) (ih hs)

theorem Span.scans (he : IsEscape escape) (hquote : quoting.IsOpen quote) {span : Span}
    (hspan : span.isWritable escape quoting = true) (h : Scans escape .word quote r ps m) :
    Scans escape .word quote (span.write braced ++ r) (span.pieces ++ ps) m := by
  cases span with
  | reference name => exact .take (step_braced he hquote hspan) h
  | text s => exact scans_text (.inl rfl) hquote (List.all_eq_true.1 hspan) h

theorem scans_spans (he : IsEscape escape) (hquote : quoting.IsOpen quote) {spans : List Span}
    (hspans : ∀ span ∈ spans, span.isWritable escape quoting = true)
    (h : Scans escape .word quote r ps m) :
    Scans escape .word quote (spans.flatMap (·.write braced) ++ r)
      (spans.flatMap Span.pieces ++ ps) m := by
  induction spans with
  | nil => exact h
  | cons span spans ih =>
    obtain ⟨hspan, hspans⟩ := List.forall_mem_cons.1 hspans
    rw [List.flatMap_cons, List.flatMap_cons, List.append_assoc, List.append_assoc]
    exact span.scans he hquote hspan (ih hspans)

theorem Chunk.scans (he : IsEscape escape) {chunk : Chunk}
    (hspans : ∀ span ∈ chunk.spans, span.isWritable escape chunk.quoting = true)
    (h : Scans escape .word none r ps m) :
    Scans escape .word none (chunk.write true braced ++ r) (chunk.pieces ++ ps) m := by
  obtain ⟨quoting, spans⟩ := chunk
  unfold Chunk.write Chunk.pieces Quoting.pieces
  simp only [if_true, List.append_assoc]
  cases hmark : quoting.mark? with
  | none =>
    have hquote : quoting.IsOpen none := hmark.symm
    exact scans_spans he hquote hspans h
  | some c =>
    have hc : isQuote c = true := by cases quoting <;> cases hmark <;> rfl
    -- an open quote is kept with the text from it on, which is of no account while it gets closed
    have hquote (rest : Text) : quoting.IsOpen (some ⟨c, rest⟩) := hmark.symm
    exact .take (step_open he hc) (scans_spans he (hquote _) hspans (.take (step_close he hc _) h))

theorem scans_chunks (he : IsEscape escape) {chunks : List Chunk}
    (hchunks : ∀ chunk ∈ chunks, ∀ span ∈ chunk.spans, span.isWritable escape chunk.quoting = true)
    (h : Scans escape .word none r ps m) :
    Scans escape .word none (chunks.flatMap (·.write true braced) ++ r)
      (chunks.flatMap Chunk.pieces ++ ps) m := by
  induction chunks with
  | nil => exact h
  | cons chunk chunks ih =>
    obtain ⟨hchunk, hchunks⟩ := List.forall_mem_cons.1 hchunks
    rw [List.flatMap_cons, List.flatMap_cons, List.append_assoc, List.append_assoc]
    exact chunk.scans he hchunk (ih hchunks)

end Scans

theorem stop_of_blank (he : IsEscape escape) {r : Text} (hr : r.head?.all isBlank = true) :
    step .word escape none r = .stop := by
  cases r with
  | nil => rfl
  | cons c r => exact step_blank he rfl (by simpa using hr)

/-- **A word is read up to the next blank.** -/
theorem body_text (he : IsEscape escape) (word : Word escape) {r : Text}
    (hr : r.head?.all isBlank = true) :
    body .word escape (word.text ++ r) = .ok (assemble word.pieces) r := by
  have hscan := scans_chunks he word.isWritable (.stop (stop_of_blank he hr))
  rw [List.append_nil] at hscan
  have hsource : sourceOf word.pieces = word.text :=
    List.append_cancel_right hscan.sourceOf_append_eq
  refine body_eq_ok.2 ⟨_, _, hscan, rfl, rfl, .inl fun hnil => word.ne_nil ?_⟩
  change word.text = []
  rw [← hsource, ← textAll_assemble]
  exact congrArg Token.textAll hnil

/-- A character that a word can begin with: neither a blank nor the escape character. -/
def opens (escape c : Char) : Bool :=
  !isBlank c && c != escape

theorem Quoting.opens_of_allows {c : Char} (hc : Quoting.none.allows escape c = true) :
    opens escape c = true := by
  simp only [allows, Bool.and_eq_true] at hc
  simp [opens, hc.1.1, hc.2.1.1]

theorem Span.head?_write {span : Span} (he : IsEscape escape)
    (h : span.isWritable escape .none = true) :
    (span.write braced).head?.all (opens escape) = true := by
  cases span with
  | reference name => rcases he with rfl | rfl <;> rfl
  | text s =>
    cases s with
    | nil => rfl
    | cons c s => exact Quoting.opens_of_allows (List.all_eq_true.1 h c List.mem_cons_self)

theorem head?_all_flatMap {α : Type} {f : α → Text} {p : Char → Bool} {xs : List α}
    (h : ∀ x ∈ xs, (f x).head?.all p = true) : (xs.flatMap f).head?.all p = true := by
  induction xs with
  | nil => rfl
  | cons x xs ih =>
    obtain ⟨hx, hxs⟩ := List.forall_mem_cons.1 h
    rw [List.flatMap_cons]
    cases hfx : f x with
    | nil => exact ih hxs
    | cons c s => rwa [hfx] at hx

theorem Chunk.head?_write {chunk : Chunk} (he : IsEscape escape)
    (hspans : ∀ span ∈ chunk.spans, span.isWritable escape chunk.quoting = true) :
    (chunk.write true braced).head?.all (opens escape) = true := by
  obtain ⟨quoting, spans⟩ := chunk
  cases quoting with
  | none =>
    have hwrite : Chunk.write true braced ⟨.none, spans⟩ = spans.flatMap (·.write braced) :=
      List.append_nil _
    rw [hwrite]
    exact head?_all_flatMap fun span hspan => Span.head?_write he (hspans span hspan)
  | single | double => rcases he with rfl | rfl <;> rfl

/-- A word does not begin like a separator. -/
theorem gap_stuck_text (he : IsEscape escape) (word : Word escape) (r : Text) :
    ∃ m, gap escape (word.text ++ r) = .stuck m := by
  have hhead : word.text.head?.all (opens escape) = true :=
    head?_all_flatMap fun chunk hchunk => Chunk.head?_write he (word.isWritable chunk hchunk)
  cases htext : word.text with
  | nil => exact absurd htext word.ne_nil
  | cons c s =>
    rw [htext] at hhead
    have hc : isBlank c = false ∧ c ≠ escape := by simpa [opens] using hhead
    exact gap_stuck hc.1 hc.2 _

/-! ## What words say -/

/-- What a piece of a word adds, with or without quotes, with a text for a reference. -/
def writePiece (quotes : Bool) (value : Text → Text) : Piece → Text
  | .text s => s
  | .blank c => [c]
  | .token (.node .reference ts) => value (Reference.nameOf ts)
  | .token t => if quotes then t.text else []

/-- A piece of a word: text that is not escaped, a quote, or a reference in braces. -/
inductive IsPiece (escape : Char) : Piece → Prop where
  | text {c : Char} (hc : c ≠ escape) : IsPiece escape (.text [c])
  | quote (s : Text) : IsPiece escape (.token (.symbol s))
  | reference (name : Text) :
      IsPiece escape (.token (.node .reference (Reference.bracedParts name)))

theorem isPiece_of_mem (word : Word escape) : ∀ p ∈ word.pieces, IsPiece escape p := by
  intro p hp
  obtain ⟨chunk, hchunk, hp⟩ := List.mem_flatMap.1 hp
  have hquote : p ∈ chunk.quoting.pieces → IsPiece escape p := by
    intro hp
    obtain ⟨c, -, rfl⟩ := List.mem_map.1 hp
    exact .quote _
  rcases List.mem_append.1 hp with hp | hp
  · rcases List.mem_append.1 hp with hp | hp
    · exact hquote hp
    · obtain ⟨span, hspan, hp⟩ := List.mem_flatMap.1 hp
      cases span with
      | reference name =>
        cases List.mem_singleton.1 hp
        exact .reference name
      | text s =>
        obtain ⟨c, hc, rfl⟩ := List.mem_map.1 hp
        have hallows := List.all_eq_true.1 (word.isWritable chunk hchunk _ hspan) c hc
        refine .text ?_
        simp only [Quoting.allows, Bool.and_eq_true, bne_iff_ne] at hallows
        exact hallows.1.1
  · exact hquote hp

theorem flatMap_writePiece_text (quotes : Bool) (value : Text → Text) (s : Text) :
    (s.map fun c => Piece.text [c]).flatMap (writePiece quotes value) = s := by
  induction s with
  | nil => rfl
  | cons c s ih => exact congrArg (c :: ·) ih

theorem Chunk.write_eq (quotes : Bool) (value : Text → Text) (chunk : Chunk) :
    chunk.write quotes value = chunk.pieces.flatMap (writePiece quotes value) := by
  have hmark : (if quotes then chunk.quoting.mark?.toList else []) =
      chunk.quoting.pieces.flatMap (writePiece quotes value) := by
    unfold Quoting.pieces
    cases quotes <;> cases chunk.quoting.mark? <;> rfl
  have hspan (span : Span) : span.write value = span.pieces.flatMap (writePiece quotes value) := by
    cases span with
    | text s => exact (flatMap_writePiece_text quotes value s).symm
    | reference name => exact (List.append_nil _).symm
  unfold Chunk.write Chunk.pieces
  simp only [hmark, hspan, List.flatMap_append, List.flatMap_assoc]

/-- A word is written piece by piece. -/
theorem write_eq (quotes : Bool) (value : Text → Text) (word : Word escape) :
    word.write quotes value = word.pieces.flatMap (writePiece quotes value) := by
  unfold write pieces
  simp only [Chunk.write_eq, List.flatMap_assoc]

section

variable {ps : List Piece}

theorem valueOfPieces_eq (h : ∀ p ∈ ps, IsPiece escape p) :
    valueOfPieces ps = ps.flatMap (writePiece false braced) := by
  induction ps with
  | nil => rfl
  | cons p ps ih =>
    obtain ⟨hp, hps⟩ := List.forall_mem_cons.1 h
    have hvalue : p.value = writePiece false braced p := by
      cases hp with
      | text | quote | reference => rfl
    rw [List.flatMap_cons, ← ih hps, ← hvalue]
    rfl

/-- Resolving pieces of words replaces the references and changes nothing else. -/
theorem substituteParts_assemble {x : Expansion} (hempty : x.undeclared = .empty)
    (h : ∀ p ∈ ps, IsPiece x.escape p) :
    (x.substituteParts (assemble ps)).map Token.textAll =
      .ok (ps.flatMap (writePiece true fun name => (x.bindings.value? name).getD [])) := by
  induction ps with
  | nil => rfl
  | cons p ps ih =>
    obtain ⟨hp, hps⟩ := List.forall_mem_cons.1 h
    specialize ih hps
    cases hp with
    | @text c hc =>
      have hescape (t : Text) :
          x.fragmentText ([c] ++ t) = x.fragmentText [c] ++ x.fragmentText t := by
        unfold Expansion.fragmentText
        split
        · exact Expansion.dropEscapes_cons hc t
        · rfl
      have hchar : x.fragmentText [c] = [c] := by
        unfold Expansion.fragmentText
        split <;> rfl
      rw [assemble, Expansion.substituteParts_prependText joinsFragments_textAll hescape, ih, hchar]
      rfl
    | quote s =>
      have hstep : x.substituteParts (assemble (.token (.symbol s) :: ps)) =
          (x.substituteParts (assemble ps)).map (.symbol s :: ·) := rfl
      rw [hstep]
      cases hrest : x.substituteParts (assemble ps) with
      | error e =>
        rw [hrest] at ih
        cases ih
      | ok us =>
        rw [hrest] at ih
        exact congrArg (Except.map (s ++ ·)) ih
    | reference name =>
      rw [assemble, Expansion.substituteParts_reference joinsFragments_textAll,
        Expansion.expand_of_modifierOf_none hempty _ rfl, ih]
      rfl

/-- The reference that a piece is. -/
def pieceReference? : Piece → Option Reference
  | .token t => t.reference?
  | _ => none

theorem filterMap_reference?_assemble (ps : List Piece) :
    (assemble ps).filterMap Token.reference? = ps.filterMap pieceReference? := by
  have hprepend (s : Text) (ts : List Token) :
      (prependText s ts).filterMap Token.reference? = ts.filterMap Token.reference? := by
    unfold prependText
    split <;> rfl
  induction ps with
  | nil => rfl
  | cons p ps ih =>
    cases p with
    | text | blank => exact (hprepend _ _).trans ih
    | token t => rw [assemble, List.filterMap_cons, List.filterMap_cons, ih, pieceReference?]

end

theorem value_pieces (word : Word escape) : valueOf (assemble word.pieces) = word.unquoted := by
  rw [valueOf_assemble, valueOfPieces_eq word.isPiece_of_mem, unquoted, write_eq]

theorem filterMap_pieces (spans : List Span) :
    (spans.flatMap Span.pieces).filterMap pieceReference? =
      (spans.filterMap Span.name?).map fun name => ⟨Reference.bracedParts name⟩ := by
  induction spans with
  | nil => rfl
  | cons span spans ih =>
    rw [List.flatMap_cons, List.filterMap_append, ih]
    cases span with
    | reference name => rfl
    | text s =>
      have htext : (s.map fun c => Piece.text [c]).filterMap pieceReference? = [] := by
        rw [List.filterMap_map]
        exact List.filterMap_eq_nil_iff.2 fun c _ => rfl
      rw [Span.pieces, htext]
      rfl

theorem references_pieces (word : Word escape) :
    (assemble word.pieces).filterMap Token.reference? =
      word.references.map fun name => ⟨Reference.bracedParts name⟩ := by
  have hquote (quoting : Quoting) : quoting.pieces.filterMap pieceReference? = [] := by
    cases quoting <;> rfl
  rw [filterMap_reference?_assemble]
  unfold pieces references Chunk.pieces
  simp only [List.filterMap_flatMap, List.filterMap_append, hquote, ← filterMap_pieces,
    List.nil_append, List.append_nil, List.map_flatMap]

/-! ## Words in a row -/

/-- The word as it stands in the file, with the blanks before it. -/
def source (word : Word escape) : Text :=
  word.blanks ++ word.text

/-- The parts of an instruction that a word is read as. -/
def tokens (word : Word escape) : List Token :=
  [.blank word.blanks, .node (.literal true) (assemble word.pieces)]

theorem read_source (he : IsEscape escape) (word : Word escape) {r : Text}
    (hr : r.head?.all isBlank = true) :
    (separator escape ++ Literal.grammar .word escape) (word.source ++ r) = .ok word.tokens r := by
  unfold source
  rw [List.append_assoc]
  have hsep := separator_of_blanks word.blanks_ne_nil word.isBlank_of_mem (word.gap_stuck_text he r)
  exact seq_eq_ok.2 ⟨_, _, _, hsep, node_eq_ok.2 ⟨_, word.body_text he hr, rfl⟩, rfl⟩

theorem head?_sources (words : List (Word escape)) :
    (words.flatMap source).head?.all isBlank = true := by
  refine head?_all_flatMap fun word _ => ?_
  unfold source
  cases hblanks : word.blanks with
  | nil => exact absurd hblanks word.blanks_ne_nil
  | cons c b => exact word.isBlank_of_mem c (hblanks ▸ List.mem_cons_self)

theorem many_argument_nil (escape : Char) (g : Grammar) :
    many (argument escape g) [] = .ok [] [] := by
  have hsep : ∃ m, separator escape [] = .stuck m :=
    (nonempty_many_eq_stuck (unfailing_gap escape) (gap_ne_nil escape)).2 ⟨[], rfl⟩
  exact many_eq_ok.2 (.inr (.inr ⟨attempt_stuck_iff.2 (seq_stuck_iff.2 (.inl hsep)), rfl, rfl⟩))

theorem many_sources (he : IsEscape escape) (words : List (Word escape)) :
    many (argument escape (Literal.grammar .word escape)) (words.flatMap source) =
      .ok (words.flatMap tokens) [] := by
  induction words with
  | nil => exact many_argument_nil escape _
  | cons word words ih =>
    have hread := Instruction.argument_eq_ok.2 (word.read_source he (head?_sources words))
    have hshorter : (words.flatMap source).length < ((word :: words).flatMap source).length := by
      have hlength := List.length_pos_iff.2 word.blanks_ne_nil
      simp only [List.flatMap_cons, List.length_append, source]
      omega
    exact many_eq_ok.2 (.inl ⟨_, _, _, hread, hshorter, ih, rfl⟩)

theorem substituteAll_tokens {x : Expansion} (hempty : x.undeclared = .empty)
    (words : List (Word x.escape)) :
    ∃ us, x.substituteAll (words.flatMap tokens) = .ok us ∧
      Token.textAll us = words.flatMap fun word => word.blanks ++ word.expanded x.bindings := by
  induction words with
  | nil => exact ⟨[], rfl, rfl⟩
  | cons word words ih =>
    obtain ⟨us, hus, htext⟩ := ih
    obtain ⟨vs, hvs, hword⟩ :=
      except_map_eq_ok.1 (substituteParts_assemble hempty word.isPiece_of_mem)
    have hexpands : Literal.Expands x ⟨true, assemble word.pieces⟩ ⟨true, vs⟩ :=
      except_map_eq_ok.2 ⟨vs, hvs, rfl⟩
    refine ⟨_, Expansion.substituteAll_eq_ok.2 (.cons (.same ⟨rfl, rfl, rfl, rfl⟩)
      (.cons (.literal hexpands) (Expansion.substituteAll_eq_ok.1 hus))), ?_⟩
    rw [← write_eq, ← expanded] at hword
    rw [List.flatMap_cons, ← htext, ← hword, List.append_assoc]
    rfl

end Word

/-- Where a word is no flag, it is none before other words either. -/
theorem not_flag {t r : Text} (hne : t ≠ []) (hr : r.head?.all isBlank = true)
    (h : ¬ "--".toList <+: t) : ¬ "--".toList <+: t ++ r := by
  match t, r with
  | [], _ => exact absurd rfl hne
  | [c], [] => exact h
  | [c], d :: r =>
    rintro ⟨m, hm⟩
    cases hm
    cases hr
  | c :: d :: t, r =>
    rintro ⟨m, hm⟩
    cases hm
    exact h ⟨t, rfl⟩

namespace Instruction

variable {escape : Char} {k : Keyword}

theorem words_sources (he : IsEscape escape) (word : Word escape) (words : List (Word escape)) :
    Instruction.words escape ((word :: words).flatMap Word.source) =
      .ok ((word :: words).flatMap Word.tokens) [] :=
  seq_eq_ok.2 ⟨_, _, _, required_eq_ok.2 (word.read_source he (Word.head?_sources words)),
    Word.many_sources he words, rfl⟩

theorem execForm?_tokens (form : Form) (words : List (Word escape)) :
    execForm? ⟨form, escape, .leaf .keyword k.name :: words.flatMap Word.tokens⟩ = none := by
  refine List.findSome?_eq_none_iff.2 (List.forall_mem_cons.2 ⟨rfl, fun t ht => ?_⟩)
  obtain ⟨word, -, ht⟩ := List.mem_flatMap.1 ht
  rcases List.mem_pair.1 ht with rfl | rfl <;> rfl

theorem arguments_tokens (form : Form) (words : List (Word escape)) :
    arguments ⟨form, escape, .leaf .keyword k.name :: words.flatMap Word.tokens⟩ =
      words.map fun word => ⟨true, Literal.assemble word.pieces⟩ := by
  unfold arguments
  rw [execForm?_tokens]
  change (words.flatMap Word.tokens).filterMap Token.literal? = _
  induction words with
  | nil => rfl
  | cons word words ih => exact congrArg (List.cons _) ih

theorem resolve_tokens (form : Form) (bindings : Bindings) (options : ResolutionOptions)
    (words : List (Word escape)) :
    (resolve ⟨form, escape, .leaf .keyword k.name :: words.flatMap Word.tokens⟩ bindings
      options).answer =
        .ok (k.name ++ words.flatMap fun word => word.blanks ++ word.expanded bindings) := by
  let x : Expansion := { escape, bindings, removeEscapes := options.removeEscapes }
  obtain ⟨us, hus, htext⟩ := @Word.substituteAll_tokens x rfl words
  have hall : x.substituteAll (.leaf .keyword k.name :: words.flatMap Word.tokens) =
      .ok (.leaf .keyword k.name :: us) :=
    Expansion.substituteAll_eq_ok.2
      (.cons (.same ⟨rfl, rfl, rfl, rfl⟩) (Expansion.substituteAll_eq_ok.1 hus))
  have hexpand : expand x ⟨form, escape, .leaf .keyword k.name :: words.flatMap Word.tokens⟩ =
      .ok ⟨form, escape, .leaf .keyword k.name :: us⟩ :=
    expand_eq_ok.2 ⟨hall, rfl⟩
  change (Resolution.settle options text _ (expand x _)).answer = _
  rw [hexpand, ← htext]
  rfl

/-- **Words with quotes.**  The words of an instruction are read one by one, however quotes are
used in them; what they say, the references in them and what they resolve to are what their chunks
tell. -/
theorem arguments_of_words (hk : k.arguments? = some (.words false)) (he : IsEscape escape)
    (word : Word escape) (words : List (Word escape)) (hflag : ¬ "--".toList <+: word.text) :
    ∃ i, parse (k.name ++ (word :: words).flatMap Word.source) escape = .ok i ∧
      parseAs .generic (k.name ++ (word :: words).flatMap Word.source) escape = .ok i ∧
      i.argumentValues = (word :: words).map Word.unquoted ∧
      i.arguments.map Literal.referenceList =
        (word :: words).map
          (fun word => word.references.map fun name => ⟨Reference.bracedParts name⟩) ∧
      ∀ bindings options, (i.resolve bindings options).answer =
        .ok (k.name ++ (word :: words).flatMap fun word =>
          word.blanks ++ word.expanded bindings) := by
  have hrest := Word.head?_sources words
  have hopen : opening escape k (k.name ++ (word :: words).flatMap Word.source) =
      .ok [.leaf .keyword k.name] ((word :: words).flatMap Word.source) := by
    rw [List.flatMap_cons, Word.source, List.append_assoc]
    exact opening_of_blanks word.blanks_ne_nil word.isBlank_of_mem (word.gap_stuck_text he _)
      (not_flag word.ne_nil hrest hflag)
  have hbody : genericBody escape k (.words false) (k.name ++ (word :: words).flatMap Word.source) =
      .ok (.leaf .keyword k.name :: (word :: words).flatMap Word.tokens) [] := by
    rw [genericBody_eq]
    refine seq_eq_ok.2 ⟨_, _, _, seq_eq_ok.2 ⟨_, _, _, hopen, words_sources he word words, rfl⟩,
      finish_of_blanks nofun, ?_⟩
    simp [runTokens]
  have hown : body escape (read escape) k = genericBody escape k (.words false) := by
    cases k with
    | EXPOSE | STOPSIGNAL | USER | WORKDIR => rfl
    | _ => cases hk
  have hform : k.form = .generic := by
    cases k with
    | EXPOSE | STOPSIGNAL | USER | WORKDIR => rfl
    | _ => cases hk
  obtain ⟨_, _, _, hstart, -, -⟩ := seq_eq_ok.1 hopen
  obtain ⟨hparse, hparseAs⟩ := parse_of_body hstart (hown ▸ hbody)
  rw [hform] at hparse hparseAs
  refine ⟨_, hparse, hparseAs, ?_, ?_, fun bindings options => ?_⟩
  · unfold argumentValues
    rw [execForm?_tokens, arguments_tokens, List.map_map]
    exact List.map_congr_left fun word _ => word.value_pieces
  · rw [arguments_tokens, List.map_map]
    exact List.map_congr_left fun word _ => word.references_pieces
  · exact resolve_tokens .generic bindings options (word :: words)

/-- Single quotes keep a dollar sign and a double quote, double quotes keep a blank. -/
theorem arguments_of_words_mixed :
    ∃ i, parse "USER  a'$b \"'\"$\x7bX\x7d c\"$\x7bY\x7d\t''".toList '\\' = .ok i ∧
      i.argumentValues = ["a$b \"$\x7bX\x7d c$\x7bY\x7d".toList, []] ∧
      (i.resolve ⟨[("X".toList, some "1 '".toList)]⟩ {}).answer =
        .ok "USER  a'$b \"'\"1 ' c\"\t''".toList := by
  let first : Word '\\' :=
    { blanks := "  ".toList
      chunks := [⟨.none, [.text "a".toList]⟩, ⟨.single, [.text "$b \"".toList]⟩,
        ⟨.double, [.reference "X".toList, .text " c".toList]⟩, ⟨.none, [.reference "Y".toList]⟩]
      blanks_ne_nil := by decide
      isBlank_of_mem := by simp [isBlank]
      isWritable := by decide
      ne_nil := by decide }
  let second : Word '\\' :=
    { blanks := "\t".toList
      chunks := [⟨.single, []⟩]
      blanks_ne_nil := by decide
      isBlank_of_mem := by simp [isBlank]
      isWritable := by decide
      ne_nil := by decide }
  obtain ⟨i, hparse, -, hvalues, -, hresolve⟩ :=
    @arguments_of_words '\\' .USER rfl (.inl rfl) first [second] (by decide)
  exact ⟨i, hparse, hvalues, hresolve _ {}⟩

end Instruction

end Containerfile
