import Containerfile.Instruction.Pairs
import Containerfile.Proofs.QuotedWords

/-!
# Values over several lines

A value goes on behind a line continuation, and the comment lines and blank lines that follow it
add nothing to what the value says.  All comments among them are found in the instruction, in
their order.

## Main definitions

* `InnerLine`, `LineBreak` — what stands between two chunks of a value.
* `ContinuedValue` — chunks of plain text with line breaks between them.

## Main results

* `LineBreak.continuation_source` — a continuation ends before the next chunk.
* `ContinuedValue.body_source` — a value is read with all its chunks.
* `Instruction.assignments_of_continued` — a variable with such a value.
-/

namespace Containerfile

open Grammar Lexeme

/-! ## Values as data -/

/-- The end of a line, with or without a carriage return. -/
def Text.IsLineEnd (s : Text) : Prop :=
  s = ['\n'] ∨ s = ['\r', '\n']

/-- A comment line or a blank line. -/
structure InnerLine where
  indent : Text
  /-- What stands behind the number sign, if there is one. -/
  comment? : Option Text
  ending : Text
  isBlank_of_mem : ∀ c ∈ indent, isBlank c = true
  isLineBreak_of_mem : ∀ text ∈ comment?, ∀ c ∈ text, isLineBreak c = false
  isLineEnd : ending.IsLineEnd

/-- The line as it stands in the file. -/
def InnerLine.source (line : InnerLine) : Text :=
  line.indent ++ (line.comment?.elim [] ('#' :: ·) ++ line.ending)

/-- The end of a line behind the escape character, and the lines that go with it. -/
structure LineBreak where
  blanks : Text
  ending : Text
  lines : List InnerLine
  isBlank_of_mem : ∀ c ∈ blanks, isBlank c = true
  isLineEnd : ending.IsLineEnd

namespace LineBreak

/-- The line break as it stands in the file. -/
def source (escape : Char) (b : LineBreak) : Text :=
  escape :: (b.blanks ++ (b.ending ++ b.lines.flatMap InnerLine.source))

/-- The comments that go with a line break. -/
def comments (b : LineBreak) : List Text :=
  b.lines.filterMap InnerLine.comment?

end LineBreak

/-- Chunks of plain text, with line breaks between them. -/
structure ContinuedValue (escape : Char) where
  first : Text
  rest : List (LineBreak × Text)
  allows_first : ∀ c ∈ first, Word.Quoting.none.allows escape c = true
  allows_rest : ∀ p ∈ rest, ∀ c ∈ p.2, Word.Quoting.none.allows escape c = true
  /-- A number sign would start a comment. -/
  head_ne : ∀ p ∈ rest, p.2 ≠ [] ∧ p.2.head? ≠ some '#'

namespace ContinuedValue

variable {escape : Char}

/-- The value as it stands in the file. -/
def source (v : ContinuedValue escape) : Text :=
  v.first ++ v.rest.flatMap fun p => p.1.source escape ++ p.2

/-- What the value says. -/
def value (v : ContinuedValue escape) : Text :=
  v.first ++ v.rest.flatMap Prod.snd

/-- The comments within the value. -/
def comments (v : ContinuedValue escape) : List Text :=
  v.rest.flatMap (·.1.comments)

end ContinuedValue

/-! ## Comments among tokens -/

namespace Token

theorem descendants_append (ts us : List Token) :
    descendants (ts ++ us) = descendants ts ++ descendants us := by
  induction ts with
  | nil => rfl
  | cons t ts ih => rw [List.cons_append, descendants, descendants, ih, List.append_assoc]

theorem comments_append (ts us : List Token) :
    comments (ts ++ us) = comments ts ++ comments us := by
  unfold comments
  rw [descendants_append, List.filterMap_append]

theorem comments_cons (t : Token) (ts : List Token) :
    comments (t :: ts) = comments [t] ++ comments ts :=
  comments_append [t] ts

end Token

/-! ## Lines and line breaks -/

section

variable {kind : LeafKind} {p : Char → Bool} {w r : Text}

theorem optional_run_append (hw : ∀ c ∈ w, p c = true) (hr : r.head?.any p = false) :
    optional (run kind p) (w ++ r) = .ok (runTokens kind w) r := by
  unfold runTokens
  split
  · subst_vars
    exact optional_eq_ok.2 (.inr ⟨run_stuck_iff.2 hr, rfl, rfl⟩)
  · rename_i hne
    exact optional_eq_ok.2 (.inl (run_shape.2 ⟨w, rfl, hne, hw, hr, rfl⟩))

theorem newline_append {ending : Text} (hending : ending.IsLineEnd) :
    newline (ending ++ r) = .ok [.newline ending] r ∧
      (ending ++ r).head?.any (fun c => !isLineBreak c) = false ∧
      (ending ++ r).head?.any isBlank = false ∧ ¬ ∃ m, ending ++ r = '#' :: m := by
  rcases hending with rfl | rfl <;> simp [newline_eq_ok, isLineBreak, isBlank]

/-- A comment is its indentation, the number sign and the text up to a line break, with the line
end if there is one. -/
theorem commentBody_append {indent text rest : Text} {us : List Token}
    (hindent : ∀ c ∈ indent, isBlank c = true) (htext : ∀ c ∈ text, isLineBreak c = false)
    (hrest : rest.head?.any (fun c => !isLineBreak c) = false)
    (hend : optional newline rest = .ok us r) :
    commentBody (indent ++ '#' :: (text ++ rest)) =
      .ok (runTokens .blank indent ++ [.leaf .commentMark ['#']] ++ runTokens .fragment text ++ us)
        r := by
  have hblanks : optional blanks (indent ++ '#' :: (text ++ rest)) =
      .ok (runTokens .blank indent) ('#' :: (text ++ rest)) :=
    optional_run_append hindent rfl
  have hline : lineText (text ++ rest) = .ok (runTokens .fragment text) rest :=
    optional_run_append (fun c hc => by simp [htext c hc]) hrest
  exact seq_eq_ok.2 ⟨_, _, _, seq_eq_ok.2 ⟨_, _, _, seq_eq_ok.2 ⟨_, _, _, hblanks,
    exactly_eq_ok.2 ⟨rfl, rfl⟩, rfl⟩, hline, rfl⟩, hend, rfl⟩

end

namespace InnerLine

/-- A comment line is read as one, and a blank line as no comment. -/
theorem filler_source (line : InnerLine) (r : Text) :
    ∃ ts, filler (line.source ++ r) = .ok ts r ∧
      (Token.comments ts).map Comment.text = (line.comment?.map Text.trim).toList := by
  obtain ⟨indent, comment, ending, hindent, hcomment, hending⟩ := line
  obtain ⟨hnewline, hbreak, hblank, hmark⟩ := newline_append (r := r) hending
  unfold source
  cases comment with
  | none =>
    rw [Option.elim_none, List.nil_append, List.append_assoc]
    have hread : optional blanks (indent ++ (ending ++ r)) =
        .ok (runTokens .blank indent) (ending ++ r) :=
      optional_run_append hindent hblank
    have hstuck : ∃ m, commentLine (indent ++ (ending ++ r)) = .stuck m := by
      refine node_stuck_iff.2 (seq_stuck_iff.2 (.inl (seq_stuck_iff.2 (.inl ?_))))
      exact seq_stuck_iff.2 (.inr ⟨_, _, hread, exactly_stuck_iff.2 hmark⟩)
    refine ⟨_, either_eq_ok.2 (.inr ⟨hstuck, seq_eq_ok.2 ⟨_, _, _, hread, hnewline, rfl⟩⟩), ?_⟩
    unfold runTokens
    split <;> rfl
  | some text =>
    rw [Option.elim_some, List.append_assoc, List.append_assoc]
    have hbody := commentBody_append hindent (hcomment text rfl) hbreak
      (optional_eq_ok.2 (.inl hnewline))
    refine ⟨_, either_eq_ok.2 (.inl (node_eq_ok.2 ⟨_, hbody, rfl⟩)), ?_⟩
    unfold runTokens
    split <;> split <;> subst_vars <;> rfl

end InnerLine

/-- What begins neither a comment nor a blank line. -/
theorem filler_stuck {c : Char} (hblank : isBlank c = false) (hbreak : isLineBreak c = false)
    (hmark : c ≠ '#') (s : Text) : ∃ m, filler (c :: s) = .stuck m := by
  refine (filler_eq_ok_or_stuck (c :: s)).resolve_left ?_
  rintro ⟨ts, r, h⟩
  have hdrop : (c :: s).dropWhile isBlank = c :: s := List.dropWhile_cons_of_neg (by simp [hblank])
  obtain hc | hl := filler_eq_ok h
  · obtain ⟨s', us, hs, -⟩ := commentBody_eq_ok.1 hc
    rw [hdrop] at hs
    exact hmark (List.cons.inj hs).1
  · obtain ⟨us, hnewline⟩ := blankLine_eq_ok.1 hl
    rw [hdrop] at hnewline
    exact Walk.not_newline_of_ordinary hbreak ⟨us, r, hnewline⟩

namespace LineBreak

theorem lines_source (ls : List InnerLine) {r : Text} (hr : ∃ m, filler r = .stuck m) :
    ∃ ts, Lexeme.lines (ls.flatMap InnerLine.source ++ r) = .ok ts r ∧
      (Token.comments ts).map Comment.text = (ls.filterMap InnerLine.comment?).map Text.trim := by
  induction ls with
  | nil => exact ⟨[], many_eq_ok.2 (.inr (.inr ⟨hr, rfl, rfl⟩)), rfl⟩
  | cons line ls ih =>
    obtain ⟨ts, hts, hcomments⟩ := ih
    obtain ⟨us, hus, hcomment⟩ := line.filler_source (ls.flatMap InnerLine.source ++ r)
    have hshorter := advances_filler _ _ _ hus
    rw [List.flatMap_cons, List.append_assoc]
    refine ⟨us ++ ts, many_eq_ok.2 (.inl ⟨_, _, _, hus, hshorter, hts, rfl⟩), ?_⟩
    rw [Token.comments_append, List.map_append, hcomment, hcomments, List.filterMap_cons]
    cases line.comment? <;> rfl

/-- **A continuation ends before the next chunk**, and holds the comments of its line break. -/
theorem continuation_source (escape : Char) (b : LineBreak) {r : Text}
    (hr : ∃ m, filler r = .stuck m) :
    ∃ ts, continuation escape (b.source escape ++ r) = .ok ts r ∧
      (Token.comments ts).map Comment.text = b.comments.map Text.trim := by
  obtain ⟨blanks, ending, ls, hblanks, hending⟩ := b
  obtain ⟨ts, hts, hcomments⟩ := lines_source ls hr
  have hsource : source escape ⟨blanks, ending, ls, hblanks, hending⟩ ++ r =
      escape :: (blanks ++ (ending ++ (ls.flatMap InnerLine.source ++ r))) := by
    simp [source]
  rw [hsource]
  generalize ls.flatMap InnerLine.source ++ r = m at hts
  obtain ⟨hnewline, -, hblank, -⟩ := newline_append (r := m) hending
  have hread : optional Lexeme.blanks (blanks ++ (ending ++ m)) =
      .ok (runTokens .blank blanks) (ending ++ m) :=
    optional_run_append hblanks hblank
  have hline : lineContinuation escape (escape :: (blanks ++ (ending ++ m))) =
      .ok [.node .continuation ([.symbol [escape]] ++ runTokens .blank blanks ++ [.newline ending])]
          m := by
    refine node_eq_ok.2 ⟨_, seq_eq_ok.2 ⟨_, _, _, ?_, hnewline, rfl⟩, rfl⟩
    exact seq_eq_ok.2 ⟨_, _, _, exactly_eq_ok.2 ⟨rfl, rfl⟩, hread, rfl⟩
  refine ⟨_, seq_eq_ok.2 ⟨_, _, _, hline, hts, rfl⟩, ?_⟩
  rw [Token.comments_append, List.map_append, hcomments]
  unfold runTokens
  split <;> rfl

end LineBreak

/-! ## Values -/

namespace Literal

/-- The comments in a piece. -/
def Piece.comments : Piece → List Comment
  | .token t => Token.comments [t]
  | _ => []

theorem comments_assemble (ps : List Piece) :
    Token.comments (assemble ps) = ps.flatMap Piece.comments := by
  have hprepend (s : Text) (ts : List Token) :
      Token.comments (prependText s ts) = Token.comments ts := by
    unfold prependText
    split <;> rfl
  induction ps with
  | nil => rfl
  | cons p ps ih =>
    cases p with
    | text | blank => exact (hprepend _ _).trans ih
    | token t => rw [assemble, Token.comments_cons, ih, List.flatMap_cons, Piece.comments]

theorem comments_map_token (ts : List Token) :
    (ts.map Piece.token).flatMap Piece.comments = Token.comments ts := by
  induction ts with
  | nil => rfl
  | cons t ts ih => rw [List.map_cons, List.flatMap_cons, ih, Piece.comments, ← Token.comments_cons]

theorem comments_map_text (s : Text) :
    (s.map fun c => Piece.text [c]).flatMap Piece.comments = [] := by
  induction s with
  | nil => rfl
  | cons c s ih => exact ih

theorem valueOfPieces_map_text (s : Text) : valueOfPieces (s.map fun c => .text [c]) = s := by
  induction s with
  | nil => rfl
  | cons c s ih => exact congrArg (c :: ·) ih

end Literal

namespace ContinuedValue

open Literal

variable {escape : Char}

/-- A line break is one step of reading a value. -/
theorem step_source (b : LineBreak) {r : Text} (hr : ∃ m, filler r = .stuck m) :
    ∃ ts, step .value escape none (b.source escape ++ r) = .take (ts.map .token) none r ∧
      valueOfPieces (ts.map .token) = [] ∧
      (Token.comments ts).map Comment.text = b.comments.map Text.trim := by
  obtain ⟨ts, hts, hcomments⟩ := b.continuation_source escape hr
  refine ⟨ts, ?_, valueOfPieces_continuation hts, hcomments⟩
  obtain ⟨s, hs⟩ : ∃ s, b.source escape ++ r = escape :: s := ⟨_, rfl⟩
  rw [hs] at hts ⊢
  rw [step, if_pos rfl, stepEscape, hts]

/-- No comment line and no blank line begins with a chunk. -/
theorem filler_stuck_of_chunk {s : Text} (hs : ∀ c ∈ s, Word.Quoting.none.allows escape c = true)
    (hhead : s ≠ [] ∧ s.head? ≠ some '#') (r : Text) : ∃ m, filler (s ++ r) = .stuck m := by
  cases s with
  | nil => exact absurd rfl hhead.1
  | cons c s =>
    have hc := hs c List.mem_cons_self
    simp only [Word.Quoting.allows, Bool.and_eq_true, Bool.not_eq_true'] at hc
    exact filler_stuck hc.2.1.1 hc.1.2 (fun h => hhead.2 (congrArg some h)) _

/-- The chunks behind the first are read with the line breaks before them. -/
theorem scans_rest {rest : List (LineBreak × Text)}
    (hallows : ∀ p ∈ rest, ∀ c ∈ p.2, Word.Quoting.none.allows escape c = true)
    (hhead : ∀ p ∈ rest, p.2 ≠ [] ∧ p.2.head? ≠ some '#') :
    ∃ ps, Scans escape .value none (rest.flatMap fun p => p.1.source escape ++ p.2) ps [] ∧
      valueOfPieces ps = rest.flatMap Prod.snd ∧
      (ps.flatMap Piece.comments).map Comment.text =
        (rest.flatMap (·.1.comments)).map Text.trim := by
  induction rest with
  | nil => exact ⟨[], .stop rfl, rfl, rfl⟩
  | cons p rest ih =>
    obtain ⟨hnext, hhead⟩ := List.forall_mem_cons.1 hhead
    obtain ⟨hchunk, hallows⟩ := List.forall_mem_cons.1 hallows
    obtain ⟨ps, hps, hvalue, hcomments⟩ := ih hallows hhead
    obtain ⟨ts, hstep, hnothing, hbreak⟩ := step_source p.1 (filler_stuck_of_chunk hchunk hnext _)
    rw [List.flatMap_cons, List.append_assoc]
    refine ⟨_, .take hstep (Word.scans_text (.inr rfl) Word.Quoting.isOpen_none hchunk hps), ?_, ?_⟩
    · rw [valueOfPieces_append, valueOfPieces_append, hnothing, valueOfPieces_map_text, hvalue]
      rfl
    · simp only [List.flatMap_append, comments_map_token, comments_map_text,
        List.map_append, hbreak, hcomments, List.flatMap_cons, List.nil_append]

/-- **A value is read with all its chunks**, and says these and nothing else. -/
theorem body_source (v : ContinuedValue escape) :
    ∃ ts, body .value escape v.source = .ok ts [] ∧ valueOf ts = v.value ∧
      (Token.comments ts).map Comment.text = v.comments.map Text.trim := by
  obtain ⟨ps, hps, hvalue, hcomments⟩ := scans_rest v.allows_rest v.head_ne
  have hscan := Word.scans_text (.inr rfl) Word.Quoting.isOpen_none v.allows_first hps
  refine ⟨_, body_eq_ok.2 ⟨_, _, hscan, rfl, rfl, .inr rfl⟩, ?_, ?_⟩
  · rw [valueOf_assemble]
    change valueOfPieces (_ ++ ps) = _
    rw [valueOfPieces_append, valueOfPieces_map_text, hvalue]
    rfl
  · rw [comments_assemble]
    change ((_ ++ ps).flatMap Piece.comments).map Comment.text = _
    rw [List.flatMap_append, comments_map_text, List.nil_append, hcomments]
    rfl

end ContinuedValue

/-! ## Variables -/

namespace Instruction

variable {escape : Char}

theorem gap_stuck_of_name (he : IsEscape escape) {key : Text} (hne : key ≠ [])
    (hkey : ∀ c ∈ key, isStageChar c = true) (r : Text) :
    ∃ m, gap escape (key ++ r) = .stuck m := by
  cases key with
  | nil => exact absurd rfl hne
  | cons c key =>
    have hc := hkey c List.mem_cons_self
    refine gap_stuck (Bool.eq_false_iff.2 fun hblank => ?_) ?_ _
    · have hblank : c = ' ' ∨ c = '\t' := by simpa [isBlank] using hblank
      rcases hblank with rfl | rfl <;> cases hc
    · rintro rfl
      rcases he with rfl | rfl <;> cases hc

/-- A variable and its value are read as one argument. -/
theorem envBody_of_pair {s : Text} {t : Token} (hgap : ∃ m, gap escape s = .stuck m)
    (hpair : KeyValue.pair escape isStageChar s = .ok [t] []) :
    envBody escape (Keyword.ENV.name ++ ' ' :: s) =
      .ok [.leaf .keyword Keyword.ENV.name, .blank [' '], t] [] := by
  have hargument := argument_eq_ok.2 (seq_eq_ok.2 ⟨_, _, _, separator_of_space hgap, hpair, rfl⟩)
  have hmore := Word.many_argument_nil escape (KeyValue.pair escape isStageChar)
  have harguments := seq_eq_ok.2 ⟨_, _, _, hargument, hmore, rfl⟩
  have hcontent : envContent escape (Keyword.ENV.name ++ ' ' :: s) =
      .ok [.leaf .keyword Keyword.ENV.name, .blank [' '], t] [] :=
    seq_eq_ok.2 ⟨_, _, _, start_name .ENV rfl, either_eq_ok.2 (.inl harguments), rfl⟩
  rw [envBody_eq]
  exact seq_eq_ok.2 ⟨_, _, _, hcontent, finish_of_blanks nofun, rfl⟩

/-- **Line continuations in a value add nothing to it**, and no comment behind them is lost. -/
theorem assignments_of_continued (he : IsEscape escape) {key : Text} (hkey : isArgName key = true)
    (v : ContinuedValue escape) :
    ∃ i, parse ("ENV ".toList ++ key ++ '=' :: v.source) escape = .ok i ∧
      i.assignments = [(key, v.value)] ∧
      (Token.comments i.parts).map Comment.text = v.comments.map Text.trim := by
  simp only [isArgName, Bool.and_eq_true, Bool.not_eq_true', List.isEmpty_eq_false_iff,
    List.all_eq_true] at hkey
  obtain ⟨hne, hkey⟩ := hkey
  obtain ⟨ts, hbody, hvalue, hcomments⟩ := v.body_source
  have hpair : KeyValue.pair escape isStageChar (key ++ '=' :: v.source) =
      .ok [.node .keyValue [.identifier key, .symbol ['='], .node (.literal true) ts]] [] := by
    have hname : run .identifier isStageChar (key ++ '=' :: v.source) =
        .ok [.identifier key] ('=' :: v.source) :=
      run_shape.2 ⟨key, rfl, hne, hkey, rfl, rfl⟩
    refine node_eq_ok.2 ⟨_, seq_eq_ok.2 ⟨_, _, _, hname, ?_, rfl⟩, rfl⟩
    exact seq_eq_ok.2 ⟨_, _, _, exactly_eq_ok.2 ⟨rfl, rfl⟩, node_eq_ok.2 ⟨_, hbody, rfl⟩, rfl⟩
  have hread := envBody_of_pair (gap_stuck_of_name he hne hkey _) hpair
  rw [List.append_assoc]
  refine ⟨_, (parse_of_body (start_name .ENV rfl) hread).1, ?_, ?_⟩
  · exact congrArg (fun value => [(key, value)]) hvalue
  · have hsame : Token.comments [.leaf .keyword Keyword.ENV.name, .blank [' '],
        .node .keyValue [.identifier key, .symbol ['='], .node (.literal true) ts]] =
          Token.comments ts := by
      unfold Token.comments
      simp only [Token.descendants, Token.subtokens, List.append_nil]
      rfl
    rw [hsame, hcomments]

/-- Two line breaks in a value, the first with two comments and a blank line between them. -/
theorem assignments_of_continued_comments :
    ∃ i, parse "ENV A=b\\ \n  # one \n\t\r\n#\nc#\\\r\nd".toList '\\' = .ok i ∧
      i.assignments = [("A".toList, "bc#d".toList)] ∧
      (Token.comments i.parts).map Comment.text = ["one".toList, []] := by
  let one : InnerLine :=
    ⟨"  ".toList, some " one ".toList, ['\n'], by simp [isBlank], by simp [isLineBreak], .inl rfl⟩
  let blank : InnerLine := ⟨['\t'], none, ['\r', '\n'], by simp [isBlank], by simp, .inr rfl⟩
  let empty : InnerLine := ⟨[], some [], ['\n'], by simp, by simp, .inl rfl⟩
  let v : ContinuedValue '\\' :=
    { first := ['b']
      rest := [(⟨[' '], ['\n'], [one, blank, empty], by simp [isBlank], .inl rfl⟩, "c#".toList),
        (⟨[], ['\r', '\n'], [], by simp, .inr rfl⟩, ['d'])]
      allows_first := List.forall_mem_singleton.2 rfl
      allows_rest := by simp [Word.Quoting.allows, isLineBreak, isBlank, isQuote]
      head_ne := by simp }
  exact @assignments_of_continued '\\' (.inl rfl) ['A'] (by decide) v

end Instruction

end Containerfile
