import Containerfile.Proofs.CarriageReturns

/-!
# Files with either line end

A file in which each line ends with a carriage return and a line feed is the same file as the one
with line feeds alone.  What is read from it has other line ends, and is otherwise the same token
by token; and if it cannot be read, then for the same cause at the same line and column, although
not at the same offset.

## Main definitions

* `Instruction.crlf`, `Item.crlf`, `Document.crlf` — the same with carriage returns.
* `SameAnswer` — what is answered for two texts that differ in their line ends only.

## Main results

* `arrayReaders_portable`, `Instruction.read_crlf`, `Document.read_crlf` — all readers are portable.
* `Document.parse_crlf` — a file is the same file with carriage returns.
-/

namespace Containerfile

/-! ## Instructions -/

theorem Lexeme.atFinish_crlf {escape : Char} (he : IsEscape escape) {s : Text} (hs : '\r' ∉ s) :
    atFinish escape (Text.crlf s) = atFinish escape s := by
  have h := Grammar.sequential_portable
  have hseparator : Portable (Grammar.optional (separator escape)) :=
    h.optional (h.nonempty (h.many (h.either portable_blanks (portable_continuation he))))
  unfold atFinish
  rw [hseparator.eq s hs]
  cases hok : Grammar.optional (separator escape) s with
  | ok ts r => exact Text.atLineEnd_crlf (hseparator.lossless.notMem hok hs)
  | stuck | failed => rfl

theorem arrayReaders_portable {escape : Char} (he : IsEscape escape) :
    ArrayReaders Portable escape where
  toSequential := Grammar.sequential_portable
  keyValue := Grammar.portable_node rfl
  execForm := Grammar.portable_node rfl
  blanks := Lexeme.portable_blanks
  continuation := Lexeme.portable_continuation he
  keyword k := Grammar.portable_keyword k.isNameChar_of_mem_name
  stageKeyword := Grammar.portable_keyword (List.all_eq_true.1 (by decide))
  stageName := Grammar.portable_run (by decide) (by decide) (by decide)
  flagName := Grammar.portable_run (by decide) (by decide) (by decide)
  labelName := Grammar.portable_run (by decide) (by decide) (by decide)
  dashes := Grammar.portable_exactly (by decide) (by decide) (by decide)
  equals := Grammar.portable_exactly (by decide) (by decide) (by decide)
  literal style _ := Literal.portable_grammar style he
  openingBracket := Grammar.portable_exactly (by decide) (by decide) (by decide)
  comma := Grammar.portable_exactly (by decide) (by decide) (by decide)
  closingBracket := Grammar.portable_exactly (by decide) (by decide) (by decide)
  quoteAhead := Grammar.portable_when fun s _ => by
    rw [Bool.eq_iff_iff, beq_iff_eq, beq_iff_eq, Text.head?_crlf_eq_some (by decide) (by decide)]
  element _ := Literal.portable_grammar _ he
  finishAhead := Grammar.portable_when fun s hs => Lexeme.atFinish_crlf he hs

namespace Instruction

open Grammar Lexeme

/-- The instruction with carriage returns in its line ends. -/
def crlf (i : Instruction) : Instruction :=
  i.withParts (Token.crlfAll i.parts)

theorem isForbiddenTrigger_crlf (i : Instruction) :
    i.crlf.isForbiddenTrigger = i.isForbiddenTrigger := by
  have hname : i.crlf.name = i.name := by
    simp [name, keyword, crlf, withParts, Children.firstLeaf?_crlfAll]
  simp [isForbiddenTrigger, hname]

theorem trigger_crlf {f : Text → Outcome Instruction} {s : Text}
    (h : f (Text.crlf s) = (f s).crlf crlf) :
    trigger f (Text.crlf s) = (trigger f s).crlf Token.crlfAll := by
  unfold trigger
  rw [h]
  cases f s with
  | ok i r =>
    simp only [Outcome.crlf_ok, isForbiddenTrigger_crlf]
    split <;> rfl
  | stuck | failed => rfl

theorem firstWord_crlf (s : Text) : firstWord (Text.crlf s) = firstWord s := by
  rw [firstWord, firstWord, fromFirstWord, Text.dropWhile_crlf (by decide) (by decide),
    Text.takeWhile_crlf (by decide) (by decide), fromFirstWord]

/-- An instruction is the same with carriage returns.  A deferred one stands in a shorter text. -/
theorem read_crlf {escape : Char} (he : IsEscape escape) {s : Text} (hs : '\r' ∉ s) :
    read escape (Text.crlf s) = (read escape s).crlf crlf := by
  induction hn : s.length using Nat.strongRecOn generalizing s with
  | ind n ih =>
    have h := arrayReaders_portable he
    have hbody (k : Keyword) : body escape (read escape) k (Text.crlf s) =
        (body escape (read escape) k s).crlf Token.crlfAll := by
      by_cases hk : k = .ONBUILD
      · subst hk
        refine crlf_seq (h.deferral.eq s hs) fun ts m hm => trigger_crlf ?_
        exact ih _ (hn ▸ advances_deferral escape _ _ _ hm) (h.deferral.lossless.notMem hm hs) rfl
      · have hfinish := h.finish lineReaders_portable.endAhead portable_newline
        exact (h.body hfinish _ hk).eq s hs
    rw [read_eq, read_eq escape s, readWith, readWith, firstWord_crlf]
    have hfrom : fromFirstWord (Text.crlf s) = Text.crlf (fromFirstWord s) :=
      Text.dropWhile_crlf (by decide) (by decide) s
    cases firstWord s with
    | nil => simp [Fault.crlf, hfrom]
    | cons c cs =>
      dsimp only
      cases Keyword.ofWord? (c :: cs) with
      | none => simp [Fault.crlf, hfrom]
      | some k =>
        simp only [hbody]
        exact Outcome.map_crlf (fun _ => by rfl) _

end Instruction

/-! ## Files -/

namespace Directive

open Grammar Lexeme

/-- The directive with carriage returns in its line end. -/
def crlf (d : Directive) : Directive :=
  ⟨Token.crlfAll d.parts⟩

theorem crlfAll_lineBlanks (line : Text) : Token.crlfAll (lineBlanks line) = lineBlanks line := by
  unfold lineBlanks
  split <;> rfl

theorem portable_valueBody (name : DirectiveName) : Portable (valueBody name) := by
  refine ⟨lossless_valueBody name, fun s _ => ?_⟩
  unfold valueBody
  rw [Text.takeWhile_crlf (by decide) (by decide), Text.dropWhile_crlf (by decide) (by decide)]
  dsimp only
  split
  · rfl
  · split
    · simp [Token.crlfAll, Token.crlf, Token.fragment, crlfAll_lineBlanks]
    · rfl

theorem portable_assignment : Portable assignment := by
  refine ⟨lossless_assignment, fun s hs => ?_⟩
  unfold assignment
  rw [Text.takeWhile_crlf (by decide) (by decide)]
  split
  · rfl
  · exact (lineReaders_portable.assignmentOf (portable_valueBody _)).eq s hs

theorem portable_body : Portable body :=
  lineReaders_portable.directive portable_assignment

theorem name_crlf (d : Directive) : d.crlf.name = d.name := by
  simp [name, crlf, Children.firstLeaf?_crlfAll]

/-- The value of a directive has no line end in it. -/
theorem escape?_crlf {s r : Text} {ts : List Token} (h : body s = .ok ts r) :
    (crlf ⟨ts⟩).escape? = escape? ⟨ts⟩ := by
  have hliteral : ∀ t ∈ ts, t.crlf.literal? = t.literal? := by
    refine yields_body (fun kind s => ?_) (fun s => ?_) _ _ _ h
    · cases kind <;> rfl
    · rfl
  have hvalue : (crlf ⟨ts⟩).literal? = literal? ⟨ts⟩ := by
    rw [literal?, Children.firstLiteral?, crlf, Token.crlfAll_eq_map]
    exact findSome?_map_of_forall hliteral
  rw [escape?, escape?, name_crlf, value, value, hvalue]

end Directive

/-- The item with carriage returns in its line ends. -/
def Item.crlf (item : Item) : Item :=
  item.withParts (Token.crlfAll item.parts)

theorem ReadsDirectives.selectedEscape_crlf {seen seen' : List Text} {s r : Text}
    {ds : List Directive} (h : ReadsDirectives seen s ds seen' r) :
    Document.selectedEscape (ds.map Directive.crlf) = Document.selectedEscape ds := by
  have hescape : ∀ d ∈ ds, d.crlf.escape? = d.escape? := by
    induction h with
    | nil => simp
    | cons h _ _ ih => exact List.forall_mem_cons.2 ⟨Directive.escape?_crlf h, ih⟩
  rw [Document.selectedEscape, findSome?_map_of_forall hescape, Document.selectedEscape]

namespace Document

/-- The file with carriage returns in its line ends. -/
def crlf (d : Document) : Document :=
  ⟨d.items.map Item.crlf⟩

theorem readDirectives_crlf (seen : List Text) {s : Text} (hs : '\r' ∉ s) :
    readDirectives seen (Text.crlf s) = (readDirectives seen s).crlf (List.map Directive.crlf) := by
  have hbody := Directive.portable_body
  have hname (ts : List Token) : Directive.name ⟨Token.crlfAll ts⟩ = Directive.name ⟨ts⟩ :=
    Directive.name_crlf ⟨ts⟩
  rw [readDirectives.eq_def seen (Text.crlf s), hbody.eq s hs]
  fun_induction readDirectives seen s with
  | case1 seen s ts r hok name hseen => simp [hok, hname, name, hseen]
  | case2 seen s ts r hok name hseen hlt ih =>
    have hlt' := (Text.length_crlf_lt_iff (hbody.lossless s ts r hok)).2 hlt
    have hr := hbody.lossless.notMem hok hs
    have hih := ih hr
    rw [← hbody.eq r hr, ← readDirectives.eq_def] at hih
    simp only [hok, Outcome.crlf_ok, hname, hih, hlt', name, hseen, if_true, if_false,
      Bool.false_eq_true]
    exact Outcome.map_crlf (fun _ => by rfl) _
  | case3 seen s ts r hok name hseen hlt =>
    have hlt' := (Text.length_crlf_lt_iff (hbody.lossless s ts r hok)).not.2 hlt
    simp [hok, hname, name, hseen, hlt', Directive.crlf]
  | case4 seen s r hok => simp [hok]
  | case5 seen s e hok => simp [hok]

theorem readItem_crlf {escape : Char} (he : IsEscape escape) {s : Text} (hs : '\r' ∉ s) :
    readItem escape (Text.crlf s) = (readItem escape s).crlf Item.crlf := by
  unfold readItem
  rw [Lexeme.lineReaders_portable.blankLines.eq s hs,
    Lexeme.lineReaders_portable.commentBody.eq s hs, Instruction.read_crlf he hs]
  cases BlankLines.body s with
  | ok | failed => rfl
  | stuck =>
    cases Lexeme.commentBody s with
    | ok | failed => rfl
    | stuck => exact Outcome.map_crlf (fun _ => by rfl) _

theorem readItems_crlf {escape : Char} (he : IsEscape escape) {s : Text} (hs : '\r' ∉ s) :
    readItems escape (Text.crlf s) = (readItems escape s).crlf (List.map Item.crlf) := by
  rw [readItems.eq_def escape (Text.crlf s), Text.isEmpty_crlf, readItem_crlf he hs]
  fun_induction readItems escape s with
  | case1 s hempty => simp [hempty]
  | case2 s hempty item r hok hlt ih =>
    have hsource := lossless_readItem escape hok
    have hlt' := (Text.length_crlf_lt_iff hsource).2 hlt
    have hr : '\r' ∉ r := Text.notMem_of_append hsource hs
    have hih := ih hr
    rw [← readItem_crlf he hr, ← Text.isEmpty_crlf, ← readItems.eq_def] at hih
    simp only [hempty, hok, Outcome.crlf_ok, hlt', hih, if_true, if_false, Bool.false_eq_true]
    exact Outcome.map_crlf (fun _ => by rfl) _
  | case3 s hempty item r hok hlt =>
    have hlt' := (Text.length_crlf_lt_iff (lossless_readItem escape hok)).not.2 hlt
    simp [hempty, hok, hlt']
  | case4 s hempty r hok => simp [hempty, hok]
  | case5 s hempty e hok => simp [hempty, hok]

theorem read_crlf {s : Text} (hs : '\r' ∉ s) :
    read (Text.crlf s) = (read s).crlf (List.map Item.crlf) := by
  unfold read
  rw [readDirectives_crlf [] hs]
  cases hd : readDirectives [] s with
  | ok ds r =>
    obtain ⟨seen, hreads, -⟩ := readDirectives_eq_ok.1 hd
    have hr : '\r' ∉ r := Text.notMem_of_append (lossless_readDirectives _ _ _ _ hd) hs
    simp only [Outcome.crlf_ok, hreads.selectedEscape_crlf, readItems_crlf hreads.isEscape hr]
    refine Outcome.map_crlf (fun items => ?_) _
    simp [Item.crlf, Item.withParts, Item.parts, Directive.crlf, Function.comp_def]
  | stuck | failed => rfl

end Document

/-! ## Errors -/

/-- An error at the same place has the same line and column with carriage returns. -/
theorem ParseError.position_crlf {source r : Text} (h : r <:+ source) (cause : Cause) :
    (located (Text.crlf source) ((Text.crlf source).offsetOf (Text.crlf r)) cause).position =
      (located source (source.offsetOf r) cause).position := by
  obtain ⟨p, rfl⟩ := h
  change Position.ofOffset _ _ = Position.ofOffset _ _
  rw [Text.crlf_append, Position.ofOffset_offsetOf, Position.ofOffset_offsetOf,
    Position.behind_crlf]

/-- What becomes of a whole text, with carriage returns and without. -/
inductive SameAnswer {α : Type} (f : α → α) : Except ParseError α → Except ParseError α → Prop where
  | ok (a : α) : SameAnswer f (.ok a) (.ok (f a))
  | error {e e' : ParseError} (hcause : e'.cause = e.cause) (hposition : e'.position = e.position) :
      SameAnswer f (.error e) (.error e')

theorem Outcome.sameAnswer_complete {α : Type} (f : α → α) {o : Outcome α} {source : Text}
    (h : o.rest <:+ source) :
    SameAnswer f (o.complete source) ((o.crlf f).complete (Text.crlf source)) := by
  cases o with
  | ok a r =>
    cases r with
    | nil => exact .ok a
    | cons c r =>
      have hposition := ParseError.position_crlf (r := c :: r) h .trailing
      rw [crlf_ok]
      cases hr : Text.crlf (c :: r) with
      | nil => cases Text.crlf_eq_nil.1 hr
      | cons c' r' =>
        rw [hr] at hposition
        exact .error rfl hposition
  | stuck r => exact .error rfl (ParseError.position_crlf h .unexpected)
  | failed e => exact .error rfl (ParseError.position_crlf h (.complaint e.complaint))

namespace Document

theorem sameAnswer_parse {s : Text} (hs : '\r' ∉ s) :
    SameAnswer crlf (parse s) (parse (Text.crlf s)) := by
  have h := Outcome.sameAnswer_complete (List.map Item.crlf) (locates_read s)
  rw [← read_crlf hs] at h
  unfold parse
  generalize (read s).complete s = answer at h
  generalize (read (Text.crlf s)).complete (Text.crlf s) = answer' at h
  cases h with
  | ok items => exact SameAnswer.ok (f := crlf) (mk items)
  | error hcause hposition => exact .error hcause hposition

/-- **A file is the same file with carriage returns.**  Let each line feed of a text without
carriage returns get one.  Then both texts are files or neither is.  The files are the same up to
the text of line ends, and the errors have the same code and wording and the same line and
column. -/
theorem parse_crlf {s : Text} (hs : '\r' ∉ s) :
    ((∃ d, parse (Text.crlf s) = .ok d) ↔ ∃ d, parse s = .ok d) ∧
      (∀ d, parse s = .ok d → parse (Text.crlf s) = .ok d.crlf) ∧
      ∀ e e', parse s = .error e → parse (Text.crlf s) = .error e' →
        e'.code = e.code ∧ e'.message = e.message ∧ e'.position = e.position := by
  have h := sameAnswer_parse hs
  generalize parse s = answer at h
  generalize parse (Text.crlf s) = answer' at h
  cases h with
  | ok d => simp
  | @error e e' hcause hposition =>
    refine ⟨by simp, by simp, fun _ _ he he' => ?_⟩
    cases he
    cases he'
    simp [ParseError.code, ParseError.message, hcause, hposition]

/-- A continuation with a comment and a blank line behind it, and a quote that is not closed on the
second line. -/
theorem parse_crlf_continued :
    (∃ d, parse "ARG A \\\n # c\n\n B\n".toList = .ok d ∧
      parse "ARG A \\\r\n # c\r\n\r\n B\r\n".toList = .ok d.crlf) ∧
    ∃ e e', parse "USER a\nUSER \"b\n".toList = .error e ∧
      parse "USER a\r\nUSER \"b\r\n".toList = .error e' ∧ e.offset = 12 ∧ e'.offset = 13 ∧
      e'.code = e.code ∧ e'.message = e.message ∧ e'.position = e.position := by
  constructor
  · obtain ⟨d, hd⟩ : ∃ d, parse "ARG A \\\n # c\n\n B\n".toList = .ok d :=
      ⟨⟨[.instruction ⟨.arg, '\\', [.leaf .keyword "ARG".toList, .blank [' '],
        .node .keyValue [.leaf .identifier ['A']], .blank [' '],
        .node .continuation [.symbol ['\\'], .newline ['\n']],
        .node .comment [.blank [' '], .leaf .commentMark ['#'], .fragment [' ', 'c'],
          .newline ['\n']],
        .newline ['\n'], .blank [' '], .node .keyValue [.leaf .identifier ['B']],
        .newline ['\n']]⟩]⟩, by decide +kernel⟩
    exact ⟨d, hd, (parse_crlf (by decide)).2.1 d hd⟩
  · have hplain : parse "USER a\nUSER \"b\n".toList =
        .error ⟨.complaint (.malformed .unterminatedQuote), 12, ⟨2, 6⟩⟩ := by decide +kernel
    have hcrlf : parse (Text.crlf "USER a\nUSER \"b\n".toList) =
        .error ⟨.complaint (.malformed .unterminatedQuote), 13, ⟨2, 6⟩⟩ := by decide +kernel
    exact ⟨_, _, hplain, hcrlf, rfl, rfl, (parse_crlf (by decide)).2.2 _ _ hplain hcrlf⟩

end Document

end Containerfile
