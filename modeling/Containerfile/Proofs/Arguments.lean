import Containerfile.Proofs.Flags

/-!
# The arguments of generic instructions

A generic instruction is a keyword, flags and arguments: words, an array, or the rest of the line.
What the arguments are depends on the text behind the separators before them, and not on these
separators.

If the value of a flag goes on over the first argument and says no more than before, what is left
shows other arguments: a word is missing, or the line is shorter.

## Main definitions

* `Instruction.argumentsBehind` — reads arguments behind the separators before them.
* `Instruction.GenericReading` — what is read of a generic instruction, behind the keyword.

## Main results

* `Instruction.argumentsBody_eq_ok` — arguments are separators and what is behind them.
* `Instruction.genericReading_iff` — how a generic instruction is read.
* `Instruction.arguments_ne_of_absorbed` — arguments are others without the first one.
-/

namespace Containerfile

open Grammar Lexeme

/-! ## Lines and values -/

namespace Literal

variable {e : Char} {q q' : Option Quote} {s k x m : Text} {ps qs : List Piece} {ss : List Token}

/-- A step of a value that says nothing takes a continuation or one character. -/
theorem cases_of_step_silent (hstep : step .value e q s = .take ps q' m)
    (hvalue : valueOfPieces ps = []) :
    (∃ ts, continuation e s = .ok ts m) ∨ ∃ c, s = c :: m ∧ c ≠ e ∧ Text.atLineEnd s = false := by
  have htakes : Takes e false s ps m := takes_step (by simp [Style.value]) hstep
  cases htakes with
  | continuation h => exact .inl ⟨_, h⟩
  | pair | lone => cases hvalue
  | char _ hc hs => exact .inr ⟨_, rfl, hc, hs⟩
  | reference h =>
    have hparts := Reference.eq_of_head_whole h
    have hlt := Reference.length_lt_of_head_whole h
    have hnil : Token.textAll _ = [] := (List.append_nil _).symm.trans hvalue
    rw [← hparts, hnil] at hlt
    exact absurd hlt (Nat.lt_irrefl _)

theorem valueOfPieces_charPiece (c : Char) : valueOfPieces [charPiece c] = [c] := by
  unfold charPiece
  split <;> rfl

theorem value_referencePiece_ne_nil (name : Text) (op : Modifier) (ws : List Piece) :
    (referencePiece name op ws).value ≠ [] := by
  simp [Piece.value, referencePiece, partValue, Reference.modifiedParts, Token.textAll, Token.text,
    Token.symbol]

/-- A line that is read from `s` on is read from `x` on too, behind pieces before. -/
def Passes (e : Char) (s x : Text) : Prop :=
  ∀ ⦃ps m⦄, Scans e lineStyle none s ps m → ∃ us vs, ps = us ++ vs ∧ Scans e lineStyle none x vs m

namespace Passes

theorem refl (s : Text) : Passes e s s :=
  fun ps _ h => ⟨[], ps, rfl, h⟩

theorem trans (h : Passes e s k) (h' : Passes e k x) : Passes e s x := by
  intro ps m hps
  obtain ⟨us, vs, rfl, hvs⟩ := h hps
  obtain ⟨us', ws, rfl, hws⟩ := h' hvs
  exact ⟨us ++ us', ws, (List.append_assoc _ _ _).symm, hws⟩

theorem of_take (hstep : step lineStyle e none s = .take ps none x) : Passes e s x := by
  intro qs m hqs
  obtain ⟨vs, rfl, hvs⟩ := (scans_iff_of_take hstep).1 hqs
  exact ⟨ps, vs, rfl, hvs⟩

/-- Where a value goes on and says nothing, a line goes on too. -/
theorem of_silent (h : Scans e .value q s qs x) (hsilent : valueOfPieces qs = []) :
    Passes e s x := by
  generalize hstyle : Style.value = style at h
  induction h with
  | stop => exact refl _
  | take hstep _ ih =>
    subst hstyle
    rw [valueOfPieces_append, List.append_eq_nil_iff] at hsilent
    refine trans ?_ (ih hsilent.2 rfl)
    rcases cases_of_step_silent hstep hsilent.1 with ⟨ts, hc⟩ | ⟨c, rfl, hc, hend⟩
    · exact of_take (step_of_continuation hc)
    · exact of_take (step_line_char hend hc)
  | last hstep => exact absurd hstep (step_ne_last (by rw [← hstyle]; rfl))
  | reference =>
    exact absurd (List.append_eq_nil_iff.1 hsilent).1 (value_referencePiece_ne_nil _ _ _)

theorem of_blanks (he : IsEscape e) {b : Text} (hb : ∀ c ∈ b, isBlank c = true) :
    Passes e (b ++ s) s := by
  induction b with
  | nil => exact refl s
  | cons c b ih =>
    obtain ⟨hc, hb⟩ := List.forall_mem_cons.1 hb
    refine trans (of_take (step_line_char ?_ ?_)) (ih hb)
    · exact Text.atLineEnd_eq_false (isLineBreak_of_isBlank hc)
    · rintro rfl
      rcases he with rfl | rfl <;> cases hc

/-- A line goes on over separators. -/
theorem of_gaps (he : IsEscape e) (hgaps : many (gap e) s = .ok ss k) : Passes e s k := by
  induction s, ss, k, hgaps using gaps_induction with
  | nil => exact refl _
  | blanks c b m vs k hall _ _ ih => exact trans (of_blanks he hall) ih
  | continuation s us m vs k hc _ _ ih => exact trans (of_take (step_of_continuation hc)) ih

end Passes

/-- Blanks at the end of pieces are not before them. -/
theorem trimEnd_append (us : List Piece) (h : (trimEnd ps).1 ≠ []) :
    trimEnd (us ++ ps) = (us ++ (trimEnd ps).1, (trimEnd ps).2) := by
  induction us with
  | nil => rfl
  | cons u us ih =>
    cases u with
    | text t => rw [List.cons_append, trimEnd_text_cons, ih]; rfl
    | token t => rw [List.cons_append, trimEnd_token_cons, ih]; rfl
    | blank c =>
      rw [List.cons_append, trimEnd_blank_cons, ih, if_neg (by simp [h])]
      rfl

theorem line_eq_ok {ls : List Token} (h : body lineStyle e s = .ok ls x) :
    ∃ ps m, Scans e lineStyle none s ps m ∧ valueOf ls = valueOfPieces (trimEnd ps).1 ∧
      (trimEnd ps).1 ≠ [] := by
  obtain ⟨ps, m, hps, rfl, -, hne⟩ := body_eq_ok.1 h
  refine ⟨ps, m, hps, valueOf_assemble _, fun hnil => ?_⟩
  rcases hne with hne | hempty
  · exact hne (congrArg assemble hnil)
  · cases hempty

/-- A line that begins before another one, with a value between them that says nothing, says
more. -/
theorem line_ne_of_silent {ls ls' : List Token} {r r' : Text} (he : IsEscape e)
    (hls : body lineStyle e k = .ok ls r) (hstuck : ∃ m, gap e k = .stuck m)
    (hqs : Scans e .value none k qs x) (hsilent : valueOfPieces qs = [])
    (hgaps : many (gap e) x = .ok ss s) (hls' : body lineStyle e s = .ok ls' r') :
    valueOf ls' ≠ valueOf ls := by
  obtain ⟨ps, m, hps, hvalue, hne⟩ := line_eq_ok hls
  obtain ⟨ps', m', hps', hvalue', hne'⟩ := line_eq_ok hls'
  obtain ⟨hblank, hcontinuation⟩ := gap_stuck_iff.1 hstuck
  have hgoes : step lineStyle e none k ≠ .stop := by
    intro hstop
    obtain ⟨rfl, -⟩ := hps.unique (.stop hstop)
    exact hne rfl
  -- the first step takes a character, because neither separators nor the end are there
  obtain ⟨c, w, rfl, hc, hend, hpasses⟩ :
      ∃ c w, k = c :: w ∧ c ≠ e ∧ Text.atLineEnd (c :: w) = false ∧ Passes e w x := by
    cases hqs with
    | stop hstop =>
      exfalso
      cases k with
      | nil => exact hgoes rfl
      | cons c w =>
        cases hend : Text.atLineEnd (c :: w) with
        | true => exact hgoes (step_atLineEnd he hend)
        | false => exact step_ne_stop ⟨rfl, rfl⟩ rfl hblank hend hstop
    | take hstep hqs =>
      rw [valueOfPieces_append, List.append_eq_nil_iff] at hsilent
      rcases cases_of_step_silent hstep hsilent.1 with ⟨ts, hc⟩ | ⟨c, rfl, hc, hend⟩
      · exact absurd ⟨ts, _, hc⟩ (continuation_stuck_iff.1 hcontinuation)
      · exact ⟨c, _, rfl, hc, hend, .of_silent hqs hsilent.2⟩
    | last hstep => exact absurd hstep (step_ne_last rfl)
    | reference =>
      exact absurd (List.append_eq_nil_iff.1 hsilent).1 (value_referencePiece_ne_nil _ _ _)
  obtain ⟨ws, rfl, hws⟩ := (scans_iff_of_take (step_line_char hend hc)).1 hps
  obtain ⟨us, vs, rfl, hvs⟩ := (hpasses.trans (.of_gaps he hgaps)) hws
  obtain ⟨rfl, -⟩ := hvs.unique hps'
  rw [hvalue, hvalue', ← List.append_assoc, trimEnd_append _ hne', valueOfPieces_append,
    valueOfPieces_append, valueOfPieces_charPiece]
  intro heq
  have hlen := congrArg List.length heq
  simp only [List.length_append, List.length_singleton] at hlen
  omega

end Literal

/-! ## Arguments behind their separators -/

namespace Instruction

variable {e : Char} {args : Arguments} {s k r : Text} {ts ss us : List Token}

/-- Reads words behind the separators before the first one. -/
def wordsBehind (e : Char) : Grammar :=
  Literal.grammar .word e ++ many (argument e (Literal.grammar .word e))

/-- Reads the arguments of a generic instruction behind the separators before them. -/
def argumentsBehind (e : Char) : Arguments → Grammar
  | .words true => either (ExecForm.grammar e true ++ when (atFinish e)) (wordsBehind e)
  | .words false => wordsBehind e
  | .line => Literal.grammar Literal.lineStyle e
  | .array => ExecForm.grammar e false

theorem words_eq_ok : words e s = .ok ts r ↔ (separator e ++ wordsBehind e) s = .ok ts r := by
  unfold words wordsBehind
  rw [← seq_assoc, seq_eq_ok, seq_eq_ok]
  simp only [required_eq_ok]

theorem wholeArray_stuck_iff {references : Bool} (hsep : separator e s = .ok ss k) :
    (∃ m, wholeArray e references s = .stuck m) ↔
      ∃ m, (ExecForm.grammar e references ++ when (atFinish e)) k = .stuck m := by
  unfold wholeArray
  rw [seq_stuck_iff, seq_stuck_iff, argument_stuck_iff hsep]
  refine or_congr_right ⟨?_, ?_⟩
  · rintro ⟨_, r, harray, hend⟩
    obtain ⟨_, us, _, hsep', hus, rfl⟩ := seq_eq_ok.1 (argument_eq_ok.1 harray)
    cases hsep.symm.trans hsep'
    exact ⟨us, r, hus, hend⟩
  · rintro ⟨us, r, hus, hend⟩
    exact ⟨_, r, argument_eq_ok.2 (seq_eq_ok.2 ⟨ss, us, k, hsep, hus, rfl⟩), hend⟩

/-- Arguments are separators and what is read behind them. -/
theorem argumentsBody_eq_ok :
    argumentsBody e args s = .ok ts r ↔ (separator e ++ argumentsBehind e args) s = .ok ts r := by
  match args with
  | .words false => exact words_eq_ok
  | .line | .array => exact required_eq_ok
  | .words true =>
    unfold argumentsBody argumentsBehind
    rw [either_eq_ok, wholeArray_eq_ok, words_eq_ok]
    constructor
    · rintro (⟨h, hend⟩ | ⟨hstuck, h⟩)
      · obtain ⟨ss, us, k, hsep, hus, rfl⟩ := seq_eq_ok.1 h
        have harray :=
          seq_eq_ok.2 ⟨us, [], r, hus, when_eq_ok.2 ⟨hend, rfl, rfl⟩, List.append_nil _⟩
        exact seq_eq_ok.2 ⟨ss, us, k, hsep, either_eq_ok.2 (.inl harray), rfl⟩
      · obtain ⟨ss, us, k, hsep, hus, rfl⟩ := seq_eq_ok.1 h
        have hstuck' := (wholeArray_stuck_iff hsep).1 hstuck
        exact seq_eq_ok.2 ⟨ss, us, k, hsep, either_eq_ok.2 (.inr ⟨hstuck', hus⟩), rfl⟩
    · intro h
      obtain ⟨ss, us, k, hsep, hus, rfl⟩ := seq_eq_ok.1 h
      rcases either_eq_ok.1 hus with harray | ⟨hstuck, hwords⟩
      · obtain ⟨us, _, _, hus, hwhen, rfl⟩ := seq_eq_ok.1 harray
        obtain ⟨hend, rfl, rfl⟩ := when_eq_ok.1 hwhen
        rw [List.append_nil]
        exact .inl ⟨seq_eq_ok.2 ⟨ss, us, k, hsep, hus, rfl⟩, hend⟩
      · exact .inr ⟨(wholeArray_stuck_iff hsep).2 hstuck,
          seq_eq_ok.2 ⟨ss, us, k, hsep, hwords, rfl⟩⟩

/-! ## Readings -/

/-- What is read of a generic instruction, behind the keyword. -/
structure GenericReading (e : Char) (args : Arguments) (m : Text)
    (fs : List (List Token × KeyValue)) (ss us fin : List Token) (r k t : Text) : Prop where
  flags : Flags e m fs r
  separator : separator e r = .ok ss k
  noFlag : ∃ x, KeyValue.flag e k = .stuck x
  arguments : argumentsBehind e args k = .ok us t
  finish : finish e t = .ok fin []

theorem body_of_arguments {f : Text → Outcome Instruction} {kw : Keyword}
    (h : kw.arguments? = some args) :
    body e f kw = genericBody e kw args ∧ kw.form = .generic := by
  cases kw <;> cases h <;> exact ⟨rfl, rfl⟩

theorem exists_arguments {kw : Keyword} (h : kw.form = .generic) :
    ∃ args, kw.arguments? = some args := by
  cases kw <;> first | exact ⟨_, rfl⟩ | cases h

/-- How a generic instruction is read. -/
theorem genericReading_iff {i : Instruction} :
    parseAs .generic s e = .ok i ↔ ∃ (kw : Keyword) (args : Arguments) (st : List Token) (m : Text)
      (fs : List (List Token × KeyValue)) (ss us fin : List Token) (r k t : Text),
      kw.arguments? = some args ∧ start kw.name s = .ok st m ∧
      GenericReading e args m fs ss us fin r k t ∧
      i = ⟨.generic, e, st ++ Declarations.tokens fs ++ ss ++ us ++ fin⟩ := by
  constructor
  · intro h
    obtain ⟨hread, hform⟩ := readAs_eq_ok.1 (Outcome.complete_eq_ok.1 h)
    obtain ⟨kw, ts, -, hts, rfl⟩ := read_eq_ok.1 hread
    obtain ⟨args, hargs⟩ := exists_arguments hform
    rw [(body_of_arguments hargs).1, genericBody_eq] at hts
    obtain ⟨_, fin, t, hcontent, hfin, rfl⟩ := seq_eq_ok.1 hts
    obtain ⟨_, _, r, hopen, hargs', rfl⟩ := seq_eq_ok.1 hcontent
    obtain ⟨st, _, m, hst, hfs, rfl⟩ := seq_eq_ok.1 hopen
    obtain ⟨fs, hflags, rfl, hstuck⟩ := Flags.flagsBody_eq_ok.1 hfs
    obtain ⟨ss, us, k, hsep, hus, rfl⟩ := seq_eq_ok.1 (argumentsBody_eq_ok.1 hargs')
    refine ⟨kw, args, st, m, fs, ss, us, fin, r, k, t, hargs, hst, ?_, ?_⟩
    · exact ⟨hflags, hsep, (argument_stuck_iff hsep).1 hstuck, hus, hfin⟩
    · simp [show kw.form = .generic from hform]
  · rintro ⟨kw, args, st, m, fs, ss, us, fin, r, k, t, hargs, hst, h, rfl⟩
    obtain ⟨hbody, hform⟩ := @body_of_arguments e args (read e) kw hargs
    have hfs :=
      Flags.flagsBody_eq_ok.2 ⟨fs, h.flags, rfl, (argument_stuck_iff h.separator).2 h.noFlag⟩
    have hus := argumentsBody_eq_ok.2 (seq_eq_ok.2 ⟨ss, us, k, h.separator, h.arguments, rfl⟩)
    have hopen : opening e kw s = .ok (st ++ Declarations.tokens fs) r :=
      seq_eq_ok.2 ⟨st, _, m, hst, hfs, rfl⟩
    have hts :
        genericBody e kw args s = .ok (st ++ Declarations.tokens fs ++ ss ++ us ++ fin) [] := by
      rw [genericBody_eq]
      exact seq_eq_ok.2 ⟨_, fin, t, seq_eq_ok.2 ⟨_, _, r, hopen, hus, rfl⟩, h.finish, by simp⟩
    have hparse := (parse_of_body hst (hbody ▸ hts)).2
    rwa [hform] at hparse

/-! ## Views -/

/-- A token that is no argument: neither a literal nor an array. -/
def IsAside (t : Token) : Prop :=
  t.literal? = none ∧ t.execForm? = none

theorem isAside_of_isTrivia {t : Token} (h : t.isTrivia = true) : IsAside t := by
  cases t with
  | leaf kind text => exact ⟨rfl, rfl⟩
  | node kind ts => cases kind <;> first | exact ⟨rfl, rfl⟩ | cases h

theorem isAside_of_start {kw : Keyword} (h : start kw.name s = .ok ts r) : ∀ t ∈ ts, IsAside t := by
  obtain ⟨b, word, -, -, -, -, rfl⟩ := start_shape.1 h
  refine List.forall_mem_append.2 ⟨?_, List.forall_mem_singleton.2 ⟨rfl, rfl⟩⟩
  split
  · simp
  · exact List.forall_mem_singleton.2 ⟨rfl, rfl⟩

theorem isAside_of_flags {fs : List (List Token × KeyValue)} (h : Flags e s fs r) :
    ∀ t ∈ Declarations.tokens fs, IsAside t := by
  induction h with
  | nil => simp [Declarations.tokens]
  | cons hsep _ _ ih =>
    refine List.forall_mem_append.2 ⟨List.forall_mem_append.2 ⟨?_, ?_⟩, ih⟩
    · exact fun t ht => isAside_of_isTrivia (isTrivia_of_separator hsep t ht)
    · exact List.forall_mem_singleton.2 ⟨rfl, rfl⟩

/-- What the literals among tokens say. -/
def literalValues (ts : List Token) : List Text :=
  (ts.filterMap Token.literal?).map Literal.value

/-- Arguments are behind tokens that are none, and before such tokens. -/
theorem views_between {vs : List Token} (hts : ∀ t ∈ ts, IsAside t) (hvs : ∀ t ∈ vs, IsAside t) :
    (ts ++ us ++ vs).findSome? Token.execForm? = us.findSome? Token.execForm? ∧
      literalValues (ts ++ us ++ vs) = literalValues us := by
  have harray {ws : List Token} (hws : ∀ t ∈ ws, IsAside t) : ws.findSome? Token.execForm? = none :=
    List.findSome?_eq_none_iff.2 fun t ht => (hws t ht).2
  have hliteral {ws : List Token} (hws : ∀ t ∈ ws, IsAside t) : ws.filterMap Token.literal? = [] :=
    List.filterMap_eq_nil_iff.2 fun t ht => (hws t ht).1
  unfold literalValues
  simp [List.findSome?_append, List.filterMap_append, harray hts, harray hvs, hliteral hts,
    hliteral hvs]

theorem yields_words (e : Char) :
    Yields (fun t => t.keyValue? = none ∧ t.execForm? = none) (wordsBehind e) := by
  have h := Yields.sequential fun t => t.keyValue? = none ∧ t.execForm? = none
  have hword :
      Yields (fun t => t.keyValue? = none ∧ t.execForm? = none) (Literal.grammar .word e) :=
    .node (.trivial _) fun _ _ => ⟨rfl, rfl⟩
  refine h.seq hword (h.many (h.attempt (h.seq ?_ hword)))
  intro s ts r hsep t ht
  exact ⟨(frame_of_separator hsep).keyValue? t ht,
    (isAside_of_isTrivia (isTrivia_of_separator hsep t ht)).2⟩

theorem execForm?_of_words (h : wordsBehind e k = .ok us r) : us.findSome? Token.execForm? = none :=
  List.findSome?_eq_none_iff.2 fun t ht => (yields_words e _ _ _ h t ht).2

/-- Where words cannot be an array instead, arguments of an instruction that holds none are none. -/
theorem execForm?_of_arguments (hargs : args ≠ .words true)
    (hus : argumentsBehind e args k = .ok us r) (hus' : argumentsBehind e args k' = .ok us' r')
    (hnone : us.findSome? Token.execForm? = none) :
    us'.findSome? Token.execForm? = none := by
  match args with
  | .words true => exact absurd rfl hargs
  | .words false => exact execForm?_of_words hus'
  | .line =>
    obtain ⟨ls, -, rfl⟩ := node_eq_ok.1 hus'
    rfl
  | .array =>
    obtain ⟨ws, -, rfl⟩ := node_eq_ok.1 hus
    cases hnone

theorem keyValue?_of_arguments (h : argumentsBehind e args k = .ok us r) :
    ∀ t ∈ us, t.keyValue? = none := by
  have hyields := Yields.sequential fun t => t.keyValue? = none
  have hwords : Yields (fun t => t.keyValue? = none) (wordsBehind e) :=
    fun s ts r hs t ht => (yields_words e s ts r hs t ht).1
  have harray {references : Bool} :
      Yields (fun t => t.keyValue? = none) (ExecForm.grammar e references) :=
    .node (.trivial _) fun _ _ => rfl
  match args with
  | .words false => exact hwords _ _ _ h
  | .words true => exact hyields.either (hyields.seq harray (.when _)) hwords _ _ _ h
  | .line => exact Yields.node (.trivial _) (fun _ _ => rfl) _ _ _ h
  | .array => exact harray _ _ _ h

/-! ## Without the first argument -/

section

variable {x m : Text} {qs : List Literal.Piece} {us' ss' : List Token} {r' k' : Text}
  (he : IsEscape e)
include he

/-- An array says something at its bracket. -/
theorem array_not_silent {references : Bool} (hus : ExecForm.grammar e references k = .ok us r)
    (hqs : Literal.Scans e .value none k qs x) : Literal.valueOfPieces qs ≠ [] := by
  obtain ⟨ws, hb, -⟩ := node_eq_ok.1 hus
  obtain ⟨_, _, _, ho, -, -⟩ := seq_eq_ok.1 (tentative_eq_ok.1 hb)
  obtain ⟨_, _, m, ho, -, -⟩ := seq_eq_ok.1 ho
  obtain ⟨rfl, -⟩ := exactly_eq_ok.1 ho
  have hbracket : Word.Quoting.none.allows e '[' = true := by rcases he with rfl | rfl <;> decide
  obtain ⟨vs, rfl, -⟩ := (Literal.scans_iff_of_take (Literal.step_value hbracket)).1 hqs
  simp [Literal.valueOfPieces, Literal.Piece.value]

omit he in
/-- If a value goes on over the first word, that word is missing. -/
theorem words_ne_of_absorbed (hus : wordsBehind e k = .ok us r)
    (hqs : Literal.Scans e .value none k qs x) (hsep : separator e x = .ok ss' k')
    (hus' : wordsBehind e k' = .ok us' r') : literalValues us' ≠ literalValues us := by
  obtain ⟨_, vs, m, hword, hmany, rfl⟩ := seq_eq_ok.1 hus
  obtain ⟨ls, hls, rfl⟩ := node_eq_ok.1 hword
  obtain ⟨ps, hps, -, -⟩ := Literal.word_eq_ok hls
  obtain ⟨-, rfl⟩ := hps.unique hqs
  obtain ⟨us, ws, m', hword', hmany', rfl⟩ := seq_eq_ok.1 hus'
  have hfirst := argument_eq_ok.2 (seq_eq_ok.2 ⟨ss', us, k', hsep, hword', rfl⟩)
  have hlt := advances_argument ((arrayReaders_lossless e).literal .word rfl).shrinks _ _ _ hfirst
  have hall := many_eq_ok.2 (.inl ⟨_, m', ws, hfirst, hlt, hmany', rfl⟩)
  obtain ⟨rfl, -⟩ := Outcome.ok.inj (hmany.symm.trans hall)
  intro heq
  have hlen := congrArg List.length heq
  simp only [literalValues, List.length_map, List.filterMap_append, List.length_append] at hlen
  have hone : ([Token.node (.literal Style.word.references) ls].filterMap Token.literal?).length =
      1 := rfl
  omega

/-- **Arguments are others without the first one.**  If a value goes on over the first argument
and says nothing there, arguments that are read behind it do not say the same. -/
theorem arguments_ne_of_absorbed (hsep : separator e s = .ok ss k)
    (hus : argumentsBehind e args k = .ok us r) (hqs : Literal.Scans e .value none k qs x)
    (hsilent : Literal.valueOfPieces qs = []) (hsep' : separator e x = .ok ss' k')
    (hus' : argumentsBehind e args k' = .ok us' r') :
    us.findSome? Token.execForm? = none ∧
      (us'.findSome? Token.execForm? = none → literalValues us' ≠ literalValues us) := by
  have hstuck := stuck_of_many (advances_gap e) _ _ _ (separator_eq_ok.1 hsep).1
  match args with
  | .array => exact absurd hsilent (array_not_silent he hus hqs)
  | .line =>
    obtain ⟨ls, hls, rfl⟩ := node_eq_ok.1 hus
    obtain ⟨ls', hls', rfl⟩ := node_eq_ok.1 hus'
    refine ⟨rfl, fun _ heq => ?_⟩
    have hne := Literal.line_ne_of_silent he hls hstuck hqs hsilent (separator_eq_ok.1 hsep').1 hls'
    exact hne (List.cons.inj heq).1
  | .words false => exact ⟨execForm?_of_words hus, fun _ => words_ne_of_absorbed hus hqs hsep' hus'⟩
  | .words true =>
    rcases either_eq_ok.1 hus with harray | ⟨-, hwords⟩
    · obtain ⟨us, _, _, hus, -, -⟩ := seq_eq_ok.1 harray
      exact absurd hsilent (array_not_silent he hus hqs)
    · refine ⟨execForm?_of_words hwords, fun hnone => ?_⟩
      rcases either_eq_ok.1 hus' with harray | ⟨-, hwords'⟩
      · obtain ⟨us, _, _, hus, -, rfl⟩ := seq_eq_ok.1 harray
        obtain ⟨ws, -, rfl⟩ := node_eq_ok.1 hus
        cases hnone
      · exact words_ne_of_absorbed hwords hqs hsep' hwords'

end

namespace GenericReading

variable {kw : Keyword} {i : Instruction} {m t : Text} {fs : List (List Token × KeyValue)}
  {st fin : List Token} (h : GenericReading e args m fs ss us fin r k t)
  (hst : start kw.name s = .ok st m)
  (hi : i = ⟨.generic, e, st ++ Declarations.tokens fs ++ ss ++ us ++ fin⟩)
include h

theorem text_rest : Token.textAll (ss ++ us ++ fin) = r := by
  have hbody := argumentsBody_eq_ok.2 (seq_eq_ok.2 ⟨ss, us, k, h.separator, h.arguments, rfl⟩)
  have htext := (arrayReaders_lossless e).argumentsBody args _ _ _ hbody
  rw [Token.textAll_append, text_of_finish h.finish, htext]

include hst hi

/-- The flags and the arguments, from what is read. -/
theorem views : i.flags = fs.map Prod.snd ∧ i.execForm? = us.findSome? Token.execForm? ∧
    literalValues i.parts = literalValues us := by
  subst hi
  constructor
  · have hflags : ∀ f ∈ fs.map Prod.snd, f.isFlag = true := by
      intro f hf
      obtain ⟨d, hd, rfl⟩ := List.mem_map.1 hf
      exact (h.flags.isFlag_of_mem d hd).1
    unfold Instruction.flags keyValues
    simp only [List.filterMap_append, h.flags.keyValues, (frame_of_start hst).filterMap_keyValue?,
      (frame_of_separator h.separator).filterMap_keyValue?,
      (frame_of_finish h.finish).filterMap_keyValue?, List.filterMap_eq_nil_iff.2
        (keyValue?_of_arguments h.arguments), List.nil_append, List.append_nil]
    exact List.filter_eq_self.2 hflags
  · refine views_between (List.forall_mem_append.2 ⟨List.forall_mem_append.2 ⟨?_, ?_⟩, ?_⟩) ?_
    · exact isAside_of_start hst
    · exact isAside_of_flags h.flags
    · exact fun t ht => isAside_of_isTrivia (isTrivia_of_separator h.separator t ht)
    · exact fun t ht => isAside_of_isTrivia (isTrivia_of_finish h.finish t ht)

end GenericReading

end Instruction

end Containerfile
