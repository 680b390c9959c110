import Containerfile.Proofs.Items

/-!
# Directives and documents

A directive is decided by its line, so directives are read again if another text is put behind them.
Whether they end there is decided by the next line.  The escape character that they select is a
backslash or a backtick.

## Main definitions

* `ReadsDirectives` — directives are read one after another.
* `DirectivesEnd` — no directive follows, or one whose name was there before.
* `Document.Layout` — the directives and the other items that a text is read as.

## Main results

* `Document.parse_iff` — reading a document is reading directives and then items.
* `ReadsDirectives.isEscape` — the escape character is a backslash or a backtick.
-/

namespace Containerfile

open Lexeme Grammar

namespace Directive

/-! ## One directive -/

theorem valueBody_eq_ok {name : DirectiveName} {s r : Text} {ts : List Token}
    (h : valueBody name s = .ok ts r) :
    ∃ v, accepts name v = true ∧
      ts = .node (.literal false) [.fragment v] :: lineBlanks (s.takeWhile fun c =>
        !isLineBreak c) ∧
      r = s.dropWhile fun c => !isLineBreak c := by
  unfold valueBody at h
  dsimp only at h
  split at h
  · cases h
  · rename_i c cs _
    split at h
    · rename_i hv
      cases h
      exact ⟨c :: cs, hv, rfl, rfl⟩
    · cases h

theorem within_valueBody (name : DirectiveName) : Within HasNewline (valueBody name) where
  decided p hp x := by
    have hq : Peels HasNewline fun c => !isLineBreak c := peels_newline rfl
    obtain ⟨ht, hd, -⟩ := hq.takeWhile_append hp x
    unfold valueBody
    rw [ht, hd]
    dsimp only
    split
    · exact .stuck _ _
    · split
      · exact .ok _ _
      · exact .failed _ _
  rest p ts r h hp := by
    have hq : Peels HasNewline fun c => !isLineBreak c := peels_newline rfl
    obtain ⟨v, -, -, rfl⟩ := valueBody_eq_ok h
    exact (hq.takeWhile_append hp []).2.2

theorem within_assignmentOf (name : DirectiveName) : Within HasNewline (assignmentOf name) := by
  have h := compositional_within HasNewline
  refine h.seq (h.seq (h.seq (h.seq ?_ ?_) ?_) ?_) (within_valueBody name)
  · exact (peels_newline rfl).within_run _
  · exact h.optional within_blanks
  · exact (peels_newline (q := (· == '=')) rfl).within_exactly _ (List.all_eq_true.1 (by decide))
  · exact h.optional within_blanks

theorem assignment_eq_ok {s r : Text} {ts : List Token} (h : assignment s = .ok ts r) :
    ∃ name, DirectiveName.ofWord? (s.takeWhile isNameChar) = some name ∧
      assignmentOf name s = .ok ts r := by
  unfold assignment at h
  split at h
  · cases h
  · rename_i name hname
    exact ⟨name, hname, h⟩

theorem within_assignment : Within HasNewline assignment where
  decided p hp x := by
    have hname : Peels HasNewline isNameChar := peels_newline rfl
    unfold assignment
    rw [(hname.takeWhile_append hp x).1]
    cases DirectiveName.ofWord? (p.takeWhile isNameChar) with
    | none => exact .stuck _ _
    | some name => exact (within_assignmentOf name).decided p hp x
  rest p ts r h hp := by
    obtain ⟨name, -, h⟩ := assignment_eq_ok h
    exact (within_assignmentOf name).rest _ _ _ h hp

/-- Whether a text begins with a directive is decided by its first line. -/
theorem decided_body : Decided HasNewline body := by
  have h := compositional_within HasNewline
  refine Decided.attempt (Within.seq_decided (h.seq (h.seq (h.seq ?_ ?_) ?_) within_assignment)
    decided_newline.optional)
  · exact h.optional within_blanks
  · exact (peels_newline (q := (· == '#')) rfl).within_exactly _ (by simp)
  · exact h.optional within_blanks

/-- A directive begins with a number sign, behind its indentation. -/
theorem dropWhile_of_body {s r : Text} {ts : List Token} (h : body s = .ok ts r) :
    ∃ k, s.dropWhile isBlank = '#' :: k := by
  obtain ⟨_, _, _, h, -, -⟩ := seq_eq_ok.1 (attempt_eq_ok.1 h)
  obtain ⟨_, _, _, h, -, -⟩ := seq_eq_ok.1 h
  obtain ⟨_, _, _, h, -, -⟩ := seq_eq_ok.1 h
  obtain ⟨_, _, m, hb, hm, -⟩ := seq_eq_ok.1 h
  rw [optional_run_rest hb] at hm
  exact ⟨_, (exactly_eq_ok.1 hm).1⟩

theorem not_broken_of_body {s r : Text} {ts : List Token} (h : body s = .ok ts r) :
    ¬ Broken s := by
  obtain ⟨k, hk⟩ := dropWhile_of_body h
  rintro (rfl | ⟨m, rfl, -⟩) <;> cases hk

theorem endsLine_lineBlanks (ts : List Token) (l line : Text) :
    Children.endsLine (ts ++ .node (.literal false) [.fragment l] :: lineBlanks line) = false := by
  unfold lineBlanks
  split
  · exact Children.endsLine_append_singleton _ _
  · have happend : ∀ (t u : Token), ts ++ [t, u] = (ts ++ [t]) ++ [u] := by simp
    rw [happend]
    exact Children.endsLine_append_singleton _ _

/-- A directive ends with a line end, or the text ends or breaks behind it. -/
theorem endsLine_cases {s r : Text} {ts : List Token} (h : body s = .ok ts r) :
    Children.endsLine ts = true ∧ (Token.textAll ts).getLast? = some '\n' ∨
      Children.endsLine ts = false ∧ Broken r := by
  refine Children.endsLine_cases (fun s ts r h => ?_) (attempt_eq_ok.1 h)
  obtain ⟨us, vs, m, -, hv, rfl⟩ := seq_eq_ok.1 h
  obtain ⟨name, -, hv⟩ := assignment_eq_ok hv
  obtain ⟨ws, xs, k, -, hx, rfl⟩ := seq_eq_ok.1 hv
  obtain ⟨v, -, rfl, rfl⟩ := valueBody_eq_ok hx
  rw [← List.append_assoc]
  exact ⟨endsLine_lineBlanks _ _ _, k, rfl⟩

theorem advances_body : Advances body := by
  intro s ts r h
  have hassignment : Shrinks assignment := lossless_assignment.shrinks
  have hmark : Advances (optional blanks ++ exactly .commentMark ['#']) :=
    advances_blanks.shrinks.optional.seq_advances (advances_exactly _ (by simp))
  exact (((hmark.seq advances_blanks.shrinks.optional).seq hassignment).seq
    advances_newline.shrinks.optional) s ts r (attempt_eq_ok.1 h)

/-! ## Tokens -/

section Tokens

variable {Q : Token → Prop} (hleaf : ∀ kind s, Q (.leaf kind s))
  (hvalue : ∀ v, Q (.node (.literal false) [.fragment v]))
include hleaf hvalue

theorem yields_valueBody (name : DirectiveName) : Yields Q (valueBody name) := by
  intro s ts r h
  obtain ⟨v, -, rfl, -⟩ := valueBody_eq_ok h
  refine List.forall_mem_cons.2 ⟨hvalue v, ?_⟩
  unfold lineBlanks
  split
  · simp
  · exact List.forall_mem_singleton.2 (hleaf _ _)

/-- A directive is made of leaves and of the literal of its value. -/
theorem yields_body : Yields Q body := by
  refine (lineReaders_yields hleaf).directive fun s ts r h => ?_
  obtain ⟨name, -, h⟩ := assignment_eq_ok h
  exact (lineReaders_yields hleaf).assignmentOf (yields_valueBody hleaf hvalue name) s ts r h

end Tokens

/-! ## The escape character -/

theorem blanks_tokens {s r : Text} {ts : List Token} (h : optional blanks s = .ok ts r) :
    ∀ t ∈ ts, ∃ b, t = .blank b := by
  obtain h | ⟨-, rfl, -⟩ := optional_eq_ok.1 h
  · obtain ⟨-, rfl, -⟩ := run_eq_ok.1 h
    exact fun t ht => ⟨_, List.mem_singleton.1 ht⟩
  · exact fun t ht => absurd ht List.not_mem_nil

/-- The tokens of a directive: its name comes first among the names, and its value first among the
literals. -/
theorem tokens_of_body {s r : Text} {ts : List Token} (h : body s = .ok ts r) :
    ∃ name word v, DirectiveName.ofWord? word = some name ∧ accepts name v = true ∧
      Directive.name ⟨ts⟩ = word ∧ Directive.value ⟨ts⟩ = v := by
  obtain ⟨_, ns, _, h1, -, rfl⟩ := seq_eq_ok.1 (attempt_eq_ok.1 h)
  obtain ⟨_, as, m, h2, ha, rfl⟩ := seq_eq_ok.1 h1
  obtain ⟨_, bs, _, h3, hb, rfl⟩ := seq_eq_ok.1 h2
  obtain ⟨cs, ms, _, hc, hm, rfl⟩ := seq_eq_ok.1 h3
  obtain ⟨-, rfl⟩ := exactly_eq_ok.1 hm
  obtain ⟨name, hname, ha⟩ := assignment_eq_ok ha
  obtain ⟨_, vs, _, h4, hv, rfl⟩ := seq_eq_ok.1 ha
  obtain ⟨_, ds, _, h5, hd, rfl⟩ := seq_eq_ok.1 h4
  obtain ⟨_, es, _, h6, he, rfl⟩ := seq_eq_ok.1 h5
  obtain ⟨-, rfl⟩ := exactly_eq_ok.1 he
  obtain ⟨is, fs, _, hi, hf, rfl⟩ := seq_eq_ok.1 h6
  obtain ⟨-, rfl, -⟩ := run_eq_ok.1 hi
  obtain ⟨v, hacc, rfl, -⟩ := valueBody_eq_ok hv
  refine ⟨name, m.takeWhile isNameChar, v, hname, hacc, ?_, ?_⟩
  · have hskip : ∀ {xs : List Token}, (∀ t ∈ xs, ∃ b, t = .blank b) →
        xs.findSome? (Token.leafText? .identifier) = none := fun h =>
      List.findSome?_eq_none_iff.2 fun t ht => by
        obtain ⟨b, rfl⟩ := h t ht
        rfl
    simp [Directive.name, Children.firstLeaf?, List.findSome?_append, hskip (blanks_tokens hc),
      hskip (blanks_tokens hb), Token.leafText?]
  · have hskip : ∀ {xs : List Token}, (∀ t ∈ xs, ∃ b, t = .blank b) →
        xs.findSome? Token.literal? = none := fun h =>
      List.findSome?_eq_none_iff.2 fun t ht => by
        obtain ⟨b, rfl⟩ := h t ht
        rfl
    unfold Directive.value Directive.literal? Children.firstLiteral?
    simp only [List.findSome?_append, List.findSome?_cons, List.findSome?_nil,
      hskip (blanks_tokens hc), hskip (blanks_tokens hb), hskip (blanks_tokens hd),
      hskip (blanks_tokens hf), Token.literal?, Option.none_or, Option.some_or, Option.map_some,
      Option.getD_some]
    simp [Literal.value, Literal.valueOf, Literal.partValue, Token.fragment]

/-- A directive selects a backslash or a backtick, or no escape character at all. -/
theorem isEscape_of_body {s r : Text} {ts : List Token} (h : body s = .ok ts r) {c : Char}
    (hc : Directive.escape? ⟨ts⟩ = some c) : IsEscape c := by
  obtain ⟨name, word, v, hname, hacc, hword, hv⟩ := tokens_of_body h
  unfold Directive.escape? at hc
  rw [hword, hv] at hc
  split at hc
  · rename_i hsame
    have hescape : name = .escape := by
      have hlower : word.map Char.toLower = "escape".toList := eq_of_beq hsame
      have hfind : DirectiveName.ofWord? word = some .escape := by
        unfold DirectiveName.ofWord? Text.sameLetters
        rw [hlower]
        decide
      rw [hname] at hfind
      exact Option.some.inj hfind
    subst hescape
    simp only [accepts, bne_self_eq_false, Bool.false_or, Bool.or_eq_true, beq_iff_eq] at hacc
    obtain rfl | rfl := hacc
    · exact .inl (Option.some.inj hc).symm
    · exact .inr (Option.some.inj hc).symm
  · cases hc

end Directive

/-! ## Lists of directives -/

/-- Whether a name was there before, in any case. -/
def Directive.isSeen (d : Directive) (seen : List Text) : Bool :=
  seen.any (Text.sameLetters d.name)

/-- Directives are read from `s` one after another, and `r` is left.  The names that were there are
`seen` before and `seen'` afterwards. -/
inductive ReadsDirectives : List Text → Text → List Directive → List Text → Text → Prop where
  | nil (seen : List Text) (s : Text) : ReadsDirectives seen s [] seen s
  | cons {seen seen' : List Text} {s m r : Text} {ts : List Token} {ds : List Directive}
      (h : Directive.body s = .ok ts m) (hn : Directive.isSeen ⟨ts⟩ seen = false)
      (hs : ReadsDirectives (Directive.name ⟨ts⟩ :: seen) m ds seen' r) :
      ReadsDirectives seen s (⟨ts⟩ :: ds) seen' r

/-- What holds of every directive that can be read holds of all of them. -/
theorem ReadsDirectives.forall_mem {P : Directive → Prop} {seen seen' : List Text} {s r : Text}
    {ds : List Directive} (h : ReadsDirectives seen s ds seen' r)
    (hP : ∀ {s ts m}, Directive.body s = .ok ts m → P ⟨ts⟩) : ∀ d ∈ ds, P d := by
  induction h with
  | nil => simp
  | cons h _ _ ih => exact List.forall_mem_cons.2 ⟨hP h, ih⟩

/-- The text does not begin with a directive, or with one whose name was there before. -/
def DirectivesEnd (seen : List Text) (s : Text) : Prop :=
  (∃ m, Directive.body s = .stuck m) ∨
    ∃ ts m, Directive.body s = .ok ts m ∧ Directive.isSeen ⟨ts⟩ seen = true

/-- Whether the directives end is decided by the next line. -/
theorem DirectivesEnd.append {seen : List Text} {p x : Text} (h : DirectivesEnd seen (p ++ x))
    (hp : HasNewline p) (x' : Text) : DirectivesEnd seen (p ++ x') := by
  have hdecided := Directive.decided_body p hp
  obtain hstuck | ⟨ts, m, hm, hseen⟩ := h
  · exact .inl ((hdecided x').stuck_iff.2 ((hdecided x).stuck_iff.1 hstuck))
  · obtain ⟨k, hk, -⟩ := (hdecided x).exists_of_eq_ok hm
    exact .inr ⟨ts, _, (hdecided x').eq_ok hk, hseen⟩

/-- No directive begins with a word. -/
theorem directivesEnd_of_firstWord {s : Text} (h : Instruction.firstWord s ≠ [])
    (seen : List Text) : DirectivesEnd seen s := by
  obtain ⟨c, k, hk, hc⟩ := Document.dropWhile_of_firstWord h
  have hseq : ∀ {g h : Grammar} {s m : Text}, g s = .stuck m → (g ++ h) s = .stuck m :=
    fun {g h s m} hg => by
      change seq g h s = _
      unfold seq
      rw [hg]
  have hmark : (optional blanks ++ exactly .commentMark ['#']) s = .stuck (c :: k) := by
    obtain ⟨ts, ht⟩ := optional_run_eq_ok .blank isBlank s
    change seq (optional (run .blank isBlank)) _ s = _
    unfold seq
    rw [ht, hk]
    have hne : '#' ≠ c := by
      rintro rfl
      cases hc
    simp [exactly, Text.after?, hne]
  refine .inl ⟨s, ?_⟩
  unfold Directive.body attempt
  rw [hseq (hseq (hseq hmark))]

namespace ReadsDirectives

open Document

variable {seen seen' : List Text} {s r : Text} {ds others : List Directive}

theorem text_append (h : ReadsDirectives seen s ds seen' r) :
    textOf (ds.map .directive) ++ r = s := by
  induction h with
  | nil seen s => rfl
  | @cons seen seen' s m r ts ds h _ _ ih =>
    rw [List.map_cons, textOf_cons, List.append_assoc, ih]
    exact Directive.lossless_body _ _ _ h

theorem append_iff : ReadsDirectives seen s (ds ++ others) seen' r ↔
    ∃ seen'' m, ReadsDirectives seen s ds seen'' m ∧ ReadsDirectives seen'' m others seen' r := by
  induction ds generalizing seen s with
  | nil =>
    constructor
    · exact fun h => ⟨seen, s, .nil seen s, h⟩
    · rintro ⟨seen'', m, h, h'⟩
      cases h
      exact h'
  | cons d ds ih =>
    constructor
    · intro h
      cases h with
      | cons h hn hs =>
        obtain ⟨seen'', m, hm, hr⟩ := ih.1 hs
        exact ⟨seen'', m, .cons h hn hm, hr⟩
    · rintro ⟨seen'', m, h, h'⟩
      cases h with
      | cons h hn hs => exact .cons h hn (ih.2 ⟨seen'', m, hs, h'⟩)

theorem not_broken (h : ReadsDirectives seen s ds seen' r) (hr : ¬ Broken r) : ¬ Broken s := by
  cases h with
  | nil => exact hr
  | cons h _ _ => exact Directive.not_broken_of_body h

/-- Directives with something behind them that can begin an item are read again with another text
behind them. -/
theorem retail (h : ReadsDirectives seen s ds seen' r) (hr : ¬ Broken r) (x : Text) :
    ReadsDirectives seen (textOf (ds.map .directive) ++ x) ds seen' x := by
  induction h with
  | nil seen s => exact .nil seen x
  | @cons seen seen' s m r ts ds h hn hs ih =>
    rw [List.map_cons, textOf_cons, List.append_assoc]
    refine .cons ?_ hn (ih hr)
    obtain ⟨-, hlast⟩ | ⟨-, hbroken⟩ := Directive.endsLine_cases h
    · have heq : Token.textAll ts ++ m = s := Directive.lossless_body _ _ _ h
      rw [← heq] at h
      exact Directive.decided_body.append_eq_ok (r := []) (.of_getLast? hlast) h _
    · exact absurd hbroken (hs.not_broken hr)

/-- The directives that are read select a backslash or a backtick. -/
theorem isEscape (h : ReadsDirectives seen s ds seen' r) : IsEscape (selectedEscape ds) := by
  induction h with
  | nil => exact .inl rfl
  | @cons seen seen' s m r ts ds h _ _ ih =>
    unfold selectedEscape at ih ⊢
    rw [List.findSome?_cons]
    cases hc : Directive.escape? ⟨ts⟩ with
    | none => exact ih
    | some c => exact Directive.isEscape_of_body h hc

end ReadsDirectives

namespace Document

theorem readDirectives_of_ended {seen : List Text} {s : Text} (h : DirectivesEnd seen s) :
    readDirectives seen s = .ok [] s := by
  rw [readDirectives]
  obtain ⟨m, hm⟩ | ⟨ts, m, hm, hseen⟩ := h
  · rw [hm]
  · rw [hm]
    exact if_pos hseen

theorem readDirectives_of_body {seen : List Text} {s m : Text} {ts : List Token}
    (h : Directive.body s = .ok ts m) (hseen : Directive.isSeen ⟨ts⟩ seen = false) :
    readDirectives seen s = (readDirectives (Directive.name ⟨ts⟩ :: seen) m).map (⟨ts⟩ :: ·) := by
  unfold Directive.isSeen at hseen
  rw [readDirectives, h]
  dsimp only
  rw [if_neg (Bool.eq_false_iff.1 hseen), if_pos (Directive.advances_body _ _ _ h)]

theorem reads_of_readDirectives (seen : List Text) (s : Text) :
    ∀ ds r, readDirectives seen s = .ok ds r →
      ∃ seen', ReadsDirectives seen s ds seen' r ∧ DirectivesEnd seen' r := by
  fun_induction readDirectives seen s with
  | case1 seen s ts m hbody name hseen =>
    intro ds r h
    cases h
    exact ⟨seen, .nil seen _, .inr ⟨ts, m, hbody, hseen⟩⟩
  | case2 seen s ts m hbody name hseen hlt ih =>
    intro ds r h
    obtain ⟨ds, hd, rfl⟩ := Outcome.map_eq_ok.1 h
    obtain ⟨seen', hs, hend⟩ := ih _ _ hd
    exact ⟨seen', .cons hbody (Bool.eq_false_iff.2 hseen) hs, hend⟩
  | case3 seen s ts m hbody name hseen hlt => exact absurd (Directive.advances_body _ _ _ hbody) hlt
  | case4 seen s m hbody =>
    intro ds r h
    cases h
    exact ⟨seen, .nil seen _, .inl ⟨m, hbody⟩⟩
  | case5 seen s f hbody =>
    intro ds r h
    cases h

/-- Reading directives is reading them one after another, up to where they end. -/
theorem readDirectives_eq_ok {seen : List Text} {s r : Text} {ds : List Directive} :
    readDirectives seen s = .ok ds r ↔
      ∃ seen', ReadsDirectives seen s ds seen' r ∧ DirectivesEnd seen' r := by
  refine ⟨reads_of_readDirectives _ _ _ _, ?_⟩
  rintro ⟨seen', hs, hend⟩
  induction hs with
  | nil => exact readDirectives_of_ended hend
  | cons hbody hseen _ ih =>
    rw [readDirectives_of_body hbody hseen, ih hend]
    rfl

/-! ## Documents -/

/-- The text is read as the directives `ds` and the items `items`, which begin at `r`. -/
structure Layout (s : Text) (ds : List Directive) (seen : List Text) (r : Text)
    (items : List Item) : Prop where
  directives : ReadsDirectives [] s ds seen r
  ended : DirectivesEnd seen r
  items : Reads (selectedEscape ds) r items []

theorem leadingDirectives_append (ds : List Directive) {items : List Item}
    (hitems : ∀ item ∈ items, ∀ d, item ≠ .directive d) :
    leadingDirectives (ds.map .directive ++ items) = ds := by
  induction ds with
  | nil =>
    cases items with
    | nil => rfl
    | cons item items =>
      cases item with
      | directive d => exact absurd rfl (hitems _ List.mem_cons_self d)
      | _ => rfl
  | cons d ds ih => exact congrArg (d :: ·) ih

theorem Layout.isEscape {s r : Text} {ds : List Directive} {seen : List Text} {items : List Item}
    (h : Layout s ds seen r items) : IsEscape (selectedEscape ds) :=
  h.directives.isEscape

theorem Layout.escape_eq {s r : Text} {ds : List Directive} {seen : List Text} {items : List Item}
    (h : Layout s ds seen r items) :
    Document.escape ⟨ds.map .directive ++ items⟩ = selectedEscape ds :=
  congrArg selectedEscape (leadingDirectives_append ds h.items.not_directive)

/-- Reading a document is reading directives and then items. -/
theorem parse_iff {s : Text} {d : Document} :
    parse s = .ok d ↔
      ∃ ds seen r items, d = ⟨ds.map .directive ++ items⟩ ∧ Layout s ds seen r items := by
  rw [parse_eq_ok]
  unfold read
  constructor
  · intro h
    cases hd : readDirectives [] s with
    | ok ds r =>
      rw [hd] at h
      obtain ⟨items, hitems, heq⟩ := Outcome.map_eq_ok.1 h
      obtain ⟨seen, hs, hend⟩ := readDirectives_eq_ok.1 hd
      obtain ⟨-, hreads⟩ := readItems_eq_ok.1 hitems
      exact ⟨ds, seen, r, items, congrArg mk heq.symm, hs, hend, hreads⟩
    | stuck m =>
      rw [hd] at h
      cases h
    | failed f =>
      rw [hd] at h
      cases h
  · rintro ⟨ds, seen, r, items, rfl, h⟩
    rw [readDirectives_eq_ok.2 ⟨seen, h.directives, h.ended⟩]
    exact Outcome.map_eq_ok.2 ⟨items, readItems_eq_ok.2 ⟨rfl, h.items⟩, rfl⟩

namespace Layout

variable {s r : Text} {ds : List Directive} {seen : List Text} {items : List Item}

theorem text_eq (h : Layout s ds seen r items) : textOf items = r := by
  simpa using h.items.text_append

/-- The instructions of a document are among the items behind its directives. -/
theorem exists_of_eq {before after : List Item} {i : Instruction}
    (h : ds.map .directive ++ items = before ++ .instruction i :: after) :
    ∃ before', before = ds.map .directive ++ before' ∧
      items = before' ++ .instruction i :: after := by
  induction ds generalizing before with
  | nil => exact ⟨before, rfl, h⟩
  | cons d ds ih =>
    cases before with
    | nil => cases h
    | cons item before =>
      obtain ⟨rfl, htail⟩ := List.cons.inj h
      obtain ⟨before', rfl, hitems⟩ := ih htail
      exact ⟨before', rfl, hitems⟩

/-- The directives of a document end in the same place if the items behind its first items are
replaced by a text that does not begin with another one. -/
theorem readDirectives_append {first rest : List Item} (h : Layout s ds seen r (first ++ rest))
    (hne : first ++ rest ≠ []) (hend : ∀ item ∈ first, item.endsLine = true) {x : Text}
    (hx : DirectivesEnd seen x) :
    readDirectives [] (textOf (ds.map .directive) ++ (textOf first ++ x)) =
      .ok ds (textOf first ++ x) := by
  have hbroken : ¬ Broken r := by
    cases hitems : first ++ rest with
    | nil => exact absurd hitems hne
    | cons item items =>
      have hreads := hitems ▸ h.items
      cases hreads with
      | cons h _ => exact not_broken_of_readItem h
  refine readDirectives_eq_ok.2 ⟨seen, h.directives.retail hbroken _, ?_⟩
  cases first with
  | nil => exact hx
  | cons item first =>
    have hitem : Reads (selectedEscape ds) r ([] ++ item :: (first ++ rest)) [] := h.items
    have hlast := getLast?_of_readItem h.isEscape hitem.item_eq (hend item List.mem_cons_self)
    have hended : DirectivesEnd seen (item.text ++ textOf (first ++ rest)) := by
      have hended := h.ended
      rwa [← h.text_eq] at hended
    rw [textOf_cons, List.append_assoc]
    exact hended.append (.of_getLast? hlast) _

/-- The first items of a document stay, with another text behind them that goes on with none of
them, exactly if none of their instructions becomes an array and the text is read as items of its
own. -/
theorem replace_iff {first rest : List Item} (h : Layout s ds seen r (first ++ rest))
    (hne : first ++ rest ≠ []) (hend : ∀ item ∈ first, item.endsLine = true) {x : Text}
    (hx : DirectivesEnd seen x) (hstuck : ∃ m, BlankLines.body x = .stuck m) (others : List Item) :
    parse (textOf (ds.map .directive ++ first) ++ x) =
        .ok ⟨ds.map .directive ++ (first ++ others)⟩ ↔
      (∀ before i after, ds.map .directive ++ first = before ++ .instruction i :: after →
        ¬ Instruction.BecomesArray (selectedEscape ds) i.text (textOf after ++ x)) ∧
        Reads (selectedEscape ds) x others [] := by
  have hdirectives := h.readDirectives_append hne hend hx
  obtain ⟨m, hfirst, -⟩ := Reads.append_iff.1 h.items
  rw [textOf_append, List.append_assoc, parse_iff]
  constructor
  · rintro ⟨ds', seen', r', items, heq, h'⟩
    rw [readDirectives_eq_ok.2 ⟨seen', h'.directives, h'.ended⟩] at hdirectives
    obtain ⟨rfl, rfl⟩ := Outcome.ok.inj hdirectives
    obtain rfl := List.append_cancel_left (Document.mk.inj heq)
    obtain ⟨k, hk, hothers⟩ := Reads.append_iff.1 h'.items
    obtain rfl := List.append_cancel_left hk.text_append
    refine ⟨fun before i after hi => ?_, hothers⟩
    obtain ⟨before, -, rfl⟩ := exists_of_eq hi
    have hi := hend (.instruction i) (by simp)
    refine (Instruction.read_append_iff h.isEscape hfirst.instruction_eq hi _).1 ?_
    exact hk.instruction_eq
  · rintro ⟨harray, hothers⟩
    obtain ⟨seen', hread, hended⟩ := readDirectives_eq_ok.1 hdirectives
    have hfirst := hfirst.retail h.isEscape hend hstuck fun before i after hi =>
      harray (ds.map .directive ++ before) i after (by rw [hi, List.append_assoc])
    have hitems := Reads.append_iff.2 ⟨x, hfirst, hothers⟩
    exact ⟨ds, seen', _, _, rfl, hread, hended, hitems⟩

/-- With the backslash for the escape character, no instruction that ends its line becomes an
array. -/
theorem not_becomesArray {first rest : List Item} (h : Layout s ds seen r (first ++ rest))
    (hend : ∀ item ∈ first, item.endsLine = true) (hescape : selectedEscape ds = '\\')
    {before after : List Item} {i : Instruction}
    (hi : ds.map .directive ++ first = before ++ .instruction i :: after) (x : Text) :
    ¬ Instruction.BecomesArray (selectedEscape ds) i.text x := by
  obtain ⟨before, -, rfl⟩ := exists_of_eq hi
  obtain ⟨m, hfirst, -⟩ := Reads.append_iff.1 h.items
  have hclosed := (Instruction.delimited_of_endsLine h.isEscape hfirst.instruction_eq
    (hend (.instruction i) (by simp))).closed
  rw [hescape] at hclosed ⊢
  exact Instruction.not_becomesArray hclosed x

end Layout

end Document

end Containerfile
