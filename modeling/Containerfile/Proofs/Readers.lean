import Containerfile.Directive
import Containerfile.Instruction.Grammar

/-!
# What a success of a reader means

Every combinator has one lemma here that says exactly when it succeeds and with what.  Statements
about readers open a combinator with its lemma and do not unfold it.

Most statements about readers have one form: a property of readers that the combinators keep, and
that a handful of leaves have.  What is put together from these leaves then has the property too.
This is said once, for any property, by `Compositional` and `ArgumentReaders`; each theory of the
readers is an instance.  One that tells nodes apart is only `Sequential`.

## Main definitions

* `Grammar.optional_eq_ok`, `Grammar.either_eq_ok`, `Grammar.many_eq_ok`, … — the successes.
* `Sequential`, `Compositional` — a property that the combinators keep.
* `Yields` — the property that all tokens have that are read.
* `LineReaders` — a property that the leaves of comments, blank lines and directives have as well.
* `SeparatorReaders`, `ArgumentReaders`, `ArrayReaders` — one that the leaves of arguments have.
-/

namespace Containerfile

/-- What is read from a given text can be decided. -/
instance decidableEqExcept {ε α : Type} [DecidableEq ε] [DecidableEq α] :
    DecidableEq (Except ε α)
  | .ok a, .ok b => decidable_of_iff (a = b) (by simp)
  | .error e, .error f => decidable_of_iff (e = f) (by simp)
  | .ok _, .error _ => isFalse (by simp)
  | .error _, .ok _ => isFalse (by simp)

theorem bind_eq_ok {ε α β : Type} {x : Except ε α} {f : α → Except ε β} {b : β} :
    x >>= f = .ok b ↔ ∃ a, x = .ok a ∧ f a = .ok b := by
  cases x <;> simp [bind, Except.bind]

theorem bind_eq_error {ε α β : Type} {x : Except ε α} {f : α → Except ε β} {e : ε} :
    x >>= f = .error e ↔ x = .error e ∨ ∃ a, x = .ok a ∧ f a = .error e := by
  cases x <;> simp [bind, Except.bind]

theorem except_map_eq_ok {ε α β : Type} {x : Except ε α} {f : α → β} {b : β} :
    x.map f = .ok b ↔ ∃ a, x = .ok a ∧ f a = b := by
  cases x <;> simp [Except.map]

theorem except_map_eq_error {ε α β : Type} {x : Except ε α} {f : α → β} {e : ε} :
    x.map f = .error e ↔ x = .error e := by
  cases x <;> simp [Except.map]

theorem mem_toOption {ε α : Type} {x : Except ε α} {a : α} : a ∈ x.toOption ↔ x = .ok a := by
  cases x <;> simp [Except.toOption]

namespace Outcome

variable {α β : Type}

theorem map_eq_ok {f : α → β} {o : Outcome α} {b : β} {r : Text} :
    o.map f = .ok b r ↔ ∃ a, o = .ok a r ∧ f a = b := by
  cases o with
  | ok a m => simp [map]; grind
  | stuck m => simp [map]
  | failed f => simp [map]

/-- A text is read to its end exactly when the reader succeeds and leaves nothing. -/
theorem complete_eq_ok {source : Text} {o : Outcome α} {a : α} :
    o.complete source = .ok a ↔ o = .ok a [] := by
  constructor
  · intro h
    unfold complete at h
    split at h
    · cases h
      rfl
    all_goals cases h
  · rintro rfl
    rfl

end Outcome

namespace Grammar

variable {g h : Grammar} {s r : Text} {ts : List Token}

/-! ## Successes -/

theorem optional_eq_ok :
    optional g s = .ok ts r ↔ g s = .ok ts r ∨ (∃ m, g s = .stuck m) ∧ ts = [] ∧ r = s := by
  unfold optional
  cases g s <;> simp [eq_comm]

theorem either_eq_ok :
    either g h s = .ok ts r ↔ g s = .ok ts r ∨ (∃ m, g s = .stuck m) ∧ h s = .ok ts r := by
  unfold either
  cases g s <;> simp

theorem attempt_eq_ok : attempt g s = .ok ts r ↔ g s = .ok ts r := by
  unfold attempt
  cases g s <;> simp

theorem tentative_eq_ok : tentative g s = .ok ts r ↔ g s = .ok ts r := by
  unfold tentative
  cases g s <;> simp

theorem commit_eq_ok {what : String} : commit what g s = .ok ts r ↔ g s = .ok ts r := by
  unfold commit
  cases g s <;> simp

theorem nonempty_eq_ok : nonempty g s = .ok ts r ↔ g s = .ok ts r ∧ ts ≠ [] := by
  unfold nonempty
  constructor
  · intro e
    split at e
    · cases e
    · rename_i hg
      cases e
      exact ⟨hg, by simp⟩
    · cases e
    · cases e
  · rintro ⟨hg, hts⟩
    cases ts with
    | nil => exact absurd rfl hts
    | cons t ts => rw [hg]

theorem node_eq_ok {kind : NodeKind} :
    node kind g s = .ok ts r ↔ ∃ us, g s = .ok us r ∧ ts = [.node kind us] := by
  unfold node
  rw [Outcome.map_eq_ok]
  simp [eq_comm]

theorem when_eq_ok {p : Text → Bool} : when p s = .ok ts r ↔ p s = true ∧ ts = [] ∧ r = s := by
  unfold when
  cases p s with
  | true => simp [eq_comm]
  | false => simp

/-- What is behind the start of a text, if the text starts so. -/
theorem after?_eq_some {start s r : Text} : Text.after? start s = some r ↔ s = start ++ r := by
  fun_induction Text.after? start s with
  | case1 s => simp
  | case2 => simp
  | case3 cs d ds ih => simp [ih]
  | case4 c cs d ds hcd => simp [Ne.symm hcd]

theorem exactly_eq_ok {kind : LeafKind} {start : Text} :
    exactly kind start s = .ok ts r ↔ s = start ++ r ∧ ts = [.leaf kind start] := by
  unfold exactly
  rw [← after?_eq_some]
  cases Text.after? start s <;> simp [and_comm, eq_comm]

theorem run_eq_ok {kind : LeafKind} {p : Char → Bool} :
    run kind p s = .ok ts r ↔
      s.takeWhile p ≠ [] ∧ ts = [.leaf kind (s.takeWhile p)] ∧ r = s.dropWhile p := by
  unfold run
  cases s.takeWhile p <;> simp [eq_comm]

theorem keyword_eq_ok {name : Text} :
    Lexeme.keyword name s = .ok ts r ↔
      ∃ word, s = word ++ r ∧ Text.sameLetters word name = true ∧
        r.head?.any isNameChar = false ∧ ts = [.leaf .keyword word] := by
  unfold Lexeme.keyword
  constructor
  · intro e
    dsimp only at e
    split at e
    · rename_i hc
      rw [Bool.and_eq_true, Bool.not_eq_true'] at hc
      cases e
      exact ⟨_, (List.take_append_drop _ _).symm, hc.1, hc.2, rfl⟩
    · cases e
  · rintro ⟨word, rfl, hw, hr, rfl⟩
    have hlen : word.length = name.length := by
      have := congrArg List.length (eq_of_beq hw)
      simpa using this
    simp [← hlen, hw, hr]

/-- The rounds of a repetition: one and then the others, a last one that takes no text, or none. -/
theorem many_eq_ok :
    many g s = .ok ts r ↔
      (∃ us m vs, g s = .ok us m ∧ m.length < s.length ∧ many g m = .ok vs r ∧ us ++ vs = ts) ∨
        (g s = .ok ts r ∧ ¬ r.length < s.length) ∨ ((∃ m, g s = .stuck m) ∧ ts = [] ∧ r = s) := by
  rw [many]
  cases hs : g s with
  | ok us m =>
    constructor
    · intro e
      by_cases hm : m.length < s.length
      · cases hr : many g m with
        | ok vs r' =>
          simp only [hm, hr, if_true] at e
          cases e
          exact .inl ⟨us, m, vs, rfl, hm, hr, rfl⟩
        | stuck r' => simp [hm, hr] at e
        | failed f => simp [hm, hr] at e
      · simp only [hm, if_false] at e
        cases e
        exact .inr (.inl ⟨rfl, hm⟩)
    · rintro (⟨us', m', vs, e, hlt, hr, rfl⟩ | ⟨e, hm⟩ | ⟨⟨m', e⟩, -⟩)
      · cases e
        simp [hlt, hr]
      · cases e
        simp [hm]
      · cases e
  | stuck m => simp [eq_comm]
  | failed f => simp

/-- A statement about repetitions holds if it holds of no round and is kept by one more. -/
theorem many_induction {motive : Text → List Token → Text → Prop}
    (nil : ∀ s, motive s [] s)
    (round : ∀ s us m vs r, g s = .ok us m → motive m vs r → motive s (us ++ vs) r) :
    ∀ s ts r, many g s = .ok ts r → motive s ts r := by
  intro s
  induction hn : s.length using Nat.strongRecOn generalizing s with
  | ind n ih =>
    intro ts r e
    obtain ⟨us, m, vs, hu, hlt, hm, rfl⟩ | ⟨hu, -⟩ | ⟨-, rfl, rfl⟩ := many_eq_ok.1 e
    · exact round _ _ _ _ _ hu (ih _ (hn ▸ hlt) m rfl _ _ hm)
    · simpa using round _ _ _ _ _ hu (nil r)
    · exact nil _

/-- Where each round takes some text, a repetition ends where no round is possible. -/
theorem Advances.many_induction {motive : ∀ s ts r, many g s = .ok ts r → Prop} (ha : Advances g)
    (nil : ∀ s m (_ : g s = .stuck m) h, motive s [] s h)
    (round : ∀ s us m vs r (_ : g s = .ok us m) (hm : many g m = .ok vs r) h,
      motive m vs r hm → motive s (us ++ vs) r h) :
    ∀ s ts r h, motive s ts r h := by
  intro s
  induction hn : s.length using Nat.strongRecOn generalizing s with
  | ind n ih =>
    intro ts r e
    obtain ⟨us, m, vs, hu, hlt, hm, rfl⟩ | ⟨hu, hlt⟩ | ⟨⟨m, hs⟩, rfl, rfl⟩ := many_eq_ok.1 e
    · exact round _ _ _ _ _ hu hm e (ih _ (hn ▸ hlt) m rfl _ _ hm)
    · exact absurd (ha _ _ _ hu) hlt
    · exact nil _ m hs e

end Grammar

/-! ## Properties that readers inherit -/

/-- Whether a kind of node is the one of an instruction within another. -/
def NodeKind.isInstruction : NodeKind → Bool
  | .instruction _ _ => true
  | _ => false

/-- A property of readers that is kept by the combinators that make no nodes. -/
structure Sequential (P : Grammar → Prop) : Prop where
  seq {g h : Grammar} : P g → P h → P (g ++ h)
  optional {g : Grammar} : P g → P (.optional g)
  either {g h : Grammar} : P g → P h → P (.either g h)
  attempt {g : Grammar} : P g → P (.attempt g)
  tentative {g : Grammar} : P g → P (.tentative g)
  many {g : Grammar} : P g → P (.many g)
  nonempty {g : Grammar} : P g → P (.nonempty g)
  commit {g : Grammar} (what : String) : P g → P (.commit what g)

/-- A property of readers that all combinators keep. -/
structure Compositional (P : Grammar → Prop) : Prop extends Sequential P where
  node {g : Grammar} (kind : NodeKind) : kind.isInstruction = false → P g → P (.node kind g)

/-- A relation between a text, the tokens read from it and the text that remains is kept by these
combinators if it holds where nothing is read and of two readings in a row. -/
theorem Sequential.ofRelation {R : Text → List Token → Text → Prop} (nil : ∀ s, R s [] s)
    (append : ∀ {s ts m us r}, R s ts m → R m us r → R s (ts ++ us) r) :
    Sequential fun g => ∀ s ts r, g s = .ok ts r → R s ts r where
  seq hg hh s ts r e := by
    obtain ⟨us, vs, m, hu, hv, rfl⟩ := Grammar.seq_eq_ok.1 e
    exact append (hg _ _ _ hu) (hh _ _ _ hv)
  optional hg s ts r e := by
    obtain hu | ⟨-, rfl, rfl⟩ := Grammar.optional_eq_ok.1 e
    · exact hg _ _ _ hu
    · exact nil _
  either hg hh s ts r e := by
    obtain hu | ⟨-, hu⟩ := Grammar.either_eq_ok.1 e
    · exact hg _ _ _ hu
    · exact hh _ _ _ hu
  attempt hg s ts r e := hg _ _ _ (Grammar.attempt_eq_ok.1 e)
  tentative hg s ts r e := hg _ _ _ (Grammar.tentative_eq_ok.1 e)
  many hg := Grammar.many_induction nil fun s us m vs r hu hv => append (hg _ _ _ hu) hv
  nonempty hg s ts r e := hg _ _ _ (Grammar.nonempty_eq_ok.1 e).1
  commit what hg s ts r e := hg _ _ _ (Grammar.commit_eq_ok.1 e)

theorem Compositional.ofRelation {R : Text → List Token → Text → Prop} (nil : ∀ s, R s [] s)
    (append : ∀ {s ts m us r}, R s ts m → R m us r → R s (ts ++ us) r)
    (node : ∀ {s ts r} (kind : NodeKind), kind.isInstruction = false → R s ts r →
      R s [.node kind ts] r) :
    Compositional fun g => ∀ s ts r, g s = .ok ts r → R s ts r where
  toSequential := .ofRelation nil append
  node kind hk hg s ts r e := by
    obtain ⟨us, hu, rfl⟩ := Grammar.node_eq_ok.1 e
    exact node kind hk (hg _ _ _ hu)

/-! ## Tokens that readers yield -/

/-- Every token that the reader yields has a property. -/
def Yields (Q : Token → Prop) (g : Grammar) : Prop :=
  ∀ s ts r, g s = .ok ts r → ∀ t ∈ ts, Q t

namespace Yields

variable {Q : Token → Prop}

theorem sequential (Q : Token → Prop) : Sequential (Yields Q) :=
  .ofRelation (R := fun _ ts _ => ∀ t ∈ ts, Q t) (fun _ => by simp)
    (fun hts hus => List.forall_mem_append.2 ⟨hts, hus⟩)

theorem trivial (g : Grammar) : Yields (fun _ => True) g :=
  fun _ _ _ _ _ _ => True.intro

theorem run {kind : LeafKind} (hQ : ∀ s, Q (.leaf kind s)) (p : Char → Bool) :
    Yields Q (.run kind p) := by
  intro s ts r e
  obtain ⟨-, rfl, -⟩ := Grammar.run_eq_ok.1 e
  simpa using hQ _

theorem exactly {kind : LeafKind} {start : Text} (hQ : Q (.leaf kind start)) :
    Yields Q (.exactly kind start) := by
  intro s ts r e
  obtain ⟨-, rfl⟩ := Grammar.exactly_eq_ok.1 e
  simpa using hQ

theorem when (p : Text → Bool) : Yields Q (.when p) := by
  intro s ts r e
  obtain ⟨-, rfl, -⟩ := Grammar.when_eq_ok.1 e
  simp

theorem keyword (hQ : ∀ s, Q (.leaf .keyword s)) (name : Text) :
    Yields Q (Lexeme.keyword name) := by
  intro s ts r e
  obtain ⟨word, -, -, -, rfl⟩ := Grammar.keyword_eq_ok.1 e
  simpa using hQ word

/-- A node is made of what the reader of its children yields. -/
theorem node {Q' : Token → Prop} {kind : NodeKind} {g : Grammar} (hg : Yields Q' g)
    (hQ : ∀ ts, (∀ t ∈ ts, Q' t) → Q (.node kind ts)) : Yields Q (.node kind g) := by
  intro s ts r e
  obtain ⟨us, hu, rfl⟩ := Grammar.node_eq_ok.1 e
  simpa using hQ us (hg _ _ _ hu)

end Yields

/-! ## Lines -/

/-- The name, the equals sign and the value, for a known name. -/
def Directive.assignmentOf (name : DirectiveName) : Grammar :=
  Lexeme.identifier isNameChar ++ .optional Lexeme.blanks ++ .symbol "=" ++ .optional Lexeme.blanks
    ++ valueBody name

/-- A property of readers that the leaves of comments, blank lines and directives have. -/
structure LineReaders (P : Grammar → Prop) : Prop extends Sequential P where
  blanks : P Lexeme.blanks
  newline : P Lexeme.newline
  commentMark : P (.exactly .commentMark ['#'])
  commentText : P (.run .fragment fun c => !isLineBreak c)
  directiveName : P (.run .identifier isNameChar)
  equals : P (.symbol "=")
  endAhead : P (.when List.isEmpty)

namespace LineReaders

open Lexeme

variable {P : Grammar → Prop} (h : LineReaders P)
include h

theorem commentBody : P commentBody :=
  h.seq (h.seq (h.seq (h.optional h.blanks) h.commentMark) (h.optional h.commentText))
    (h.optional h.newline)

theorem blankLine : P blankLine :=
  h.seq (h.optional h.blanks) h.newline

/-- A continuation is made of lines, if the escape character can be read and nodes be made. -/
theorem continuation {escape : Char} (hescape : P (.exactly .symbol [escape]))
    (hnode : ∀ {kind : NodeKind} {g : Grammar}, kind.isInstruction = false → P g →
      P (.node kind g)) :
    P (continuation escape) :=
  h.seq (hnode rfl (h.seq (h.seq hescape (h.optional h.blanks)) h.newline))
    (h.many (h.either (hnode rfl h.commentBody) h.blankLine))

theorem blankLines : P BlankLines.body :=
  h.nonempty (h.seq (h.many h.blankLine) (h.optional (h.seq h.blanks h.endAhead)))

theorem assignmentOf {name : DirectiveName} (hvalue : P (Directive.valueBody name)) :
    P (Directive.assignmentOf name) :=
  h.seq (h.seq (h.seq (h.seq h.directiveName (h.optional h.blanks)) h.equals) (h.optional h.blanks))
    hvalue

theorem directive (hassignment : P Directive.assignment) : P Directive.body :=
  h.attempt (h.seq (h.seq (h.seq (h.seq (h.optional h.blanks) h.commentMark) (h.optional h.blanks))
    hassignment) (h.optional h.newline))

end LineReaders

/-! ## Arguments -/

namespace Instruction

open Grammar Lexeme

/-- What a `FROM` holds before its end. -/
def stageContent (escape : Char) : Grammar :=
  start Keyword.FROM.name
    ++ optional (argument escape (KeyValue.flag escape))
    ++ required escape "image name" (Literal.grammar .word escape)
    ++ optional (argument escape (Lexeme.keyword "AS".toList)
      ++ required escape "stage name" (identifier isStageChar))

/-- What an `ARG` holds before its end. -/
def argContent (escape : Char) : Grammar :=
  start Keyword.ARG.name
    ++ required escape "argument name" (KeyValue.declaration escape isStageChar)
    ++ many (argument escape (KeyValue.declaration escape isStageChar))

/-- What an `ENV` holds before its end. -/
def envContent (escape : Char) : Grammar :=
  start Keyword.ENV.name
    ++ either
      (argument escape (KeyValue.pair escape isStageChar)
        ++ many (argument escape (KeyValue.pair escape isStageChar)))
      (required escape "variable name" (identifier isStageChar)
        ++ required escape "variable value" (Literal.grammar .line escape))

/-- What a `LABEL` holds before its end. -/
def labelContent (escape : Char) : Grammar :=
  start Keyword.LABEL.name
    ++ required escape "label" (KeyValue.pair escape isKeyChar)
    ++ many (argument escape (KeyValue.pair escape isKeyChar))

/-- The keyword and the flags that come before other arguments. -/
def opening (escape : Char) (k : Keyword) : Grammar :=
  start k.name ++ flagsBody escape

/-- The rest of a line, for a command or for a generic instruction. -/
def lineArgument (escape : Char) (what : String) : Grammar :=
  required escape what (Literal.grammar (Style.line.withReferences false) escape)

/-- The arguments of a command. -/
def commandArguments (escape : Char) : Grammar :=
  either (wholeArray escape false) (lineArgument escape "command")

/-- What comes before a deferred instruction. -/
def deferral (escape : Char) : Grammar :=
  start Keyword.ONBUILD.name ++ commit "trigger instruction" (separator escape)

theorem stageBody_eq (escape : Char) : stageBody escape = stageContent escape ++ finish escape :=
  rfl

theorem argBody_eq (escape : Char) : argBody escape = argContent escape ++ finish escape :=
  rfl

theorem envBody_eq (escape : Char) : envBody escape = envContent escape ++ finish escape :=
  rfl

theorem labelBody_eq (escape : Char) : labelBody escape = labelContent escape ++ finish escape :=
  rfl

theorem commandBody_eq (escape : Char) (k : Keyword) :
    commandBody escape k = opening escape k ++ commandArguments escape ++ finish escape :=
  rfl

theorem genericBody_eq (escape : Char) (k : Keyword) (arguments : Arguments) :
    genericBody escape k arguments =
      opening escape k ++ argumentsBody escape arguments ++ finish escape :=
  rfl

theorem onBuildBody_eq (escape : Char) (instruction : Text → Outcome Instruction) :
    onBuildBody escape instruction = deferral escape ++ trigger instruction :=
  rfl

end Instruction

/-- A property of readers that separators and the keywords of instructions have. -/
structure SeparatorReaders (P : Grammar → Prop) (escape : Char) : Prop extends Sequential P where
  blanks : P Lexeme.blanks
  continuation : P (Lexeme.continuation escape)
  keyword (k : Keyword) : P (Lexeme.keyword k.name)

namespace SeparatorReaders

open Lexeme

variable {P : Grammar → Prop} {escape : Char} (h : SeparatorReaders P escape)
include h

theorem separator : P (separator escape) :=
  h.nonempty (h.many (h.either h.blanks h.continuation))

theorem argument {g : Grammar} (hg : P g) : P (argument escape g) :=
  h.attempt (h.seq h.separator hg)

theorem required (what : String) {g : Grammar} (hg : P g) : P (required escape what g) :=
  h.seq (h.commit what h.separator) (h.commit what hg)

theorem start (k : Keyword) : P (start k.name) :=
  h.seq (h.optional h.blanks) (h.keyword k)

theorem deferral : P (Instruction.deferral escape) :=
  h.seq (h.start .ONBUILD) (h.commit _ h.separator)

theorem argContent (hdeclaration : P (KeyValue.declaration escape isStageChar)) :
    P (Instruction.argContent escape) :=
  h.seq (h.seq (h.start .ARG) (h.required _ hdeclaration)) (h.many (h.argument hdeclaration))

theorem finish (hend : P (.when List.isEmpty)) (hnewline : P newline) : P (finish escape) :=
  h.seq (h.optional h.separator) (h.commit _ (h.either hend hnewline))

theorem arrayBody {references : Bool} (hopening : P (.symbol "[")) (hcomma : P (.symbol ","))
    (hclosing : P (.symbol "]")) (helement : P (ExecForm.element escape references)) :
    P (ExecForm.body escape references) := by
  refine h.tentative (h.seq (h.seq hopening (h.optional h.separator)) (h.either hclosing ?_))
  refine h.seq (h.seq helement (h.many ?_)) hclosing
  exact h.seq (h.seq hcomma (h.optional h.separator)) helement

end SeparatorReaders

section Leaves

open Lexeme

variable {Q : Token → Prop}

theorem yields_newline (hQ : ∀ s, Q (.newline s)) : Yields Q newline :=
  (Yields.sequential Q).either (.exactly (hQ _)) (.exactly (hQ _))

theorem yields_blankLine (hblank : ∀ s, Q (.blank s)) (hnewline : ∀ s, Q (.newline s)) :
    Yields Q blankLine :=
  (Yields.sequential Q).seq ((Yields.sequential Q).optional (.run hblank _))
    (yields_newline hnewline)

variable (hleaf : ∀ kind s, Q (.leaf kind s))
include hleaf

/-- Comments and blank lines are made of leaves. -/
theorem lineReaders_yields : LineReaders (Yields Q) where
  toSequential := Yields.sequential Q
  blanks := .run (hleaf _) _
  newline := yields_newline (hleaf _)
  commentMark := .exactly (hleaf _ _)
  commentText := .run (hleaf _) _
  directiveName := .run (hleaf _) _
  equals := .exactly (hleaf _ _)
  endAhead := .when _

/-- Separators and keywords are leaves, and continuations and comments that are made of leaves. -/
theorem separatorReaders_yields
    (hnode : ∀ kind ts, kind = .continuation ∨ kind = .comment → (∀ t ∈ ts, t.leafKind? ≠ none) →
      Q (.node kind ts)) (escape : Char) : SeparatorReaders (Yields Q) escape where
  toSequential := Yields.sequential Q
  blanks := .run (hleaf _) _
  continuation := by
    have h := Yields.sequential Q
    have hleaves := Yields.sequential fun t => t.leafKind? ≠ none
    have hline : Yields Q (lineContinuation escape) := by
      refine .node (hleaves.seq (hleaves.seq ?_ (hleaves.optional ?_)) ?_) fun ts =>
        hnode _ ts (.inl rfl)
      · exact .exactly (by simp [Token.leafKind?])
      · exact .run (by simp [Token.leafKind?]) _
      · exact yields_newline (by simp [Token.newline, Token.leafKind?])
    have hcomment : Yields Q commentLine :=
      .node (lineReaders_yields (by simp [Token.leafKind?])).commentBody fun ts =>
        hnode _ ts (.inr rfl)
    exact h.seq hline (h.many (h.either hcomment (lineReaders_yields hleaf).blankLine))
  keyword _ := .keyword (hleaf _) _

end Leaves

/-- A property of readers that the leaves of arguments have too, and that is kept where a key and
its value are made a node. -/
structure ArgumentReaders (P : Grammar → Prop) (escape : Char) : Prop
    extends SeparatorReaders P escape where
  keyValue {g : Grammar} : P g → P (.node .keyValue g)
  stageKeyword : P (Lexeme.keyword "AS".toList)
  stageName : P (.run .identifier isStageChar)
  flagName : P (.run .identifier isFlagChar)
  labelName : P (.run .identifier isKeyChar)
  dashes : P (.symbol "--")
  equals : P (.symbol "=")
  /-- Literals in which a backslash is nothing special. -/
  literal (style : Style) : style.jsonEscapes = false → P (Literal.grammar style escape)

namespace ArgumentReaders

open Lexeme Instruction

variable {P : Grammar → Prop} {escape : Char} (h : ArgumentReaders P escape)
include h

theorem assignment : P (KeyValue.assignment escape) :=
  h.seq h.equals (h.literal .value rfl)

theorem flag : P (KeyValue.flag escape) :=
  h.keyValue (h.seq (h.seq h.dashes h.flagName) (h.optional h.assignment))

theorem declaration : P (KeyValue.declaration escape isStageChar) :=
  h.keyValue (h.seq h.stageName (h.optional h.assignment))

theorem variablePair : P (KeyValue.pair escape isStageChar) :=
  h.keyValue (h.seq h.stageName h.assignment)

theorem labelPair : P (KeyValue.pair escape isKeyChar) :=
  h.keyValue (h.seq h.labelName h.assignment)

theorem flagsBody : P (flagsBody escape) :=
  h.many (h.argument h.flag)

theorem opening (k : Keyword) : P (opening escape k) :=
  h.seq (h.start k) h.flagsBody

theorem stageContent : P (stageContent escape) := by
  refine h.seq (h.seq (h.seq (h.start .FROM) (h.optional (h.argument h.flag))) ?_) ?_
  · exact h.required _ (h.literal .word rfl)
  · exact h.optional (h.seq (h.argument h.stageKeyword) (h.required _ h.stageName))

theorem envContent : P (envContent escape) := by
  refine h.seq (h.start .ENV) (h.either ?_ ?_)
  · exact h.seq (h.argument h.variablePair) (h.many (h.argument h.variablePair))
  · exact h.seq (h.required _ h.stageName) (h.required _ (h.literal .line rfl))

theorem labelContent : P (labelContent escape) :=
  h.seq (h.seq (h.start .LABEL) (h.required _ h.labelPair)) (h.many (h.argument h.labelPair))

theorem words : P (words escape) :=
  h.seq (h.required _ (h.literal .word rfl)) (h.many (h.argument (h.literal .word rfl)))

theorem lineArgument (what : String) : P (lineArgument escape what) :=
  h.required _ (h.literal _ rfl)

end ArgumentReaders

/-- A property of readers that the leaves of arrays have too, and the two looks ahead that are made
around an array. -/
structure ArrayReaders (P : Grammar → Prop) (escape : Char) : Prop
    extends ArgumentReaders P escape where
  execForm {g : Grammar} : P g → P (.node .execForm g)
  openingBracket : P (.symbol "[")
  comma : P (.symbol ",")
  closingBracket : P (.symbol "]")
  quoteAhead : P (.when fun s => s.head? == some '"')
  element (references : Bool) :
    P (Literal.grammar (Style.element.withReferences references) escape)
  finishAhead : P (.when (Lexeme.atFinish escape))

namespace ArrayReaders

open Instruction

variable {P : Grammar → Prop} {escape : Char} (h : ArrayReaders P escape)
include h

theorem elementBody (references : Bool) : P (ExecForm.element escape references) :=
  h.seq (h.seq h.quoteAhead (h.element references)) (h.optional h.separator)

theorem array (references : Bool) : P (ExecForm.grammar escape references) :=
  h.execForm (h.arrayBody h.openingBracket h.comma h.closingBracket (h.elementBody references))

theorem wholeArray (references : Bool) : P (wholeArray escape references) :=
  h.seq (h.argument (h.array references)) h.finishAhead

theorem commandArguments : P (commandArguments escape) :=
  h.either (h.wholeArray false) (h.lineArgument _)

theorem argumentsBody (arguments : Arguments) : P (argumentsBody escape arguments) := by
  cases arguments with
  | words execForm =>
    cases execForm with
    | true => exact h.either (h.wholeArray true) h.words
    | false => exact h.words
  | line => exact h.lineArgument _
  | array => exact h.required _ (h.array false)

/-- All instructions but a deferral are made of arguments. -/
theorem body (hfinish : P (Lexeme.finish escape)) (f : Text → Outcome Instruction) {k : Keyword}
    (hk : k ≠ .ONBUILD) : P (body escape f k) := by
  cases k with
  | FROM => exact h.seq h.stageContent hfinish
  | ARG => exact h.seq (h.argContent h.declaration) hfinish
  | ENV => exact h.seq h.envContent hfinish
  | LABEL => exact h.seq h.labelContent hfinish
  | RUN | CMD | ENTRYPOINT => exact h.seq (h.seq (h.opening _) h.commandArguments) hfinish
  | ONBUILD => exact absurd rfl hk
  | ADD | COPY | VOLUME | EXPOSE | STOPSIGNAL | USER | WORKDIR | HEALTHCHECK | MAINTAINER | SHELL =>
    exact h.seq (h.seq (h.opening _) (h.argumentsBody _)) hfinish

end ArrayReaders

/-! ## Any instruction -/

namespace Grammar

theorem compositional_shrinks : Compositional Shrinks :=
  .ofRelation (R := fun s _ r => r.length ≤ s.length) (fun _ => Nat.le_refl _)
    (fun hm hr => Nat.le_trans hr hm) (fun _ _ hr => hr)

theorem advances_keyword {name : Text} (hn : name ≠ []) : Advances (Lexeme.keyword name) := by
  intro s ts r e
  obtain ⟨word, rfl, hw, -, -⟩ := keyword_eq_ok.1 e
  have hlen : word.length = name.length := by
    simpa using congrArg List.length (eq_of_beq hw)
  have := List.length_pos_iff.2 hn
  simp only [List.length_append]
  omega

end Grammar

namespace Lexeme

open Grammar

theorem shrinks_separator (escape : Char) : Shrinks (separator escape) :=
  compositional_shrinks.nonempty (compositional_shrinks.many
    (compositional_shrinks.either advances_blanks.shrinks (advances_continuation escape).shrinks))

theorem advances_start (k : Keyword) : Advances (start k.name) :=
  advances_blanks.shrinks.optional.seq_advances (advances_keyword (by cases k <;> decide))

end Lexeme

namespace Instruction

open Grammar Lexeme

variable {escape : Char}

theorem advances_deferral (escape : Char) : Advances (deferral escape) :=
  (advances_start .ONBUILD).seq (compositional_shrinks.commit _ (shrinks_separator escape))

/-- A deferred instruction is read from a shorter text, so it does not matter how the reader of
deferred instructions treats a text that is not shorter. -/
theorem onBuildBody_congr {f g : Text → Outcome Instruction} {s : Text}
    (h : ∀ r, r.length < s.length → f r = g r) :
    onBuildBody escape f s = onBuildBody escape g s := by
  rw [onBuildBody_eq, onBuildBody_eq]
  change seq _ _ s = seq _ _ s
  unfold seq
  cases hs : deferral escape s with
  | ok ts m => simp only [trigger, h m (advances_deferral escape _ _ _ hs)]
  | stuck m => rfl
  | failed e => rfl

theorem readWith_congr {f g : Text → Outcome Instruction} {s : Text}
    (h : ∀ r, r.length < s.length → f r = g r) :
    readWith escape f s = readWith escape g s := by
  unfold readWith
  split
  · rfl
  · split
    · rename_i k _
      cases k with
      | ONBUILD => exact congrArg _ (onBuildBody_congr h)
      | _ => rfl
    · rfl

/-- The reader of instructions refers to itself for deferred ones. -/
theorem read_eq (escape : Char) (s : Text) : read escape s = readWith escape (read escape) s := by
  unfold read
  rw [fix]
  refine readWith_congr fun r hr => ?_
  simp [hr]

/-- What holds of the instructions that are read with any reader of deferred instructions of which
it holds, holds of all instructions. -/
theorem read_induction {R : Text → Instruction → Text → Prop}
    (h : ∀ f : Text → Outcome Instruction, (∀ s i r, f s = .ok i r → R s i r) →
      ∀ s i r, readWith escape f s = .ok i r → R s i r) :
    ∀ s i r, read escape s = .ok i r → R s i r := by
  intro s
  induction hn : s.length using Nat.strongRecOn generalizing s with
  | ind n ih =>
    unfold read
    rw [fix]
    refine h _ (fun m i r e => ?_) s
    split at e
    · rename_i hm
      exact ih m.length (hn ▸ hm) m rfl i r e
    · cases e

theorem readWith_eq_ok {f : Text → Outcome Instruction} {s r : Text} {i : Instruction} :
    readWith escape f s = .ok i r ↔
      ∃ k ts, Keyword.ofWord? (firstWord s) = some k ∧ body escape f k s = .ok ts r ∧
        i = ⟨k.form, escape, ts⟩ := by
  unfold readWith
  cases hw : firstWord s with
  | nil =>
    have : Keyword.ofWord? [] = none := by decide
    simp [this]
  | cons c cs =>
    cases hk : Keyword.ofWord? (c :: cs) with
    | none => simp [hk]
    | some k => simp [hk, Outcome.map_eq_ok, eq_comm, and_comm]

/-- An instruction is read by the reader of its keyword. -/
theorem read_eq_ok {s r : Text} {i : Instruction} :
    read escape s = .ok i r ↔
      ∃ k ts, Keyword.ofWord? (firstWord s) = some k ∧ body escape (read escape) k s = .ok ts r ∧
        i = ⟨k.form, escape, ts⟩ := by
  rw [read_eq, readWith_eq_ok]

/-- A text is an instruction if the instruction is all that it holds. -/
theorem parse_eq_ok {s : Text} {i : Instruction} :
    parse s escape = .ok i ↔ read escape s = .ok i [] :=
  Outcome.complete_eq_ok

theorem trigger_eq_ok {f : Text → Outcome Instruction} {s r : Text} {ts : List Token} :
    trigger f s = .ok ts r ↔
      ∃ i, f s = .ok i r ∧ i.isForbiddenTrigger = false ∧ ts = [i.token] := by
  unfold trigger
  cases f s with
  | ok i m =>
    constructor
    · intro e
      dsimp only at e
      split at e
      · cases e
      · rename_i hi
        cases e
        exact ⟨i, rfl, by simpa using hi, rfl⟩
    · rintro ⟨j, e, hj, rfl⟩
      cases e
      simp [hj]
  | stuck m => simp
  | failed e => simp

end Instruction

end Containerfile
