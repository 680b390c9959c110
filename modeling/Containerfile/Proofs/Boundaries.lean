import Containerfile.Proofs.LineEnds

/-!
# Where an instruction ends

An instruction with a line end of its own is read in the same way whatever is behind it, with one
exception.  Where an array may stand in the place of other arguments, an array is tried first, and
it may go on where a plain reading of the line has come to an end.  So the instruction is the same
with another text behind it, provided it does not become an array with it.

With the backslash for the escape character this cannot happen.  With the backtick it can: in the
strings of an array a backslash takes the next character with it, so in a line that ends with a
backslash and two backticks the second one is an escape character for the array and nothing special
for the rest.

## Main definitions

* `ArgumentGrammar` — the readers that are put together from readers of arguments.
* `Instruction.Shape` — how the readers of the keywords are put together.
* `Instruction.StartsArray` — the text starts with an instruction that holds an array where other
  text could stand.
* `Delimited` — a reading that is the same whatever is behind, unless an array is read.

## Main results

* `Instruction.read_cases` — an instruction is delimited, or it ends the text without a line end.
-/

namespace Containerfile

open Lexeme Grammar

/-! ## The readers of the keywords -/

/-- A reader that is put together from readers of arguments. -/
def ArgumentGrammar (e : Char) (g : Grammar) : Prop :=
  ∀ P, ArgumentReaders P e → P g

/-- Whether references are read in the array that may stand in the place of the other arguments;
nothing if no array may stand there. -/
def Keyword.arrayReferences? : Keyword → Option Bool
  | RUN | CMD | ENTRYPOINT => some false
  | ADD | COPY | VOLUME => some true
  | _ => none

namespace Instruction

variable {e : Char}

theorem settled_declaration (e : Char) (q : Char → Bool) : Settled (KeyValue.declaration e q) :=
  .node (fun _ _ => rfl) _

theorem settled_pair (e : Char) (q : Char → Bool) : Settled (KeyValue.pair e q) :=
  .node (fun _ _ => rfl) _

theorem settled_literal (e : Char) (style : Style) : Settled (Literal.grammar style e) :=
  .node (fun _ _ => rfl) _

theorem settled_array (e : Char) (references : Bool) : Settled (ExecForm.grammar e references) :=
  .node (fun _ _ => rfl) _

theorem settled_stageContent (e : Char) : Settled (stageContent e) := by
  refine Settled.seq_unended ((settled_literal e _).required e _).seq (Settled.optional ?_)
  exact ((Settled.run (by decide) _).required e _).seq

theorem settled_argContent (e : Char) : Settled (argContent e) :=
  Settled.seq_unended ((settled_declaration e _).required e _).seq
    ((settled_declaration e _).argument e).many

theorem settled_envContent (e : Char) : Settled (envContent e) := by
  refine Settled.seq (Settled.either (Settled.seq_unended ?_ ?_) ?_)
  · exact (settled_pair e _).argument e
  · exact ((settled_pair e _).argument e).many
  · exact ((settled_literal e _).required e _).seq

theorem settled_labelContent (e : Char) : Settled (labelContent e) :=
  Settled.seq_unended ((settled_pair e _).required e _).seq ((settled_pair e _).argument e).many

theorem settled_words (e : Char) : Settled (words e) :=
  ((settled_literal e _).required e _).seq_unended ((settled_literal e _).argument e).many

theorem settled_lineArgument (e : Char) (what : String) : Settled (lineArgument e what) :=
  (settled_literal e _).required e _

theorem settled_wholeArray (e : Char) (references : Bool) : Settled (wholeArray e references) := by
  refine ((settled_array e references).argument e).seq_unended fun s ts r h => ?_
  obtain ⟨-, rfl, -⟩ := when_eq_ok.1 h
  exact Token.lineStateAll_nil _

/-- How the reader of a keyword is put together, before the end of the instruction. -/
inductive Shape (e : Char) (k : Keyword) : Grammar → Prop where
  /-- Arguments only. -/
  | plain {g : Grammar} (hk : k.arrayReferences? = none) (hg : ArgumentGrammar e g)
      (hs : Settled g) : Shape e k g
  /-- Flags, and an array or other arguments. -/
  | choice {references : Bool} {g : Grammar} (hk : k.arrayReferences? = some references)
      (hg : ArgumentGrammar e g) (hs : Settled g) :
      Shape e k (opening e k ++ either (wholeArray e references) g)
  /-- Flags and an array. -/
  | array (hk : k.arrayReferences? = none) (what : String) :
      Shape e k (opening e k ++ required e what (ExecForm.grammar e false))

/-- Each reader but the one of `ONBUILD` has such a shape. -/
theorem exists_shape (e : Char) (f : Text → Outcome Instruction) {k : Keyword}
    (hk : k ≠ .ONBUILD) : ∃ g, Shape e k g ∧ body e f k = g ++ finish e := by
  have hcommand : ∀ k : Keyword, k.arrayReferences? = some false →
      Shape e k (opening e k ++ commandArguments e) := fun k hk =>
    .choice hk (fun P h => h.lineArgument _) (settled_lineArgument e _)
  have hwords : ∀ k : Keyword, k.arrayReferences? = some true →
      Shape e k (opening e k ++ argumentsBody e (.words true)) := fun k hk =>
    .choice hk (fun P h => h.words) (settled_words e)
  have hplain : ∀ k : Keyword, k.arrayReferences? = none →
      Shape e k (opening e k ++ argumentsBody e (.words false)) := fun k hk =>
    .plain hk (fun P h => h.seq (h.opening k) h.words) (settled_words e).seq
  have hline : ∀ k : Keyword, k.arrayReferences? = none →
      Shape e k (opening e k ++ argumentsBody e .line) := fun k hk =>
    .plain hk (fun P h => h.seq (h.opening k) (h.lineArgument _)) (settled_lineArgument e _).seq
  cases k with
  | ONBUILD => exact absurd rfl hk
  | FROM =>
    exact ⟨_, .plain rfl (fun P h => h.stageContent) (settled_stageContent e), stageBody_eq e⟩
  | ARG =>
    exact ⟨_, .plain rfl (fun P h => h.argContent h.declaration) (settled_argContent e),
      argBody_eq e⟩
  | ENV => exact ⟨_, .plain rfl (fun P h => h.envContent) (settled_envContent e), envBody_eq e⟩
  | LABEL =>
    exact ⟨_, .plain rfl (fun P h => h.labelContent) (settled_labelContent e), labelBody_eq e⟩
  | RUN | CMD | ENTRYPOINT => exact ⟨_, hcommand _ rfl, commandBody_eq e _⟩
  | ADD | COPY | VOLUME => exact ⟨_, hwords _ rfl, genericBody_eq e _ _⟩
  | EXPOSE | STOPSIGNAL | USER | WORKDIR => exact ⟨_, hplain _ rfl, genericBody_eq e _ _⟩
  | HEALTHCHECK | MAINTAINER => exact ⟨_, hline _ rfl, genericBody_eq e _ _⟩
  | SHELL => exact ⟨_, .array rfl _, rfl⟩

/-! ## Arrays among the arguments -/

theorem argument_eq_ok {g : Grammar} {s r : Text} {ts : List Token} :
    argument e g s = .ok ts r ↔ (separator e ++ g) s = .ok ts r :=
  attempt_eq_ok

theorem required_eq_ok {what : String} {g : Grammar} {s r : Text} {ts : List Token} :
    required e what g s = .ok ts r ↔ (separator e ++ g) s = .ok ts r := by
  unfold required
  rw [seq_eq_ok, seq_eq_ok]
  simp only [commit_eq_ok]

theorem wholeArray_eq_ok {references : Bool} {s r : Text} {ts : List Token} :
    wholeArray e references s = .ok ts r ↔
      (separator e ++ ExecForm.grammar e references) s = .ok ts r ∧ atFinish e r = true := by
  unfold wholeArray
  rw [seq_eq_ok]
  constructor
  · rintro ⟨us, vs, m, hu, hv, rfl⟩
    obtain ⟨hm, rfl, rfl⟩ := when_eq_ok.1 hv
    rw [List.append_nil]
    exact ⟨argument_eq_ok.1 hu, hm⟩
  · rintro ⟨hu, hr⟩
    exact ⟨ts, [], r, argument_eq_ok.2 hu, when_eq_ok.2 ⟨hr, rfl, rfl⟩, List.append_nil _⟩

theorem unfailing_wholeArray (e : Char) (references : Bool) :
    Unfailing (wholeArray e references) := by
  refine Unfailing.seq (Unfailing.attempt (Unfailing.seq ?_ ?_)) (.when _)
  · exact (unfailing_gap e).many.nonempty
  · exact (Unfailing.tentative _).node _

theorem stable_array (he : e ≠ '\n') (references : Bool) :
    Stable (separator e ++ ExecForm.grammar e references) :=
  (stable_separator he).seq (ExecForm.stable_grammar he references)
    ((arrayReaders_lossless e).array references)

/-- An array is read up to its bracket by a walk. -/
theorem walk_of_array (he : IsEscape e) {references : Bool} {s r : Text} {ts : List Token}
    (h : (separator e ++ ExecForm.grammar e references) s = .ok ts r) :
    Walk e true s (']' :: r) := by
  have hw : ArrayReaders (Walks e true) e := arrayReaders_walks he (.inl rfl)
  have hbracket : ∀ {m r : Text} {vs : List Token}, symbol "]" m = .ok vs r → m = ']' :: r :=
    fun hv => (exactly_eq_ok.1 hv).1
  obtain ⟨us, vs, m, hu, hv, rfl⟩ := seq_eq_ok.1 h
  refine (hw.separator _ _ _ hu).trans ?_
  obtain ⟨ws, hb, -⟩ := node_eq_ok.1 hv
  obtain ⟨_, _, k, ho, hb, -⟩ := seq_eq_ok.1 (tentative_eq_ok.1 hb)
  refine (hw.seq hw.openingBracket (hw.optional hw.separator) _ _ _ ho).trans ?_
  obtain hb | ⟨-, hb⟩ := either_eq_ok.1 hb
  · exact hbracket hb ▸ .refl _
  · obtain ⟨_, _, n, hel, hc, -⟩ := seq_eq_ok.1 hb
    have hnext := hw.many (hw.seq (hw.seq hw.comma (hw.optional hw.separator))
      (hw.elementBody references))
    exact hbracket hc ▸ hw.seq (hw.elementBody references) hnext _ _ _ hel

/-- An array with the end of the line behind it is there or not whatever is behind the line. -/
theorem wholeArray_append (he : IsEscape e) {references : Bool} {a m x : Text} {ts : List Token}
    (hm : Closed e m) :
    wholeArray e references (a ++ x) = .ok ts (m ++ x) ↔ wholeArray e references a = .ok ts m := by
  rw [wholeArray_eq_ok, wholeArray_eq_ok,
    stable_array he.ne_newline references _ _ _ _ hm.hasNewline, atFinish_append he hm]

/-- The text starts with the keyword, flags and an array, which stands where other arguments could
stand too. -/
def HoldsArray (e : Char) (k : Keyword) (s : Text) : Prop :=
  ∃ references ts r, k.arrayReferences? = some references ∧
    (opening e k ++ wholeArray e references) s = .ok ts r

/-- The text starts with an instruction that holds an array where other arguments could stand, or
that defers such an instruction. -/
inductive StartsArray (e : Char) : Text → Prop where
  | here {k : Keyword} {s : Text} (hk : Keyword.ofWord? (firstWord s) = some k)
      (h : HoldsArray e k s) : StartsArray e s
  | deferred {s r : Text} {ts : List Token}
      (hk : Keyword.ofWord? (firstWord s) = some .ONBUILD) (hr : deferral e s = .ok ts r)
      (h : StartsArray e r) : StartsArray e s

end Instruction

/-! ## Readings that do not depend on what is behind -/

/-- A success of a decided reader is the same whatever is behind. -/
theorem Decided.append_eq_ok {C : Text → Prop} {g : Grammar} (hg : Decided C g) {p r x : Text}
    {ts : List Token} (hp : C p) (h : g (p ++ x) = .ok ts (r ++ x)) (x' : Text) :
    g (p ++ x') = .ok ts (r ++ x') :=
  (hg p hp x').eq_ok ((hg p hp x).of_eq_ok h)

/-- The reader `g`, which has read `ts` and left `x`, has come to the end of the text without a line
end, or it has come to a line end and reads the same whatever is behind. -/
def Steady (e : Char) (g : Grammar) (ts : List Token) (s x : Text) : Prop :=
  Token.lineStateAll ts .within = .ended ∧
      (∃ u, LineCut e s u x ∧ ∀ x', g (u ++ x') = .ok ts x') ∨
    Token.lineStateAll ts .within ≠ .ended ∧ x = []

/-- A reader that ends with the bracket of an array. -/
structure Bracketed (e : Char) (g : Grammar) : Prop where
  settled : Settled g
  walk : ∀ {s ts r}, g s = .ok ts r → Walk e true s (']' :: r)
  append : ∀ {a m x ts}, Closed e m → (g (a ++ x) = .ok ts (m ++ x) ↔ g a = .ok ts m)

namespace Instruction

variable {e : Char} {k : Keyword}

theorem steady_arguments (he : IsEscape e) {g : Grammar} (hg : ArgumentGrammar e g)
    (hs : Settled g) {s x : Text} {ts : List Token} (h : (g ++ finish e) s = .ok ts x) :
    Steady e (g ++ finish e) ts s x := by
  obtain ⟨us, vs, m, hu, hv, rfl⟩ := seq_eq_ok.1 h
  unfold Steady
  rw [Token.lineStateAll_append, hs _ _ _ hu]
  refine (finish_cases he hv).imp_left (And.imp_right ?_)
  rintro ⟨p, hp⟩
  obtain ⟨w, -, hcut⟩ := hp.of_walk he (hg _ (argumentReaders_walks he false) _ _ _ hu)
    (hg _ (argumentReaders_walks he true) _ _ _ hu)
  have hdecided := (hg _ (argumentReaders_within he)).seq_decided (decided_finish he)
  exact ⟨_, hcut, hdecided.append_eq_ok (r := []) hcut.closed (hcut.eq ▸ h)⟩

theorem bracketed_wholeArray (he : IsEscape e) (references : Bool) :
    Bracketed e (wholeArray e references) where
  settled := settled_wholeArray e references
  walk h := walk_of_array he (wholeArray_eq_ok.1 h).1
  append hm := wholeArray_append he hm

theorem bracketed_required (he : IsEscape e) (what : String) (references : Bool) :
    Bracketed e (required e what (ExecForm.grammar e references)) where
  settled := (settled_array e references).required e what
  walk h := walk_of_array he (required_eq_ok.1 h)
  append hm := by
    rw [required_eq_ok, required_eq_ok]
    exact stable_array he.ne_newline references _ _ _ _ hm.hasNewline

theorem steady_bracketed (he : IsEscape e) {g : Grammar} (hg : Bracketed e g) {s x : Text}
    {ts : List Token} (h : (opening e k ++ g ++ finish e) s = .ok ts x) :
    Steady e (opening e k ++ g ++ finish e) ts s x := by
  obtain ⟨us, vs, m, hu, hv, rfl⟩ := seq_eq_ok.1 h
  obtain ⟨os, ws, a, ho, hw, rfl⟩ := seq_eq_ok.1 hu
  unfold Steady
  rw [Token.lineStateAll_append, Token.lineStateAll_append, hg.settled _ _ _ hw]
  refine (finish_cases he hv).imp_left (And.imp_right ?_)
  rintro ⟨p, hp⟩
  obtain ⟨b, rfl, hbracket⟩ := hp.of_bracket he (hg.walk hw)
  obtain ⟨w, rfl, hcut⟩ := hbracket.of_walk he ((argumentReaders_walks he false).opening k _ _ _ ho)
    ((argumentReaders_walks he true).opening k _ _ _ ho)
  refine ⟨_, hcut, fun x' => ?_⟩
  obtain rfl := hp.eq
  have hopen : opening e k ((w ++ (b ++ ']' :: p)) ++ x) = .ok os ((b ++ ']' :: p) ++ x) := by
    simpa using ho
  have harray : g ((b ++ ']' :: p) ++ x) = .ok ws (p ++ x) := by simpa using hw
  have hfinish : finish e (p ++ x) = .ok vs ([] ++ x) := hv
  exact seq_eq_ok.2 ⟨_, vs, p ++ x', seq_eq_ok.2 ⟨os, ws, _,
    ((argumentReaders_within he).opening k).decided.append_eq_ok hcut.closed hopen x',
    (hg.append hp.closed).2 ((hg.append hp.closed).1 harray), rfl⟩,
    (decided_finish he).append_eq_ok hp.closed hfinish x', rfl⟩

/-! ## Arrays that go on -/

theorem firstWord_append {u : Text} (hu : HasNewline u) (x : Text) :
    firstWord (u ++ x) = firstWord u := by
  have hblank : Peels HasNewline isBlank := peels_newline rfl
  have hname : Peels HasNewline isNameChar := peels_newline rfl
  obtain ⟨-, hdrop, hrest⟩ := hblank.takeWhile_append hu x
  unfold firstWord fromFirstWord
  rw [hdrop, (hname.takeWhile_append hrest x).1]

/-- An array ends a line, and is there whatever is behind, or only separators are behind it up to
the end of the text. -/
theorem HoldsArray.cases (he : IsEscape e) {s : Text} (h : HoldsArray e k s) :
    (HasNewline s ∧ ∀ x, HoldsArray e k (s ++ x)) ∨
      ∃ m ts, Walk e true s (']' :: m) ∧ many (gap e) m = .ok ts [] := by
  obtain ⟨references, ts, m, hk, hm⟩ := h
  obtain ⟨os, ws, a, ho, hw, rfl⟩ := seq_eq_ok.1 hm
  have hbracketed := bracketed_wholeArray he references
  obtain ⟨vs, r, hv, hstate⟩ | ⟨vs, hv⟩ := atFinish_cases he (wholeArray_eq_ok.1 hw).2
  · left
    have hread : (opening e k ++ wholeArray e references ++ finish e) s = .ok (os ++ ws ++ vs) r :=
      seq_eq_ok.2 ⟨_, vs, m, hm, hv, rfl⟩
    obtain ⟨-, u, hcut, hu⟩ | ⟨hstate', -⟩ := steady_bracketed he hbracketed hread
    · rw [hcut.eq]
      refine ⟨List.mem_append_left _ hcut.closed.hasNewline, fun x => ?_⟩
      obtain ⟨us, -, m', hu, -, -⟩ := seq_eq_ok.1 (hu (r ++ x))
      rw [← List.append_assoc] at hu
      exact ⟨references, us, m', hk, hu⟩
    · rw [Token.lineStateAll_append, Token.lineStateAll_append,
        hbracketed.settled _ _ _ hw] at hstate'
      exact absurd hstate hstate'
  · right
    exact ⟨m, vs, ((argumentReaders_walks he true).opening k _ _ _ ho).trans (hbracketed.walk hw),
      hv⟩

theorem startsArray_iff {s : Text} (hk : Keyword.ofWord? (firstWord s) = some k)
    (hne : k ≠ .ONBUILD) : StartsArray e s ↔ HoldsArray e k s := by
  constructor
  · intro h
    cases h with
    | here hk' h =>
      rw [hk] at hk'
      cases hk'
      exact h
    | deferred hk' _ _ =>
      rw [hk] at hk'
      cases hk'
      exact absurd rfl hne
  · exact .here hk

theorem stable_deferral (he : IsEscape e) : Stable (deferral e) := by
  have hl := arrayReaders_lossless e
  have hstart : Decided HasNewline (start Keyword.ONBUILD.name) := by
    have hname : Peels HasNewline isNameChar := peels_newline rfl
    exact ((compositional_within _).optional within_blanks).seq_decided
      (hname.within_keyword Keyword.ONBUILD.isNameChar_of_mem_name).decided
  refine (hstart.stable (hl.start .ONBUILD)).seq (fun p x ts r hr => ?_) (hl.commit _ hl.separator)
  rw [commit_eq_ok, commit_eq_ok]
  exact stable_separator he.ne_newline p x ts r hr

/-- The same, also for an array in a deferred instruction. -/
theorem StartsArray.cases (he : IsEscape e) {s : Text} (h : StartsArray e s) :
    (HasNewline s ∧ ∀ x, StartsArray e (s ++ x)) ∨
      ∃ m ts, Walk e true s (']' :: m) ∧ many (gap e) m = .ok ts [] := by
  induction h with
  | @here k s hk h =>
    refine (h.cases he).imp_left ?_
    rintro ⟨hs, h⟩
    exact ⟨hs, fun x => .here (by rwa [firstWord_append hs]) (h x)⟩
  | @deferred s r ts hk hr _ ih =>
    obtain ⟨hnl, h⟩ | ⟨m, us, hw, hm⟩ := ih
    · left
      have hs : HasNewline s := by
        have hl := (arrayReaders_lossless e).deferral
        exact hl _ _ _ hr ▸ hnl.append_left _
      refine ⟨hs, fun x => ?_⟩
      have hr' : deferral e (s ++ x) = .ok ts (r ++ x) := (stable_deferral he _ _ _ _ hnl).2 hr
      exact .deferred (by rwa [firstWord_append hs]) hr' (h x)
    · right
      have hwalks := (argumentReaders_walks he true).deferral
      exact ⟨m, us, (hwalks _ _ _ hr).trans hw, hm⟩

/-- An array that is there when the text ends behind the line is there with the rest of the text
too. -/
theorem StartsArray.of_lineCut (he : IsEscape e) {s u x : Text} (hcut : LineCut e s u x)
    (h : StartsArray e u) : StartsArray e s := by
  obtain ⟨-, h⟩ | ⟨m, ts, hw, hm⟩ := h.cases he
  · rw [hcut.eq]
    exact h x
  · obtain ⟨p, hp⟩ := hw.suffix
    obtain ⟨l, c, b, w, hs, hb, hw, hc⟩ := exists_continued_of_bracket he hm (hp ▸ hcut.getLast?)
    have hs' : s = l ++ c :: b ++ e :: (w ++ x) := by
      rw [hcut.eq, hp, hs]
      simp
    have hlast := last_ne_escape (l := l) he hb (hc.imp_left And.right)
    exact (hcut.not_continued he hs' hlast hw (Nat.le_refl _) (by simp)).elim

/-! ## Instructions -/

/-- The instruction `i` is read from `s` up to a line end, and `x` is left.  It is also read with
another text behind the line end, unless that makes an array of it. -/
structure Delimited (e : Char) (i : Instruction) (s u x : Text) : Prop extends LineCut e s u x where
  read : ∀ x', (StartsArray e (u ++ x') → StartsArray e u) → read e (u ++ x') = .ok i x'
  array : StartsArray e u → ∀ x', StartsArray e (u ++ x')
  same : StartsArray e s → StartsArray e u

/-- For an instruction that is not deferred it is enough to look at its own arguments. -/
theorem Delimited.of_body {s u x : Text} {ts : List Token}
    (hk : Keyword.ofWord? (firstWord s) = some k) (hne : k ≠ .ONBUILD) (hcut : LineCut e s u x)
    (hread : ∀ x', (HoldsArray e k (u ++ x') → HoldsArray e k u) →
      body e (Instruction.read e) k (u ++ x') = .ok ts x')
    (harray : HoldsArray e k u → ∀ x', HoldsArray e k (u ++ x'))
    (hsame : HoldsArray e k s → HoldsArray e k u) :
    Delimited e ⟨k.form, e, ts⟩ s u x := by
  have hword : ∀ x', Keyword.ofWord? (firstWord (u ++ x')) = some k := fun x' => by
    rw [firstWord_append hcut.closed.hasNewline, ← firstWord_append hcut.closed.hasNewline x,
      ← hcut.eq, hk]
  have hiff : ∀ x', StartsArray e (u ++ x') ↔ HoldsArray e k (u ++ x') := fun x' =>
    startsArray_iff (hword x') hne
  have hu : StartsArray e u ↔ HoldsArray e k u := by simpa using hiff []
  refine ⟨hcut, fun x' h => ?_, fun h x' => ?_, fun h => ?_⟩
  · rw [hiff, hu] at h
    exact read_eq_ok.2 ⟨k, ts, hword x', hread x' h, rfl⟩
  · exact (hiff x').2 (harray (hu.1 h) x')
  · exact hu.2 (hsame ((startsArray_iff hk hne).1 h))

theorem not_holdsArray (hk : k.arrayReferences? = none) (s : Text) : ¬ HoldsArray e k s := by
  rintro ⟨references, ts, r, hk', -⟩
  rw [hk] at hk'
  cases hk'

/-- An array is read before other arguments are tried. -/
theorem choice_of_array {references : Bool} {g : Grammar} {s r : Text} {ts : List Token}
    (hk : k.arrayReferences? = some references)
    (h : (opening e k ++ wholeArray e references ++ finish e) s = .ok ts r) :
    HoldsArray e k s ∧
      (opening e k ++ either (wholeArray e references) g ++ finish e) s = .ok ts r := by
  obtain ⟨us, vs, m, hu, hv, rfl⟩ := seq_eq_ok.1 h
  obtain ⟨os, ws, a, ho, hw, rfl⟩ := seq_eq_ok.1 hu
  refine ⟨⟨references, _, m, hk, hu⟩, ?_⟩
  exact seq_eq_ok.2 ⟨_, vs, m, seq_eq_ok.2 ⟨os, ws, a, ho, either_eq_ok.2 (.inl hw), rfl⟩, hv, rfl⟩

/-- Other arguments are read where there is no array. -/
theorem choice_of_arguments {references : Bool} {g : Grammar} {s r : Text} {ts : List Token}
    (hk : k.arrayReferences? = some references) (hs : ¬ HoldsArray e k s)
    (h : (opening e k ++ g ++ finish e) s = .ok ts r) :
    (opening e k ++ either (wholeArray e references) g ++ finish e) s = .ok ts r := by
  obtain ⟨us, vs, m, hu, hv, rfl⟩ := seq_eq_ok.1 h
  obtain ⟨os, ws, a, ho, hw, rfl⟩ := seq_eq_ok.1 hu
  have hstuck : ∃ n, wholeArray e references a = .stuck n := by
    cases ha : wholeArray e references a with
    | ok as n => exact absurd ⟨references, _, n, hk, seq_eq_ok.2 ⟨os, as, a, ho, ha, rfl⟩⟩ hs
    | stuck n => exact ⟨n, rfl⟩
    | failed f => exact absurd ha (unfailing_wholeArray e references a f)
  exact seq_eq_ok.2 ⟨_, vs, m, seq_eq_ok.2
    ⟨os, ws, a, ho, either_eq_ok.2 (.inr ⟨hstuck, hw⟩), rfl⟩, hv, rfl⟩

/-- The reading of an instruction that is not deferred. -/
theorem delimited_of_shape (he : IsEscape e) {g : Grammar} (hg : Shape e k g) {s x : Text}
    {ts : List Token} (hk : Keyword.ofWord? (firstWord s) = some k) (hne : k ≠ .ONBUILD)
    (hbody : body e (Instruction.read e) k = g ++ finish e) (h : (g ++ finish e) s = .ok ts x) :
    Token.lineStateAll ts .within = .ended ∧ (∃ u, Delimited e ⟨k.form, e, ts⟩ s u x) ∨
      Token.lineStateAll ts .within ≠ .ended ∧ x = [] := by
  cases hg with
  | plain hnone hg hs =>
    refine (steady_arguments he hg hs h).imp_left (And.imp_right ?_)
    rintro ⟨u, hcut, hread⟩
    exact ⟨u, .of_body hk hne hcut (fun x' _ => hbody ▸ hread x')
      (fun h => absurd h (not_holdsArray hnone u)) (fun h => absurd h (not_holdsArray hnone s))⟩
  | array hnone what =>
    refine (steady_bracketed he (bracketed_required he what false) h).imp_left (And.imp_right ?_)
    rintro ⟨u, hcut, hread⟩
    exact ⟨u, .of_body hk hne hcut (fun x' _ => hbody ▸ hread x')
      (fun h => absurd h (not_holdsArray hnone u)) (fun h => absurd h (not_holdsArray hnone s))⟩
  | @choice references g hsome hg hs =>
    obtain ⟨us, vs, m, hu, hv, rfl⟩ := seq_eq_ok.1 h
    obtain ⟨os, ws, a, ho, hw, rfl⟩ := seq_eq_ok.1 hu
    obtain hw | ⟨⟨n, hstuck⟩, hw⟩ := either_eq_ok.1 hw
    · have harray : (opening e k ++ wholeArray e references ++ finish e) s = .ok _ x :=
        seq_eq_ok.2 ⟨_, vs, m, seq_eq_ok.2 ⟨os, ws, a, ho, hw, rfl⟩, hv, rfl⟩
      refine (steady_bracketed he (bracketed_wholeArray he references) harray).imp_left
        (And.imp_right ?_)
      rintro ⟨u, hcut, hread⟩
      have hchoice := fun x' => choice_of_array (g := g) hsome (hread x')
      have hholds : HoldsArray e k u := by simpa using (hchoice []).1
      exact ⟨u, .of_body hk hne hcut (fun x' _ => hbody ▸ (hchoice x').2)
        (fun _ x' => (hchoice x').1) (fun _ => hholds)⟩
    · have hother : (opening e k ++ g ++ finish e) s = .ok _ x :=
        seq_eq_ok.2 ⟨_, vs, m, seq_eq_ok.2 ⟨os, ws, a, ho, hw, rfl⟩, hv, rfl⟩
      have hg' : ArgumentGrammar e (opening e k ++ g) := fun P h => h.seq (h.opening k) (hg P h)
      refine (steady_arguments he hg' hs.seq hother).imp_left (And.imp_right ?_)
      rintro ⟨u, hcut, hread⟩
      have hholds : ¬ HoldsArray e k s := by
        rintro ⟨references', ts, r, hk', h'⟩
        obtain ⟨os', ws', a', ho', hw', -⟩ := seq_eq_ok.1 h'
        rw [hsome] at hk'
        cases hk'
        rw [ho] at ho'
        cases ho'
        rw [hstuck] at hw'
        cases hw'
      -- an array at the end of the text would be there with the rest of the text too
      have hholds' : ¬ HoldsArray e k u := by
        intro h'
        have hku : Keyword.ofWord? (firstWord u) = some k := by
          rw [← firstWord_append hcut.closed.hasNewline x, ← hcut.eq, hk]
        exact hholds ((startsArray_iff hk hne).1 (StartsArray.of_lineCut he hcut (.here hku h')))
      exact ⟨u, .of_body hk hne hcut
        (fun x' hx' => hbody ▸ choice_of_arguments hsome (mt hx' hholds') (hread x'))
        (fun h => absurd h hholds') (fun h => absurd h hholds)⟩

theorem startsArray_iff_deferred {s r : Text} {ts : List Token}
    (hk : Keyword.ofWord? (firstWord s) = some .ONBUILD) (hr : deferral e s = .ok ts r) :
    StartsArray e s ↔ StartsArray e r := by
  constructor
  · intro h
    cases h with
    | here hk' h =>
      rw [hk] at hk'
      cases hk'
      exact absurd h (not_holdsArray rfl s)
    | deferred _ hr' h =>
      rw [hr] at hr'
      cases hr'
      exact h
  · exact .deferred hk hr

theorem onBuildBody_eq_ok {s r : Text} {ts : List Token} :
    onBuildBody e (Instruction.read e) s = .ok ts r ↔
      ∃ ds m i, deferral e s = .ok ds m ∧ Instruction.read e m = .ok i r ∧
        i.isForbiddenTrigger = false ∧ ts = ds ++ [i.token] := by
  rw [onBuildBody_eq, seq_eq_ok]
  constructor
  · rintro ⟨ds, vs, m, hd, hv, rfl⟩
    obtain ⟨i, hi, hf, rfl⟩ := trigger_eq_ok.1 hv
    exact ⟨ds, m, i, hd, hi, hf, rfl⟩
  · rintro ⟨ds, m, i, hd, hi, hf, rfl⟩
    exact ⟨ds, _, m, hd, trigger_eq_ok.2 ⟨i, hi, hf, rfl⟩, rfl⟩

/-- An instruction that defers another ends with it. -/
theorem Delimited.of_deferred (he : IsEscape e) {s m u x : Text} {ds : List Token}
    {t : Instruction} (hk : Keyword.ofWord? (firstWord s) = some .ONBUILD)
    (hd : deferral e s = .ok ds m) (hf : t.isForbiddenTrigger = false) (h : Delimited e t m u x) :
    ∃ u', Delimited e ⟨.onBuild, e, ds ++ [t.token]⟩ s u' x := by
  have hwalks := fun json => (argumentReaders_walks he json).deferral
  obtain ⟨w, rfl, hcut⟩ := h.toLineCut.of_walk he (hwalks false _ _ _ hd) (hwalks true _ _ _ hd)
  have hnl := hcut.closed.hasNewline
  have hword : ∀ x', Keyword.ofWord? (firstWord ((w ++ u) ++ x')) = some .ONBUILD := fun x' => by
    rw [firstWord_append hnl, ← firstWord_append hnl x, ← hcut.eq, hk]
  have hdefer : ∀ x', deferral e ((w ++ u) ++ x') = .ok ds (u ++ x') := by
    intro x'
    have hstable := fun x' => stable_deferral he (w ++ u) x' ds u h.closed.hasNewline
    refine (hstable x').2 ((hstable x).1 ?_)
    rw [← hcut.eq, hd, h.eq]
  have hiff : ∀ x', StartsArray e ((w ++ u) ++ x') ↔ StartsArray e (u ++ x') := fun x' =>
    startsArray_iff_deferred (hword x') (hdefer x')
  have hu : StartsArray e (w ++ u) ↔ StartsArray e u := by simpa using hiff []
  refine ⟨_, hcut, fun x' hx' => ?_, fun hu' x' => ?_, fun hs => ?_⟩
  · rw [hiff, hu] at hx'
    have hbody := onBuildBody_eq_ok.2 ⟨ds, _, t, hdefer x', h.read x' hx', hf, rfl⟩
    exact read_eq_ok.2 ⟨.ONBUILD, _, hword x', hbody, rfl⟩
  · exact (hiff x').2 (h.array (hu.1 hu') x')
  · exact hu.2 (h.same ((startsArray_iff_deferred hk hd).1 hs))

/-- An instruction has a line end of its own, and then it is delimited, or it ends the text and
has no such line end. -/
theorem read_cases (he : IsEscape e) {s x : Text} {i : Instruction}
    (h : Instruction.read e s = .ok i x) :
    i.endsLine = true ∧ (∃ u, Delimited e i s u x) ∨ i.endsLine = false ∧ x = [] := by
  induction hn : s.length using Nat.strongRecOn generalizing s i with
  | ind n ih =>
    obtain ⟨k, ts, hk, hbody, rfl⟩ := read_eq_ok.1 h
    by_cases hne : k = .ONBUILD
    · subst hne
      obtain ⟨ds, m, t, hd, ht, hf, rfl⟩ := onBuildBody_eq_ok.1 hbody
      have hstate : endsLine ⟨Keyword.ONBUILD.form, e, ds ++ [t.token]⟩ = t.endsLine := by
        unfold endsLine
        rw [Token.lineStateAll_append, Token.lineStateAll_singleton]
        rfl
      rw [hstate]
      refine (ih m.length (hn ▸ advances_deferral e _ _ _ hd) ht rfl).imp_left (And.imp_right ?_)
      rintro ⟨u, hu⟩
      exact hu.of_deferred he hk hd hf
    · obtain ⟨g, hg, heq⟩ := exists_shape e (Instruction.read e) hne
      rw [heq] at hbody
      unfold endsLine
      rw [beq_iff_eq, beq_eq_false_iff_ne]
      exact delimited_of_shape he hg hk hne heq hbody

theorem endsLine_of_read (he : IsEscape e) {s x : Text} {i : Instruction}
    (h : Instruction.read e s = .ok i x) (hx : x ≠ []) : i.endsLine = true := by
  obtain ⟨hi, -⟩ | ⟨-, hnil⟩ := read_cases he h
  · exact hi
  · exact absurd hnil hx

/-- The text of an instruction with a line end of its own is what was read. -/
theorem delimited_of_endsLine (he : IsEscape e) {s x : Text} {i : Instruction}
    (h : Instruction.read e s = .ok i x) (hi : i.endsLine = true) :
    Delimited e i s i.text x := by
  obtain ⟨-, u, hu⟩ | ⟨hi', -⟩ := read_cases he h
  · have htext : i.text ++ x = u ++ x := (lossless_read e _ _ _ h).trans hu.eq
    rwa [List.append_cancel_right htext]
  · rw [hi] at hi'
    cases hi'

/-- The text of an instruction, alone, is read as the same instruction. -/
theorem read_text (he : IsEscape e) {s x : Text} {i : Instruction}
    (h : Instruction.read e s = .ok i x) : Instruction.read e i.text = .ok i [] := by
  obtain ⟨hi, -⟩ | ⟨-, rfl⟩ := read_cases he h
  · have hread := (delimited_of_endsLine he h hi).read []
    rw [List.append_nil] at hread
    exact hread id
  · have htext : i.text ++ [] = s := lossless_read e _ _ _ h
    rw [List.append_nil] at htext
    rwa [htext]

/-- An instruction holds an array if `x` is behind its text, and holds none without it. -/
def BecomesArray (e : Char) (u x : Text) : Prop :=
  ¬ StartsArray e u ∧ StartsArray e (u ++ x)

/-- An instruction with a line end of its own is the same with another text behind it exactly if it
does not become an array. -/
theorem read_append_iff (he : IsEscape e) {s x : Text} {i : Instruction}
    (h : Instruction.read e s = .ok i x) (hi : i.endsLine = true) (x' : Text) :
    Instruction.read e (i.text ++ x') = .ok i x' ↔ ¬ BecomesArray e i.text x' := by
  constructor
  · rintro h' ⟨hu, hx'⟩
    exact hu ((delimited_of_endsLine he h' hi).same hx')
  · intro hx'
    refine (delimited_of_endsLine he h hi).read x' fun ha => ?_
    exact Classical.byContradiction fun hu => hx' ⟨hu, ha⟩

/-! ## The backslash -/

/-- With the backslash for the escape character, arrays are decided on closed texts like all
else. -/
theorem StartsArray.of_append {u x : Text} (hu : Closed '\\' u) (h : StartsArray '\\' (u ++ x)) :
    StartsArray '\\' u := by
  have hw := arrayReaders_within
  generalize hs : u ++ x = s at h
  induction h generalizing u with
  | @here k s hk h =>
    subst hs
    rw [firstWord_append hu.hasNewline] at hk
    obtain ⟨references, ts, r, hsome, hr⟩ := h
    have hdecided := (hw.seq (hw.opening k) (hw.wholeArray references)).decided u hu x
    obtain ⟨r', hr', -⟩ := hdecided.exists_of_eq_ok hr
    exact .here hk ⟨references, ts, r', hsome, hr'⟩
  | @deferred s r ts hk hr _ ih =>
    subst hs
    rw [firstWord_append hu.hasNewline] at hk
    have hdefer := hw.deferral
    obtain ⟨r', hr', rfl⟩ := (hdefer.decided u hu x).exists_of_eq_ok hr
    exact .deferred hk hr' (ih (hdefer.rest _ _ _ hr' hu) rfl)

theorem not_becomesArray {u : Text} (hu : Closed '\\' u) (x : Text) :
    ¬ BecomesArray '\\' u x := by
  rintro ⟨hna, ha⟩
  exact hna (ha.of_append hu)

end Instruction

end Containerfile
