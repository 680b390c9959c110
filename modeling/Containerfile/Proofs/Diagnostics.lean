import Containerfile.Failure
import Containerfile.Proofs.Cutting
import Containerfile.Proofs.Dispatch
import Containerfile.Proofs.Locations

/-!
# What an error points at

A text that is no file comes with an error, and the error names a place.  Each code promises what
a user finds there: an unknown word, a quote, the start of a reference, the value of a directive,
or the word of an instruction that cannot be deferred.

Most faults are found within the arguments of an instruction, and what they point at can be told
from the text behind the place alone.  The two faults that point at a word cannot: that a word
*begins* at a place depends on what comes before it, so what has been read is carried along,
through lines, through continuations and through deferred instructions.

## Main definitions

* `ErrorCode.Culprit` — what a code promises about the place of an error.
* `Text.Parted` — no word goes across the place between two texts.
* `Grammar.Blames` — a property of all faults of a reader.

## Main results

* `arrayReaders_blames` — the faults within arguments are where their codes say.
* `Instruction.isShown_of_read` — so are all faults of an instruction.
* `Document.pointsAt_of_parse` — every error of a file points at its culprit.
-/

namespace Containerfile

open Grammar Lexeme

/-! ## Culprits -/

/-- A word begins between the two texts: a longest run of name characters. -/
structure Text.WordAt (before rest word : Text) : Prop where
  eq : rest.takeWhile isNameChar = word
  ne_nil : word ≠ []
  start : before.getLast?.any isNameChar = false

/-- The line is a value, and none that an `escape` directive can have. -/
def Directive.RefusesEscape (s : Text) : Prop :=
  lineValue (s.takeWhile fun c => !isLineBreak c) ≠ [] ∧
    accepts .escape (lineValue (s.takeWhile fun c => !isLineBreak c)) = false

/-- The text is the part of an `escape` directive before its value. -/
def Directive.IntroducesEscape (s : Text) : Prop :=
  ∃ indent pad name gap gap', s = indent ++ '#' :: pad ++ name ++ gap ++ '=' :: gap' ∧
    Text.sameLetters "escape".toList name = true ∧
    ∀ c ∈ indent ++ pad ++ gap ++ gap', isBlank c = true

/-- The value of an `escape` directive begins between the two texts, and it is none that the
directive can have.  The directive has only directives before it. -/
def Directive.EscapeValueAt (before rest : Text) : Prop :=
  ∃ ds seen start, before = Document.textOf (ds.map .directive) ++ start ∧
    ReadsDirectives [] (before ++ rest) ds seen (start ++ rest) ∧
    IntroducesEscape start ∧ RefusesEscape rest

/-- What stands at the place of an error, between the two texts.  Where something is missing, any
text can stand in its place; the last four are no errors of a reader of files. -/
def ErrorCode.Culprit (before rest : Text) : ErrorCode → Prop
  | unexpectedInput => True
  | unknownInstruction =>
    ∃ word, Text.WordAt before rest word ∧ ∀ k : Keyword, k.matchesWord word = false
  | unterminatedQuote => ∃ c r, rest = c :: r ∧ isQuote c = true
  | badSubstitution | missingBrace => ∃ r, rest = '$' :: '{' :: r
  | invalidDirective => Directive.EscapeValueAt before rest
  | invalidTrigger =>
    ∃ word, Text.WordAt before rest word ∧
      ∃ k ∈ [Keyword.ONBUILD, .FROM, .MAINTAINER], word.upper = k.name
  | trailingInput | invalidArgument | instructionNotFound | variableUnset => False

/-- Behind `before`, the text has at the fault what the fault complains of. -/
def Fault.IsShown (before : Text) (e : Fault) : Prop :=
  e.complaint.code.Culprit before e.rest

/-! ## Words -/

namespace Text

/-- No word goes across the place between the two texts. -/
def Parted (s t : Text) : Prop :=
  s.getLast?.any isNameChar = false ∨ t.head?.any isNameChar = false

variable {before s t : Text}

theorem parted_of_getLast? {c : Char} (h : s.getLast? = some c) (hc : isNameChar c = false)
    (before t : Text) : Parted (before ++ s) t := by
  left
  rw [List.getLast?_append, h]
  exact hc

theorem isNameChar_of_isBlank {c : Char} (hc : isBlank c = true) : isNameChar c = false := by
  cases hname : isNameChar c with
  | false => rfl
  | true =>
    rw [Instruction.isBlank_of_isNameChar hname] at hc
    cases hc

/-- Blanks part what is before them from what is behind. -/
theorem parted_of_blanks {b : Text} (hb : ∀ c ∈ b, isBlank c = true) (hne : b ≠ [])
    (before t : Text) : Parted (before ++ b) t :=
  parted_of_getLast? (List.getLast?_eq_some_getLast hne)
    (isNameChar_of_isBlank (hb _ (List.getLast_mem hne))) before t

/-- The first word of a text begins behind its indentation, if no word goes on into the text. -/
theorem Parted.wordAt (h : Parted before s) (hne : Instruction.firstWord s ≠ []) :
    WordAt (before ++ s.takeWhile isBlank) (Instruction.fromFirstWord s)
      (Instruction.firstWord s) := by
  refine ⟨rfl, hne, ?_⟩
  obtain ⟨c, k, hk, hc⟩ := Document.dropWhile_of_firstWord hne
  have hparted : Parted (before ++ s.takeWhile isBlank) (c :: k) := by
    by_cases hb : s.takeWhile isBlank = []
    · have hs : s = c :: k := by
        have := List.takeWhile_append_dropWhile (p := isBlank) (l := s)
        rwa [hb, hk, eq_comm] at this
      rw [hb, List.append_nil, ← hs]
      exact h
    · exact parted_of_blanks (List.all_eq_true.1 List.all_takeWhile) hb before _
  simpa [Parted, hc] using hparted

end Text

namespace Lexeme

variable {e : Char} {s r : Text} {ts : List Token}

/-- One part of a separator ends with a blank or a line feed, or stops where no word begins. -/
theorem gap_parts (h : gap e s = .ok ts r) :
    (∃ c, (Token.textAll ts).getLast? = some c ∧ isNameChar c = false) ∨
      r.head?.any isNameChar = false := by
  have hs : Token.textAll ts ++ r = s := lossless_gap e _ _ _ h
  rcases either_eq_ok.1 h with hblanks | ⟨-, hcontinuation⟩
  · obtain ⟨b, rfl, hne, hb, -, rfl⟩ := run_shape.1 hblanks
    have htext : Token.textAll [.leaf .blank b] = b := List.append_nil b
    rw [htext]
    exact .inl ⟨_, List.getLast?_eq_some_getLast hne,
      Text.isNameChar_of_isBlank (hb _ (List.getLast_mem hne))⟩
  · obtain ⟨ls, rfl, hls | hbroken⟩ := continuation_shape hcontinuation
    · rw [List.append_cancel_right hs, hls]
      exact .inl ⟨'\n', rfl, rfl⟩
    · obtain rfl | ⟨k, rfl, -⟩ := hbroken <;> exact .inr rfl

/-- What a separator separates is no word. -/
theorem parted_of_separator (h : separator e s = .ok ts r) (before : Text) :
    Text.Parted (before ++ Token.textAll ts) r := by
  obtain ⟨hmany, hne⟩ := separator_eq_ok.1 h
  clear h
  induction s, ts, r, hmany using (advances_gap e).many_induction generalizing before with
  | nil => exact absurd rfl hne
  | round s us m vs r hu hm _ ih =>
    rw [Token.textAll_append, ← List.append_assoc]
    by_cases hvs : vs = []
    · -- The last part decides.
      subst hvs
      obtain rfl : m = r := compositional_lossless.many (lossless_gap e) _ _ _ hm |>.symm
      obtain ⟨c, hlast, hc⟩ | hhead := gap_parts hu
      · rw [Token.textAll, List.append_nil]
        exact Text.parted_of_getLast? hlast hc before _
      · exact .inr hhead
    · exact ih (before ++ Token.textAll us) hvs

/-- A separator takes all blanks. -/
theorem not_blank_of_separator (h : separator e s = .ok ts r) : r.head?.any isBlank = false := by
  obtain ⟨hmany, -⟩ := separator_eq_ok.1 h
  have hstuck := stuck_of_many (advances_gap e) _ _ _ hmany
  exact run_stuck_iff.1 (either_eq_stuck.1 hstuck).1

end Lexeme

/-! ## Faults of readers -/

namespace Grammar

variable {g h : Grammar} {s : Text} {e : Fault}

theorem seq_eq_failed :
    (g ++ h) s = .failed e ↔ g s = .failed e ∨ ∃ ts m, g s = .ok ts m ∧ h m = .failed e := by
  change seq g h s = .failed e ↔ _
  unfold seq
  cases g s with
  | ok ts m => cases hm : h m <;> simp [hm, and_assoc]
  | stuck m => simp
  | failed f => simp

/-- All faults of the reader have the property. -/
def Blames (Q : Fault → Prop) (g : Grammar) : Prop :=
  ∀ s e, g s = .failed e → Q e

variable {Q : Fault → Prop}

theorem Blames.of_unfailing (hg : Unfailing g) : Blames Q g :=
  fun s e h => absurd h (hg s e)

theorem Blames.node (kind : NodeKind) (hg : Blames Q g) : Blames Q (.node kind g) := by
  intro s e h
  refine hg s e ?_
  revert h
  unfold Grammar.node
  cases g s <;> simp [Outcome.map]

/-- Only a commitment adds a fault of its own, and that one says what was expected. -/
theorem sequential_blames (hQ : ∀ what r, Q ⟨.expected what, r⟩) : Sequential (Blames Q) where
  seq hg hh s e he := by
    obtain hs | ⟨ts, m, -, hm⟩ := seq_eq_failed.1 he
    · exact hg s e hs
    · exact hh m e hm
  optional {g} hg s e he := by
    unfold optional at he
    cases hs : g s <;> simp_all [hg s]
  either {g h} hg hh s e he := by
    unfold either at he
    cases hs : g s with
    | stuck => simp [hs] at he; exact hh s e he
    | _ => simp_all [hg s]
  attempt {g} hg s e he := by
    unfold attempt at he
    cases hs : g s <;> simp_all [hg s]
  tentative {g} hg s e he := by
    unfold tentative at he
    cases hs : g s <;> simp_all
  many {g} hg s e := by
    fun_induction Grammar.many g s with
    | case3 s ts r hs hlt e' hm ih =>
      intro he
      exact ih (hm.trans he)
    | case6 s e' hs =>
      intro he
      exact hg s e (hs.trans he)
    | case1 | case2 | case4 | case5 => intro he; cases he
  nonempty {g} hg s e he := by
    unfold nonempty at he
    cases hs : g s with
    | ok ts r => cases ts <;> simp_all
    | _ => simp_all [hg s]
  commit {g} what hg s e he := by
    unfold commit at he
    cases hs : g s with
    | ok => simp_all
    | stuck =>
      simp only [hs, Outcome.failed.injEq] at he
      exact he ▸ hQ what s
    | failed => simp_all [hg s]

end Grammar

/-! ## Literals -/

/-- A malformed head of a reference is a dollar sign with an opening brace. -/
theorem Reference.eq_of_head_malformed {s : Text} {problem : Problem}
    (h : head s = .malformed problem) :
    (problem = .badSubstitution ∨ problem = .missingBrace) ∧ ∃ r, s = '$' :: '{' :: r := by
  unfold head at h
  split at h
  · rename_i r
    refine ⟨?_, r, rfl⟩
    split at h
    · cases h
      exact .inl rfl
    · unfold headBraced at h
      split at h
      · cases h
      · split at h
        · cases h
        · split at h <;> cases h
          · exact .inr rfl
          · exact .inl rfl
  · split at h
    · cases h
    · split at h <;> cases h
  · cases h

namespace Literal

variable {style : Style} {escape : Char} {quote q : Option Quote} {s r : Text} {ps : List Piece}

/-- The text from the open quote on begins with a quote. -/
def Quote.IsMarked (q : Quote) : Prop :=
  ∃ c r, q.rest = c :: r ∧ isQuote c = true

theorem isMarked_of_step (h : step style escape quote s = .take ps q r)
    (hquote : ∀ q ∈ quote, q.IsMarked) : ∀ q' ∈ q, q'.IsMarked := by
  have hpossible := possible_step style escape quote s
  rw [h] at hpossible
  cases hpossible with
  | continuation | pair | lone | char | blank | reference => exact hquote
  | openingQuote _ _ hc =>
    intro q hq
    cases hq
    exact ⟨_, _, rfl, hc⟩
  | closingQuote =>
    intro q hq
    cases hq

theorem head_of_step_malformed {problem : Problem}
    (h : step style escape quote s = .malformed problem) :
    Reference.head s = .malformed problem := by
  have hpossible := possible_step style escape quote s
  rw [h] at hpossible
  cases hpossible with
  | malformed _ h => exact h

/-- A scan fails at a quote that is not closed or at a reference that is malformed. -/
theorem isShown_of_scan {e : Fault} (hquote : ∀ q ∈ quote, q.IsMarked)
    (h : scan style escape quote s = .error e) (before : Text) : e.IsShown before := by
  induction hn : s.length using Nat.strongRecOn generalizing style quote s e with
  | ind n ih =>
    have hprepend {ps : List Piece} {scanned : Scanned} (h : scanned.prepend ps = .error e) :
        scanned = .error e := by
      unfold Scanned.prepend at h
      split at h
      · cases h
      · exact h
    rw [scan_eq] at h
    cases hstep : step style escape quote s with
    | stop =>
      rw [hstep] at h
      cases quote with
      | none => cases h
      | some q =>
        cases h
        exact hquote q rfl
    | take ps q r =>
      rw [hstep] at h
      have hlt := length_lt_of_step_take hstep
      exact ih _ (hn ▸ hlt) (isMarked_of_step hstep hquote) (hprepend h) rfl
    | last ps r =>
      rw [hstep] at h
      cases h
    | reference name m r =>
      simp only [hstep] at h
      have hs := Reference.eq_of_head_modified (head_of_step_reference hstep)
      cases hclose : closeReference s name m (scan .modifierWord escape none r) with
      | ok closed =>
        obtain ⟨parts, r'⟩ := closed
        obtain ⟨ws, hw, -⟩ := closeReference_eq_ok.1 hclose
        have hlt := Scans.length_lt_of_reference hstep (scan_eq_ok.1 hw)
        simp only [hclose] at h
        exact ih _ (hn ▸ hlt) hquote (hprepend h) rfl
      | error e' =>
        simp only [hclose] at h
        cases h
        obtain rfl | hword := fault_of_closeReference hclose
        · exact ⟨_, hs.symm⟩
        · exact ih _ (hn ▸ length_lt_of_step_reference hstep) (by simp) hword rfl
    | malformed problem =>
      rw [hstep] at h
      cases h
      obtain ⟨rfl | rfl, hs⟩ := Reference.eq_of_head_malformed (head_of_step_malformed hstep)
      · exact hs
      · exact hs

theorem blames_body (style : Style) (escape : Char) :
    Blames (fun e => ∀ before, e.IsShown before) (body style escape) := by
  intro s e h
  unfold body at h
  cases hscan : scan style escape none s with
  | error e' =>
    rw [hscan] at h
    cases h
    exact isShown_of_scan (by simp) hscan
  | ok scanned =>
    rw [hscan, ofScanned_ok] at h
    split at h <;> cases h

end Literal

/-! ## Instructions -/

theorem arrayReaders_blames (escape : Char) :
    ArrayReaders (Blames fun e => ∀ before, e.IsShown before) escape where
  toSequential := sequential_blames fun _ _ _ => trivial
  keyValue := .node _
  execForm := .node _
  blanks := .of_unfailing (.run _ _)
  continuation := .of_unfailing (unfailing_continuation escape)
  keyword k := .of_unfailing (unfailing_keyword k.name)
  stageKeyword := .of_unfailing (unfailing_keyword _)
  stageName := .of_unfailing (.run _ _)
  flagName := .of_unfailing (.run _ _)
  labelName := .of_unfailing (.run _ _)
  dashes := .of_unfailing (.exactly _ _)
  equals := .of_unfailing (.exactly _ _)
  literal style _ := .node _ (Literal.blames_body style escape)
  openingBracket := .of_unfailing (.exactly _ _)
  comma := .of_unfailing (.exactly _ _)
  closingBracket := .of_unfailing (.exactly _ _)
  quoteAhead := .of_unfailing (.when _)
  element _ := .node _ (Literal.blames_body _ escape)
  finishAhead := .of_unfailing (.when _)

namespace Instruction

variable {escape : Char} {f : Text → Outcome Instruction} {before s m r : Text} {e : Fault}
  {i : Instruction} {k : Keyword} {ds : List Token}

/-- Faults behind a keyword other than `ONBUILD` are faults within arguments. -/
theorem isShown_of_body (hk : k ≠ .ONBUILD) (h : body escape f k s = .failed e) (before : Text) :
    e.IsShown before := by
  have hreaders := arrayReaders_blames escape
  have hfinish := hreaders.finish (.of_unfailing (.when _)) (.of_unfailing unfailing_newline)
  exact hreaders.body hfinish f hk s e h before

theorem fault_of_trigger (h : trigger f s = .failed e) :
    f s = .failed e ∨ ∃ i r, f s = .ok i r ∧ i.isForbiddenTrigger = true ∧
      e = ⟨.malformed .forbiddenTrigger, s⟩ := by
  unfold trigger at h
  cases hs : f s with
  | ok i r =>
    by_cases hi : i.isForbiddenTrigger = true
    · simp only [hs, hi, if_true] at h
      cases h
      exact .inr ⟨i, r, rfl, hi, rfl⟩
    · simp [hs, hi] at h
  | stuck r => simp [hs] at h
  | failed e' => exact .inl (by simpa [hs] using h)

/-- The keyword of an instruction that cannot be deferred. -/
theorem exists_of_isForbiddenTrigger (h : read escape s = .ok i r)
    (hi : i.isForbiddenTrigger = true) :
    ∃ k ∈ [Keyword.ONBUILD, .FROM, .MAINTAINER], (firstWord s).upper = k.name := by
  obtain ⟨k, -, hk⟩ := List.any_eq_true.1 hi
  obtain ⟨hforbidden, hname⟩ := Bool.and_eq_true_iff.1 hk
  refine ⟨k, ?_, ?_⟩
  · cases k <;> first | decide | cases hforbidden
  · rw [← keyword_of_read h]
    exact eq_of_beq hname

theorem separator_of_deferral (h : deferral escape s = .ok ds m) :
    ∃ us ks n, separator escape n = .ok ks m ∧ ds = us ++ ks := by
  obtain ⟨us, ks, n, -, hks, rfl⟩ := seq_eq_ok.1 h
  exact ⟨us, ks, n, commit_eq_ok.1 hks, rfl⟩

/-- A separator takes all blanks, so the word behind it is the first thing there. -/
theorem wordAt_of_separator {ks : List Token} {n m : Text} (hks : separator escape n = .ok ks m)
    (hparted : Text.Parted before m) (hne : firstWord m ≠ []) :
    Text.WordAt before m (firstWord m) := by
  have hblank : m.takeWhile isBlank = [] := by
    have hnone := not_blank_of_separator hks
    cases m with
    | nil => rfl
    | cons c m => exact List.takeWhile_cons_of_neg (by simpa using hnone)
  have hat := hparted.wordAt hne
  have hm : m.takeWhile isBlank ++ fromFirstWord m = m := List.takeWhile_append_dropWhile
  rw [hblank, List.nil_append] at hm
  rwa [hblank, List.append_nil, hm] at hat

/-- A word that is no keyword is where its fault says. -/
theorem isShown_of_unknown (hparted : Text.Parted before s)
    (hword : Keyword.ofWord? (firstWord s) = none) (h : read escape s = .failed e) :
    ∃ p, s = p ++ e.rest ∧ e.IsShown (before ++ p) := by
  rw [read_eq, readWith_of_none hword] at h
  cases h
  refine ⟨s.takeWhile isBlank, List.takeWhile_append_dropWhile.symm, ?_⟩
  by_cases hfirst : firstWord s = []
  · rw [if_pos hfirst]
    trivial
  · rw [if_neg hfirst]
    refine ⟨firstWord s, hparted.wordAt hfirst, fun k => Bool.eq_false_iff.2 fun hk => ?_⟩
    rw [Keyword.ofWord?_eq_some.2 hk] at hword
    cases hword

/-- **Faults of an instruction are where their codes say**, behind any text from which no word
goes on into the instruction. -/
theorem isShown_of_read (hparted : Text.Parted before s) (h : read escape s = .failed e) :
    ∃ p, s = p ++ e.rest ∧ e.IsShown (before ++ p) := by
  induction hn : s.length using Nat.strongRecOn generalizing before s with
  | ind n ih =>
    obtain ⟨p, hp⟩ : e.rest <:+ s := by simpa [h] using locates_read escape s
    cases hword : Keyword.ofWord? (firstWord s) with
    | none => exact isShown_of_unknown hparted hword h
    | some k =>
      have hbody : body escape (read escape) k s = .failed e := by
        rw [read_of_matchesWord (Keyword.ofWord?_eq_some.1 hword)] at h
        cases hs : body escape (read escape) k s <;> rw [hs] at h <;> cases h
        rfl
      by_cases hk : k = .ONBUILD
      · subst hk
        obtain hd | ⟨ds, m, hd, hm⟩ := seq_eq_failed.1 hbody
        · exact ⟨p, hp.symm, (arrayReaders_blames escape).deferral s e hd _⟩
        · have hs : Token.textAll ds ++ m = s := (arrayReaders_lossless escape).deferral _ _ _ hd
          obtain ⟨us, ks, n', hks, rfl⟩ := separator_of_deferral hd
          have hparted' : Text.Parted (before ++ Token.textAll (us ++ ks)) m := by
            rw [Token.textAll_append, ← List.append_assoc]
            exact parted_of_separator hks _
          obtain hread | ⟨i, r, hread, hi, rfl⟩ := fault_of_trigger hm
          · have hlt := advances_deferral escape _ _ _ hd
            obtain ⟨p', rfl, hshown⟩ := ih _ (hn ▸ hlt) hparted' hread rfl
            refine ⟨Token.textAll (us ++ ks) ++ p', by rw [← hs, List.append_assoc], ?_⟩
            rwa [← List.append_assoc]
          · have hne : firstWord m ≠ [] := Document.firstWord_of_read hread
            exact ⟨_, hs.symm, firstWord m, wordAt_of_separator hks hparted' hne,
              exists_of_isForbiddenTrigger hread hi⟩
      · exact ⟨p, hp.symm, isShown_of_body hk hbody _⟩

end Instruction

/-! ## Directives -/

theorem Outcome.map_eq_failed {α β : Type} {f : α → β} {o : Outcome α} {e : Fault} :
    o.map f = .failed e ↔ o = .failed e := by
  cases o <;> simp [map]

theorem Outcome.map_eq_stuck {α β : Type} {f : α → β} {o : Outcome α} {r : Text} :
    o.map f = .stuck r ↔ o = .stuck r := by
  cases o <;> simp [map]

namespace Directive

variable {s : Text} {e : Fault}

theorem fault_of_valueBody {name : DirectiveName} (h : valueBody name s = .failed e) :
    name = .escape ∧ RefusesEscape s ∧ e = ⟨.malformed .escapeValue, s⟩ := by
  unfold valueBody at h
  dsimp only at h
  split at h
  · cases h
  · rename_i c cs hline
    split at h
    · cases h
    · rename_i hrefused
      cases h
      have hname : name = .escape := by
        cases name <;> first | rfl | exact absurd rfl hrefused
      subst hname
      refine ⟨rfl, ⟨?_, ?_⟩, rfl⟩ <;> rw [hline]
      · exact List.cons_ne_nil c cs
      · exact Bool.eq_false_iff.2 hrefused

theorem exists_of_blanks {r : Text} {ts : List Token} (h : optional blanks s = .ok ts r) :
    ∃ b, s = b ++ r ∧ ∀ c ∈ b, isBlank c = true := by
  rw [optional_run_rest h]
  exact Text.eq_append_dropWhile isBlank s

theorem fault_of_assignment (h : assignment s = .failed e) :
    ∃ name gap gap', s = name ++ gap ++ '=' :: gap' ++ e.rest ∧
      Text.sameLetters "escape".toList name = true ∧ (∀ c ∈ gap ++ gap', isBlank c = true) ∧
      RefusesEscape e.rest ∧ e.complaint = .malformed .escapeValue := by
  unfold assignment at h
  split at h
  · cases h
  · rename_i name hname
    have hleft :
        Unfailing (identifier isNameChar ++ optional blanks ++ symbol "=" ++ optional blanks) :=
      (((Unfailing.run _ _).seq (Unfailing.run _ _).optional).seq (.exactly _ _)).seq
        (Unfailing.run _ _).optional
    obtain hl | ⟨ts, m, hl, hm⟩ := seq_eq_failed.1 h
    · exact absurd hl (hleft s e)
    · obtain ⟨rfl, hrefused, rfl⟩ := fault_of_valueBody hm
      obtain ⟨_, _, m₃, hl, hgap', -⟩ := seq_eq_ok.1 hl
      obtain ⟨_, _, m₂, hl, hequals, -⟩ := seq_eq_ok.1 hl
      obtain ⟨_, _, m₁, hword, hgap, -⟩ := seq_eq_ok.1 hl
      obtain ⟨-, -, rfl⟩ := run_eq_ok.1 hword
      obtain ⟨gap, hs₁, hblank⟩ := exists_of_blanks hgap
      obtain ⟨gap', rfl, hblank'⟩ := exists_of_blanks hgap'
      obtain ⟨rfl, -⟩ := exactly_eq_ok.1 hequals
      have hsame : Text.sameLetters "escape".toList (s.takeWhile isNameChar) = true :=
        @List.find?_some DirectiveName (fun n => Text.sameLetters n.toString.toList _) .escape
          DirectiveName.all hname
      refine ⟨s.takeWhile isNameChar, gap, gap', ?_, hsame, ?_, hrefused, rfl⟩
      · simpa [hs₁] using (List.takeWhile_append_dropWhile (p := isNameChar) (l := s)).symm
      · intro c hc
        exact (List.mem_append.1 hc).elim (hblank c) (hblank' c)

/-- A directive fails at the value of `escape` only. -/
theorem fault_of_body (h : body s = .failed e) :
    ∃ start, s = start ++ e.rest ∧ IntroducesEscape start ∧ RefusesEscape e.rest ∧
      e.complaint = .malformed .escapeValue := by
  have hattempt : (optional blanks ++ exactly .commentMark ['#'] ++ optional blanks ++ assignment
      ++ optional newline) s = .failed e := by
    revert h
    unfold body attempt
    split <;> simp_all
  have hleft : Unfailing (optional blanks ++ exactly .commentMark ['#'] ++ optional blanks) :=
    ((Unfailing.run _ _).optional.seq (.exactly _ _)).seq (Unfailing.run _ _).optional
  obtain hline | ⟨ts, m, -, hm⟩ := seq_eq_failed.1 hattempt
  · obtain hl | ⟨ts, m, hl, hm⟩ := seq_eq_failed.1 hline
    · exact absurd hl (hleft s e)
    · obtain ⟨_, _, m₂, hl, hpad, -⟩ := seq_eq_ok.1 hl
      obtain ⟨_, _, m₁, hindent, hmark, -⟩ := seq_eq_ok.1 hl
      obtain ⟨indent, rfl, hblank⟩ := exists_of_blanks hindent
      obtain ⟨rfl, -⟩ := exactly_eq_ok.1 hmark
      obtain ⟨pad, rfl, hblank'⟩ := exists_of_blanks hpad
      obtain ⟨name, gap, gap', rfl, hname, hgaps, hrefused, hcomplaint⟩ := fault_of_assignment hm
      refine ⟨indent ++ '#' :: pad ++ name ++ gap ++ '=' :: gap', by simp, ?_, hrefused, hcomplaint⟩
      refine ⟨indent, pad, name, gap, gap', rfl, hname, fun c hc => ?_⟩
      simp only [List.append_assoc, List.mem_append] at hc hgaps
      obtain hc | hc | hc := hc
      · exact hblank c hc
      · exact hblank' c hc
      · exact hgaps c hc
  · exact absurd hm (unfailing_newline.optional m e)

end Directive

/-! ## Files -/

namespace ReadsDirectives

open Document

/-- Directives with something behind them that can begin an item end with a line feed. -/
theorem getLast?_textOf {seen seen' : List Text} {s r : Text} {ds : List Directive}
    (h : ReadsDirectives seen s ds seen' r) (hr : ¬ Broken r) (hne : ds ≠ []) :
    (textOf (ds.map .directive)).getLast? = some '\n' := by
  induction h with
  | nil => exact absurd rfl hne
  | @cons seen seen' s m r ts ds h _ hs ih =>
    rw [List.map_cons, textOf_cons, List.getLast?_append]
    by_cases hds : ds = []
    · subst hds
      obtain ⟨-, hlast⟩ | ⟨-, hbroken⟩ := Directive.endsLine_cases h
      · exact hlast
      · exact absurd hbroken (hs.not_broken hr)
    · rw [ih hr hds]
      rfl

end ReadsDirectives

namespace Document

variable {escape : Char} {s m r : Text} {e : Fault} {seen seen' : List Text} {ds : List Directive}
  {items : List Item}

theorem committed_readDirectives (seen : List Text) : Committed (readDirectives seen) := by
  intro s
  fun_induction readDirectives seen s with
  | case2 seen s ts r hs name hseen hlt ih =>
    intro m hm
    exact ih m (Outcome.map_eq_stuck.1 hm)
  | case1 | case3 | case4 | case5 => intro m hm; cases hm

theorem fault_of_readDirectives (h : readDirectives seen s = .failed e) :
    ∃ ds seen' m, ReadsDirectives seen s ds seen' m ∧ Directive.body m = .failed e := by
  fun_induction readDirectives seen s with
  | case2 seen s ts r hs name hseen hlt ih =>
    obtain ⟨ds, seen', m, hds, hm⟩ := ih (Outcome.map_eq_failed.1 h)
    exact ⟨⟨ts⟩ :: ds, seen', m, .cons hs (Bool.eq_false_iff.2 hseen) hds, hm⟩
  | case5 seen s e' hs =>
    cases h
    exact ⟨[], seen, s, .nil seen s, hs⟩
  | case1 | case3 | case4 => cases h

/-- Only instructions fail among the items that are no directives. -/
theorem readItem_cases (escape : Char) (s : Text) :
    (∃ item r, readItem escape s = .ok item r) ∨
      readItem escape s = (Instruction.read escape s).map .instruction := by
  unfold readItem
  cases hb : BlankLines.body s with
  | ok ts r => exact .inl ⟨_, _, rfl⟩
  | failed e =>
    have hunfailing : Unfailing BlankLines.body :=
      (unfailing_blankLine.many.seq BlankLines.unfailing_trailing.optional).nonempty
    exact absurd hb (hunfailing s e)
  | stuck r =>
    cases hc : commentBody s with
    | ok ts r => exact .inl ⟨_, _, rfl⟩
    | failed e => exact absurd hc (unfailing_commentBody s e)
    | stuck r => exact .inr rfl

theorem committed_readItem (escape : Char) : Committed (readItem escape) := by
  intro s r h
  obtain ⟨item, m, hitem⟩ | hread := readItem_cases escape s
  · rw [hitem] at h
    cases h
  · rw [hread] at h
    exact Instruction.committed_read escape s r (Outcome.map_eq_stuck.1 h)

theorem committed_readItems (escape : Char) : Committed (readItems escape) := by
  intro s
  fun_induction readItems escape s with
  | case2 s _ item r hs hlt ih =>
    intro m hm
    exact ih m (Outcome.map_eq_stuck.1 hm)
  | case4 s _ r hs => exact absurd hs (committed_readItem escape s r)
  | case1 | case3 | case5 => intro m hm; cases hm

theorem fault_of_readItems (h : readItems escape s = .failed e) :
    ∃ items m, Reads escape s items m ∧ Instruction.read escape m = .failed e := by
  fun_induction readItems escape s with
  | case2 s _ item r hs hlt ih =>
    obtain ⟨items, m, hitems, hm⟩ := ih (Outcome.map_eq_failed.1 h)
    exact ⟨item :: items, m, .cons hs hitems, hm⟩
  | case5 s _ e' hs =>
    cases h
    refine ⟨[], s, .nil s, ?_⟩
    obtain ⟨item, m, hitem⟩ | hread := readItem_cases escape s
    · rw [hitem] at hs
      cases hs
    · rw [hread] at hs
      exact Outcome.map_eq_failed.1 hs
  | case1 | case3 | case4 => cases h

/-- No word goes from the items of a file into the next one. -/
theorem parted_of_reads (hds : ReadsDirectives seen s ds seen' m)
    (hitems : Reads (selectedEscape ds) m items r) :
    Text.Parted (textOf (ds.map .directive) ++ textOf items) r := by
  by_cases hr : Broken r
  · obtain rfl | ⟨k, rfl, -⟩ := hr <;> exact .inr rfl
  · by_cases hne : items = []
    · subst hne
      cases hitems
      by_cases hnil : ds = []
      · subst hnil
        exact .inl rfl
      · rw [← List.nil_append (textOf _), show textOf [] = [] from rfl, List.append_nil]
        exact Text.parted_of_getLast? (hds.getLast?_textOf hr hnil) rfl [] _
    · have hend := hitems.endsLine hds.isEscape hr
      exact Text.parted_of_getLast? (hitems.getLast?_textOf hds.isEscape hend hne) rfl _ r

/-- **Faults of a file are where their codes say.** -/
theorem isShown_of_read (h : read s = .failed e) :
    ∃ before, s = before ++ e.rest ∧ e.IsShown before := by
  unfold read at h
  cases hread : readDirectives [] s with
  | stuck r => exact absurd hread (committed_readDirectives [] s r)
  | failed e' =>
    rw [hread] at h
    cases h
    obtain ⟨ds, seen, line, hds, hline⟩ := fault_of_readDirectives hread
    obtain ⟨start, rfl, hstart, hrefused, hcomplaint⟩ := Directive.fault_of_body hline
    have htext := hds.text_append
    refine ⟨textOf (ds.map .directive) ++ start, by rw [List.append_assoc, htext], ?_⟩
    unfold Fault.IsShown
    rw [hcomplaint]
    refine ⟨ds, seen, start, rfl, ?_, hstart, hrefused⟩
    rwa [List.append_assoc, htext]
  | ok ds m =>
    rw [hread] at h
    obtain ⟨seen, hds, -⟩ := readDirectives_eq_ok.1 hread
    obtain ⟨items, r, hitems, hr⟩ := fault_of_readItems (Outcome.map_eq_failed.1 h)
    obtain ⟨p, rfl, hshown⟩ := Instruction.isShown_of_read (parted_of_reads hds hitems) hr
    refine ⟨_, ?_, hshown⟩
    rw [← hds.text_append, ← hitems.text_append]
    simp

/-- The reader of files reads to the end of the text, or says what is wrong. -/
theorem read_cases (s : Text) : (∃ items, read s = .ok items []) ∨ ∃ e, read s = .failed e := by
  unfold read
  cases hds : readDirectives [] s with
  | stuck r => exact absurd hds (committed_readDirectives [] s r)
  | failed e => exact .inr ⟨e, rfl⟩
  | ok ds m =>
    obtain ⟨seen, hreads, -⟩ := readDirectives_eq_ok.1 hds
    cases hitems : readItems (selectedEscape ds) m with
    | stuck r => exact absurd hitems (committed_readItems _ m r)
    | failed e => exact .inr ⟨e, Outcome.map_eq_failed.2 hitems⟩
    | ok items r =>
      obtain ⟨rfl, -⟩ := readItems_eq_ok.1 hitems
      exact .inl ⟨_, Outcome.map_eq_ok.2 ⟨items, hitems, rfl⟩⟩

theorem fault_of_parse {error : ParseError} (h : parse s = .error error) :
    ∃ e, read s = .failed e ∧
      error = .located s (s.offsetOf e.rest) (.complaint e.complaint) := by
  have hcomplete := except_map_eq_error.1 h
  obtain ⟨items, hread⟩ | ⟨e, hread⟩ := read_cases s
  · rw [hread] at hcomplete
    cases hcomplete
  · rw [hread] at hcomplete
    cases hcomplete
    exact ⟨e, hread, rfl⟩

end Document

/-- All that an error says about the place between the two texts, by the code that a user is
shown. -/
structure ParseError.PointsAt (error : ParseError) (before rest : Text) : Prop where
  offset : error.offset = before.byteSize
  position : error.position = Position.behind before
  code : error.code.label ∈ ["E100", "E102", "E103", "E104", "E105", "E106", "E107"]
  expected : error.code.label = "E100" → ∃ what, error.reason = "expected " ++ what
  unknown : error.code.label = "E102" →
    ∃ word, Text.WordAt before rest word ∧ ∀ k : Keyword, k.matchesWord word = false
  quote : error.code.label = "E103" → ∃ c r, rest = c :: r ∧ isQuote c = true
  reference : error.code.label ∈ ["E104", "E105"] → ∃ r, rest = '$' :: '{' :: r
  directive : error.code.label = "E106" → Directive.EscapeValueAt before rest
  trigger : error.code.label = "E107" → ∃ word, Text.WordAt before rest word ∧
    ∃ k ∈ [Keyword.ONBUILD, .FROM, .MAINTAINER], word.upper = k.name
  /-- The label in the report covers the first character of the rest, or nothing at the end. -/
  labels : (Failure.parse error (before ++ rest)).labels =
    [⟨before.byteSize, (rest.head?.map Char.utf8Size).getD 0, error.position.describe, true⟩]

theorem Text.charSizeAt_byteSize (p r : Text) :
    charSizeAt (p ++ r) (byteSize p) = (r.head?.map Char.utf8Size).getD 0 := by
  unfold charSizeAt dropBytes?
  rw [takeBytes?_byteSize]
  cases r <;> simp

/-- No two codes are shown alike. -/
theorem ErrorCode.label_injective {a b : ErrorCode} (h : a.label = b.label) : a = b := by
  cases a <;> cases b <;> first | rfl | simp [label] at h

theorem Complaint.label_mem (c : Complaint) :
    c.code.label ∈ ["E100", "E102", "E103", "E104", "E105", "E106", "E107"] := by
  cases c with
  | expected => simp [code, ErrorCode.label]
  | malformed problem => cases problem <;> simp [code, Problem.code, ErrorCode.label]

/-- What is missing where a text has something else is told by the message. -/
theorem Complaint.message_of_code {c : Complaint} (h : c.code = .unexpectedInput) :
    ∃ what, c.message = "expected " ++ what := by
  cases c with
  | expected what => exact ⟨what, rfl⟩
  | malformed problem => cases problem <;> cases h

namespace Document

/-- **Errors point at their culprits.**  The error with which a text is refused as a file names a
place in the text, by offset, line and column alike, and marks the one character there.  What stands
at the place is what the code of the error says, and where the code says only that something is
missing, the message tells what. -/
theorem pointsAt_of_parse {s : Text} {error : ParseError} (h : parse s = .error error) :
    ∃ before rest, s = before ++ rest ∧ error.PointsAt before rest := by
  obtain ⟨e, hread, rfl⟩ := fault_of_parse h
  obtain ⟨before, hs, hshown⟩ := isShown_of_read hread
  refine ⟨before, e.rest, hs, ?_⟩
  have hoffset : s.offsetOf e.rest = before.byteSize := by
    rw [hs]
    exact Text.offsetOf_append before e.rest
  have hposition : Position.ofOffset s (s.offsetOf e.rest) = Position.behind before := by
    rw [hs]
    exact Position.ofOffset_offsetOf before e.rest
  have hculprit (code : ErrorCode) (hcode : e.complaint.code.label = code.label) :
      code.Culprit before e.rest := ErrorCode.label_injective hcode ▸ hshown
  refine ⟨hoffset, hposition, e.complaint.label_mem,
    fun hcode => Complaint.message_of_code (ErrorCode.label_injective hcode),
    hculprit .unknownInstruction, hculprit .unterminatedQuote, fun hcode => ?_,
    hculprit .invalidDirective, hculprit .invalidTrigger, ?_⟩
  · simp only [List.mem_cons, List.not_mem_nil, or_false] at hcode
    rcases hcode with hcode | hcode
    · exact hculprit .badSubstitution hcode
    · exact hculprit .missingBrace hcode
  · rw [← hs]
    simp only [Failure.labels, ParseError.located, hoffset]
    rw [hs, Text.charSizeAt_byteSize]

/-- A trigger on the second line of an instruction that defers another, behind a character of two
bytes. -/
theorem pointsAt_of_parse_deferred :
    parse "# escape=`\nLABEL é=1\nONBUILD `\n onbuild RUN x\n".toList =
        .error ⟨.complaint (.malformed .forbiddenTrigger), 33, ⟨4, 2⟩⟩ ∧
      ∃ before rest,
        "# escape=`\nLABEL é=1\nONBUILD `\n onbuild RUN x\n".toList = before ++ rest ∧
        ParseError.PointsAt ⟨.complaint (.malformed .forbiddenTrigger), 33, ⟨4, 2⟩⟩
          before rest := by
  have h : parse "# escape=`\nLABEL é=1\nONBUILD `\n onbuild RUN x\n".toList =
      .error ⟨.complaint (.malformed .forbiddenTrigger), 33, ⟨4, 2⟩⟩ := by
    decide +kernel
  exact ⟨h, pointsAt_of_parse h⟩

end Document

end Containerfile
