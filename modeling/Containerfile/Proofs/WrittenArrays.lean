import Containerfile.Proofs.ParameterExpansion
import Containerfile.Proofs.Rereading

/-!
# Arrays as they are written

Which texts on one line are arrays can be said without looking at how they are read: brackets around
strings in double quotes, with single commas between them and blanks around each part.  Between the
quotes, the escape character and the backslash take the next character with them, whatever it is.

Reading accepts exactly these texts, and what an element says is the text between its quotes.  So
a list of strings that is written as an array is read back, and decoding its elements gives the
strings.

## Main definitions

* `ExecForm.Content` — what can stand between the quotes of an element.
* `ExecForm.Elements`, `ExecForm.Written` — the texts that are elements, and arrays.

## Main results

* `ExecForm.body_of_written`, `ExecForm.written_of_body` — an array is read exactly where one is
  written.
* `ExecForm.values_of_create` — the strings of an array that was made from strings.
-/

namespace Containerfile

open Grammar Lexeme

/-! ## Texts on one line -/

namespace Text

/-- A text without a line feed is not at a line end before it is over. -/
theorem atLineEnd_cons_of_notMem {c : Char} {s : Text} (hs : '\n' ∉ c :: s) :
    atLineEnd (c :: s) = false := by
  rw [Bool.eq_false_iff, ne_eq, atLineEnd_cons]
  rintro (rfl | ⟨-, r, rfl⟩) <;> simp at hs

/-- In front of a character that ends no line, a text without a line feed is not at a line end. -/
theorem atLineEnd_of_notMem {s r : Text} {c : Char} (hs : '\n' ∉ s) (hc : isLineBreak c = false) :
    atLineEnd (s ++ c :: r) = false := by
  cases s with
  | nil => exact atLineEnd_eq_false hc
  | cons d s =>
    simp only [List.mem_cons, not_or] at hs
    rw [Bool.eq_false_iff, List.cons_append, ne_eq, atLineEnd_cons]
    rintro (rfl | ⟨rfl, t, ht⟩)
    · exact hs.1 rfl
    · cases s with
      | nil =>
        cases ht
        cases hc
      | cons x s =>
        cases ht
        exact hs.2 List.mem_cons_self

end Text

namespace Lexeme

variable {e : Char} {s r b : Text}

/-- No line is continued in front of a character that is neither a blank nor ends a line. -/
theorem continuation_stuck_of_notMem {c : Char} (hs : '\n' ∉ s) (hblank : isBlank c = false)
    (hbreak : isLineBreak c = false) : ∃ m, continuation e (e :: (s ++ c :: r)) = .stuck m := by
  rw [continuation_stuck_iff, continuation_cons_eq_ok]
  rintro ⟨ts, k, hnewline⟩
  induction s with
  | nil =>
    rw [List.nil_append, List.dropWhile_cons_of_neg (by simp [hblank])] at hnewline
    exact Walk.not_newline_of_ordinary hbreak ⟨ts, k, hnewline⟩
  | cons d s ih =>
    by_cases hd : isBlank d = true
    · rw [List.cons_append, List.dropWhile_cons_of_pos hd] at hnewline
      exact ih (fun h => hs (List.mem_cons_of_mem _ h)) hnewline
    · rw [List.cons_append, List.dropWhile_cons_of_neg hd] at hnewline
      have hend := atLineEnd_of_newline hnewline
      rw [← List.cons_append, Text.atLineEnd_of_notMem hs hbreak] at hend
      cases hend

/-- The leaf of a run of characters, which may be missing. -/
def runTokens (kind : LeafKind) (w : Text) : List Token :=
  if w = [] then [] else [.leaf kind w]

theorem gap_stuck_iff :
    (∃ m, gap e s = .stuck m) ↔ s.head?.any isBlank = false ∧ ∃ m, continuation e s = .stuck m := by
  unfold gap blanks
  rw [either_eq_stuck, run_stuck_iff]

/-- A separator ends at a character that is neither a blank nor the escape character. -/
theorem gap_stuck {c : Char} (hblank : isBlank c = false) (hescape : c ≠ e) (s : Text) :
    ∃ m, gap e (c :: s) = .stuck m := by
  refine gap_stuck_iff.2 ⟨by simpa using hblank, continuation_stuck_iff.2 ?_⟩
  rintro ⟨ts, r, h⟩
  obtain ⟨s', h⟩ := eq_cons_of_continuation h
  exact hescape (List.cons.inj h).1

theorem gaps_of_blanks (hb : ∀ c ∈ b, isBlank c = true) (hr : ∃ m, gap e r = .stuck m) :
    many (gap e) (b ++ r) = .ok (runTokens .blank b) r := by
  have hend : many (gap e) r = .ok [] r := many_eq_ok.2 (.inr (.inr ⟨hr, rfl, rfl⟩))
  by_cases hne : b = []
  · subst hne
    exact hend
  · have hrun : gap e (b ++ r) = .ok [.blank b] r :=
      either_eq_ok.2 (.inl (run_shape.2 ⟨b, rfl, hne, hb, (gap_stuck_iff.1 hr).1, rfl⟩))
    refine many_eq_ok.2 (.inl ⟨_, r, [], hrun, advances_gap e _ _ _ hrun, hend, ?_⟩)
    rw [runTokens, if_neg hne]
    rfl

/-- On one line a separator ends where no blank comes next. -/
theorem gap_stuck_of_line (hs : '\n' ∉ s) (hhead : s.head?.any isBlank = false) :
    ∃ m, gap e s = .stuck m := by
  cases s with
  | nil => exact ⟨[], rfl⟩
  | cons c s =>
    by_cases hc : c = e
    · subst hc
      exact gap_stuck_iff.2 ⟨hhead, continuation_stuck fun hmem => hs (List.mem_cons_of_mem _ hmem)⟩
    · exact gap_stuck (by simpa using hhead) hc s

/-- On one line a separator is made of blanks. -/
theorem gaps_of_line (hs : '\n' ∉ s) :
    ∃ b, s = b ++ s.dropWhile isBlank ∧ (∀ c ∈ b, isBlank c = true) ∧
      many (gap e) s = .ok (runTokens .blank b) (s.dropWhile isBlank) := by
  have hstuck : ∃ m, gap e (s.dropWhile isBlank) = .stuck m := by
    refine gap_stuck_of_line (fun hmem => hs ((List.dropWhile_sublist _).mem hmem)) ?_
    cases hr : s.dropWhile isBlank with
    | nil => rfl
    | cons c r => exact Text.eq_false_of_dropWhile hr
  obtain ⟨b, hb, hblank⟩ := Text.eq_append_dropWhile isBlank s
  refine ⟨b, hb, hblank, ?_⟩
  have hgaps := gaps_of_blanks hblank hstuck
  rwa [← hb] at hgaps

theorem separator_of_blanks (hne : b ≠ []) (hb : ∀ c ∈ b, isBlank c = true)
    (hr : ∃ m, gap e r = .stuck m) : separator e (b ++ r) = .ok [.blank b] r := by
  have hgaps := gaps_of_blanks hb hr
  rw [runTokens, if_neg hne] at hgaps
  exact separator_eq_ok.2 ⟨hgaps, List.cons_ne_nil _ _⟩

theorem separator_of_space (hr : ∃ m, gap e r = .stuck m) :
    separator e (' ' :: r) = .ok [.blank [' ']] r :=
  separator_of_blanks (List.cons_ne_nil ' ' []) (List.forall_mem_singleton.2 rfl) hr

/-- One blank before a word is a separator. -/
theorem separator_of_word (he : IsEscape e) {c : Char} (hc : isStageChar c = true) (k : Text) :
    separator e (' ' :: c :: k) = .ok [.blank [' ']] (c :: k) :=
  separator_of_space
    (gap_stuck (isSolid_iff.1 (isSolid_of_isStageChar hc)).1 (he.ne_of_isStageChar hc) k)

end Lexeme

namespace Walk

variable {e c : Char} {s : Text}

/-- A walk to the end of a text goes past each character that is no escape character. -/
theorem tail_of_ne (hc : c ≠ e) (h : Walk e false (c :: s) []) :
    Text.atLineEnd (c :: s) = false ∧ Walk e false s [] := by
  cases h with
  | plain _ hs h => exact ⟨hs, h⟩
  | pair hc' =>
    rcases hc' with ⟨rfl, -⟩ | ⟨-, -, hjson⟩
    · exact absurd rfl hc
    · cases hjson
  | lone => exact absurd rfl hc
  | continuation hcontinuation =>
    obtain ⟨s', hs⟩ := eq_cons_of_continuation hcontinuation
    exact absurd (List.cons.inj hs).1 hc

/-- A walk to the end of a text goes past an escape character and the next one together. -/
theorem tail_of_pair (hblank : isBlank c = false) (hbreak : isLineBreak c = false)
    (h : Walk e false (e :: c :: s) []) : Walk e false s [] := by
  cases h with
  | plain hne => exact absurd rfl hne
  | pair _ _ h => exact h
  | continuation hcontinuation =>
    obtain ⟨m, hm⟩ := continuation_stuck_of_notMem (e := e) (s := []) (r := s) nofun hblank hbreak
    cases hm.symm.trans hcontinuation

end Walk

/-! ## Strings between quotes -/

namespace ExecForm

open Literal

/-- What can stand between the quotes of an element: the escape character or a backslash with any
one character behind it, and characters other than these and the quote. -/
inductive Content (escape : Char) : Text → Prop where
  | nil : Content escape []
  | pair {c d : Char} {s : Text} (hc : c = escape ∨ c = '\\') (h : Content escape s) :
      Content escape (c :: d :: s)
  | plain {c : Char} {s : Text} (hquote : c ≠ '"') (hbackslash : c ≠ '\\') (hescape : c ≠ escape)
      (h : Content escape s) : Content escape (c :: s)

/-- The style of an element in which a dollar sign is nothing special. -/
def stringStyle : Style :=
  Style.element.withReferences false

section Steps

variable {escape : Char} {quote : Quote} {c d : Char} {s : Text}

theorem step_openingQuote (he : IsEscape escape) (references : Bool) (s : Text) :
    step (Style.element.withReferences references) escape none ('"' :: s) =
      .take [.token (.symbol ['"'])] (some ⟨'"', '"' :: s⟩) s := by
  rcases he with rfl | rfl <;>
    simp [step, stepUnquoted, Style.element, Style.withReferences, isQuote, Text.atLineEnd]

theorem step_closingQuote (he : IsEscape escape) (hquote : quote.mark = '"') (references : Bool)
    (s : Text) :
    step (Style.element.withReferences references) escape (some quote) ('"' :: s) =
      .last [.token (.symbol ['"'])] s := by
  rcases he with rfl | rfl <;>
    simp [step, stepQuoted, Style.element, Style.withReferences, hquote, Text.atLineEnd]

theorem step_pair (quote : Quote) (hc : c = escape ∨ c = '\\')
    (hstuck : c = escape → ∃ m, continuation escape (escape :: d :: s) = .stuck m)
    (hend : Text.atLineEnd (d :: s) = false) :
    step stringStyle escape (some quote) (c :: d :: s) = .take [.text [c, d]] (some quote) s := by
  by_cases hescape : c = escape
  · subst hescape
    obtain ⟨m, hm⟩ := hstuck rfl
    simp [step, stepEscape, stepEscaped, hm, hend]
  · obtain rfl := hc.resolve_left hescape
    simp [step, stepEscaped, stringStyle, Style.element, Style.withReferences, hescape, hend,
      Text.atLineEnd_eq_false (s := d :: s) (show isLineBreak '\\' = false from rfl)]

/-- The escape character or a backslash at the very end stands alone. -/
theorem step_lone (hc : c = escape ∨ c = '\\') (he : IsEscape escape) :
    step stringStyle escape (some quote) [c] = .take [.text [c]] (some quote) [] := by
  rcases he with rfl | rfl <;> rcases hc with rfl | rfl <;> rfl

theorem step_content (hquote : quote.mark = '"') (hc : c ≠ '"') (hbackslash : c ≠ '\\')
    (hescape : c ≠ escape) (hend : Text.atLineEnd (c :: s) = false) :
    step stringStyle escape (some quote) (c :: s) = .take [.text [c]] (some quote) s := by
  simp [step, stepQuoted, stepChar, stringStyle, Style.element, Style.withReferences, hquote, hc,
    hbackslash, hescape, hend]

end Steps

/-! ## Reading what is written -/

section Reading

variable {escape : Char} {quote : Quote} {q b s r : Text} {ts : List Token} {qs : List Text}

/-- The scan of a string takes what stands between the quotes, and the closing quote. -/
theorem Content.scans (he : IsEscape escape) (h : Content escape q) (hline : '\n' ∉ q)
    (quote : Quote) (hquote : quote.mark = '"') (r : Text) :
    ∃ ps, Scans escape stringStyle (some quote) (q ++ '"' :: r) ps r ∧ valueOfPieces ps = q := by
  induction h with
  | nil => exact ⟨_, .last (step_closingQuote he hquote false r), rfl⟩
  | @pair c d s hc _ ih =>
    have hd : '\n' ∉ d :: s := fun h => hline (List.mem_cons_of_mem _ h)
    obtain ⟨ps, hps, rfl⟩ := ih fun h => hd (List.mem_cons_of_mem _ h)
    have hstep := step_pair quote hc
      (fun _ => continuation_stuck_of_notMem (c := '"') (r := r) hd rfl rfl)
      (Text.atLineEnd_of_notMem hd rfl)
    exact ⟨_, .take hstep hps, rfl⟩
  | @plain c s hc hbackslash hescape _ ih =>
    obtain ⟨ps, hps, rfl⟩ := ih fun h => hline (List.mem_cons_of_mem _ h)
    have hstep := step_content hquote hc hbackslash hescape
      (Text.atLineEnd_of_notMem (c := '"') (r := r) hline rfl)
    exact ⟨_, .take hstep hps, rfl⟩

/-- A quote that is open must be closed before the text is over. -/
theorem not_scans_nil {style : Style} {ps : List Piece} :
    ¬ Scans escape style (some quote) [] ps r := by
  intro h
  cases h with
  | take hstep | last hstep | reference hstep => cases hstep

/-- What a scan takes between the quotes, if it is on one line. -/
theorem Content.of_scans (he : IsEscape escape) {ps : List Piece}
    (h : Scans escape stringStyle (some quote) s ps r) (hline : '\n' ∉ s)
    (hquote : quote.mark = '"') :
    ∃ q, s = q ++ '"' :: r ∧ Content escape q := by
  -- a pair takes two characters at once, so the induction is on the length
  induction hn : s.length using Nat.strongRecOn generalizing s ps with
  | ind n ih =>
    cases s with
    | nil => exact absurd h not_scans_nil
    | cons c s =>
      have hs : '\n' ∉ s := fun hmem => hline (List.mem_cons_of_mem _ hmem)
      by_cases hc : c = escape ∨ c = '\\'
      · cases s with
        | nil =>
          obtain ⟨qs, -, hm⟩ := (scans_iff_of_take (step_lone hc he)).1 h
          exact absurd hm not_scans_nil
        | cons d s =>
          have hstep := step_pair quote hc (fun _ => continuation_stuck hs)
            (Text.atLineEnd_cons_of_notMem hs)
          obtain ⟨qs, -, hm⟩ := (scans_iff_of_take hstep).1 h
          obtain ⟨q, rfl, hq⟩ := ih s.length (by simp only [List.length_cons] at hn; omega) hm
            (fun hmem => hs (List.mem_cons_of_mem _ hmem)) rfl
          exact ⟨c :: d :: q, rfl, .pair hc hq⟩
      · obtain ⟨hescape, hbackslash⟩ := not_or.1 hc
        by_cases hclose : c = '"'
        · subst hclose
          obtain ⟨-, rfl⟩ := h.unique (.last (step_closingQuote he hquote false s))
          exact ⟨[], rfl, .nil⟩
        · have hstep := step_content hquote hclose hbackslash hescape
            (Text.atLineEnd_cons_of_notMem hline)
          obtain ⟨qs, -, hm⟩ := (scans_iff_of_take hstep).1 h
          obtain ⟨q, rfl, hq⟩ :=
            ih s.length (by simp only [List.length_cons] at hn; omega) hm hs rfl
          exact ⟨c :: q, rfl, .plain hclose hbackslash hescape hq⟩

/-! ## Elements -/

/-- The tokens say what the strings are. -/
def Says (ts : List Token) (qs : List Text) : Prop :=
  (ts.filterMap Token.literal?).map Literal.value = qs

theorem Says.append {us : List Token} {ps : List Text} (h : Says ts qs) (h' : Says us ps) :
    Says (ts ++ us) (qs ++ ps) := by
  unfold Says at *
  rw [List.filterMap_append, List.map_append, h, h']

theorem says_symbol (s : Text) : Says [.symbol s] [] :=
  rfl

theorem says_run (b : Text) : Says (runTokens .blank b) [] := by
  unfold runTokens
  split <;> rfl

theorem optional_separator_of_blanks (hb : ∀ c ∈ b, isBlank c = true)
    (hr : ∃ m, gap escape r = .stuck m) :
    optional (separator escape) (b ++ r) = .ok (runTokens .blank b) r := by
  rw [optional_separator_eq]
  exact gaps_of_blanks hb hr

theorem blanks_of_optional_separator (h : optional (separator escape) s = .ok ts r)
    (hline : '\n' ∉ s) :
    ∃ b, s = b ++ r ∧ ∀ c ∈ b, isBlank c = true := by
  obtain ⟨b, hb, hblank, hgaps⟩ := gaps_of_line (e := escape) hline
  rw [optional_separator_eq] at h
  obtain ⟨-, rfl⟩ := Outcome.ok.inj (hgaps.symm.trans h)
  exact ⟨b, hb, hblank⟩

/-- An element is a literal in quotes. -/
theorem element_eq_ok (he : IsEscape escape) {references : Bool} :
    element escape references s = .ok ts r ↔ ∃ s' ps m us, s = '"' :: s' ∧
      Scans escape (Style.element.withReferences references) (some ⟨'"', s⟩) s' ps m ∧
      optional (separator escape) m = .ok us r ∧
      ts = .node (.literal references) (.symbol ['"'] :: assemble ps) :: us := by
  constructor
  · intro h
    obtain ⟨_, us, m, hu, hsep, rfl⟩ := seq_eq_ok.1 h
    obtain ⟨_, _, k, hahead, hliteral, rfl⟩ := seq_eq_ok.1 hu
    obtain ⟨hhead, rfl, rfl⟩ := when_eq_ok.1 hahead
    obtain ⟨s', rfl⟩ := List.head?_eq_some_iff.1 (eq_of_beq hhead)
    obtain ⟨vs, hbody, rfl⟩ := node_eq_ok.1 hliteral
    obtain ⟨ps, _, hscan, rfl, rfl, -⟩ := body_eq_ok.1 hbody
    obtain ⟨qs, rfl, hm⟩ := (scans_iff_of_take (step_openingQuote he references s')).1 hscan
    exact ⟨s', qs, _, us, rfl, hm, hsep, rfl⟩
  · rintro ⟨s', ps, m, us, rfl, hscan, hsep, rfl⟩
    have hliteral : Literal.grammar (Style.element.withReferences references) escape ('"' :: s') =
        .ok [.node (.literal references) (.symbol ['"'] :: assemble ps)] m :=
      node_eq_ok.2
        ⟨_, body_eq_ok.2 ⟨_, _, .take (step_openingQuote he references s') hscan, rfl, rfl,
          .inl (List.cons_ne_nil _ _)⟩, rfl⟩
    exact seq_eq_ok.2 ⟨_, _, _, seq_eq_ok.2 ⟨_, _, _, when_eq_ok.2 ⟨rfl, rfl, rfl⟩, hliteral, rfl⟩,
      hsep, rfl⟩

theorem element_of_content (he : IsEscape escape) (hq : Content escape q) (hline : '\n' ∉ q)
    (hb : ∀ c ∈ b, isBlank c = true) (hr : ∃ m, gap escape r = .stuck m) :
    ∃ ts, element escape false ('"' :: (q ++ '"' :: (b ++ r))) = .ok ts r ∧ Says ts [q] := by
  obtain ⟨ps, hps, hvalue⟩ := hq.scans he hline ⟨'"', '"' :: (q ++ '"' :: (b ++ r))⟩ rfl (b ++ r)
  refine ⟨_, (element_eq_ok he).2
    ⟨_, ps, _, _, rfl, hps, optional_separator_of_blanks hb hr, rfl⟩, ?_⟩
  have hvalues : Says [.node (.literal false) (.symbol ['"'] :: assemble ps)] [q] := by
    rw [← hvalue, ← valueOf_assemble]
    rfl
  exact hvalues.append (says_run b)

theorem content_of_element (he : IsEscape escape) (h : element escape false s = .ok ts r)
    (hline : '\n' ∉ s) :
    ∃ q b, s = '"' :: (q ++ '"' :: (b ++ r)) ∧ Content escape q ∧ ∀ c ∈ b, isBlank c = true := by
  obtain ⟨s', ps, m, us, rfl, hscan, hsep, -⟩ := (element_eq_ok he).1 h
  have hs' : '\n' ∉ s' := fun hmem => hline (List.mem_cons_of_mem _ hmem)
  obtain ⟨q, rfl, hq⟩ := Content.of_scans he hscan hs' rfl
  obtain ⟨b, rfl, hb⟩ := blanks_of_optional_separator hsep fun hmem => hs' (by simp [hmem])
  exact ⟨q, b, rfl, hq, hb⟩

/-- The texts that are elements with commas between them, and what stands between the quotes of
each. -/
inductive Elements (escape : Char) : Text → List Text → Prop where
  | last {b q b' : Text} (hb : ∀ c ∈ b, isBlank c = true) (hq : Content escape q)
      (hb' : ∀ c ∈ b', isBlank c = true) : Elements escape (b ++ '"' :: (q ++ '"' :: b')) [q]
  | cons {b q b' s : Text} {qs : List Text} (hb : ∀ c ∈ b, isBlank c = true) (hq : Content escape q)
      (hb' : ∀ c ∈ b', isBlank c = true) (h : Elements escape s qs) :
      Elements escape (b ++ '"' :: (q ++ '"' :: (b' ++ ',' :: s))) (q :: qs)

/-- The texts that are arrays, and what stands between the quotes of their elements. -/
inductive Written (escape : Char) : Text → List Text → Prop where
  | empty {b : Text} (hb : ∀ c ∈ b, isBlank c = true) : Written escape ('[' :: (b ++ [']'])) []
  | elements {s : Text} {qs : List Text} (h : Elements escape s qs) :
      Written escape ('[' :: (s ++ [']'])) qs

/-- The reader of the elements of an array and of its closing bracket. -/
def elementsBody (escape : Char) : Grammar :=
  element escape false ++ many (nextElement escape false) ++ symbol "]"

theorem body_eq (escape : Char) :
    body escape false =
      tentative (symbol "[" ++ optional (separator escape)
        ++ either (symbol "]") (elementsBody escape)) :=
  rfl

theorem elements_eq_ok {references : Bool} :
    (element escape references ++ many (nextElement escape references) ++ symbol "]") s = .ok ts r ↔
      ∃ us m vs, element escape references s = .ok us m ∧
        many (nextElement escape references) m = .ok vs (']' :: r) ∧
        ts = us ++ vs ++ [.symbol [']']] := by
  rw [seq_eq_ok]
  constructor
  · rintro ⟨ws, xs, k, hw, hx, rfl⟩
    obtain ⟨rfl, rfl⟩ := exactly_eq_ok.1 hx
    obtain ⟨us, vs, m, hu, hv, rfl⟩ := seq_eq_ok.1 hw
    exact ⟨us, m, vs, hu, hv, rfl⟩
  · rintro ⟨us, m, vs, hu, hv, rfl⟩
    exact ⟨_, _, _, seq_eq_ok.2 ⟨us, vs, m, hu, hv, rfl⟩, exactly_eq_ok.2 ⟨rfl, rfl⟩, rfl⟩

theorem elementsBody_eq_ok : elementsBody escape s = .ok ts r ↔
    ∃ us m vs, element escape false s = .ok us m ∧
      many (nextElement escape false) m = .ok vs (']' :: r) ∧
      ts = us ++ vs ++ [.symbol [']']] :=
  elements_eq_ok

theorem gap_stuck_of_mark (he : IsEscape escape) {c : Char} (hc : c = ',' ∨ c = ']' ∨ c = '"')
    (s : Text) : ∃ m, gap escape (c :: s) = .stuck m := by
  refine gap_stuck ?_ ?_ s
  · rcases hc with rfl | rfl | rfl <;> rfl
  · rintro rfl
    rcases he with rfl | rfl <;> simp at hc

/-- Elements are read up to the bracket behind them. -/
theorem Elements.read (he : IsEscape escape) (h : Elements escape s qs) (hline : '\n' ∉ s)
    (r : Text) :
    ∃ b w ts, s = b ++ '"' :: w ∧ (∀ c ∈ b, isBlank c = true) ∧
      elementsBody escape ('"' :: w ++ ']' :: r) = .ok ts r ∧ Says ts qs := by
  induction h with
  | @last b q b' hb hq hb' =>
    have hq' : '\n' ∉ q := fun hmem => hline (by simp [hmem])
    obtain ⟨us, hu, hvalues⟩ := element_of_content he hq hq' hb'
      (gap_stuck_of_mark he (.inr (.inl rfl)) r)
    have hend : many (nextElement escape false) (']' :: r) = .ok [] (']' :: r) :=
      many_eq_ok.2 (.inr (.inr ⟨nextElement_stuck escape false r, rfl, rfl⟩))
    refine ⟨b, _, _, rfl, hb, elementsBody_eq_ok.2 ⟨us, _, [], ?_, hend, rfl⟩, ?_⟩
    · simpa using hu
    · simpa using hvalues.append (says_symbol [']'])
  | @cons b q b' s qs hb hq hb' h ih =>
    have hq' : '\n' ∉ q := fun hmem => hline (by simp [hmem])
    obtain ⟨d, w, ts, rfl, hd, hread, hvalues⟩ := ih fun hmem => hline (by simp [hmem])
    obtain ⟨us, m, vs, hu, hv, rfl⟩ := elementsBody_eq_ok.1 hread
    obtain ⟨ws, hw, hvalues'⟩ := element_of_content he hq hq' hb'
      (gap_stuck_of_mark he (.inl rfl) (d ++ ('"' :: w ++ ']' :: r)))
    have hnext : nextElement escape false (',' :: (d ++ ('"' :: w ++ ']' :: r))) =
        .ok ([.symbol [',']] ++ runTokens .blank d ++ us) m := by
      refine seq_eq_ok.2 ⟨_, _, _, seq_eq_ok.2 ⟨_, _, _, exactly_eq_ok.2 ⟨rfl, rfl⟩, ?_, rfl⟩,
        hu, rfl⟩
      exact optional_separator_of_blanks hd (gap_stuck_of_mark he (.inr (.inr rfl)) _)
    have hshorter := advances_nextElement escape false _ _ _ hnext
    have hmany := many_eq_ok.2 (.inl ⟨_, m, vs, hnext, hshorter, hv, rfl⟩)
    refine ⟨b, _, _, rfl, hb, elementsBody_eq_ok.2 ⟨ws, _, _, ?_, hmany, rfl⟩, ?_⟩
    · simpa using hw
    · have hcomma : Says ([.symbol [',']] ++ runTokens .blank d) [] :=
        (says_symbol [',']).append (says_run d)
      have hall := (hvalues'.append hcomma).append hvalues
      simpa using hall

/-- **A written array is read**, and its elements say what is written between the quotes. -/
theorem body_of_written (he : IsEscape escape) (h : Written escape s qs) (hline : '\n' ∉ s)
    (r : Text) : ∃ ts, body escape false (s ++ r) = .ok ts r ∧ Says ts qs := by
  have hopen (b m : Text) (hb : ∀ c ∈ b, isBlank c = true) (hm : ∃ k, gap escape m = .stuck k) :
      (symbol "[" ++ optional (separator escape)) ('[' :: (b ++ m)) =
        .ok ([.symbol ['[']] ++ runTokens .blank b) m :=
    seq_eq_ok.2 ⟨_, _, _, exactly_eq_ok.2 ⟨rfl, rfl⟩, optional_separator_of_blanks hb hm, rfl⟩
  have hvalues (b : Text) : Says ([.symbol ['[']] ++ runTokens .blank b) [] :=
    (says_symbol ['[']).append (says_run b)
  rw [body_eq]
  cases h with
  | @empty b hb =>
    have hclose : either (symbol "]") (elementsBody escape) (']' :: r) = .ok [.symbol [']']] r :=
      either_eq_ok.2 (.inl (exactly_eq_ok.2 ⟨rfl, rfl⟩))
    have hread := hopen b (']' :: r) hb (gap_stuck_of_mark he (.inr (.inl rfl)) r)
    refine ⟨_, tentative_eq_ok.2 (seq_eq_ok.2 ⟨_, _, _, ?_, hclose, rfl⟩),
      (hvalues b).append (says_symbol [']'])⟩
    simpa using hread
  | @elements s _ h =>
    obtain ⟨b, w, ts, rfl, hb, hread, hts⟩ := h.read he (fun hmem => hline (by simp [hmem])) r
    have helements : either (symbol "]") (elementsBody escape) ('"' :: w ++ ']' :: r) = .ok ts r :=
      either_eq_ok.2 (.inr ⟨⟨_, rfl⟩, hread⟩)
    have hstart := hopen b ('"' :: w ++ ']' :: r) hb (gap_stuck_of_mark he (.inr (.inr rfl)) _)
    refine ⟨_, tentative_eq_ok.2 (seq_eq_ok.2 ⟨_, _, _, ?_, helements, rfl⟩),
      (hvalues b).append hts⟩
    simpa using hstart

/-! ## What is read was written -/

theorem Elements.blanks_append (h : Elements escape s qs) (hb : ∀ c ∈ b, isBlank c = true) :
    Elements escape (b ++ s) qs := by
  cases h with
  | last hb' hq hend =>
    rw [← List.append_assoc]
    exact .last (List.forall_mem_append.2 ⟨hb, hb'⟩) hq hend
  | cons hb' hq hend h =>
    rw [← List.append_assoc]
    exact .cons (List.forall_mem_append.2 ⟨hb, hb'⟩) hq hend h

/-- One element, alone or with a comma and others behind it. -/
theorem Elements.ofContent {w : Text} (hq : Content escape q) (hb : ∀ c ∈ b, isBlank c = true)
    (hw : w = [] ∨ ∃ s qs, w = ',' :: s ∧ Elements escape s qs) :
    ∃ qs, Elements escape ('"' :: (q ++ '"' :: (b ++ w))) qs := by
  rcases hw with rfl | ⟨s, qs, rfl, h⟩
  · rw [List.append_nil]
    exact ⟨_, .last (b := []) nofun hq hb⟩
  · exact ⟨_, .cons (b := []) nofun hq hb h⟩

/-- The rounds behind an element take commas and elements. -/
theorem elements_of_many (he : IsEscape escape) :
    ∀ s ts r, many (nextElement escape false) s = .ok ts r → '\n' ∉ s →
      ∃ w, s = w ++ r ∧ (w = [] ∨ ∃ s' qs, w = ',' :: s' ∧ Elements escape s' qs) := by
  refine many_induction (fun s _ => ⟨[], rfl, .inl rfl⟩) fun s us m vs r hnext ih hline => ?_
  obtain ⟨_, _, k, hcomma, helement, -⟩ := seq_eq_ok.1 hnext
  obtain ⟨_, _, k', hsymbol, hsep, -⟩ := seq_eq_ok.1 hcomma
  obtain ⟨rfl, -⟩ := exactly_eq_ok.1 hsymbol
  obtain ⟨b, rfl, hb⟩ := blanks_of_optional_separator hsep fun hmem => hline (by simp [hmem])
  obtain ⟨q, b', rfl, hq, hb'⟩ := content_of_element he helement fun hmem => hline (by simp [hmem])
  obtain ⟨w, rfl, hw⟩ := ih fun hmem => hline (by simp [hmem])
  obtain ⟨qs, hqs⟩ := Elements.ofContent hq hb' hw
  exact ⟨',' :: (b ++ '"' :: (q ++ '"' :: (b' ++ w))),
    by simp, .inr ⟨_, qs, rfl, hqs.blanks_append hb⟩⟩

/-- **An array that is read on one line was written there.** -/
theorem written_of_body (he : IsEscape escape) (h : body escape false s = .ok ts r)
    (hline : '\n' ∉ s) : ∃ a qs, s = a ++ r ∧ Written escape a qs := by
  rw [body_eq, tentative_eq_ok] at h
  obtain ⟨_, us, m, hopen, hclose, -⟩ := seq_eq_ok.1 h
  obtain ⟨_, _, k, hbracket, hsep, -⟩ := seq_eq_ok.1 hopen
  obtain ⟨rfl, -⟩ := exactly_eq_ok.1 hbracket
  obtain ⟨b, rfl, hb⟩ := blanks_of_optional_separator hsep fun hmem => hline (by simp [hmem])
  rcases either_eq_ok.1 hclose with hempty | ⟨-, helements⟩
  · obtain ⟨rfl, -⟩ := exactly_eq_ok.1 hempty
    exact ⟨_, [], by simp, .empty hb⟩
  · obtain ⟨vs, k, ws, helement, hmany, -⟩ := elementsBody_eq_ok.1 helements
    obtain ⟨q, b', rfl, hq, hb'⟩ :=
      content_of_element he helement fun hmem => hline (by simp [hmem])
    obtain ⟨w, rfl, hw⟩ := elements_of_many he _ _ _ hmany fun hmem => hline (by simp [hmem])
    obtain ⟨qs, hqs⟩ := Elements.ofContent hq hb' hw
    exact ⟨_, qs, by simp, .elements (hqs.blanks_append hb)⟩

end Reading

/-! ## Strings as elements -/

theorem decode_cons {c : Char} (hc : c ≠ '\\') (s : Text) : decode (c :: s) = c :: decode s := by
  cases s with
  | nil => rfl
  | cons d s => rw [decode, if_neg hc]

theorem decode_encode (s : Text) : decode (encode s) = s := by
  induction s with
  | nil => rfl
  | cons c s ih =>
    rw [encode]
    split
    · rename_i hc
      have hsame : unescape c = c := by
        simp only [Bool.or_eq_true, decide_eq_true_eq] at hc
        rcases hc with rfl | rfl <;> rfl
      rw [decode, if_pos rfl, hsame, ih]
    · rename_i hc
      rw [decode_cons (by rintro rfl; exact hc rfl), ih]

theorem content_encode (s : Text) : Content '\\' (encode s) := by
  induction s with
  | nil => exact .nil
  | cons c s ih =>
    rw [encode]
    split
    · exact .pair (.inl rfl) ih
    · rename_i hc
      simp only [Bool.or_eq_true, decide_eq_true_eq, not_or] at hc
      exact .plain hc.2 hc.1 hc.1 ih

theorem newline_mem_encode {s : Text} : '\n' ∈ encode s ↔ '\n' ∈ s := by
  induction s with
  | nil => rfl
  | cons c s ih =>
    rw [encode]
    split <;> simp [ih]

/-- A string as it stands in the array. -/
def quoted (s : Text) : Text :=
  ['"'] ++ encode s ++ ['"']

theorem render_eq (vs : List Text) :
    render vs = '[' :: (Text.join [',', ' '] (vs.map quoted) ++ [']']) :=
  rfl

theorem elements_join (v : Text) (vs : List Text) :
    Elements '\\' (Text.join [',', ' '] ((v :: vs).map quoted)) ((v :: vs).map encode) := by
  induction vs generalizing v with
  | nil =>
    have h : Elements '\\' ([] ++ '"' :: (encode v ++ '"' :: [])) [encode v] :=
      .last nofun (content_encode v) nofun
    simpa [Text.join, quoted] using h
  | cons w vs ih =>
    have hblank : ∀ c ∈ [' '], isBlank c = true := List.forall_mem_singleton.2 rfl
    have h : Elements '\\' ([] ++ '"' :: (encode v ++ '"' :: ([] ++ ',' :: ([' '] ++
        Text.join [',', ' '] ((w :: vs).map quoted))))) (encode v :: (w :: vs).map encode) :=
      .cons nofun (content_encode v) nofun ((ih w).blanks_append hblank)
    simpa [Text.join, quoted] using h

theorem written_render (vs : List Text) : Written '\\' (render vs) (vs.map encode) := by
  cases vs with
  | nil => exact .empty (b := []) nofun
  | cons v vs => exact .elements (elements_join v vs)

/-- A walk along a written string comes to its end only if there is no line feed in it. -/
theorem notMem_of_walk {v m : Text} (h : Walk '\\' false (encode v ++ m) []) :
    '\n' ∉ v ∧ Walk '\\' false m [] := by
  induction v with
  | nil => exact ⟨nofun, h⟩
  | cons c v ih =>
    rw [encode] at h
    split at h
    · rename_i hc
      simp only [Bool.or_eq_true, decide_eq_true_eq] at hc
      have hd : isBlank c = false ∧ isLineBreak c = false := by
        rcases hc with rfl | rfl <;> exact ⟨rfl, rfl⟩
      obtain ⟨hv, hm⟩ := ih (h.tail_of_pair hd.1 hd.2)
      refine ⟨?_, hm⟩
      rw [List.mem_cons, not_or]
      exact ⟨by rcases hc with rfl | rfl <;> nofun, hv⟩
    · rename_i hc
      simp only [Bool.or_eq_true, decide_eq_true_eq, not_or] at hc
      obtain ⟨hend, htail⟩ := Walk.tail_of_ne hc.1 h
      obtain ⟨hv, hm⟩ := ih htail
      refine ⟨?_, hm⟩
      rw [List.mem_cons, not_or]
      refine ⟨?_, hv⟩
      rintro rfl
      cases hend

theorem notMem_of_walk_quoted {v m : Text} (h : Walk '\\' false (quoted v ++ m) []) :
    '\n' ∉ v ∧ Walk '\\' false m [] := by
  rw [quoted, List.append_assoc, List.append_assoc] at h
  obtain ⟨hv, hm⟩ := notMem_of_walk (Walk.tail_of_ne (by decide) h).2
  exact ⟨hv, (Walk.tail_of_ne (by decide) hm).2⟩

theorem notMem_of_walk_join {vs : List Text} {m : Text}
    (h : Walk '\\' false (Text.join [',', ' '] (vs.map quoted) ++ m) []) : ∀ v ∈ vs, '\n' ∉ v := by
  induction vs with
  | nil => nofun
  | cons v vs ih =>
    cases vs with
    | nil => simpa using (notMem_of_walk_quoted h).1
    | cons w vs =>
      have hjoin : Text.join [',', ' '] ((v :: w :: vs).map quoted) ++ m =
          quoted v ++ (',' :: ' ' :: (Text.join [',', ' '] ((w :: vs).map quoted) ++ m)) := by
        simp [Text.join]
      rw [hjoin] at h
      obtain ⟨hv, hrest⟩ := notMem_of_walk_quoted h
      have hrest := (Walk.tail_of_ne (by decide) (Walk.tail_of_ne (by decide) hrest).2).2
      exact List.forall_mem_cons.2 ⟨hv, ih hrest⟩

theorem newline_notMem_join {vs : List Text} (h : ∀ v ∈ vs, '\n' ∉ v) :
    '\n' ∉ Text.join [',', ' '] (vs.map quoted) := by
  induction vs with
  | nil => nofun
  | cons v vs ih =>
    obtain ⟨hv, hvs⟩ := List.forall_mem_cons.1 h
    have hquoted : '\n' ∉ quoted v := by simp [quoted, newline_mem_encode, hv]
    cases vs with
    | nil => simpa [Text.join] using hquoted
    | cons w vs =>
      have hjoin := ih hvs
      simp only [List.map_cons, Text.join, List.mem_append, not_or] at hjoin ⊢
      exact ⟨⟨hquoted, by decide⟩, hjoin⟩

theorem create_eq_ok {vs : List Text} {escape : Char} {references : Bool} {array : ExecForm} :
    create vs escape references = .ok array ↔
      body escape references (render vs) = .ok array.parts [] := by
  obtain ⟨parts⟩ := array
  unfold create
  rw [← @Outcome.complete_eq_ok _ (render vs)]
  cases (body escape references (render vs)).complete (render vs) <;> simp

/-- **Arrays of strings.**  An array can be made of strings exactly if none of them has a line
feed, and then its elements, decoded, are the strings. -/
theorem values_of_create (vs : List Text) :
    ((∃ array, create vs '\\' false = .ok array) ↔ ∀ v ∈ vs, '\n' ∉ v) ∧
      ∀ array, create vs '\\' false = .ok array → array.values = vs := by
  have hfeed {array : ExecForm} (h : create vs '\\' false = .ok array) : ∀ v ∈ vs, '\n' ∉ v := by
    have hwalks : ArrayReaders (Walks '\\' false) '\\' := arrayReaders_walks (.inl rfl) (.inr rfl)
    have hwalk := hwalks.array false _ _ _ (node_eq_ok.2 ⟨_, create_eq_ok.1 h, rfl⟩)
    exact notMem_of_walk_join (Walk.tail_of_ne (by decide) hwalk).2
  have hread (h : ∀ v ∈ vs, '\n' ∉ v) :
      ∃ ts, body '\\' false (render vs) = .ok ts [] ∧ Says ts (vs.map encode) := by
    have hline : '\n' ∉ render vs := by
      simp [render_eq, newline_notMem_join h]
    simpa using body_of_written (.inl rfl) (written_render vs) hline []
  refine ⟨⟨fun ⟨array, h⟩ => hfeed h, fun h => ?_⟩, fun array h => ?_⟩
  · obtain ⟨ts, hts, -⟩ := hread h
    exact ⟨⟨ts⟩, create_eq_ok.2 hts⟩
  · obtain ⟨ts, hts, hvalues⟩ := hread (hfeed h)
    obtain ⟨rfl, -⟩ := Outcome.ok.inj (hts.symm.trans (create_eq_ok.1 h))
    have hvalues : array.values = (vs.map encode).map decode := by
      rw [← hvalues]
      simp [values, elements]
    simp [hvalues, Function.comp_def, decode_encode]

/-- A string that ends with a backslash, one that looks like an escaped line feed before a quote,
one that is empty; and a line feed that is one. -/
theorem values_of_create_backslashes :
    (∃ array, create ["a\\".toList, "\\n\"".toList, []] '\\' false = .ok array ∧
        array.values = ["a\\".toList, "\\n\"".toList, []]) ∧
      ¬ ∃ array, create ["a\\\n".toList] '\\' false = .ok array := by
  obtain ⟨hmade, hvalues⟩ := values_of_create ["a\\".toList, "\\n\"".toList, []]
  obtain ⟨array, harray⟩ := hmade.2 (by decide)
  refine ⟨⟨array, harray, hvalues array harray⟩, fun h => ?_⟩
  exact absurd ((values_of_create ["a\\\n".toList]).1.1 h) (by decide)

end ExecForm

end Containerfile
