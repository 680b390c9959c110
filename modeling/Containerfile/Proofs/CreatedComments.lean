import Containerfile.Proofs.ContinuedValues
import Containerfile.Proofs.Locations

/-!
# Created comments

A comment that is made from a text holds the first line of the text.  Two notions of a line meet
here.  The line is cut where a line feed is, alone or with a carriage return before it; the text
of a comment that is read ends at either character.  They agree unless the first line has a
carriage return in it, which no line feed follows.

If the line has one, the comment is not read back.  A carriage return at the very end of the line
joins the line feed of the comment and is read as a part of the line end.  Anywhere else, what is
behind it is no longer a part of the comment, and the line is refused.

## Main definitions

* `Comment.said` — what stands behind the number sign of a created comment.

## Main results

* `Comment.parse_ofText` — a created comment is read back if its line has no carriage return.
* `Comment.parse_ofText_iff` — it is read back only then, and what is read otherwise.
-/

namespace Containerfile

open Grammar Lexeme

theorem Text.newline_not_mem_firstLine (s : Text) : '\n' ∉ s.firstLine := by
  induction s with
  | nil => simp [firstLine]
  | cons c s ih =>
    unfold firstLine
    split
    · simp
    · rename_i hend
      have hc : '\n' ≠ c := by
        rintro rfl
        exact hend rfl
      simp [hc, ih]

/-- The position behind a part of the first line. -/
theorem Position.behind_of_not_mem {s : Text} (h : '\n' ∉ s) : behind s = ⟨1, s.length + 1⟩ := by
  have hne : ∀ c ∈ s.reverse, (c != '\n') = true := by
    intro c hc
    have hc' : c ≠ '\n' := fun heq => h (heq ▸ List.mem_reverse.1 hc)
    simpa using hc'
  have htake := @List.takeWhile_append_of_pos _ _ _ [] hne
  rw [List.append_nil, List.takeWhile_nil, List.append_nil] at htake
  rw [behind, List.count_eq_zero.2 h, htake, List.length_reverse]

/-- An error on the first line. -/
theorem ParseError.located_append {s : Text} (h : '\n' ∉ s) (r : Text) (cause : Cause) :
    located (s ++ r) ((s ++ r).offsetOf r) cause = ⟨cause, s.byteSize, ⟨1, s.length + 1⟩⟩ := by
  rw [located, Position.ofOffset_offsetOf, Position.behind_of_not_mem h, Text.offsetOf_append]

namespace Comment

variable {t u w : Text} {c : Char}

/-- What stands behind the number sign of the comment that is made from a text. -/
def said (t : Text) : Text :=
  if t = [] then [] else ' ' :: t.firstLine

theorem parts_ofText (t : Text) :
    (ofText t).parts = [.leaf .commentMark ['#']] ++ runTokens .fragment (said t) ++
      [.newline ['\n']] := by
  cases t <;> rfl

theorem source_ofText (t : Text) : (ofText t).source = '#' :: (said t ++ ['\n']) := by
  cases t <;> simp [source, ofText, said, Token.textAll, Token.text, Token.fragment, Token.newline]

theorem said_of_firstLine (h : t.firstLine ≠ []) : said t = ' ' :: t.firstLine := by
  refine if_neg ?_
  rintro rfl
  exact h rfl

theorem newline_not_mem_said (t : Text) : '\n' ∉ said t := by
  unfold said
  split
  · simp
  · simp [t.newline_not_mem_firstLine]

theorem mem_said_iff : '\r' ∈ said t ↔ '\r' ∈ t.firstLine := by
  unfold said
  split
  · subst_vars
    rfl
  · simp

/-! ## Reading the line again -/

theorem isLineBreak_of_not_mem (hr : '\r' ∉ u) (hn : '\n' ∉ u) :
    ∀ c ∈ u, isLineBreak c = false := by
  intro c hc
  have hcr : c ≠ '\r' := fun h => hr (h ▸ hc)
  have hcn : c ≠ '\n' := fun h => hn (h ▸ hc)
  simp [isLineBreak, hcr, hcn]

/-- The part of the line before a line break is the text of the comment. -/
theorem commentBody_line {rest r : Text} {us : List Token} (hu : ∀ c ∈ u, isLineBreak c = false)
    (hrest : rest.head?.any (fun c => !isLineBreak c) = false)
    (hend : optional newline rest = .ok us r) :
    commentBody ('#' :: (u ++ rest)) =
      .ok ([.leaf .commentMark ['#']] ++ runTokens .fragment u ++ us) r := by
  have hindent : ∀ c ∈ ([] : Text), isBlank c = true := by simp
  exact commentBody_append hindent hu hrest hend

/-- A created comment is read back if its line has no carriage return. -/
theorem parse_ofText (h : '\r' ∉ t.firstLine) : parse (ofText t).source = .ok (ofText t) := by
  have hsaid := isLineBreak_of_not_mem (mt mem_said_iff.1 h) (newline_not_mem_said t)
  have hend : optional newline ['\n'] = .ok [.newline ['\n']] [] := rfl
  unfold parse
  rw [source_ofText, commentBody_line hsaid rfl hend, ← parts_ofText]
  rfl

/-- The line of a created comment up to its first carriage return. -/
theorem source_ofText_append {v : Text} (h : t.firstLine = u ++ '\r' :: v) :
    (ofText t).source = '#' :: (' ' :: u ++ '\r' :: (v ++ ['\n'])) := by
  rw [source_ofText, said_of_firstLine (by simp [h]), h]
  simp

theorem isLineBreak_of_firstLine {v : Text} (hu : '\r' ∉ u) (h : t.firstLine = u ++ v) :
    ∀ c ∈ ' ' :: u, isLineBreak c = false := by
  have hnewline := t.newline_not_mem_firstLine
  rw [h] at hnewline
  refine List.forall_mem_cons.2 ⟨rfl, isLineBreak_of_not_mem hu ?_⟩
  exact fun hmem => hnewline (List.mem_append_left v hmem)

/-- A carriage return at the end of the line is read as a part of the line end. -/
theorem parse_ofText_of_last (hu : '\r' ∉ u) (h : t.firstLine = u ++ ['\r']) :
    parse (ofText t).source =
      .ok ⟨[.leaf .commentMark ['#'], .fragment (' ' :: u), .newline ['\r', '\n']]⟩ := by
  have hend : optional newline ['\r', '\n'] = .ok [.newline ['\r', '\n']] [] := rfl
  unfold parse
  rw [source_ofText_append h, List.nil_append,
    commentBody_line (isLineBreak_of_firstLine hu h) rfl hend]
  rfl

/-- What is behind another carriage return is not a part of the comment. -/
theorem parse_ofText_of_inner (hu : '\r' ∉ u) (h : t.firstLine = u ++ '\r' :: c :: w) :
    parse (ofText t).source = .error ⟨.trailing, u.byteSize + 2, ⟨1, u.length + 3⟩⟩ := by
  have hfirst := t.newline_not_mem_firstLine
  rw [h] at hfirst
  have hc : c ≠ '\n' := by
    rintro rfl
    simp at hfirst
  have hnewline : '\n' ∉ '#' :: ' ' :: u := by
    have hmem : '\n' ∉ u := fun hmem => hfirst (List.mem_append_left _ hmem)
    simpa using hmem
  have hend : optional newline ('\r' :: (c :: w ++ ['\n'])) =
      .ok [] ('\r' :: (c :: w ++ ['\n'])) := by
    have hbroken : Broken ('\r' :: (c :: w ++ ['\n'])) :=
      .inr ⟨_, rfl, by simp [Text.atLineEnd, hc]⟩
    exact optional_eq_ok.2 (.inr ⟨newline_stuck_of_broken hbroken, rfl, rfl⟩)
  unfold parse
  rw [source_ofText_append h, commentBody_line (isLineBreak_of_firstLine hu h) rfl hend]
  refine (congrArg Except.error (ParseError.located_append hnewline _ .trailing)).trans ?_
  have hsize : Text.byteSize ('#' :: ' ' :: u) = u.byteSize + 2 := by
    change 1 + (1 + u.byteSize) = _
    omega
  rw [hsize]
  rfl

/-- **A created comment is read back unless its line has a carriage return.**  The line is the
text up to its first line feed, without a carriage return before that.  If another carriage return
ends the line, the comment is read without it; and if one is within the line, the comment is
refused there. -/
theorem parse_ofText_iff (t : Text) :
    (parse (ofText t).source = .ok (ofText t) ↔ '\r' ∉ t.firstLine) ∧
      (∀ u, '\r' ∉ u → t.firstLine = u ++ ['\r'] → parse (ofText t).source =
        .ok ⟨[.leaf .commentMark ['#'], .fragment (' ' :: u), .newline ['\r', '\n']]⟩) ∧
      ∀ u c w, '\r' ∉ u → t.firstLine = u ++ '\r' :: c :: w →
        parse (ofText t).source = .error ⟨.trailing, u.byteSize + 2, ⟨1, u.length + 3⟩⟩ := by
  refine ⟨⟨fun h hmem => ?_, parse_ofText⟩, fun u => parse_ofText_of_last,
    fun u c w => parse_ofText_of_inner⟩
  obtain ⟨u, v, hline, hu⟩ := List.eq_append_cons_of_mem hmem
  cases v with
  | nil =>
    -- The comment is accepted, but its line end has taken the carriage return.
    rw [parse_ofText_of_last hu hline] at h
    have hparts := congrArg Comment.parts (Except.ok.inj h)
    rw [parts_ofText, said_of_firstLine (by simp [hline]), hline] at hparts
    simp [runTokens, Token.newline] at hparts
  | cons c w =>
    rw [parse_ofText_of_inner hu hline] at h
    cases h

/-- The carriage return before a line feed is no part of the line. -/
theorem parse_ofText_iff_crlf :
    '\r' ∉ Text.firstLine "a\r\nb".toList ∧
      parse (ofText "a\r\nb".toList).source = .ok (ofText "a\r\nb".toList) :=
  have h : '\r' ∉ Text.firstLine "a\r\nb".toList := by decide
  ⟨h, (parse_ofText_iff _).1.2 h⟩

/-- A carriage return within the line. -/
theorem parse_ofText_refused :
    parse (ofText "a\rb".toList).source ≠ .ok (ofText "a\rb".toList) := by
  decide

end Comment

end Containerfile
