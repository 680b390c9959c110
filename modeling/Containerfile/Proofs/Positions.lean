import Containerfile.Comment
import Containerfile.Proofs.Locations
import Mathlib.Data.List.SplitBy

/-!
# Positions identify places

The line and the column of a place are counted by two separate searches of the text before it: for
its line feeds, and for the characters behind the last one.  Both follow the text character by
character.  A character that is put behind the text moves the position on, so a later place has a
later position; one that is put before it shifts the lines as it shifts the positions, so the
position of a place leads to the character there.

An error names its place by the offset and by the position.  Two errors about one text that differ
in the first differ in the second.

## Main definitions

* `Text.lines` — the lines of a text, with their line feeds.
* `Text.HasAt` — the character at a position.
* `Text.IsBoundary`, `Text.charAt?` — offsets that are not within a character, and the character
  there.
* `ParseError.Reported` — the errors that the readers report about a text.

## Main results

* `Position.behind_lt_behind_append` — a later place has a later position.
* `Text.hasAt_behind` — the position of a place leads to the character there.
* `Position.identifies_offsets` — positions identify offsets.
-/

namespace Containerfile

/-! ## Lines -/

namespace Text

/-- The lines of a text, each with the line feed that ends it. -/
def lines (s : Text) : List Text :=
  s.splitBy fun c _ => c != '\n'

theorem lines_cons_newline (s : Text) : lines ('\n' :: s) = ['\n'] :: lines s := by
  have h : lines (['\n'] ++ s) = lines ['\n'] ++ lines s := List.splitBy_append (by simp)
  exact h

/-- Another character belongs to the first line of what is behind it. -/
theorem lines_cons {c : Char} (hc : c ≠ '\n') {s l : Text} {ls : List Text}
    (h : lines s = l :: ls) :
    lines (c :: s) = (c :: l) :: ls := by
  -- The lines are the only cut of the text with no line feed within a line and one at each end.
  obtain ⟨rfl, hne, hline, hlines⟩ := List.splitBy_eq_iff.1 h
  refine List.splitBy_eq_iff.2 ⟨rfl, ?_, ?_, ?_⟩
  · intro hmem
    exact hne (List.mem_cons_of_mem l ((List.mem_cons.1 hmem).resolve_left (by simp)))
  · intro m hm
    obtain rfl | hm := List.mem_cons.1 hm
    · exact List.isChain_cons.2 ⟨by simp [hc], hline l List.mem_cons_self⟩
    · exact hline m (List.mem_cons_of_mem l hm)
  · refine List.isChain_cons.2 ⟨fun m hm => ?_, hlines.tail⟩
    obtain ⟨hl, hm', hlast⟩ := (List.isChain_cons.1 hlines).1 m hm
    exact ⟨List.cons_ne_nil c l, hm', by rwa [List.getLast_cons hl]⟩

theorem exists_lines_cons (c : Char) (s : Text) : ∃ l ls, lines (c :: s) = (c :: l) :: ls := by
  by_cases hc : c = '\n'
  · subst hc
    exact ⟨[], lines s, lines_cons_newline s⟩
  · cases hs : lines s with
    | nil =>
      obtain rfl := List.splitBy_eq_nil.1 hs
      exact ⟨[], [], rfl⟩
    | cons l ls => exact ⟨l, ls, lines_cons hc hs⟩

/-- The character `c` stands at a position: it has the number of the column in the line that has the
number of the line. -/
def HasAt (s : Text) (p : Position) (c : Char) : Prop :=
  ∃ i j l, p = ⟨i + 1, j + 1⟩ ∧ s.lines[i]? = some l ∧ l[j]? = some c

end Text

namespace Position

/-! ## The order of positions -/

/-- Positions are in the order of reading: by line, and within a line by column. -/
instance : LT Position where
  lt p q := p.line < q.line ∨ p.line = q.line ∧ p.column < q.column

theorem lt_iff {p q : Position} :
    p < q ↔ p.line < q.line ∨ p.line = q.line ∧ p.column < q.column :=
  Iff.rfl

theorem lt_trans {p q r : Position} (hpq : p < q) (hqr : q < r) : p < r := by
  rw [lt_iff] at *
  omega

theorem ne_of_lt {p q : Position} (h : p < q) : p ≠ q := by
  rintro rfl
  rw [lt_iff] at h
  omega

/-! ## One more character -/

/-- The position behind a character that stands at a position: a line feed ends the line, another
character takes a column. -/
def next (c : Char) (p : Position) : Position :=
  if c = '\n' then ⟨p.line + 1, 1⟩ else ⟨p.line, p.column + 1⟩

theorem lt_next (c : Char) (p : Position) : p < p.next c := by
  unfold next
  split
  · exact .inl (Nat.lt_succ_self _)
  · exact .inr ⟨rfl, Nat.lt_succ_self _⟩

theorem behind_concat (s : Text) (c : Char) : behind (s ++ [c]) = (behind s).next c := by
  unfold next
  by_cases hc : c = '\n' <;> simp [behind, hc]

/-- More text has a later position behind it. -/
theorem behind_lt_behind_append (s : Text) {t : Text} (ht : t ≠ []) :
    behind s < behind (s ++ t) := by
  induction t generalizing s with
  | nil => exact absurd rfl ht
  | cons c t ih =>
    have hc : behind s < behind (s ++ [c]) := by
      rw [behind_concat]
      exact lt_next c (behind s)
    by_cases hnil : t = []
    · rwa [hnil]
    · have ht := ih (s ++ [c]) hnil
      rw [List.append_assoc] at ht
      exact lt_trans hc ht

/-- The position of a place after a character has been put before the text: a line feed puts a line
before the others, another character shifts the first line. -/
def shift (c : Char) (p : Position) : Position :=
  if c = '\n' then ⟨p.line + 1, p.column⟩
  else if p.line = 1 then ⟨1, p.column + 1⟩
  else p

theorem shift_next (c d : Char) {p : Position} (hp : 0 < p.line) :
    (p.next d).shift c = (p.shift c).next d := by
  unfold shift next
  grind

theorem behind_cons (c : Char) (s : Text) : behind (c :: s) = (behind s).shift c := by
  -- From the end of the text: there one more character moves the position on, whatever is before
  -- it.
  induction s using List.reverseRecOn with
  | nil => by_cases hc : c = '\n' <;> simp [behind, shift, hc]
  | append_singleton s d ih =>
    rw [← List.cons_append, behind_concat, behind_concat, ih, shift_next]
    exact Nat.succ_pos _

end Position

/-! ## Characters at positions -/

namespace Text

/-- Characters keep their places when one more is put before the text. -/
theorem HasAt.cons {s : Text} {p : Position} {c : Char} (h : s.HasAt p c) (d : Char) :
    HasAt (d :: s) (p.shift d) c := by
  obtain ⟨i, j, l, rfl, hl, hc⟩ := h
  unfold Position.shift
  split
  · subst_vars
    exact ⟨i + 1, j, l, rfl, by simpa [lines_cons_newline] using hl, hc⟩
  · rename_i hd
    cases hs : s.lines with
    | nil => simp [hs] at hl
    | cons first ls =>
      have hlines := lines_cons hd hs
      rw [hs] at hl
      cases i with
      | zero =>
        cases hl
        exact ⟨0, j + 1, d :: l, rfl, by simp [hlines], by simpa using hc⟩
      | succ i => exact ⟨i + 1, j, l, rfl, by simpa [hlines] using hl, hc⟩

/-- The position behind a text is the one of the character that comes next. -/
theorem hasAt_behind (s : Text) (c : Char) (t : Text) :
    HasAt (s ++ c :: t) (Position.behind s) c := by
  induction s with
  | nil =>
    obtain ⟨l, ls, h⟩ := exists_lines_cons c t
    exact ⟨0, 0, c :: l, rfl, by simp [h], rfl⟩
  | cons d s ih =>
    rw [Position.behind_cons]
    exact ih.cons d

/-! ## Offsets -/

/-- The offset is the one of a place before, between or behind the characters of the text. -/
def IsBoundary (s : Text) (n : Nat) : Prop :=
  ∃ p r, s = p ++ r ∧ p.byteSize = n

/-- The character that begins at an offset. -/
def charAt? (s : Text) (n : Nat) : Option Char :=
  (s.dropBytes? n).bind List.head?

theorem charAt?_byteSize (p r : Text) : charAt? (p ++ r) p.byteSize = r.head? := by
  simp [charAt?, dropBytes?, takeBytes?_byteSize]

/-- Of two places, the one with the smaller offset comes first. -/
theorem exists_append_of_byteSize_lt {p q r t : Text} (h : p ++ r = q ++ t)
    (hlt : p.byteSize < q.byteSize) : ∃ c u, q = p ++ c :: u := by
  obtain ⟨u, rfl, -⟩ | ⟨u, rfl, -⟩ := List.append_eq_append_iff.1 h
  · cases u with
    | nil => simp at hlt
    | cons c u => exact ⟨c, u, rfl⟩
  · rw [byteSize_append] at hlt
    omega

end Text

namespace Position

theorem ofOffset_byteSize (p r : Text) : ofOffset (p ++ r) p.byteSize = behind p := by
  rw [← Text.offsetOf_append p r, ofOffset_offsetOf]

/-- A later offset has a later position. -/
theorem ofOffset_lt_ofOffset {s : Text} {a b : Nat} (ha : s.IsBoundary a) (hb : s.IsBoundary b)
    (hab : a < b) : ofOffset s a < ofOffset s b := by
  obtain ⟨p, r, rfl, rfl⟩ := ha
  obtain ⟨q, t, h, rfl⟩ := hb
  obtain ⟨c, u, rfl⟩ := Text.exists_append_of_byteSize_lt h hab
  have hq := ofOffset_byteSize (p ++ c :: u) t
  rw [← h] at hq
  rw [ofOffset_byteSize, hq]
  exact behind_lt_behind_append p (List.cons_ne_nil c u)

/-- Before a later offset there is a character, which stands at the position. -/
theorem hasAt_ofOffset {s : Text} {a b : Nat} (ha : s.IsBoundary a) (hb : s.IsBoundary b)
    (hab : a < b) : ∃ c, s.charAt? a = some c ∧ s.HasAt (ofOffset s a) c := by
  obtain ⟨p, r, rfl, rfl⟩ := ha
  obtain ⟨q, t, h, rfl⟩ := hb
  obtain ⟨c, u, rfl⟩ := Text.exists_append_of_byteSize_lt h hab
  obtain rfl : r = c :: u ++ t := by simpa using h
  refine ⟨c, Text.charAt?_byteSize p _, ?_⟩
  rw [ofOffset_byteSize]
  exact Text.hasAt_behind p c (u ++ t)

theorem ofOffset_ne_ofOffset {s : Text} {a b : Nat} (ha : s.IsBoundary a) (hb : s.IsBoundary b)
    (hab : a ≠ b) : ofOffset s a ≠ ofOffset s b := by
  obtain hlt | hlt := Nat.lt_or_gt_of_ne hab
  · exact ne_of_lt (ofOffset_lt_ofOffset ha hb hlt)
  · exact (ne_of_lt (ofOffset_lt_ofOffset hb ha hlt)).symm

end Position

/-! ## Errors -/

namespace ParseError

/-- The error is the one that a reader reports about a text. -/
inductive Reported (s : Text) (error : ParseError) : Prop where
  | document (h : Document.parse s = .error error)
  | instruction (escape : Char) (h : Instruction.parse s escape = .error error)
  | form (form : Form) (escape : Char) (h : Instruction.parseAs form s escape = .error error)
  | directive (h : Directive.parse s = .error error)
  | comment (h : Comment.parse s = .error error)
  | literal (style : Style) (escape : Char) (h : Literal.parseAs style escape s = .error error)
  | reference (escape : Char) (h : Reference.parse s escape = .error error)

/-- The error is at a place of the text, and its position is the one of its offset. -/
structure Placed (s : Text) (error : ParseError) : Prop where
  isBoundary : s.IsBoundary error.offset
  position : error.position = Position.ofOffset s error.offset

variable {α : Type} {s : Text} {error : ParseError}

theorem placed_located {r : Text} (hr : r <:+ s) (cause : Cause) :
    Placed s (located s (s.offsetOf r) cause) := by
  obtain ⟨p, rfl⟩ := hr
  exact ⟨⟨p, r, rfl, (Text.offsetOf_append p r).symm⟩, rfl⟩

theorem placed_of_complete {f : Text → Outcome α} (hf : Locates f)
    (h : (f s).complete s = .error error) : Placed s error := by
  have hs := hf s
  unfold Outcome.complete at h
  split at h
  · cases h
  all_goals
    rename_i hfs
    rw [hfs] at hs
    cases h
    exact placed_located hs _

theorem Reported.placed (h : Reported s error) : Placed s error := by
  cases h with
  | document h => exact placed_of_complete Document.locates_read (except_map_eq_error.1 h)
  | instruction escape h => exact placed_of_complete (Instruction.locates_read escape) h
  | form form escape h =>
    refine placed_of_complete (fun s => ?_) h
    simpa [Instruction.readAs] using Instruction.locates_formBody escape form s
  | directive h => exact placed_of_complete Directive.locates_body (except_map_eq_error.1 h)
  | comment h =>
    exact placed_of_complete Lexeme.lineReaders_locates.commentBody (except_map_eq_error.1 h)
  | literal style escape h =>
    exact placed_of_complete (Literal.locates_body style escape) (except_map_eq_error.1 h)
  | reference escape h =>
    exact placed_of_complete (Reference.locates_body escape) (except_map_eq_error.1 h)

end ParseError

namespace Position

/-- **Positions identify offsets.**  Of two places of a text, the one with the smaller offset has
the earlier position, and this position leads to the character that begins at the offset.  So two
errors about the same text never share a position unless they share the offset. -/
theorem identifies_offsets (s : Text) :
    (∀ a b, s.IsBoundary a → s.IsBoundary b → a < b →
      ofOffset s a < ofOffset s b ∧ ∃ c, s.charAt? a = some c ∧ s.HasAt (ofOffset s a) c) ∧
    ∀ error error' : ParseError, error.Reported s → error'.Reported s →
      error.offset ≠ error'.offset → error.position ≠ error'.position := by
  refine ⟨fun a b ha hb hab => ⟨ofOffset_lt_ofOffset ha hb hab, hasAt_ofOffset ha hb hab⟩, ?_⟩
  intro error error' h h' hne
  rw [h.placed.position, h'.placed.position]
  exact ofOffset_ne_ofOffset h.placed.isBoundary h'.placed.isBoundary hne

/-- An empty line behind a character of two bytes, and the end of the text.  Read as a comment, the
text is refused at the first place, and read as a file, at the second. -/
theorem identifies_offsets_lines :
    let s : Text := "# é\n\nRUN".toList
    (ofOffset s 5 < ofOffset s 9 ∧ s.charAt? 5 = some '\n' ∧ s.HasAt (ofOffset s 5) '\n') ∧
      Comment.parse s = .error ⟨.trailing, 5, ⟨2, 1⟩⟩ ∧
      Document.parse s = .error ⟨.complaint (.expected "command"), 9, ⟨3, 4⟩⟩ ∧
      (⟨2, 1⟩ : Position) ≠ ⟨3, 4⟩ := by
  intro s
  have hcomment : Comment.parse s = .error ⟨.trailing, 5, ⟨2, 1⟩⟩ := by decide +kernel
  have hdocument : Document.parse s = .error ⟨.complaint (.expected "command"), 9, ⟨3, 4⟩⟩ := by
    decide +kernel
  obtain ⟨hlt, c, hc, hat⟩ :=
    (identifies_offsets s).1 5 9 ⟨"# é\n".toList, "\nRUN".toList, rfl, rfl⟩
    ⟨s, [], rfl, rfl⟩ (by decide)
  have hnewline : s.charAt? 5 = some '\n' := by decide
  obtain rfl : '\n' = c := Option.some.inj (hnewline.symm.trans hc)
  exact ⟨⟨hlt, hc, hat⟩, hcomment, hdocument,
    (identifies_offsets s).2 _ _ (.comment hcomment) (.document hdocument) (by decide)⟩

end Position

end Containerfile
