import Containerfile.Proofs.Boundaries

/-!
# Items and what is behind them

An item that ends its line is read again if another text is put behind it.  Blank lines go on as
long as there are any, so the other text must not begin with one; an instruction must not become
an array; a comment is not affected at all.  What holds of one item holds of a list of items,
which are read one after another.

## Main definitions

* `Item.endsLine` — whether the item ends with a line end of its own.
* `Reads` — items are read one after another.

## Main results

* `Reads.retail` — items that end their lines are read again with another text behind them.
* `Item.endsLine_of_readItem` — an item with another item behind it ends its line.
-/

namespace Containerfile

open Lexeme Grammar

/-! ## Line ends -/

/-- Whether the last token is a line end. -/
def Children.endsLine (ts : List Token) : Bool :=
  ts.getLast?.any (Token.isLeaf .newline)

theorem Children.endsLine_append_singleton (ts : List Token) (t : Token) :
    endsLine (ts ++ [t]) = t.isLeaf .newline := by
  simp [endsLine]

theorem Children.endsLine_newline {s r : Text} {ts ns : List Token} (h : newline s = .ok ns r) :
    endsLine (ts ++ ns) = true ∧ (Token.textAll (ts ++ ns)).getLast? = some '\n' := by
  rw [Token.textAll_append, List.getLast?_append]
  obtain ⟨-, rfl⟩ | ⟨-, rfl⟩ := newline_eq_ok.1 h <;> exact ⟨endsLine_append_singleton _ _, rfl⟩

/-- A line end that is read if there is one, where the line has come to a line break. -/
theorem Children.endsLine_cases {g : Grammar}
    (hg : ∀ s ts r, g s = .ok ts r → endsLine ts = false ∧
      ∃ s' : Text, s'.dropWhile (fun c => !isLineBreak c) = r)
    {s r : Text} {ts : List Token} (h : (g ++ optional newline) s = .ok ts r) :
    endsLine ts = true ∧ (Token.textAll ts).getLast? = some '\n' ∨
      endsLine ts = false ∧ Broken r := by
  obtain ⟨us, vs, m, hu, hv, rfl⟩ := seq_eq_ok.1 h
  obtain hv | ⟨⟨k, hk⟩, rfl, rfl⟩ := optional_eq_ok.1 hv
  · exact .inl (endsLine_newline hv)
  · obtain ⟨hend, s', hs'⟩ := hg _ _ _ hu
    rw [List.append_nil]
    exact .inr ⟨hend, broken_of_dropWhile hs' hk⟩

theorem HasNewline.of_getLast? {s : Text} (h : s.getLast? = some '\n') : HasNewline s :=
  List.mem_of_getLast? h

/-- A comment ends with a line end, or the text ends or breaks behind it. -/
theorem Comment.endsLine_cases {s r : Text} {ts : List Token} (h : commentBody s = .ok ts r) :
    Children.endsLine ts = true ∧ (Token.textAll ts).getLast? = some '\n' ∨
      Children.endsLine ts = false ∧ Broken r := by
  refine Children.endsLine_cases (fun s ts r h => ?_) h
  obtain ⟨us, vs, m, hu, hv, rfl⟩ := seq_eq_ok.1 h
  obtain ⟨_, _, k, -, hk, rfl⟩ := seq_eq_ok.1 hu
  obtain ⟨-, rfl⟩ := exactly_eq_ok.1 hk
  refine ⟨?_, m, (optional_run_rest hv).symm⟩
  obtain hv | ⟨-, rfl, -⟩ := optional_eq_ok.1 hv
  · obtain ⟨-, rfl, -⟩ := run_eq_ok.1 hv
    exact Children.endsLine_append_singleton _ _
  · rw [List.append_nil]
    exact Children.endsLine_append_singleton _ _

/-! ## Blank lines -/

namespace BlankLines

theorem ne_nil_of_blankLine {s r : Text} {ts : List Token} (h : blankLine s = .ok ts r) :
    ts ≠ [] := by
  obtain ⟨us, vs, m, -, hv, rfl⟩ := seq_eq_ok.1 h
  obtain ⟨-, rfl⟩ | ⟨-, rfl⟩ := newline_eq_ok.1 hv <;> simp

/-- The blanks at the end of a text. -/
def trailing : Grammar :=
  blanks ++ when List.isEmpty

theorem trailing_eq_ok {s r : Text} {ts : List Token} (h : trailing s = .ok ts r) :
    r = [] ∧ ∃ b, ts = [.blank b] := by
  obtain ⟨us, vs, m, hu, hv, rfl⟩ := seq_eq_ok.1 h
  obtain ⟨hm, rfl, rfl⟩ := when_eq_ok.1 hv
  obtain ⟨-, rfl, -⟩ := run_eq_ok.1 hu
  exact ⟨List.isEmpty_iff.1 hm, _, List.append_nil _⟩

theorem unfailing_trailing : Unfailing trailing :=
  (Unfailing.run _ _).seq (.when _)

theorem advances_trailing : Advances trailing :=
  advances_blanks.seq (lossless_when _).shrinks

theorem body_eq_ok {s r : Text} {ts : List Token} :
    body s = .ok ts r ↔ ts ≠ [] ∧ ∃ us vs m, many blankLine s = .ok us m ∧
      optional trailing m = .ok vs r ∧ us ++ vs = ts := by
  unfold body
  rw [nonempty_eq_ok, seq_eq_ok, and_comm]
  rfl

/-- Blank lines are never empty. -/
theorem advances_body : Advances body := by
  intro s ts r h
  obtain ⟨hne, us, vs, m, hu, hv, rfl⟩ := body_eq_ok.1 h
  have hr : r.length ≤ m.length := advances_trailing.shrinks.optional _ _ _ hv
  obtain ⟨-, k, ws, -, hlt, hw, -⟩ | ⟨hu, hlt⟩ | ⟨-, rfl, rfl⟩ := many_eq_ok.1 hu
  · have hm := advances_blankLine.shrinks.many _ _ _ hw
    omega
  · exact absurd (advances_blankLine _ _ _ hu) hlt
  · obtain hv | ⟨-, rfl, -⟩ := optional_eq_ok.1 hv
    · exact advances_trailing _ _ _ hv
    · exact absurd rfl hne

/-- There are no blank lines where a text begins neither with one nor with blanks at its end. -/
theorem body_eq_stuck {s : Text} :
    (∃ m, body s = .stuck m) ↔ (∃ m, blankLine s = .stuck m) ∧ ∃ m, trailing s = .stuck m := by
  obtain ⟨us, m, hu⟩ := unfailing_blankLine.many_eq_ok s
  obtain ⟨vs, r, hv⟩ := unfailing_trailing.optional_eq_ok m
  have hseq : (many blankLine ++ optional trailing) s = .ok (us ++ vs) r :=
    seq_eq_ok.2 ⟨us, vs, m, hu, hv, rfl⟩
  have hbody : (∃ m, body s = .stuck m) ↔ us ++ vs = [] := by
    change (∃ m, nonempty (many blankLine ++ optional trailing) s = .stuck m) ↔ _
    unfold nonempty
    rw [hseq]
    cases us ++ vs <;> simp
  rw [hbody, List.append_eq_nil_iff]
  constructor
  · rintro ⟨rfl, rfl⟩
    obtain ⟨ws, k, xs, hw, -, -, hnil⟩ | ⟨hw, -⟩ | ⟨hstuck, -, rfl⟩ := many_eq_ok.1 hu
    · exact absurd (List.append_eq_nil_iff.1 hnil).1 (ne_nil_of_blankLine hw)
    · exact absurd rfl (ne_nil_of_blankLine hw)
    · refine ⟨hstuck, ?_⟩
      obtain hv | ⟨hstuck', -⟩ := optional_eq_ok.1 hv
      · obtain ⟨-, b, hb⟩ := trailing_eq_ok hv
        cases hb
      · exact hstuck'
  · rintro ⟨⟨k, hk⟩, ⟨k', hk'⟩⟩
    obtain ⟨ws, _, xs, hw, -⟩ | ⟨hw, -⟩ | ⟨-, rfl, rfl⟩ := many_eq_ok.1 hu
    · rw [hk] at hw
      cases hw
    · rw [hk] at hw
      cases hw
    · obtain hv | ⟨-, rfl, -⟩ := optional_eq_ok.1 hv
      · rw [hk'] at hv
        cases hv
      · exact ⟨rfl, rfl⟩

theorem getLast?_of_blankLine {s r : Text} {ts : List Token} (h : blankLine s = .ok ts r) :
    Children.endsLine ts = true ∧ (Token.textAll ts).getLast? = some '\n' := by
  obtain ⟨us, vs, m, -, hv, rfl⟩ := seq_eq_ok.1 h
  exact Children.endsLine_newline hv

theorem getLast?_of_many_blankLine {s r : Text} {ts : List Token}
    (h : many blankLine s = .ok ts r) (hne : ts ≠ []) :
    Children.endsLine ts = true ∧ (Token.textAll ts).getLast? = some '\n' := by
  induction s, ts, r, h using advances_blankLine.many_induction with
  | nil s m _ _ => exact absurd rfl hne
  | round s us m vs r hu _ _ ih =>
    by_cases hvs : vs = []
    · rw [hvs, List.append_nil]
      exact getLast?_of_blankLine hu
    · obtain ⟨hend, hlast⟩ := ih hvs
      rw [Token.textAll_append, List.getLast?_append, hlast]
      refine ⟨?_, rfl⟩
      unfold Children.endsLine at hend ⊢
      rw [List.getLast?_append]
      cases hv : vs.getLast? with
      | none => rw [hv] at hend; cases hend
      | some t => rwa [hv] at hend

/-- Blank lines end with a line end and go on as long as there are any, or they end the text. -/
theorem endsLine_cases {s r : Text} {ts : List Token} (h : body s = .ok ts r) :
    (Children.endsLine ts = true ∧ (Token.textAll ts).getLast? = some '\n' ∧
        many blankLine s = .ok ts r ∧ ∃ m, body r = .stuck m) ∨
      Children.endsLine ts = false ∧ r = [] := by
  obtain ⟨hne, us, vs, m, hu, hv, rfl⟩ := body_eq_ok.1 h
  obtain hv | ⟨hstuck, rfl, rfl⟩ := optional_eq_ok.1 hv
  · obtain ⟨rfl, b, rfl⟩ := trailing_eq_ok hv
    exact .inr ⟨Children.endsLine_append_singleton _ _, rfl⟩
  · left
    rw [List.append_nil] at hne ⊢
    obtain ⟨hend, hlast⟩ := getLast?_of_many_blankLine hu hne
    exact ⟨hend, hlast, hu,
      body_eq_stuck.2 ⟨stuck_of_many advances_blankLine _ _ _ hu, hstuck⟩⟩

/-- Blank lines are read again with a text behind them that does not begin with one. -/
theorem many_blankLine_append {s r x : Text} {ts : List Token}
    (h : many blankLine s = .ok ts r) (hx : ∃ m, blankLine x = .stuck m) :
    many blankLine (Token.textAll ts ++ x) = .ok ts x := by
  induction s, ts, r, h using advances_blankLine.many_induction with
  | nil s m _ _ => exact many_eq_ok.2 (.inr (.inr ⟨hx, rfl, rfl⟩))
  | round s us m vs r hu _ _ ih =>
    have hnl : HasNewline (Token.textAll us) := .of_getLast? (getLast?_of_blankLine hu).2
    have hs : Token.textAll us ++ m = s := lossless_blankLine _ _ _ hu
    rw [← hs] at hu
    have hu' := decided_blankLine.append_eq_ok (r := []) hnl hu (Token.textAll vs ++ x)
    rw [Token.textAll_append, List.append_assoc]
    exact many_eq_ok.2 (.inl ⟨us, _, vs, hu', advances_blankLine _ _ _ hu', ih, rfl⟩)

theorem body_append {s r x : Text} {ts : List Token} (h : body s = .ok ts r)
    (hend : Children.endsLine ts = true) (hx : ∃ m, body x = .stuck m) :
    body (Token.textAll ts ++ x) = .ok ts x := by
  obtain ⟨-, -, hmany, -⟩ | ⟨hend', -⟩ := endsLine_cases h
  · obtain ⟨hblank, htrailing⟩ := body_eq_stuck.1 hx
    exact body_eq_ok.2 ⟨(body_eq_ok.1 h).1, ts, [], x, many_blankLine_append hmany hblank,
      optional_eq_ok.2 (.inr ⟨htrailing, rfl, rfl⟩), List.append_nil _⟩
  · rw [hend] at hend'
    cases hend'

end BlankLines

/-! ## Items -/

/-- Whether the item ends with a line end of its own. -/
def Item.endsLine : Item → Bool
  | instruction i => i.endsLine
  | comment c => Children.endsLine c.parts
  | blankLines b => Children.endsLine b.parts
  | directive d => Children.endsLine d.parts

namespace Document

variable {e : Char} {s r : Text} {item : Item}

/-- An item is blank lines, or else a comment, or else an instruction. -/
theorem readItem_eq_ok : readItem e s = .ok item r ↔
    (∃ ts, BlankLines.body s = .ok ts r ∧ item = .blankLines ⟨ts⟩) ∨
      (∃ m, BlankLines.body s = .stuck m) ∧
        ((∃ ts, commentBody s = .ok ts r ∧ item = .comment ⟨ts⟩) ∨
          (∃ m, commentBody s = .stuck m) ∧
            ∃ i, Instruction.read e s = .ok i r ∧ item = .instruction i) := by
  unfold readItem
  cases BlankLines.body s with
  | ok ts m =>
    constructor
    · intro h
      cases h
      exact .inl ⟨ts, rfl, rfl⟩
    · rintro (⟨ts', h, rfl⟩ | ⟨⟨_, h⟩, -⟩)
      · cases h
        rfl
      · cases h
  | failed f => simp
  | stuck m =>
    cases commentBody s with
    | ok ts k =>
      constructor
      · intro h
        cases h
        exact .inr ⟨⟨m, rfl⟩, .inl ⟨ts, rfl, rfl⟩⟩
      · rintro (⟨_, h, -⟩ | ⟨-, ⟨ts', h, rfl⟩ | ⟨⟨_, h⟩, -⟩⟩)
        · cases h
        · cases h
          rfl
        · cases h
    | failed f => simp
    | stuck k => simp [Outcome.map_eq_ok, eq_comm]

theorem blankLines_stuck {c : Char} {k : Text} (hs : s.dropWhile isBlank = c :: k)
    (hc : isLineBreak c = false) : ∃ m, BlankLines.body s = .stuck m := by
  refine BlankLines.body_eq_stuck.2 ⟨?_, ?_⟩
  · cases h : blankLine s with
    | ok ts m =>
      obtain ⟨us, hn⟩ := blankLine_eq_ok.1 ⟨ts, h⟩
      rw [hs] at hn
      exact absurd ⟨us, m, hn⟩ (Walk.not_newline_of_ordinary hc)
    | stuck m => exact ⟨m, rfl⟩
    | failed f => exact absurd h (unfailing_blankLine s f)
  · cases h : BlankLines.trailing s with
    | ok ts m =>
      obtain ⟨us, vs, k', hu, hv, -⟩ := seq_eq_ok.1 h
      obtain ⟨-, -, rfl⟩ := run_eq_ok.1 hu
      obtain ⟨hk, -, -⟩ := when_eq_ok.1 hv
      rw [hs] at hk
      cases hk
    | stuck m => exact ⟨m, rfl⟩
    | failed f => exact absurd h (BlankLines.unfailing_trailing s f)

theorem dropWhile_of_firstWord (h : Instruction.firstWord s ≠ []) :
    ∃ c k, s.dropWhile isBlank = c :: k ∧ isNameChar c = true := by
  unfold Instruction.firstWord Instruction.fromFirstWord at h
  cases hs : s.dropWhile isBlank with
  | nil =>
    rw [hs] at h
    exact absurd rfl h
  | cons c k =>
    refine ⟨c, k, rfl, Classical.byContradiction fun hc => ?_⟩
    rw [hs, List.takeWhile_cons_of_neg hc] at h
    exact h rfl

/-- No blank lines begin with a word. -/
theorem blankLines_stuck_of_firstWord (h : Instruction.firstWord s ≠ []) :
    ∃ m, BlankLines.body s = .stuck m := by
  obtain ⟨c, k, hk, hc⟩ := dropWhile_of_firstWord h
  refine blankLines_stuck hk ?_
  cases hb : isLineBreak c with
  | false => rfl
  | true =>
    simp only [isLineBreak, Bool.or_eq_true, beq_iff_eq] at hb
    obtain rfl | rfl := hb <;> cases hc

theorem readItem_of_comment {ts : List Token} (h : commentBody s = .ok ts r) :
    readItem e s = .ok (.comment ⟨ts⟩) r := by
  obtain ⟨k, _, hk, -⟩ := commentBody_eq_ok.1 ⟨ts, h⟩
  exact readItem_eq_ok.2 (.inr ⟨blankLines_stuck hk rfl, .inl ⟨ts, h, rfl⟩⟩)

/-- Where there is a word, the item is an instruction. -/
theorem readItem_of_firstWord (h : Instruction.firstWord s ≠ []) :
    readItem e s = (Instruction.read e s).map .instruction := by
  obtain ⟨c, k, hk, hc⟩ := dropWhile_of_firstWord h
  obtain ⟨m, hm⟩ := blankLines_stuck_of_firstWord h
  have hcomment : ∃ m, commentBody s = .stuck m := by
    cases hs : commentBody s with
    | ok ts m =>
      obtain ⟨k', _, hk', -⟩ := commentBody_eq_ok.1 ⟨ts, hs⟩
      rw [hk] at hk'
      cases hk'
      cases hc
    | stuck m => exact ⟨m, rfl⟩
    | failed f => exact absurd hs (unfailing_commentBody s f)
  obtain ⟨m', hm'⟩ := hcomment
  unfold readItem
  rw [hm]
  dsimp only
  rw [hm']

theorem firstWord_of_read {i : Instruction} (h : Instruction.read e s = .ok i r) :
    Instruction.firstWord s ≠ [] := by
  obtain ⟨k, ts, hk, -, -⟩ := Instruction.read_eq_ok.1 h
  intro hnil
  rw [hnil] at hk
  cases hk

theorem readItem_of_read {i : Instruction} (h : Instruction.read e s = .ok i r) :
    readItem e s = .ok (.instruction i) r := by
  rw [readItem_of_firstWord (firstWord_of_read h), h]
  rfl

/-- No item begins at the end of the text or at a carriage return that ends no line. -/
theorem not_broken_of_readItem (h : readItem e s = .ok item r) : ¬ Broken s := by
  intro hs
  obtain ⟨k, hk⟩ := filler_of_broken hs
  obtain ⟨⟨k1, hcomment⟩, hblank⟩ := either_eq_stuck.1 ⟨k, hk⟩
  obtain ⟨ts, hb, -⟩ | ⟨-, ⟨ts, hc, -⟩ | ⟨-, i, hi, -⟩⟩ := readItem_eq_ok.1 h
  · have htrailing : ∃ m, BlankLines.trailing s = .stuck m := by
      obtain rfl | ⟨k, rfl, -⟩ := hs <;> exact ⟨_, rfl⟩
    obtain ⟨m, hm⟩ := BlankLines.body_eq_stuck.2 ⟨hblank, htrailing⟩
    rw [hm] at hb
    cases hb
  · have hline : commentLine s = .ok [.node .comment ts] r := node_eq_ok.2 ⟨ts, hc, rfl⟩
    rw [hline] at hcomment
    cases hcomment
  · refine firstWord_of_read hi ?_
    obtain rfl | ⟨k, rfl, -⟩ := hs <;> rfl

/-- An item with something behind it that can begin another item ends its line. -/
theorem endsLine_of_readItem (he : IsEscape e) (h : readItem e s = .ok item r) (hr : ¬ Broken r) :
    item.endsLine = true := by
  have hne : r ≠ [] := fun hnil => hr (.inl hnil)
  obtain ⟨ts, hb, rfl⟩ | ⟨-, ⟨ts, hc, rfl⟩ | ⟨-, i, hi, rfl⟩⟩ := readItem_eq_ok.1 h
  · obtain ⟨hend, -⟩ | ⟨-, hnil⟩ := BlankLines.endsLine_cases hb
    · exact hend
    · exact absurd hnil hne
  · obtain ⟨hend, -⟩ | ⟨-, hbroken⟩ := Comment.endsLine_cases hc
    · exact hend
    · exact absurd hbroken hr
  · exact Instruction.endsLine_of_read he hi hne

theorem getLast?_of_readItem (he : IsEscape e) (h : readItem e s = .ok item r)
    (hend : item.endsLine = true) : item.text.getLast? = some '\n' := by
  obtain ⟨ts, hb, rfl⟩ | ⟨-, ⟨ts, hc, rfl⟩ | ⟨-, i, hi, rfl⟩⟩ := readItem_eq_ok.1 h
  · obtain ⟨-, hlast, -⟩ | ⟨hend', -⟩ := BlankLines.endsLine_cases hb
    · exact hlast
    · cases hend.symm.trans hend'
  · obtain ⟨-, hlast⟩ | ⟨hend', -⟩ := Comment.endsLine_cases hc
    · exact hlast
    · cases hend.symm.trans hend'
  · exact (Instruction.delimited_of_endsLine he hi hend).getLast?

/-- An item that ends its line is read again with another text behind it: one that does not go on
with blank lines and does not make an array of an instruction. -/
theorem readItem_append (he : IsEscape e) {x : Text} (h : readItem e s = .ok item r)
    (hend : item.endsLine = true)
    (hblank : ∀ b, item = .blankLines b → ∃ m, BlankLines.body x = .stuck m)
    (harray : ∀ i, item = .instruction i → ¬ Instruction.BecomesArray e i.text x) :
    readItem e (item.text ++ x) = .ok item x := by
  obtain ⟨ts, hb, rfl⟩ | ⟨-, ⟨ts, hc, rfl⟩ | ⟨-, i, hi, rfl⟩⟩ := readItem_eq_ok.1 h
  · exact readItem_eq_ok.2 (.inl ⟨ts, BlankLines.body_append hb hend (hblank _ rfl), rfl⟩)
  · refine readItem_of_comment ?_
    obtain ⟨-, hlast⟩ | ⟨hend', -⟩ := Comment.endsLine_cases hc
    · have hs : Token.textAll ts ++ r = s := lossless_commentBody _ _ _ hc
      rw [← hs] at hc
      exact decided_commentBody.append_eq_ok (r := []) (.of_getLast? hlast) hc x
    · cases hend.symm.trans hend'
  · exact readItem_of_read ((Instruction.read_append_iff he hi hend x).2 (harray i rfl))

end Document

/-! ## Lists of items -/

/-- Items are read from `s` one after another, and `r` is left. -/
inductive Reads (e : Char) : Text → List Item → Text → Prop where
  | nil (s : Text) : Reads e s [] s
  | cons {s m r : Text} {item : Item} {items : List Item}
      (h : Document.readItem e s = .ok item m) (hs : Reads e m items r) :
      Reads e s (item :: items) r

namespace Reads

open Document

variable {e : Char} {s r x : Text} {items others : List Item}

/-- What holds of every item that can be read holds of all of them. -/
theorem forall_mem {P : Item → Prop} (h : Reads e s items r)
    (hP : ∀ {s item m}, readItem e s = .ok item m → P item) : ∀ item ∈ items, P item := by
  induction h with
  | nil => simp
  | cons h _ ih => exact List.forall_mem_cons.2 ⟨hP h, ih⟩

theorem text_append (h : Reads e s items r) : textOf items ++ r = s := by
  induction h with
  | nil s => rfl
  | cons h _ ih => rw [textOf_cons, List.append_assoc, ih, lossless_readItem e h]

theorem append_iff :
    Reads e s (items ++ others) r ↔ ∃ m, Reads e s items m ∧ Reads e m others r := by
  induction items generalizing s with
  | nil =>
    constructor
    · exact fun h => ⟨s, .nil s, h⟩
    · rintro ⟨m, h, h'⟩
      cases h
      exact h'
  | cons item items ih =>
    constructor
    · intro h
      cases h with
      | cons h hs =>
        obtain ⟨m, hm, hr⟩ := ih.1 hs
        exact ⟨m, .cons h hm, hr⟩
    · rintro ⟨m, h, h'⟩
      cases h with
      | cons h hs => exact .cons h (ih.2 ⟨m, hs, h'⟩)

/-- Each item is read from its text and what is behind it. -/
theorem item_eq {before after : List Item} {item : Item}
    (h : Reads e s (before ++ item :: after) r) :
    readItem e (item.text ++ (textOf after ++ r)) = .ok item (textOf after ++ r) := by
  obtain ⟨m, -, hm⟩ := append_iff.1 h
  cases hm with
  | cons h hs =>
    have htext := lossless_readItem e h
    rwa [hs.text_append, htext]

theorem instruction_eq {before after : List Item} {i : Instruction}
    (h : Reads e s (before ++ .instruction i :: after) r) :
    Instruction.read e (i.text ++ (textOf after ++ r)) = .ok i (textOf after ++ r) := by
  obtain ⟨ts, -, heq⟩ | ⟨-, ⟨ts, -, heq⟩ | ⟨-, i', hi, heq⟩⟩ := readItem_eq_ok.1 h.item_eq
  · cases heq
  · cases heq
  · cases heq
    exact hi

/-- Behind blank lines there is another item, or nothing that could go on with them. -/
theorem blankLines_stuck {m : Text} {b : BlankLines}
    (h : readItem e s = .ok (.blankLines b) m) (hend : (Item.blankLines b).endsLine = true)
    (hm : Reads e m items r) (hx : ∃ k, BlankLines.body x = .stuck k)
    (hitems : Reads e (textOf items ++ x) items x) :
    ∃ k, BlankLines.body (textOf items ++ x) = .stuck k := by
  obtain ⟨ts, hb, heq⟩ | ⟨-, ⟨ts, -, heq⟩ | ⟨-, i, -, heq⟩⟩ := readItem_eq_ok.1 h
  · cases heq
    obtain ⟨-, -, -, k, hk⟩ | ⟨hend', -⟩ := BlankLines.endsLine_cases hb
    · cases hm with
      | nil => exact hx
      | cons h' _ =>
        cases hitems with
        | cons h'' _ =>
          obtain ⟨us, hu, rfl⟩ | ⟨hstuck, -⟩ := readItem_eq_ok.1 h''
          · obtain ⟨vs, hv, -⟩ | ⟨-, ⟨vs, -, heq⟩ | ⟨-, i, -, heq⟩⟩ := readItem_eq_ok.1 h'
            · rw [hk] at hv
              cases hv
            · cases heq
            · cases heq
          · exact hstuck
    · cases hend.symm.trans hend'
  · cases heq
  · cases heq

/-- Items that end their lines are read again with another text behind them: one that does not go on
with blank lines and does not make an array of an instruction. -/
theorem retail (he : IsEscape e) (h : Reads e s items r)
    (hend : ∀ item ∈ items, item.endsLine = true) (hx : ∃ m, BlankLines.body x = .stuck m)
    (harray : ∀ before i after, items = before ++ .instruction i :: after →
      ¬ Instruction.BecomesArray e i.text (textOf after ++ x)) :
    Reads e (textOf items ++ x) items x := by
  induction h with
  | nil s => exact .nil x
  | @cons s m r item items h hs ih =>
    have ih' := ih (fun item hi => hend item (List.mem_cons_of_mem _ hi)) fun before i after hi =>
      harray (item :: before) i after (by rw [hi]; rfl)
    rw [textOf_cons, List.append_assoc]
    have hitem := hend item List.mem_cons_self
    refine .cons (readItem_append he h hitem (fun b hb => ?_) fun i hi => ?_) ih'
    · subst hb
      exact blankLines_stuck h hitem hs hx ih'
    · exact harray [] i items (by rw [hi]; rfl)

theorem not_broken (h : Reads e s items r) (hr : ¬ Broken r) : ¬ Broken s := by
  cases h with
  | nil => exact hr
  | cons h _ => exact not_broken_of_readItem h

/-- Items with something behind them that can begin another item end their lines. -/
theorem endsLine (he : IsEscape e) (h : Reads e s items r) (hr : ¬ Broken r) :
    ∀ item ∈ items, item.endsLine = true := by
  induction h with
  | nil s => exact fun item hi => absurd hi List.not_mem_nil
  | cons h hs ih =>
    intro item hi
    obtain rfl | hi := List.mem_cons.1 hi
    · exact endsLine_of_readItem he h (hs.not_broken hr)
    · exact ih hr item hi

theorem not_directive (h : Reads e s items r) : ∀ item ∈ items, ∀ d, item ≠ .directive d := by
  refine h.forall_mem fun h d => ?_
  obtain ⟨ts, -, rfl⟩ | ⟨-, ⟨ts, -, rfl⟩ | ⟨-, i, -, rfl⟩⟩ := readItem_eq_ok.1 h <;> nofun

end Reads

namespace Instruction

/-- An instruction begins with its keyword, so it is never empty. -/
theorem advances_body (e : Char) {f : Text → Outcome Instruction} (hf : LosslessRead f)
    (k : Keyword) :
    Advances (body e f k) := by
  have h := arrayReaders_lossless e
  have hfinish := (lossless_finish e).shrinks
  have hopening : ∀ k, Advances (opening e k) := fun k => (advances_start k).seq h.flagsBody.shrinks
  cases k with
  | FROM =>
    have hflag := (h.optional (h.argument h.flag)).shrinks
    have himage := (h.required "image name" (h.literal .word rfl)).shrinks
    have hname := (h.optional (h.seq (h.argument h.stageKeyword)
      (h.required "stage name" h.stageName))).shrinks
    exact ((((advances_start .FROM).seq hflag).seq himage).seq hname).seq hfinish
  | ARG =>
    have hfirst := (h.required "argument name" h.declaration).shrinks
    have hothers := (h.many (h.argument h.declaration)).shrinks
    exact (((advances_start .ARG).seq hfirst).seq hothers).seq hfinish
  | ENV =>
    have hpairs := h.seq (h.argument h.variablePair) (h.many (h.argument h.variablePair))
    have hline := h.seq (h.required "variable name" h.stageName)
      (h.required "variable value" (h.literal .line rfl))
    exact ((advances_start .ENV).seq (h.either hpairs hline).shrinks).seq hfinish
  | LABEL =>
    have hfirst := (h.required "label" h.labelPair).shrinks
    have hothers := (h.many (h.argument h.labelPair)).shrinks
    exact (((advances_start .LABEL).seq hfirst).seq hothers).seq hfinish
  | RUN | CMD | ENTRYPOINT => exact ((hopening _).seq h.commandArguments.shrinks).seq hfinish
  | ONBUILD => exact (advances_deferral e).seq (lossless_trigger hf).shrinks
  | ADD | COPY | VOLUME | EXPOSE | STOPSIGNAL | USER | WORKDIR | HEALTHCHECK | MAINTAINER | SHELL =>
    exact ((hopening _).seq (h.argumentsBody _).shrinks).seq hfinish

theorem length_lt_of_read {e : Char} {s r : Text} {i : Instruction} (h : read e s = .ok i r) :
    r.length < s.length := by
  obtain ⟨k, ts, -, hb, -⟩ := read_eq_ok.1 h
  exact advances_body e (lossless_read e) k _ _ _ hb

end Instruction

namespace Document

variable {e : Char} {s r : Text} {item : Item} {items : List Item}

/-- An item is never empty. -/
theorem length_lt_of_readItem (h : readItem e s = .ok item r) : r.length < s.length := by
  obtain ⟨ts, hb, -⟩ | ⟨-, ⟨ts, hc, -⟩ | ⟨-, i, hi, -⟩⟩ := readItem_eq_ok.1 h
  · exact BlankLines.advances_body _ _ _ hb
  · have hline : commentLine s = .ok [.node .comment ts] r := node_eq_ok.2 ⟨ts, hc, rfl⟩
    exact advances_commentLine _ _ _ hline
  · exact Instruction.length_lt_of_read hi

/-- Reading to the end of the text is reading items one after another. -/
theorem readItems_eq_ok :
    readItems e s = .ok items r ↔ r = [] ∧ Reads e s items [] := by
  induction hn : s.length using Nat.strongRecOn generalizing s items with
  | ind n ih =>
    rw [readItems]
    cases s with
    | nil =>
      constructor
      · intro h
        cases h
        exact ⟨rfl, .nil _⟩
      · rintro ⟨rfl, h⟩
        cases h with
        | nil => rfl
        | cons h _ => exact absurd (.inl rfl) (not_broken_of_readItem h)
    | cons c s =>
      rw [if_neg (by simp)]
      cases h : readItem e (c :: s) with
      | ok item m =>
        have hlt := length_lt_of_readItem h
        dsimp only
        rw [if_pos hlt, Outcome.map_eq_ok]
        constructor
        · rintro ⟨items, hm, rfl⟩
          obtain ⟨rfl, hitems⟩ := (ih m.length (hn ▸ hlt) rfl).1 hm
          exact ⟨rfl, .cons h hitems⟩
        · rintro ⟨rfl, hs⟩
          cases hs with
          | cons h' hs =>
            rw [h] at h'
            cases h'
            exact ⟨_, (ih m.length (hn ▸ hlt) rfl).2 ⟨rfl, hs⟩, rfl⟩
      | stuck m =>
        refine ⟨(absurd · (by simp)), ?_⟩
        rintro ⟨-, _ | ⟨h', -⟩⟩
        rw [h] at h'
        cases h'
      | failed f =>
        refine ⟨(absurd · (by simp)), ?_⟩
        rintro ⟨-, _ | ⟨h', -⟩⟩
        rw [h] at h'
        cases h'

end Document

end Containerfile
