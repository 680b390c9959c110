import Containerfile.Proofs.Followers

/-!
# Strings with references in arrays

Strings are written as elements of an array by the rules of one notation and read back by those of
another, in which a dollar sign can start a reference and the escape character can continue a
line.  A reference goes on to its brace, past the closing quote of its element if need be, and a
continuation says nothing, so an array that is made of strings need not have these strings for its
elements.

What goes wrong goes wrong within one string.  A string is kept apart, whatever stands behind its
closing quote, exactly if it is whole as it is written: no escape character stands at the end of a
line or before the quote, and each reference is closed.  With the backslash for the escape
character no continuation can be written, and it is enough that the string alone can be made an
array.

## Main definitions

* `ExecForm.Run` — what an element says, from a place between its quotes on.
* `ExecForm.Paired` — texts in which a backslash stands before a backslash or a quote.
* `ExecForm.Continued` — a line that goes on within an element.
* `ExecForm.Whole` — texts between quotes that go past the quote in no place and leave nothing out.
* `ExecForm.Stands` — a string that is one element whatever stands behind it.

## Main results

* `Literal.Scans.carry_mark` — an element is the same with another text behind it.
* `ExecForm.Run.eq_of_decode`, `ExecForm.Run.eq_of_backslash` — where an element says its string,
  it is read up to its own quote.
* `ExecForm.stands_iff_whole` — a string is an element by itself exactly if it is whole.
* `ExecForm.values_of_create_references` — when the strings are kept apart.
-/

namespace Containerfile

open Grammar Lexeme

/-! ## Behind an element -/

/-- Whether a character can stand behind an element. -/
def isMark (c : Char) : Bool :=
  c == ',' || c == ']'

theorem of_isMark {c : Char} (hc : isMark c = true) :
    isSolid c = true ∧ Reference.isHeadChar c = false := by
  simp only [isMark, Bool.or_eq_true, beq_iff_eq] at hc
  rcases hc with rfl | rfl <;> decide

section Marks

variable {e c c' : Char} {a n n' : Text} (hc : isMark c = true) (hc' : isMark c' = true)
include hc hc'

theorem carries_of_isMark : Carries e a (c :: n) (c' :: n') where
  feed := head?_of_isSolid (of_isMark hc).1
  head := (of_isMark hc).2
  head' := (of_isMark hc').2
  line := .inr (Text.atLineEnd_eq_false (isSolid_iff.1 (of_isMark hc).1).2.1)
  line' := not_newline_of_isSolid (of_isMark hc').1
  escape hnil := absurd hnil (List.cons_ne_nil _ _)
  continuation _ _ _ _ _ hcontinuation :=
    continuation_solid (of_isMark hc).1 (of_isMark hc').1 hcontinuation

/-- An element is read the same with another text behind it. -/
theorem Literal.Scans.carry_mark {style : Style} {b b' : Quote} {ps : List Piece}
    (h : Scans e style (some b) (a ++ c :: n) ps (c :: n)) (he : IsEscape e)
    (hrun : style.oneQuotedRun = true) (hb : b.mark = b'.mark) :
    Scans e style (some b') (a ++ c' :: n') ps (c' :: n') := by
  have hscans : Scans e style (some b) (a ++ c :: n) ps ([] ++ c :: n) := h
  exact hscans.carry he (fun _ => List.cons_ne_nil _ _) (carries_of_isMark hc hc')
    (show SameQuote (some b) (some b') from congrArg some hb) fun hquote => by simp [hrun] at hquote

end Marks

/-! ## Between the quotes of an element -/

namespace ExecForm

open Literal

/-- From a text on, between the quotes of an element, what the element says and what is behind its
closing quote.  References stay as they are written. -/
inductive Run (e : Char) (references : Bool) : Text → Text → Text → Prop where
  | close (r : Text) : Run e references ('"' :: r) [] r
  | pair {c d : Char} {s v r : Text} (hc : c = e ∨ c = '\\') (hd : d ≠ '\n')
      (h : Run e references s v r) : Run e references (c :: d :: s) (c :: d :: v) r
  | plain {c : Char} {s v r : Text} (hescape : c ≠ e) (hslash : c ≠ '\\') (hquote : c ≠ '"')
      (hline : c ≠ '\n') (h : Run e references s v r) : Run e references (c :: s) (c :: v) r
  | reference {w s v r : Text} (hreferences : references = true) (hw : w.head? = some '$')
      (hlast : w.getLast? ≠ some '\\') (h : Run e references s v r) :
      Run e references (w ++ s) (w ++ v) r
  | continuation {s m v r : Text} {ts : List Token} (hs : Lexeme.continuation e s = .ok ts m)
      (h : Run e references m v r) : Run e references s v r

section Runs

variable {e c : Char} {references : Bool} {b : Quote} {s m r : Text} {ps : List Piece}

/-- A quote that is open must be closed before the line is over. -/
theorem not_scans_of_atLineEnd {style : Style} (he : IsEscape e) (hs : s.atLineEnd = true) :
    ¬ Scans e style (some b) s ps r := by
  have hstop : step style e (some b) s = .stop := by
    cases s with
    | nil => rfl
    | cons c s =>
      have hc : c ≠ e := by
        rintro rfl
        rw [Text.atLineEnd_eq_false he.isLineBreak] at hs
        cases hs
      rw [step, if_neg hc, if_pos hs]
  intro h
  cases h with
  | take hstep | last hstep | reference hstep => cases hstop.symm.trans hstep

theorem step_slash (hc : '\\' ≠ e) :
    step (Style.element.withReferences references) e (some b) ('\\' :: s) =
      stepEscaped (some b) '\\' s := by
  simp [step, Style.element, Style.withReferences, hc,
    Text.atLineEnd_eq_false (s := s) (show isLineBreak '\\' = false from rfl)]

theorem mark_of_step_last {style : Style} {r : Text}
    (h : step style e (some b) (c :: s) = .last ps r) : c = b.mark := by
  have hescaped {c : Char} {s : Text} : stepEscaped (some b) c s ≠ .last ps r := by
    unfold stepEscaped
    split
    · nofun
    · split <;> nofun
  rw [step] at h
  split at h
  · unfold stepEscape at h
    split at h
    · cases h
    · exact absurd h hescaped
  · split at h
    · cases h
    · split at h
      · exact absurd h hescaped
      · dsimp only [stepQuoted] at h
        split at h
        · assumption
        · unfold stepChar stepDollar at h
          split at h
          · split at h <;> cases h
          · cases h

/-- A character that a step takes alone is nothing special. -/
theorem ordinary_of_char (he : IsEscape e) (hb : b.mark = '"') (hescape : c ≠ e)
    (hstep : step (Style.element.withReferences references) e (some b) (c :: s) =
      .take [.text [c]] (some b) s)
    (hm : Scans e (Style.element.withReferences references) (some b) s ps r) :
    c ≠ '\\' ∧ c ≠ '"' := by
  constructor
  · rintro rfl
    rw [step_slash hescape] at hstep
    cases s with
    | nil => exact not_scans_nil hm
    | cons d s =>
      rw [stepEscaped] at hstep
      split at hstep
      · exact not_scans_of_atLineEnd he ‹_› hm
      · cases hstep
  · rintro rfl
    rw [step_closingQuote he hb] at hstep
    cases hstep

theorem step_ordinary (hb : b.mark = '"') (hescape : c ≠ e) (hslash : c ≠ '\\') (hquote : c ≠ '"')
    (hend : Text.atLineEnd (c :: s) = false) :
    step (Style.element.withReferences references) e (some b) (c :: s) =
      stepChar (Style.element.withReferences references) (some b) c s := by
  simp [step, stepQuoted, Style.element, Style.withReferences, hescape, hslash, hend, hb, hquote]

/-- The text of a reference begins with its mark. -/
theorem head?_of_head_whole {parts : List Token} (h : Reference.head s = .whole parts m) :
    (Token.textAll parts).head? = some '$' := by
  have htext := Reference.eq_of_head_whole h
  have hlt := Reference.length_lt_of_head_whole h
  cases hparts : Token.textAll parts with
  | nil =>
    rw [hparts, List.nil_append] at htext
    exact absurd (htext ▸ hlt) (Nat.lt_irrefl _)
  | cons c w =>
    rw [hparts, List.cons_append] at htext
    by_cases hc : c = '$'
    · rw [hc, List.head?_cons]
    · rw [← htext, Reference.head_of_ne_dollar hc] at h
      cases h

theorem Run.of_whole {parts : List Token} {v : Text} (hreferences : references = true)
    (hhead : Reference.head s = .whole parts m) (h : Run e references m v r) :
    Run e references s (Token.textAll parts ++ v) r := by
  have hchars := Reference.isHeadChar_of_head_whole hhead
  rw [← Reference.eq_of_head_whole hhead]
  refine .reference hreferences (head?_of_head_whole hhead) (fun hlast => ?_) h
  cases hchars _ (List.mem_of_getLast? hlast)

theorem valueOfPieces_reference (parts : List Token) :
    valueOfPieces [.token (.node .reference parts)] = Token.textAll parts := by
  simp [valueOfPieces, Piece.value, partValue]

theorem valueOfPieces_modified (name : Text) (op : Modifier) (ws qs : List Piece) :
    valueOfPieces (referencePiece name op ws :: qs) =
      (referencePiece name op ws).source ++ valueOfPieces qs := by
  simp [valueOfPieces, Piece.value, Piece.source, referencePiece, partValue, Token.text]

/-- A reference with a word is written as its piece. -/
theorem eq_of_modified {name m' : Text} {op : Modifier} {ws : List Piece}
    (hhead : Reference.head s = .modified name op m)
    (hw : Scans e .modifierWord none m ws ('}' :: m')) :
    (referencePiece name op ws).source ++ m' = s := by
  rw [← Reference.eq_of_head_modified hhead, ← hw.sourceOf_append_eq, source_referencePiece]
  simp

theorem Run.of_modified {name m' v : Text} {op : Modifier} {ws : List Piece}
    (hreferences : references = true) (hhead : Reference.head s = .modified name op m)
    (hw : Scans e .modifierWord none m ws ('}' :: m')) (h : Run e references m' v r) :
    Run e references s ((referencePiece name op ws).source ++ v) r := by
  rw [← eq_of_modified hhead hw, source_referencePiece]
  refine .reference hreferences rfl ?_ h
  rw [List.getLast?_concat]
  decide

/-- **What a scan takes between the quotes of an element.** -/
theorem Run.of_scans (he : IsEscape e) (hb : b.mark = '"')
    (h : Scans e (Style.element.withReferences references) (some b) s ps r) :
    Run e references s (valueOfPieces ps) r := by
  generalize hstyle : Style.element.withReferences references = style at h
  generalize hquote : some b = quote at h
  induction h with
  | stop => cases hquote
  | @take style quote q s m r ps qs hstep hm ih =>
    subst hstyle hquote
    obtain rfl := quote_of_step_take rfl hstep
    have hrest := ih rfl rfl
    have hpossible := possible_step (Style.element.withReferences references) e (some b) s
    rw [hstep] at hpossible
    rw [valueOfPieces_append]
    cases hpossible with
    | continuation _ hc =>
      rw [valueOfPieces_continuation hc]
      exact .continuation hc hrest
    | @pair _ c d s hc hend =>
      refine .pair (hc.imp And.left fun h => h.2.1) ?_ hrest
      rintro rfl
      cases hend
    | lone _ _ hend => exact absurd hm (not_scans_of_atLineEnd he hend)
    | char _ hc hend =>
      obtain ⟨hslash, hquote⟩ := ordinary_of_char he hb hc hstep hm
      exact .plain hc hslash hquote (by rintro rfl; cases hend) hrest
    | @reference _ _ _ parts hreferences hhead =>
      rw [valueOfPieces_reference]
      exact .of_whole hreferences hhead hrest
  | last hstep =>
    subst hstyle hquote
    obtain ⟨c, rfl, rfl⟩ := eq_of_step_last hstep
    obtain rfl := (mark_of_step_last hstep).trans hb
    exact .close _
  | @reference style quote s m m' r name op ws qs hstep hw hm _ ih =>
    subst hstyle hquote
    have hpossible := possible_step (Style.element.withReferences references) e (some b) s
    rw [hstep] at hpossible
    cases hpossible with
    | modified _ hreferences hhead =>
      rw [valueOfPieces_modified]
      exact .of_modified hreferences hhead hw (ih rfl rfl)

end Runs

/-! ## Backslashes in pairs -/

/-- Each backslash is followed by one more or by a quote, which it takes with it. -/
inductive Paired : Text → Prop where
  | nil : Paired []
  | pair {d : Char} {s : Text} (hd : d = '\\' ∨ d = '"') (h : Paired s) : Paired ('\\' :: d :: s)
  | plain {c : Char} {s : Text} (hc : c ≠ '\\') (h : Paired s) : Paired (c :: s)

namespace Paired

variable {c : Char} {p s t : Text}

theorem append (hs : Paired s) (ht : Paired t) : Paired (s ++ t) := by
  induction hs with
  | nil => exact ht
  | pair hd _ ih => exact .pair hd ih
  | plain hc _ ih => exact .plain hc ih

theorem encode (s : Text) : Paired (ExecForm.encode s) := by
  induction s with
  | nil => exact .nil
  | cons c s ih =>
    rw [ExecForm.encode]
    split
    · rename_i hc
      exact .pair (by simpa using hc) ih
    · rename_i hc
      exact .plain (by rintro rfl; exact hc rfl) ih

theorem of_slash (h : Paired ('\\' :: c :: s)) : (c = '\\' ∨ c = '"') ∧ Paired s := by
  cases h with
  | pair hd h => exact ⟨hd, h⟩
  | plain hc => exact absurd rfl hc

/-- A character other than the backslash ends a pair or stands alone. -/
theorem of_append_cons (h : Paired (p ++ c :: s)) (hc : c ≠ '\\') : Paired s := by
  generalize ht : p ++ c :: s = t at h
  induction h generalizing p with
  | nil => simp at ht
  | @pair d t _ h ih =>
    match p with
    | [] => exact absurd (List.cons.inj ht).1 hc
    | [_] =>
      obtain ⟨-, rfl⟩ := List.cons.inj (List.cons.inj ht).2
      exact h
    | _ :: _ :: p => exact ih (List.cons.inj (List.cons.inj ht).2).2
  | plain _ h ih =>
    cases p with
    | nil =>
      obtain ⟨-, rfl⟩ := List.cons.inj ht
      exact h
    | cons _ p => exact ih (List.cons.inj ht).2

/-- No pair begins within a continuation and ends behind it. -/
theorem of_continuation {e : Char} {m : Text} {ts : List Token} (h : Paired (p ++ s))
    (hs : Lexeme.continuation e s = .ok ts m) : Paired m := by
  obtain ⟨ls, rfl, hlast | rfl | ⟨r, rfl, -⟩⟩ := continuation_shape hs
  · obtain ⟨l, rfl⟩ := List.getLast?_eq_some_iff.1 hlast
    refine of_append_cons (p := p ++ l) (c := '\n') ?_ (by decide)
    simpa using h
  · exact .nil
  · refine .plain (by decide) (of_append_cons (p := p ++ ls) (c := '\r') ?_ (by decide))
    simpa using h

end Paired

/-! ## Elements that say their strings -/

section Strings

variable {c d : Char} {references : Bool} {s t u v w x y r : Text}

/-- With the backslash for the escape character, an element is written as it says. -/
theorem Run.eq_append_of_backslash (h : Run '\\' references s v r) (hs : Paired s) :
    s = v ++ '"' :: r ∧ v.escapesNext '\\' = false := by
  induction h with
  | close => exact ⟨rfl, rfl⟩
  | @pair c d s v r hc hd h ih =>
    obtain rfl := or_self_iff.1 hc
    obtain ⟨rfl, hv⟩ := ih hs.of_slash.2
    exact ⟨rfl, (Text.escapesNext_pair d v).trans hv⟩
  | @plain c s v r hescape hslash hquote hline h ih =>
    obtain ⟨rfl, hv⟩ := ih (hs.of_append_cons (p := []) hslash)
    exact ⟨rfl, (Text.escapesNext_cons hescape v).trans hv⟩
  | @reference w s v r hreferences hw hlast h ih =>
    obtain ⟨d, hd⟩ : ∃ d, w.getLast? = some d := by
      obtain ⟨w, rfl⟩ := List.head?_eq_some_iff.1 hw
      exact ⟨_, List.getLast?_cons ..⟩
    have hslash : d ≠ '\\' := fun hc => hlast (hc ▸ hd)
    have hescape := Text.escapesNext_of_getLast? hd hslash
    obtain ⟨p, rfl⟩ := List.getLast?_eq_some_iff.1 hd
    obtain ⟨rfl, hv⟩ := ih (Paired.of_append_cons (p := p) (by simpa using hs) hslash)
    exact ⟨by simp, (Text.escapesNext_append hescape v).trans hv⟩
  | @continuation s m v r ts hc h ih =>
    -- a blank or a line end would stand behind the backslash
    obtain ⟨b, q, l, us, rfl, hb, hq, -⟩ := eq_of_continuation hc
    obtain ⟨c, n, hcn, hblank⟩ : ∃ c n, (b ++ q) ++ '\n' :: l = c :: n ∧
        (isBlank c = true ∨ isLineBreak c = true) := by
      cases b with
      | cons c b => exact ⟨c, _, rfl, .inl (hb c List.mem_cons_self)⟩
      | nil => rcases hq with rfl | rfl <;> exact ⟨_, _, rfl, .inr rfl⟩
    rw [List.cons_append, hcn] at hs
    rcases hs.of_slash.1 with rfl | rfl <;> rcases hblank with h | h <;> cases h

/-- No line feed stands in what a string says, up to the first dollar sign. -/
def NoFeed (s : Text) : Prop :=
  '\n' ∉ (decode s).takeWhile (· ≠ '$')

theorem NoFeed.cons (h : NoFeed s) (hc : c ≠ '\\') (hline : c ≠ '\n') : NoFeed (c :: s) := by
  unfold NoFeed
  rw [decode_cons hc, List.takeWhile_cons]
  split
  · exact List.not_mem_cons_of_ne_of_not_mem hline.symm h
  · nofun

theorem NoFeed.pair (h : NoFeed s) (hd : d = '\\' ∨ d = '"') : NoFeed ('\\' :: d :: s) := by
  have hdecode : decode ('\\' :: d :: s) = d :: decode s := by
    rcases hd with rfl | rfl <;> rfl
  unfold NoFeed
  rw [hdecode, List.takeWhile_cons]
  split
  · refine List.not_mem_cons_of_ne_of_not_mem ?_ h
    rcases hd with rfl | rfl <;> decide
  · nofun

/-- No backslash takes a character with it that it did not stand before, so none makes a line feed
of the letter. -/
theorem Run.noFeed (h : Run '`' references s v r) :
    (Paired s → NoFeed v) ∧ (Paired ('\\' :: s) → NoFeed ('\\' :: v)) := by
  induction h with
  | close => exact ⟨fun _ => List.not_mem_nil, fun _ => by unfold NoFeed; decide⟩
  | @pair c d s v r hc hd h ih =>
    have hrest (hs : Paired (d :: s)) : NoFeed (d :: v) := by
      by_cases hslash : d = '\\'
      · subst hslash
        exact ih.2 hs
      · exact (ih.1 (hs.of_append_cons (p := []) hslash)).cons hslash hd
    refine ⟨fun hs => ?_, fun hs => (hrest hs.of_slash.2).pair hs.of_slash.1⟩
    rcases hc with rfl | rfl
    · exact (hrest (hs.of_append_cons (p := []) (by decide))).cons (by decide) (by decide)
    · exact (ih.1 hs.of_slash.2).pair hs.of_slash.1
  | @plain c s v r hescape hslash hquote hline h ih =>
    refine ⟨fun hs => (ih.1 (hs.of_append_cons (p := []) hslash)).cons hslash hline, fun hs => ?_⟩
    rcases hs.of_slash.1 with rfl | rfl
    · exact absurd rfl hslash
    · exact absurd rfl hquote
  | @reference w s v r hreferences hw hlast h ih =>
    obtain ⟨w, rfl⟩ := List.head?_eq_some_iff.1 hw
    refine ⟨fun _ => ?_, fun hs => ?_⟩
    · unfold NoFeed
      rw [List.cons_append, decode_cons (by decide)]
      exact List.not_mem_nil
    · rcases hs.of_slash.1 with h | h <;> cases h
  | @continuation s m v r ts hc h ih =>
    refine ⟨fun hs => ih.1 (hs.of_continuation (p := []) hc), fun hs => ?_⟩
    obtain ⟨s, rfl⟩ := eq_cons_of_continuation hc
    rcases hs.of_slash.1 with h | h <;> cases h

/-- A text is continued with the backtick where `v` leaves something out of it, and up to there it
is the beginning of `v`. -/
def Continued (s v : Text) : Prop :=
  ∃ x y b q l, v = x ++ y ∧ s = x ++ '`' :: (b ++ q ++ '\n' :: l) ∧ (∀ c ∈ b, isBlank c = true) ∧
    (q = [] ∨ q = ['\r']) ∧ NoFeed y

theorem eq_append_or_continued_append (w : Text) (h : s = v ++ '"' :: r ∨ Continued s v) :
    w ++ s = w ++ v ++ '"' :: r ∨ Continued (w ++ s) (w ++ v) := by
  rcases h with rfl | ⟨x, y, b, q, l, rfl, rfl, hrest⟩
  · exact .inl (List.append_assoc ..).symm
  · exact .inr ⟨w ++ x, y, b, q, l, (List.append_assoc ..).symm, (List.append_assoc ..).symm, hrest⟩

/-- With the backtick for the escape character, an element is written as it says up to its first
continuation. -/
theorem Run.eq_append_or_continued {p : Text} (h : Run '`' references s v r)
    (hs : Paired (p ++ s)) :
    s = v ++ '"' :: r ∨ Continued s v := by
  induction h generalizing p with
  | close => exact .inl rfl
  | @pair c d s v r hc hd h ih =>
    exact eq_append_or_continued_append [c, d] (ih (p := p ++ [c, d]) (by simpa using hs))
  | @plain c s v r hescape hslash hquote hline h ih =>
    exact eq_append_or_continued_append [c] (ih (p := p ++ [c]) (by simpa using hs))
  | @reference w s v r hreferences hw hlast h ih =>
    exact eq_append_or_continued_append w (ih (p := p ++ w) (by simpa using hs))
  | @continuation s m v r ts hc h ih =>
    obtain ⟨b, q, l, us, rfl, hb, hq, -⟩ := eq_of_continuation hc
    exact .inr ⟨[], v, b, q, l, rfl, rfl, hb, hq, h.noFeed.1 (hs.of_continuation hc)⟩

theorem decode_eq_nil : decode s = [] ↔ s = [] := by
  fun_cases decode s <;> simp

theorem encode_special (hc : c = '\\' ∨ c = '"') (s : Text) :
    encode (c :: s) = '\\' :: c :: encode s := by
  rcases hc with rfl | rfl <;> rfl

theorem encode_plain (hc : ¬ (c = '\\' ∨ c = '"')) (s : Text) :
    encode (c :: s) = c :: encode s := by
  rw [encode, if_neg (by simpa using hc)]

theorem decode_special (hc : c = '\\' ∨ c = '"') (s : Text) :
    decode ('\\' :: c :: s) = c :: decode s := by
  rcases hc with rfl | rfl <;> rfl

/-- Characters that are nothing special are written as they are. -/
theorem exists_of_encode_append (h : encode u ++ '"' :: t = w ++ s)
    (hw : ∀ c ∈ w, ¬ (c = '\\' ∨ c = '"')) : ∃ u', u = w ++ u' := by
  induction w generalizing u with
  | nil => exact ⟨u, rfl⟩
  | cons c w ih =>
    obtain ⟨hc, hrest⟩ := List.forall_mem_cons.1 hw
    cases u with
    | nil => exact absurd (.inr (List.cons.inj h).1.symm) hc
    | cons d u =>
      by_cases hd : d = '\\' ∨ d = '"'
      · rw [encode_special hd] at h
        exact absurd (.inl (List.cons.inj h).1.symm) hc
      · simp only [encode_plain hd, List.cons_append, List.cons.injEq] at h
        obtain ⟨rfl, h⟩ := h
        obtain ⟨u', rfl⟩ := ih h hrest
        exact ⟨u', rfl⟩

/-- What is decoded together with the beginning of a written string is the end of the string, if
it is no pair that the beginning cuts. -/
theorem exists_of_decode_append (h : encode u ++ '"' :: t = x ++ s) (hslash : s.head? ≠ some '\\')
    (hquote : s.head? = some '"' → y = []) (hx : decode (x ++ y) = u) :
    ∃ u₁ u₂, u = u₁ ++ u₂ ∧ x = encode u₁ ∧ s = encode u₂ ++ '"' :: t ∧ decode y = u₂ := by
  induction u generalizing x with
  | nil =>
    obtain ⟨rfl, rfl⟩ := List.append_eq_nil_iff.1 (decode_eq_nil.1 hx)
    exact ⟨[], [], rfl, rfl, h.symm, rfl⟩
  | cons c u ih =>
    by_cases hc : c = '\\' ∨ c = '"'
    · match x with
      | [] => exact ⟨[], c :: u, rfl, rfl, h.symm, hx⟩
      | [d] =>
        simp only [encode_special hc, List.cons_append, List.nil_append, List.cons.injEq] at h
        obtain ⟨rfl, rfl⟩ := h
        rcases hc with rfl | rfl
        · exact absurd rfl hslash
        · rw [hquote rfl] at hx
          cases hx
      | d :: d' :: x =>
        simp only [encode_special hc, List.cons_append, List.cons.injEq] at h
        obtain ⟨rfl, rfl, h⟩ := h
        rw [List.cons_append, List.cons_append, decode_special hc] at hx
        obtain ⟨u₁, u₂, rfl, rfl, hs, hy⟩ := ih h (List.cons.inj hx).2
        exact ⟨c :: u₁, u₂, rfl, (encode_special hc u₁).symm, hs, hy⟩
    · cases x with
      | nil => exact ⟨[], c :: u, rfl, rfl, h.symm, hx⟩
      | cons d x =>
        simp only [encode_plain hc, List.cons_append, List.cons.injEq] at h
        obtain ⟨rfl, h⟩ := h
        rw [List.cons_append, decode_cons fun hd => hc (.inl hd)] at hx
        obtain ⟨u₁, u₂, rfl, rfl, hs, hy⟩ := ih h (List.cons.inj hx).2
        exact ⟨c :: u₁, u₂, rfl, (encode_plain hc u₁).symm, hs, hy⟩

/-- An element with a continuation does not say its string. -/
theorem Continued.decode_ne (h : Continued (encode u ++ '"' :: t) x) : decode x ≠ u := by
  obtain ⟨x, y, b, q, l, rfl, htext, hb, hq, hy⟩ := h
  intro hx
  obtain ⟨u₁, u₂, -, -, hs, rfl⟩ := exists_of_decode_append htext (by simp) (by simp) hx
  -- the line feed is in the string, right behind the escape character and the blanks
  have hplain : ∀ c ∈ '`' :: (b ++ q), c ≠ '\\' ∧ c ≠ '"' ∧ c ≠ '$' := by
    have hq : ∀ c ∈ q, c = '\r' := by rcases hq with rfl | rfl <;> simp
    intro c hc
    rcases List.mem_cons.1 hc with rfl | hc
    · decide
    · rcases List.mem_append.1 hc with hc | hc
      · have hblank := hb c hc
        simp only [isBlank, Bool.or_eq_true, beq_iff_eq] at hblank
        rcases hblank with rfl | rfl <;> decide
      · rw [hq c hc]
        decide
  have hline : ∀ c ∈ '`' :: (b ++ q) ++ ['\n'], ¬ (c = '\\' ∨ c = '"') := by
    refine List.forall_mem_append.2 ⟨fun c hc => ?_, by simp⟩
    exact not_or.2 ⟨(hplain c hc).1, (hplain c hc).2.1⟩
  obtain ⟨u', hu'⟩ := exists_of_encode_append (w := '`' :: (b ++ q) ++ ['\n']) (s := l)
    (by simpa using hs.symm) hline
  refine hy ?_
  rw [hu', List.append_assoc,
    List.takeWhile_append_of_pos (by simpa using fun c hc => (hplain c hc).2.2)]
  simp

/-- **An element that says its string ends with its own quote.** -/
theorem Run.eq_of_decode {e : Char} (he : IsEscape e)
    (h : Run e references (encode u ++ '"' :: t) x r) (ht : Paired t) (hx : decode x = u) :
    x = encode u ∧ r = t := by
  have hpaired : Paired (encode u ++ '"' :: t) := (Paired.encode u).append (.plain (by decide) ht)
  have htext : encode u ++ '"' :: t = x ++ '"' :: r := by
    rcases he with rfl | rfl
    · exact (h.eq_append_of_backslash hpaired).1
    · exact (h.eq_append_or_continued (p := []) hpaired).resolve_right fun hc => hc.decode_ne hx
  obtain ⟨u₁, u₂, rfl, rfl, hs, hu⟩ :=
    exists_of_decode_append (y := []) htext (by simp) (fun _ => rfl)
    (by simpa using hx)
  obtain rfl : u₂ = [] := hu.symm
  exact ⟨by simp, (List.cons.inj hs).2⟩

/-- A quote within a written string is escaped. -/
theorem escapesNext_of_encode (h : encode u = x ++ '"' :: y) : x.escapesNext '\\' = true := by
  induction u generalizing x with
  | nil => simp [encode] at h
  | cons c u ih =>
    by_cases hc : c = '\\' ∨ c = '"'
    · rw [encode_special hc] at h
      cases x with
      | nil => cases (List.cons.inj h).1
      | cons d x =>
        simp only [List.cons_append, List.cons.injEq] at h
        obtain ⟨rfl, h⟩ := h
        cases x with
        | nil => rfl
        | cons d x =>
          simp only [List.cons_append, List.cons.injEq] at h
          obtain ⟨rfl, h⟩ := h
          exact (Text.escapesNext_pair c x).trans (ih h)
    · rw [encode_plain hc] at h
      cases x with
      | nil => exact absurd (.inr (List.cons.inj h).1) hc
      | cons d x =>
        simp only [List.cons_append, List.cons.injEq] at h
        obtain ⟨rfl, h⟩ := h
        exact (Text.escapesNext_cons (fun hslash => hc (.inl hslash)) x).trans (ih h)

/-- **With the backslash for the escape character, an element before text without a quote ends
with its own quote.** -/
theorem Run.eq_of_backslash (h : Run '\\' references (encode u ++ '"' :: t) x r) (ht : Paired t)
    (hquote : '"' ∉ t) : x = encode u ∧ r = t := by
  obtain ⟨htext, hescape⟩ :=
    h.eq_append_of_backslash ((Paired.encode u).append (.plain (by decide) ht))
  rcases List.append_eq_append_iff.1 htext with ⟨z, rfl, hz⟩ | ⟨z, hu, hz⟩
  · cases z with
    | nil => exact ⟨by simp, (List.cons.inj hz).2.symm⟩
    | cons d z =>
      rw [(List.cons.inj hz).2] at hquote
      simp at hquote
  · cases z with
    | nil => exact ⟨by simpa using hu.symm, (List.cons.inj hz).2⟩
    | cons d z =>
      obtain ⟨rfl, -⟩ := List.cons.inj hz
      rw [escapesNext_of_encode hu] at hescape
      cases hescape

end Strings

/-! ## Strings that are whole -/

/-- From a text on, between the quotes of an element, up to what is behind the closing quote: no
line is continued, each reference is closed, and nothing else goes past the quote. -/
inductive Whole (e : Char) : Text → Text → Prop where
  | close (r : Text) : Whole e ('"' :: r) r
  /-- The escape character, unless it stands at the end of a line, with the next. -/
  | escape {d : Char} {s r : Text} (hline : Text.atLineEnd ((d :: s).dropWhile isBlank) = false)
      (h : Whole e s r) : Whole e (e :: d :: s) r
  | slash {d : Char} {s r : Text} (hescape : '\\' ≠ e) (hline : Text.atLineEnd (d :: s) = false)
      (h : Whole e s r) : Whole e ('\\' :: d :: s) r
  | plain {c : Char} {s r m : Text} (hescape : c ≠ e) (hslash : c ≠ '\\') (hquote : c ≠ '"')
      (hline : Text.atLineEnd (c :: s) = false) (hhead : Reference.head (c :: s) = .absent m)
      (h : Whole e s r) : Whole e (c :: s) r
  /-- A reference without a word. -/
  | reference {s m r : Text} {parts : List Token} (hhead : Reference.head s = .whole parts m)
      (h : Whole e m r) : Whole e s r
  /-- A reference with a word, which ends with a brace. -/
  | modified {s m m' r name : Text} {op : Modifier} {ws : List Piece}
      (hhead : Reference.head s = .modified name op m)
      (hword : Scans e .modifierWord none m ws ('}' :: m')) (h : Whole e m' r) : Whole e s r

section Wholes

variable {e c d : Char} {b : Quote} {s m r v : Text} {ps : List Piece}

theorem Run.length_lt (h : Run e true s v r) : v.length + r.length < s.length := by
  induction h with
  | close => simp
  | pair _ _ _ ih | plain _ _ _ _ _ ih | reference _ _ _ _ ih =>
    simp only [List.length_append, List.length_cons]
    omega
  | continuation hs _ ih =>
    have := advances_continuation _ _ _ _ hs
    omega

/-- Where an element says what is written, no line goes on. -/
theorem not_continuation_of_run {ts : List Token} (h : Run e true m v r)
    (hc : continuation e s = .ok ts m) : v ++ '"' :: r ≠ s := by
  rintro rfl
  have hlt := h.length_lt
  have hadvance := advances_continuation _ _ _ _ hc
  simp only [List.length_append, List.length_cons] at hadvance
  omega

theorem stepChar_dollar (hb : b.mark = '"') :
    stepChar (Style.element.withReferences true) (some b) '$' s = stepDollar (some b) s := by
  simp [stepChar, Style.element, Style.withReferences, hb]

/-- A character is taken alone exactly if no reference starts with it. -/
theorem stepChar_eq_take (hb : b.mark = '"') :
    stepChar (Style.element.withReferences true) (some b) c s = .take [.text [c]] (some b) s ↔
      ∃ m, Reference.head (c :: s) = .absent m := by
  by_cases hc : c = '$'
  · subst hc
    rw [stepChar_dollar hb, stepDollar]
    cases Reference.head ('$' :: s) <;> simp
  · simp [stepChar, hc, Reference.head_of_ne_dollar hc]

theorem exists_eq_dollar (h : ∀ m, Reference.head s ≠ .absent m) : ∃ n, s = '$' :: n := by
  cases s with
  | nil => exact absurd rfl (h [])
  | cons c n =>
    by_cases hc : c = '$'
    · exact ⟨n, hc ▸ rfl⟩
    · exact absurd (Reference.head_of_ne_dollar hc n) (h _)

/-- What a reference that starts between the quotes is, is seen from its head. -/
theorem step_of_head (he : IsEscape e) (hb : b.mark = '"') (h : ∀ m, Reference.head s ≠ .absent m) :
    ∃ n, s = '$' :: n ∧
      step (Style.element.withReferences true) e (some b) s = stepDollar (some b) n := by
  obtain ⟨n, rfl⟩ := exists_eq_dollar h
  have hescape : '$' ≠ e := by
    rintro rfl
    rcases he with he | he <;> cases he
  refine ⟨n, rfl, ?_⟩
  rw [step_ordinary hb hescape (by decide) (by decide) (Text.atLineEnd_eq_false rfl),
    stepChar_dollar hb]

theorem step_escape (hline : Text.atLineEnd ((d :: s).dropWhile isBlank) = false) :
    step (Style.element.withReferences true) e (some b) (e :: d :: s) =
      .take [.text [e, d]] (some b) s := by
  have hstuck : ¬ ∃ ts r, continuation e (e :: d :: s) = .ok ts r := by
    rintro hc
    obtain ⟨ts, r, hr⟩ := continuation_cons_eq_ok.1 hc
    cases hline.symm.trans (atLineEnd_of_newline hr)
  have hend : Text.atLineEnd (d :: s) = false := by
    rw [Bool.eq_false_iff]
    exact fun hend => hstuck (continuation_of_atLineEnd hend)
  obtain ⟨m, hm⟩ := continuation_stuck_iff.2 hstuck
  simp [step, stepEscape, stepEscaped, hm, hend]

/-- No blanks up to a line end stand behind an escape character that takes one more. -/
theorem atLineEnd_dropWhile_eq_false (hquote : '"' ∈ s)
    (hstuck : ∀ ts r, continuation e (e :: s) ≠ .ok ts r) :
    Text.atLineEnd (s.dropWhile isBlank) = false := by
  cases hdrop : s.dropWhile isBlank with
  | nil =>
    have htake : s.takeWhile isBlank = s := by
      simpa [hdrop] using List.takeWhile_append_dropWhile (p := isBlank) (l := s)
    have hblank := List.all_eq_true.1 (List.all_takeWhile (p := isBlank) (l := s)) '"'
    rw [htake] at hblank
    cases hblank hquote
  | cons c n =>
    rw [Bool.eq_false_iff]
    intro hend
    obtain ⟨ts, r, hc⟩ := continuation_cons_eq_ok.2 (hdrop ▸ newline_of_atLineEnd hend)
    exact hstuck ts r hc

/-- **An element that says what is written is whole.** -/
theorem Whole.of_scans (he : IsEscape e) (hb : b.mark = '"')
    (h : Scans e (Style.element.withReferences true) (some b) s ps r)
    (hvalue : valueOfPieces ps ++ '"' :: r = s) : Whole e s r := by
  generalize hstyle : Style.element.withReferences true = style at h
  generalize hquote : some b = quote at h
  induction h with
  | stop => cases hquote
  | @take style quote q s m r ps qs hstep hm ih =>
    subst hstyle hquote
    obtain rfl := quote_of_step_take rfl hstep
    have hpossible := possible_step (Style.element.withReferences true) e (some b) s
    rw [hstep] at hpossible
    rw [valueOfPieces_append, List.append_assoc] at hvalue
    cases hpossible with
    | continuation _ hc =>
      rw [valueOfPieces_continuation hc] at hvalue
      exact absurd hvalue (not_continuation_of_run (Run.of_scans he hb hm) hc)
    | @pair _ c d _ hc hend =>
      have hrest : valueOfPieces qs ++ '"' :: r = m := (List.cons.inj (List.cons.inj hvalue).2).2
      rcases hc with ⟨rfl, hstuck⟩ | ⟨hc, rfl, -⟩
      · have hmem : '"' ∈ d :: m := by simp [← hrest]
        exact .escape (atLineEnd_dropWhile_eq_false hmem hstuck) (ih hrest rfl rfl)
      · exact .slash hc hend (ih hrest rfl rfl)
    | lone _ _ hend => exact absurd hm (not_scans_of_atLineEnd he hend)
    | char _ hc hend =>
      obtain ⟨hslash, hquote⟩ := ordinary_of_char he hb hc hstep hm
      rw [step_ordinary hb hc hslash hquote hend] at hstep
      obtain ⟨n, hhead⟩ := (stepChar_eq_take hb).1 hstep
      exact .plain hc hslash hquote hend hhead (ih (List.cons.inj hvalue).2 rfl rfl)
    | @reference _ _ _ parts hreferences hhead =>
      rw [valueOfPieces_reference, ← Reference.eq_of_head_whole hhead] at hvalue
      exact .reference hhead (ih (List.append_cancel_left hvalue) rfl rfl)
  | last hstep =>
    subst hstyle hquote
    obtain ⟨c, rfl, rfl⟩ := eq_of_step_last hstep
    obtain rfl := (mark_of_step_last hstep).trans hb
    exact .close _
  | @reference style quote s m m' r name op ws qs hstep hw hm _ ih =>
    subst hstyle hquote
    have hpossible := possible_step (Style.element.withReferences true) e (some b) s
    rw [hstep] at hpossible
    cases hpossible with
    | modified _ hreferences hhead =>
      rw [valueOfPieces_modified, ← eq_of_modified hhead hw, List.append_assoc] at hvalue
      exact .modified hhead hw (ih (List.append_cancel_left hvalue) rfl rfl)

/-- **What is whole is an element that says what is written.** -/
theorem Whole.exists_scans (he : IsEscape e) (hb : b.mark = '"') (h : Whole e s r) :
    ∃ ps, Scans e (Style.element.withReferences true) (some b) s ps r ∧
      valueOfPieces ps ++ '"' :: r = s := by
  induction h with
  | close r => exact ⟨_, .last (step_closingQuote he hb true r), rfl⟩
  | @escape d s r hline h ih =>
    obtain ⟨ps, hps, rfl⟩ := ih
    exact ⟨_, .take (step_escape hline) hps, rfl⟩
  | @slash d s r hescape hline h ih =>
    have hstep : step (Style.element.withReferences true) e (some b) ('\\' :: d :: s) =
        .take [.text ['\\', d]] (some b) s := by
      rw [step_slash hescape, stepEscaped, hline]
      rfl
    obtain ⟨ps, hps, rfl⟩ := ih
    exact ⟨_, .take hstep hps, rfl⟩
  | @plain c s r m hescape hslash hquote hline hhead h ih =>
    obtain ⟨ps, hps, rfl⟩ := ih
    have hstep := (step_ordinary hb hescape hslash hquote hline).trans
      ((stepChar_eq_take hb).2 ⟨m, hhead⟩)
    exact ⟨_, .take hstep hps, rfl⟩
  | @reference s m r parts hhead h ih =>
    obtain ⟨ps, hps, hm⟩ := ih
    obtain ⟨n, rfl, hstep⟩ := step_of_head he hb (s := s) (by simp [hhead])
    rw [stepDollar, hhead] at hstep
    refine ⟨_, .take hstep hps, ?_⟩
    rw [valueOfPieces_append, valueOfPieces_reference, List.append_assoc, hm,
      Reference.eq_of_head_whole hhead]
  | @modified s m m' r name op ws hhead hword h ih =>
    obtain ⟨ps, hps, hm⟩ := ih
    obtain ⟨n, rfl, hstep⟩ := step_of_head he hb (s := s) (by simp [hhead])
    rw [stepDollar, hhead] at hstep
    refine ⟨_, .reference hstep hword hps, ?_⟩
    rw [valueOfPieces_modified, List.append_assoc, hm, eq_of_modified hhead hword]

end Wholes

/-! ## Arrays of strings -/

section Reading

variable {e : Char} {references : Bool} {s r : Text} {ts : List Token} (he : IsEscape e)
include he

theorem optional_separator_stuck {c : Char} (hc : c = ',' ∨ c = ']' ∨ c = '"') :
    optional (separator e) (c :: s) = .ok [] (c :: s) :=
  optional_separator_of_blanks (b := []) nofun (gap_stuck_of_mark he hc s)

theorem nextElement_eq_ok : nextElement e references (',' :: ' ' :: '"' :: s) = .ok ts r ↔
    ∃ us, element e references ('"' :: s) = .ok us r ∧
      ts = .symbol [','] :: .blank [' '] :: us := by
  have hcomma : (symbol "," ++ optional (separator e)) (',' :: ' ' :: '"' :: s) =
      .ok [.symbol [','], .blank [' ']] ('"' :: s) := by
    refine seq_eq_ok.2 ⟨_, _, _, exactly_eq_ok.2 ⟨rfl, rfl⟩, ?_, rfl⟩
    exact optional_separator_of_blanks (b := [' ']) (by simp [isBlank])
      (gap_stuck_of_mark he (.inr (.inr rfl)) s)
  change (symbol "," ++ optional (separator e) ++ element e references) _ = _ ↔ _
  rw [seq_eq_ok]
  constructor
  · rintro ⟨_, us, _, hfirst, helement, rfl⟩
    obtain ⟨rfl, rfl⟩ := Outcome.ok.inj (hcomma.symm.trans hfirst)
    exact ⟨us, helement, rfl⟩
  · rintro ⟨us, helement, rfl⟩
    exact ⟨_, us, _, hcomma, helement, rfl⟩

theorem body_quote_eq_ok : body e references ('[' :: '"' :: s) = .ok ts r ↔
    ∃ us m vs, element e references ('"' :: s) = .ok us m ∧
      many (nextElement e references) m = .ok vs (']' :: r) ∧
      ts = .symbol ['['] :: (us ++ vs ++ [.symbol [']']]) := by
  have hbracket : (symbol "[" ++ optional (separator e)) ('[' :: '"' :: s) =
      .ok [.symbol ['[']] ('"' :: s) :=
    seq_eq_ok.2 ⟨_, _, _, exactly_eq_ok.2 ⟨rfl, rfl⟩,
      optional_separator_stuck he (.inr (.inr rfl)), rfl⟩
  have hclose : ∃ m, symbol "]" ('"' :: s) = .stuck m := ⟨_, rfl⟩
  unfold body
  rw [tentative_eq_ok, seq_eq_ok]
  constructor
  · rintro ⟨_, us, _, hfirst, hrest, rfl⟩
    obtain ⟨rfl, rfl⟩ := Outcome.ok.inj (hbracket.symm.trans hfirst)
    rcases either_eq_ok.1 hrest with hempty | ⟨-, helements⟩
    · obtain ⟨m, hm⟩ := hclose
      cases hm.symm.trans hempty
    · obtain ⟨us, m, vs, hu, hv, rfl⟩ := elements_eq_ok.1 helements
      exact ⟨us, m, vs, hu, hv, rfl⟩
  · rintro ⟨us, m, vs, hu, hv, rfl⟩
    refine ⟨_, _, _, hbracket, either_eq_ok.2 (.inr ⟨hclose, ?_⟩), rfl⟩
    exact elements_eq_ok.2 ⟨us, m, vs, hu, hv, rfl⟩

end Reading

/-- What stands behind the first of several strings. -/
def behind : List Text → Text
  | [] => [']']
  | v :: vs => ',' :: ' ' :: '"' :: (encode v ++ '"' :: behind vs)

theorem render_cons (v : Text) (vs : List Text) :
    render (v :: vs) = '[' :: '"' :: (encode v ++ '"' :: behind vs) := by
  suffices hjoin : Text.join [',', ' '] ((v :: vs).map quoted) ++ [']'] =
      '"' :: (encode v ++ '"' :: behind vs) by
    rw [render_eq, hjoin]
  induction vs generalizing v with
  | nil => simp [Text.join, quoted, behind]
  | cons w vs ih =>
    have hrest := ih w
    simp only [List.map_cons, Text.join, List.append_assoc] at hrest ⊢
    rw [hrest]
    simp [quoted, behind]

theorem behind_eq_cons (vs : List Text) : ∃ c n, behind vs = c :: n ∧ isMark c = true := by
  cases vs with
  | nil => exact ⟨_, _, rfl, rfl⟩
  | cons v vs => exact ⟨_, _, rfl, rfl⟩

theorem Paired.behind (vs : List Text) : Paired (behind vs) := by
  induction vs with
  | nil => exact .plain (by decide) .nil
  | cons v vs ih =>
    refine .plain (by decide) (.plain (by decide) (.plain (by decide) ?_))
    exact (Paired.encode v).append (.plain (by decide) ih)

/-- The string is one element, whatever stands behind its closing quote. -/
def Stands (e : Char) (v : Text) : Prop :=
  ∀ c n, isMark c = true →
    ∃ ts, element e true ('"' :: (encode v ++ '"' :: c :: n)) = .ok ts (c :: n) ∧ Says ts [encode v]

theorem Stands.element_behind {e : Char} {v : Text} (hv : Stands e v) (vs : List Text) :
    ∃ ts, element e true ('"' :: (encode v ++ '"' :: behind vs)) = .ok ts (behind vs) ∧
      Says ts [encode v] := by
  obtain ⟨c, n, hcn, hc⟩ := behind_eq_cons vs
  rw [hcn]
  exact hv c n hc

theorem values_append (ts us : List Token) :
    values ⟨ts ++ us⟩ = values ⟨ts⟩ ++ values ⟨us⟩ := by
  simp [values, elements]

theorem values_brackets (ts : List Token) :
    values ⟨.symbol ['['] :: (ts ++ [.symbol [']']])⟩ = values ⟨ts⟩ := by
  rw [← List.singleton_append, values_append, values_append]
  exact List.append_nil _

theorem Says.values {ts : List Token} {vs : List Text} (h : Says ts (vs.map encode)) :
    values ⟨ts⟩ = vs := by
  have hvalues : ExecForm.values ⟨ts⟩ = (vs.map encode).map decode := by
    rw [← h]
    simp [ExecForm.values, elements]
  simp [hvalues, Function.comp_def, decode_encode]

section Arrays

variable {e : Char} {v r : Text} {vs : List Text} {ts : List Token} (he : IsEscape e)
include he

/-- A string that is read up to its own quote once is an element whatever stands behind it. -/
theorem stands_of_scans {c : Char} {n : Text} {ps : List Piece} {b : Quote} (hc : isMark c = true)
    (hb : b.mark = '"')
    (h : Scans e (Style.element.withReferences true) (some b) (encode v ++ '"' :: c :: n) ps
      (c :: n))
    (hvalue : valueOfPieces ps = encode v) : Stands e v := by
  intro c' n' hc'
  rw [List.append_cons] at h
  have hscan : Scans e _ (some ⟨'"', '"' :: (encode v ++ '"' :: c' :: n')⟩)
      (encode v ++ ['"'] ++ c' :: n') ps (c' :: n') := h.carry_mark hc hc' he rfl hb
  rw [List.append_assoc, List.singleton_append] at hscan
  have hmark : c' = ',' ∨ c' = ']' ∨ c' = '"' := by
    simp only [isMark, Bool.or_eq_true, beq_iff_eq] at hc'
    exact hc'.imp_right .inl
  refine ⟨_, (element_eq_ok he).2
    ⟨_, ps, _, [], rfl, hscan, optional_separator_stuck he hmark, rfl⟩, ?_⟩
  rw [← hvalue, ← valueOf_assemble]
  rfl

/-- An element that says its string is read up to its own quote. -/
theorem exists_scans_of_element
    (h : element e true ('"' :: (encode v ++ '"' :: behind vs)) = .ok ts r)
    (hv : (values ⟨ts⟩).head? = some v ∨ e = '\\' ∧ vs = []) :
    ∃ b ps, b.mark = '"' ∧ valueOfPieces ps = encode v ∧
      Scans e (Style.element.withReferences true) (some b) (encode v ++ '"' :: behind vs) ps
        (behind vs) := by
  obtain ⟨s, ps, m, us, hs, hscan, -, rfl⟩ := (element_eq_ok he).1 h
  obtain rfl := (List.cons.inj hs).2
  have hrun := Run.of_scans he rfl hscan
  have hquote : valueOfPieces ps = encode v ∧ m = behind vs := by
    rcases hv with hv | ⟨rfl, rfl⟩
    · refine hrun.eq_of_decode he (Paired.behind vs) ?_
      rw [← valueOf_assemble]
      exact Option.some.inj hv
    · exact hrun.eq_of_backslash (Paired.behind []) (by decide)
  obtain ⟨hvalue, rfl⟩ := hquote
  exact ⟨_, ps, rfl, hvalue, hscan⟩

/-- A string that is read as one element once is one whatever stands behind it. -/
theorem stands_of_element
    (h : element e true ('"' :: (encode v ++ '"' :: behind vs)) = .ok ts r)
    (hv : (values ⟨ts⟩).head? = some v ∨ e = '\\' ∧ vs = []) : Stands e v := by
  obtain ⟨b, ps, hb, hvalue, hscan⟩ := exists_scans_of_element he h hv
  obtain ⟨c, n, hcn, hc⟩ := behind_eq_cons vs
  rw [hcn] at hscan
  exact stands_of_scans he hc hb hscan hvalue

/-- **A string is an element by itself exactly if it is whole.** -/
theorem stands_iff_whole : Stands e v ↔ Whole e (encode v ++ ['"', ']']) [']'] := by
  constructor
  · intro hv
    obtain ⟨ts, hts, hsaid⟩ := hv.element_behind []
    have hvalues : values ⟨ts⟩ = [v] := Says.values hsaid
    obtain ⟨b, ps, hb, hvalue, hps⟩ := exists_scans_of_element he hts (.inl (hvalues ▸ rfl))
    exact .of_scans he hb hps (congrArg (· ++ _) hvalue)
  · intro hv
    obtain ⟨ps, hps, hvalue⟩ := hv.exists_scans (b := ⟨'"', []⟩) he rfl
    exact stands_of_scans he (n := []) rfl rfl hps (List.append_cancel_right hvalue)

theorem head?_values {us : List Token} {s : Text}
    (h : element e true s = .ok ts r) (hvalues : values ⟨ts ++ us⟩ = v :: vs) :
    (values ⟨ts⟩).head? = some v := by
  obtain ⟨_, ps, _, _, -, -, -, rfl⟩ := (element_eq_ok he).1 h
  exact congrArg some (List.cons.inj hvalues).1

/-- Strings that are said one by one are each an element. -/
theorem stands_of_row {us : List Token} {m : Text}
    (h : element e true ('"' :: (encode v ++ '"' :: behind vs)) = .ok ts m)
    (hmany : many (nextElement e true) m = .ok us r) (hvalues : values ⟨ts ++ us⟩ = v :: vs) :
    ∀ w ∈ v :: vs, Stands e w := by
  induction vs generalizing v ts us m with
  | nil =>
    exact List.forall_mem_singleton.2 (stands_of_element he h (.inl (head?_values he h hvalues)))
  | cons w vs ih =>
    have hv := stands_of_element he h (.inl (head?_values he h hvalues))
    refine List.forall_mem_cons.2 ⟨hv, ?_⟩
    obtain ⟨ts', hts, hsaid⟩ := hv.element_behind (w :: vs)
    obtain ⟨rfl, rfl⟩ := Outcome.ok.inj (hts.symm.trans h)
    have hfirst : values ⟨ts'⟩ = [v] := Says.values hsaid
    rw [values_append, hfirst] at hvalues
    rcases many_eq_ok.1 hmany with ⟨us, m, ws, hnext, -, hrest, rfl⟩ | ⟨hnext, hlong⟩ | ⟨-, rfl, -⟩
    · obtain ⟨us, hus, rfl⟩ := (nextElement_eq_ok he).1 hnext
      exact ih hus hrest (List.cons.inj hvalues).2
    · exact absurd (advances_nextElement e true _ _ _ hnext) hlong
    · cases hvalues

/-- Strings that are each an element are read one by one. -/
theorem many_of_stands (h : ∀ v ∈ vs, Stands e v) :
    ∃ ts, many (nextElement e true) (behind vs) = .ok ts [']'] ∧ Says ts (vs.map encode) := by
  induction vs with
  | nil => exact ⟨[], many_eq_ok.2 (.inr (.inr ⟨nextElement_stuck e true [], rfl, rfl⟩)), rfl⟩
  | cons v vs ih =>
    obtain ⟨hv, hvs⟩ := List.forall_mem_cons.1 h
    obtain ⟨us, hus, huvalues⟩ := hv.element_behind vs
    obtain ⟨ws, hws, hwvalues⟩ := ih hvs
    have hnext := (nextElement_eq_ok he).2 ⟨us, hus, rfl⟩
    refine ⟨_,
      many_eq_ok.2 (.inl ⟨_, _, ws, hnext, advances_nextElement e true _ _ _ hnext, hws, rfl⟩), ?_⟩
    exact huvalues.append hwvalues

/-- Strings that are each an element are the elements of their array. -/
theorem body_of_stands (h : ∀ v ∈ vs, Stands e v) :
    ∃ ts, body e true (render vs) = .ok ts [] ∧ values ⟨ts⟩ = vs := by
  cases vs with
  | nil =>
    refine ⟨_, tentative_eq_ok.2 (seq_eq_ok.2 ⟨_, _, _, seq_eq_ok.2 ⟨_, _, _,
      exactly_eq_ok.2 ⟨rfl, rfl⟩, optional_separator_stuck he (.inr (.inl rfl)), rfl⟩,
      either_eq_ok.2 (.inl (exactly_eq_ok.2 ⟨rfl, rfl⟩)), rfl⟩), rfl⟩
  | cons v vs =>
    obtain ⟨hv, hvs⟩ := List.forall_mem_cons.1 h
    obtain ⟨us, hus, huvalues⟩ := hv.element_behind vs
    obtain ⟨ws, hws, hwvalues⟩ := many_of_stands he hvs
    rw [render_cons]
    refine ⟨_, (body_quote_eq_ok he).2 ⟨us, _, ws, hus, hws, rfl⟩, ?_⟩
    rw [values_brackets]
    exact Says.values (huvalues.append hwvalues)

/-- A string stands for itself exactly if it does so in an array of its own. -/
theorem stands_iff : Stands e v ↔
    ∃ array, create [v] e true = .ok array ∧ (e = '\\' ∨ array.values = [v]) := by
  constructor
  · intro hv
    obtain ⟨ts, hts, hvalues⟩ := body_of_stands he (List.forall_mem_singleton.2 hv)
    exact ⟨⟨ts⟩, create_eq_ok.2 hts, .inr hvalues⟩
  · rintro ⟨array, hcreate, hvalues⟩
    have hbody := create_eq_ok.1 hcreate
    rw [render_cons] at hbody
    obtain ⟨us, m, ws, hus, hws, hparts⟩ := (body_quote_eq_ok he).1 hbody
    refine stands_of_element he hus ?_
    rcases hvalues with rfl | hvalues
    · exact .inr ⟨rfl, rfl⟩
    · obtain ⟨parts⟩ := array
      obtain rfl : parts = _ := hparts
      rw [values_brackets] at hvalues
      exact .inl (head?_values he hus hvalues)

end Arrays

/-- **Strings with references.**  The elements of an array that is made of strings are these
strings exactly if each string is whole as it is written.  So is a string exactly if it alone
makes an array of which it is the element; with the backslash for the escape character it is
enough that it makes one. -/
theorem values_of_create_references {vs : List Text} {e : Char} (he : IsEscape e) {array : ExecForm}
    (h : create vs e true = .ok array) :
    ((array.elements.length = vs.length ∧ array.values = vs) ↔
      ∀ v ∈ vs, Whole e (encode v ++ ['"', ']']) [']']) ∧
    ∀ v ∈ vs, (Whole e (encode v ++ ['"', ']']) [']'] ↔
      ∃ alone, create [v] e true = .ok alone ∧ (e = '\\' ∨ alone.values = [v])) := by
  have hbody := create_eq_ok.1 h
  simp only [← stands_iff_whole he]
  refine ⟨⟨?_, fun hvs => ?_⟩, fun v _ => stands_iff he⟩
  · rintro ⟨-, hvalues⟩
    cases vs with
    | nil => nofun
    | cons v vs =>
      rw [render_cons] at hbody
      obtain ⟨us, m, ws, hus, hws, hparts⟩ := (body_quote_eq_ok he).1 hbody
      obtain ⟨parts⟩ := array
      obtain rfl : parts = _ := hparts
      rw [values_brackets] at hvalues
      exact stands_of_row he hus hws hvalues
  · obtain ⟨ts, hts, hvalues⟩ := body_of_stands he hvs
    obtain ⟨hparts, -⟩ := Outcome.ok.inj (hts.symm.trans hbody)
    rw [hparts] at hvalues
    refine ⟨?_, hvalues⟩
    rw [← hvalues]
    simp [values]

/-- A reference may hold a quote and a closing bracket, and a backtick may escape a backslash or
end a string. -/
theorem values_of_create_references_escaped :
    ∃ array, create ["$\x7ba:-\"]\x7d".toList, "`\\`b``".toList] '`' true = .ok array ∧
      array.elements.length = 2 ∧
      array.values = ["$\x7ba:-\"]\x7d".toList, "`\\`b``".toList] := by
  obtain ⟨array, harray, -⟩ :
      ∃ array ∈ (create ["$\x7ba:-\"]\x7d".toList, "`\\`b``".toList] '`' true).toOption, True := by
    decide +kernel
  rw [mem_toOption] at harray
  have hword : Scans '`' .modifierWord none "\\\"]\x7d\"]".toList
      [.text ['\\'], .text ['"'], .text [']']] "\x7d\"]".toList := scan_eq_ok.1 (by decide +kernel)
  refine ⟨array, harray, (values_of_create_references (.inr rfl) harray).1.2 ?_⟩
  refine List.forall_mem_cons.2 ⟨.modified rfl hword (.close _), List.forall_mem_singleton.2 ?_⟩
  refine .escape rfl (.slash (by decide) rfl ?_)
  exact .plain (by decide) (by decide) (by decide) rfl rfl (.escape rfl (.close _))

/-- The word of a reference goes on behind the quote of its string, and a line that goes on in a
string leaves nothing behind. -/
theorem values_of_create_references_joined :
    (∃ array, create ["$\x7ba:-".toList, "\x7d".toList] '\\' true = .ok array ∧
      array.values = ["$\x7ba:-\", \"\x7d".toList]) ∧
    (∃ array, create ["a`\nb".toList] '`' true = .ok array ∧ array.values = ["ab".toList]) := by
  simp only [← mem_toOption]
  decide +kernel

end ExecForm

end Containerfile
