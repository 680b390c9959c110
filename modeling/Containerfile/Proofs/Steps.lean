import Containerfile.Proofs.Walks

/-!
# Steps with more text behind

One step of reading a literal looks at one line only, except where it takes a continuation.  So on a
text with a line feed it is the same step whatever is behind, if a line feed is still there behind a
continuation that it takes.

A step keeps the text of an open quote from the quote on, for an error.  This text depends on what
is behind, so quotes are compared by their marks alone.

## Main definitions

* `Reference.Head.Extends`, `Literal.Step.Extends` — what a text with more text behind it starts
  with, and what a step does on it.

## Main results

* `Literal.step_extends` — a step does the same on a text with more text behind it.
* `Literal.stable_grammar` — literals are stable.
-/

namespace Containerfile

open Lexeme

/-! ## References -/

theorem Modifier.read?_append {p : Text} (hp : HasNewline p) (x : Text) :
    read? (p ++ x) = (read? p).map fun mr => (mr.1, mr.2 ++ x) := by
  cases p with
  | nil => cases hp
  | cons c p =>
    by_cases hc : c = ':'
    · subst hc
      cases p with
      | nil => simp [HasNewline] at hp
      | cons d p =>
        rw [List.cons_append, List.cons_append]
        unfold read?
        split <;> simp_all
    · rw [List.cons_append]
      unfold read?
      split <;> simp_all

namespace Reference

/-- What a text with `x` behind it starts with. -/
inductive Head.Extends (x : Text) : Head → Head → Prop where
  | absent (r r' : Text) : Extends x (.absent r) (.absent r')
  | whole (parts : List Token) (r : Text) : Extends x (.whole parts r) (.whole parts (r ++ x))
  | modified (name : Text) (m : Modifier) (r : Text) :
      Extends x (.modified name m r) (.modified name m (r ++ x))
  | malformed (problem : Problem) : Extends x (.malformed problem) (.malformed problem)

theorem headBraced_of_head? (name : Text) {s : Text} (hs : s.head? ≠ some '}') :
    headBraced name s =
      match Modifier.read? s with
      | some (m, r) => .modified name m r
      | none => if s.atLineEnd then .malformed .missingBrace else .malformed .badSubstitution := by
  unfold headBraced
  split
  · exact absurd rfl hs
  · rfl

theorem headBraced_extends {p : Text} (hp : HasNewline p) (name x : Text) :
    (headBraced name p).Extends x (headBraced name (p ++ x)) := by
  cases p with
  | nil => cases hp
  | cons c p =>
    by_cases hc : c = '}'
    · subst hc
      exact .whole _ _
    · have hread := Modifier.read?_append hp x
      have hend := Text.atLineEnd_append hp x
      have hne : ∀ s r, c :: s = '}' :: r → False := fun s r h => hc (List.cons.inj h).1
      rw [List.cons_append] at hread hend
      rw [List.cons_append, headBraced.eq_2 _ _ (hne _), headBraced.eq_2 _ _ (hne _), hread, hend]
      cases Modifier.read? (c :: p) with
      | none =>
        cases Text.atLineEnd (c :: p) with
        | true => exact .malformed _
        | false => exact .malformed _
      | some mr => exact .modified _ _ _

theorem head_of_ne_dollar {c : Char} (hc : c ≠ '$') (s : Text) :
    head (c :: s) = .absent (c :: s) := by
  unfold head
  split
  · rename_i h
    exact absurd (List.cons.inj h).1 hc
  · rename_i h
    exact absurd (List.cons.inj h).1 hc
  · rfl

theorem head_of_head? {s : Text} (hs : s.head? ≠ some '{') :
    head ('$' :: s) =
      match s.takeWhile isNameChar with
      | [] => .absent s
      | c :: name =>
        if c.isDigit then .absent s else .whole (bareParts (c :: name)) (s.dropWhile isNameChar) :=
  head.eq_2 s fun _ h => hs (h ▸ rfl)

theorem head_bare {d : Char} (hd : d ≠ '{') (s : Text) :
    head ('$' :: d :: s) =
      match (d :: s).takeWhile isNameChar with
      | [] => .absent (d :: s)
      | c :: name =>
        if c.isDigit then .absent (d :: s)
        else .whole (bareParts (c :: name)) ((d :: s).dropWhile isNameChar) :=
  head_of_head? (by simpa using hd)

theorem head_extends {p : Text} (hp : HasNewline p) (x : Text) :
    (head p).Extends x (head (p ++ x)) := by
  have hname : ∀ s : Text, HasNewline s → (s ++ x).takeWhile isNameChar = s.takeWhile isNameChar ∧
      (s ++ x).dropWhile isNameChar = s.dropWhile isNameChar ++ x ∧
      HasNewline (s.dropWhile isNameChar) :=
    fun s hs => (peels_newline (by decide)).takeWhile_append hs x
  cases p with
  | nil => cases hp
  | cons c p =>
    by_cases hc : c = '$'
    · subst hc
      have hp : HasNewline p := by simpa [HasNewline] using hp
      cases p with
      | nil => cases hp
      | cons d s =>
        by_cases hd : d = '{'
        · subst hd
          have hs : HasNewline s := by simpa [HasNewline] using hp
          obtain ⟨ht, hdrop, hnl⟩ := hname s hs
          rw [List.cons_append, List.cons_append, head, head, ht, hdrop]
          cases s.takeWhile isNameChar with
          | nil => exact .malformed _
          | cons c name => exact headBraced_extends hnl _ _
        · obtain ⟨ht, hdrop, -⟩ := hname (d :: s) hp
          rw [List.cons_append] at ht hdrop
          rw [List.cons_append, List.cons_append, head_bare hd, head_bare hd, ht, hdrop]
          cases (d :: s).takeWhile isNameChar with
          | nil => exact .absent _ _
          | cons c name =>
            dsimp only
            cases c.isDigit with
            | true => exact .absent _ _
            | false => exact .whole _ _
    · rw [List.cons_append, head_of_ne_dollar hc, head_of_ne_dollar hc]
      exact .absent _ _

end Reference

/-! ## Steps -/

namespace Literal

/-- The quotes have the same mark, or none is open. -/
def SameQuote (q q' : Option Quote) : Prop :=
  q.map Quote.mark = q'.map Quote.mark

/-- Single quotes are open in both or in neither. -/
theorem SameQuote.any_eq {q q' : Option Quote} (hq : SameQuote q q') :
    q'.any (·.mark = '\'') = q.any (·.mark = '\'') := by
  cases q with
  | none =>
    cases q' with
    | none => rfl
    | some a => cases hq
  | some a =>
    cases q' with
    | none => cases hq
    | some b =>
      have hab : a.mark = b.mark := Option.some.inj hq
      simp [hab]

/-- What a step does on a text with `x` behind it. -/
inductive Step.Extends (x : Text) : Step → Step → Prop where
  | stop : Extends x .stop .stop
  | take (ps : List Piece) {q q' : Option Quote} (hq : SameQuote q q') (r : Text) :
      Extends x (.take ps q r) (.take ps q' (r ++ x))
  | last (ps : List Piece) (r : Text) : Extends x (.last ps r) (.last ps (r ++ x))
  | reference (name : Text) (m : Modifier) (r : Text) :
      Extends x (.reference name m r) (.reference name m (r ++ x))
  | malformed (problem : Problem) : Extends x (.malformed problem) (.malformed problem)

section

variable {q q' : Option Quote} {s : Text} (hq : SameQuote q q') (hs : HasNewline s) (x : Text)
include hq hs

theorem stepEscaped_extends (c : Char) :
    (stepEscaped q c s).Extends x (stepEscaped q' c (s ++ x)) := by
  cases s with
  | nil => cases hs
  | cons d s =>
    have hend := Text.atLineEnd_append hs x
    rw [List.cons_append] at hend ⊢
    rw [stepEscaped, stepEscaped, hend]
    cases Text.atLineEnd (d :: s) with
    | true => exact .take _ hq _
    | false => exact .take _ hq _

theorem stepChar_extends (style : Style) (c : Char) :
    (stepChar style q c s).Extends x (stepChar style q' c (s ++ x)) := by
  unfold stepChar
  rw [hq.any_eq]
  split
  · unfold stepDollar
    have hh := Reference.head_extends (hs.cons '$') x
    rw [List.cons_append] at hh
    generalize Reference.head ('$' :: s) = o at hh
    generalize Reference.head ('$' :: (s ++ x)) = o' at hh
    cases hh with
    | absent r r' => exact .take _ hq _
    | whole parts r => exact .take _ hq _
    | modified name m r => exact .reference _ _ _
    | malformed problem => exact .malformed _
  · exact .take _ hq _

end

theorem stepEscape_extends {escape : Char} {q q' : Option Quote} {s : Text} (he : escape ≠ '\n')
    (hq : SameQuote q q') (hs : HasNewline s)
    (hc : ∀ ts r, continuation escape (escape :: s) = .ok ts r → HasNewline r) (x : Text) :
    (stepEscape q escape s).Extends x (stepEscape q' escape (s ++ x)) := by
  unfold stepEscape
  obtain ⟨ts, r, e⟩ | hstuck := continuation_eq_ok_or_stuck escape (escape :: s)
  · have e' := (stable_continuation he (escape :: s) x ts r (hc ts r e)).2 e
    rw [List.cons_append] at e'
    rw [e, e']
    exact .take _ hq _
  · have hstuck' := (refuses_continuation he (escape :: s) x (hs.cons _)).2 hstuck
    rw [List.cons_append] at hstuck'
    obtain ⟨m, e⟩ := hstuck
    obtain ⟨m', e'⟩ := hstuck'
    rw [e, e']
    exact stepEscaped_extends hq hs x escape

/-- The steps on two texts that begin alike are related if what they can do is: to stop at the end
of the line, to escape, or to take the first character in one of the ways there are. -/
theorem step_related {R : Step → Step → Prop} {style : Style} {e c : Char} {q q' : Option Quote}
    {s s' : Text} (hq : SameQuote q q')
    (hend : Text.atLineEnd (c :: s') = Text.atLineEnd (c :: s))
    (hescape : c = e → R (stepEscape q e s) (stepEscape q' e s'))
    (hescaped : Text.atLineEnd (c :: s) = false → style.jsonEscapes = true →
      R (stepEscaped q c s) (stepEscaped q' c s'))
    (hchar : Text.atLineEnd (c :: s) = false → ∀ q q', SameQuote q q' →
      R (stepChar style q c s) (stepChar style q' c s'))
    (hstop : R .stop .stop)
    (htake : ∀ ps q q', SameQuote q q' → R (.take ps q s) (.take ps q' s'))
    (hlast : ∀ ps, R (.last ps s) (.last ps s')) :
    R (step style e q (c :: s)) (step style e q' (c :: s')) := by
  rw [step.eq_def, step.eq_def]
  dsimp only
  rw [hend]
  by_cases hesc : c = e
  · rw [if_pos hesc, if_pos hesc]
    exact hescape hesc
  rw [if_neg hesc, if_neg hesc]
  cases hline : Text.atLineEnd (c :: s) with
  | true => exact hstop
  | false =>
    rw [if_neg Bool.false_ne_true, if_neg Bool.false_ne_true]
    split
    · rename_i hslash
      exact hescaped hline (Bool.and_eq_true_iff.1 hslash).1
    · cases q with
      | none =>
        cases q' with
        | some b => cases hq
        | none =>
          dsimp only [stepUnquoted]
          split
          · exact htake _ _ _ rfl
          · split
            · exact hstop
            · split
              · split
                · exact hstop
                · exact htake _ _ _ rfl
              · exact hchar hline none none rfl
      | some a =>
        cases q' with
        | none => cases hq
        | some b =>
          have hab : a.mark = b.mark := Option.some.inj hq
          dsimp only [stepQuoted]
          rw [← hab]
          split
          · split
            · exact hlast _
            · exact htake _ _ _ rfl
          · exact hchar hline _ _ hq

/-- A step does the same on a text with more text behind it.  A continuation that it takes must
leave a line feed, since otherwise it could go on into the text behind. -/
theorem step_extends {style : Style} {escape : Char} {q q' : Option Quote} {p : Text}
    (he : escape ≠ '\n') (hq : SameQuote q q') (hp : HasNewline p)
    (hc : ∀ ts r, continuation escape p = .ok ts r → HasNewline r) (x : Text) :
    (step style escape q p).Extends x (step style escape q' (p ++ x)) := by
  cases p with
  | nil => cases hp
  | cons c s =>
    have hs (hline : Text.atLineEnd (c :: s) = false) : HasNewline s := by
      obtain rfl | hs := List.mem_cons.1 hp
      · cases hline
      · exact hs
    refine step_related hq (Text.atLineEnd_append hp x) ?_ ?_ ?_ .stop ?_ ?_
    · rintro rfl
      have hs : HasNewline s := (peels_newline (q := (· == c)) (by simpa using he.symm)).tail c s
        (by simp) hp
      exact stepEscape_extends he hq hs hc x
    · exact fun hline _ => stepEscaped_extends hq (hs hline) x c
    · exact fun hline q q' hq => stepChar_extends hq (hs hline) x style c
    · exact fun ps q q' hq => .take ps hq s
    · exact fun ps => .last ps s

/-! ## Literals -/

/-- The brace that closes a reference ends its word. -/
theorem step_closingBrace {escape : Char} (he : IsEscape escape) (s : Text) :
    step .modifierWord escape none ('}' :: s) = .stop := by
  have hescape : '}' ≠ escape := by
    rintro rfl
    rcases he with he | he <;> cases he
  simp [step, stepUnquoted, Style.modifierWord, hescape, Text.atLineEnd]

theorem step_of_continuation {style : Style} {escape : Char} {q : Option Quote} {s r : Text}
    {ts : List Token} (h : continuation escape s = .ok ts r) :
    step style escape q s = .take (ts.map .token) q r := by
  obtain ⟨s', rfl⟩ := eq_cons_of_continuation h
  rw [step.eq_def]
  simp [stepEscape, h]

variable {escape : Char} {style : Style} {q q' : Option Quote} {p r x : Text} {ps : List Piece}

/-- A step that leaves a line feed if it goes on is the same step with more text behind. -/
theorem step_append {st : Step} (he : escape ≠ '\n') (hq : SameQuote q q') (hp : HasNewline p)
    (h : step style escape q p = st) (hm : ∀ ps q1 m, st = .take ps q1 m → HasNewline m)
    (x : Text) : st.Extends x (step style escape q' (p ++ x)) := by
  subst h
  exact step_extends he hq hp (fun ts r e => hm _ _ _ (step_of_continuation e)) x

/-- A step that leaves a line feed if it goes on is the same step without the text behind. -/
theorem step_cut {st : Step} (he : escape ≠ '\n') (hq : SameQuote q q') (hp : HasNewline p)
    (h : step style escape q (p ++ x) = st)
    (hm : ∀ ps q1 t, st = .take ps q1 t → ∃ m, t = m ++ x ∧ HasNewline m) :
    (step style escape q' p).Extends x st := by
  subst h
  refine step_extends he hq.symm hp (fun ts r e => ?_) x
  obtain ⟨us, t, e'⟩ | hstuck := continuation_eq_ok_or_stuck escape (p ++ x)
  · obtain ⟨m, rfl, hnl⟩ := hm _ _ _ (step_of_continuation e')
    rw [(stable_continuation he _ _ _ _ hnl).1 e'] at e
    cases e
    exact hnl
  · obtain ⟨m, hm⟩ := (refuses_continuation he p x hp).1 hstuck
    rw [hm] at e
    cases e

theorem Scans.hasNewline (h : Scans escape style q p ps r) (hr : HasNewline r) : HasNewline p :=
  h.sourceOf_append_eq ▸ hr.append_left _

/-- A reading that leaves a line feed is the same reading with more text behind. -/
theorem Scans.append (he : escape ≠ '\n') (h : Scans escape style q p ps r) (hr : HasNewline r)
    (hq : SameQuote q q') (x : Text) : Scans escape style q' (p ++ x) ps (r ++ x) := by
  induction h generalizing q' with
  | stop hstep =>
    have hx := step_append he hq hr hstep nofun x
    cases q' with
    | some b => cases hq
    | none =>
      generalize hst : step _ escape none _ = st at hx
      cases hx
      exact .stop hst
  | take hstep hm ih =>
    have hnl := hm.hasNewline hr
    have hp := (Scans.take hstep hm).hasNewline hr
    have hx := step_append he hq hp hstep (fun _ _ _ e => by cases e; exact hnl) x
    generalize hst : step _ escape q' _ = st at hx
    cases hx with
    | take _ hq1 _ => exact .take hst (ih hr hq1)
  | last hstep =>
    have hx := step_append he hq ((Scans.last hstep).hasNewline hr) hstep nofun x
    generalize hst : step _ escape q' _ = st at hx
    cases hx
    exact .last hst
  | reference hstep hw hm ihw ih =>
    have hnl := hm.hasNewline hr
    have hp := (Scans.reference hstep hw hm).hasNewline hr
    have hx := step_append he hq hp hstep nofun x
    generalize hst : step _ escape q' _ = st at hx
    cases hx
    exact .reference hst (ihw (hnl.cons '}') rfl) (ih hr hq)

theorem Scans.hasNewline_of_append (h : Scans escape style q (p ++ x) ps (r ++ x))
    (hr : HasNewline r) : HasNewline p := by
  have hp : sourceOf ps ++ r ++ x = p ++ x := by rw [List.append_assoc, h.sourceOf_append_eq]
  exact List.append_cancel_right hp ▸ hr.append_left _

/-- A reading that leaves a line feed is the same reading without the text behind. -/
theorem Scans.cut (he : escape ≠ '\n') (h : Scans escape style q (p ++ x) ps (r ++ x))
    (hr : HasNewline r) (hq : SameQuote q q') : Scans escape style q' p ps r := by
  generalize hS : p ++ x = S at h
  generalize hR : r ++ x = R at h
  induction h generalizing q' p r with
  | stop hstep =>
    obtain rfl := List.append_cancel_right (hS.trans hR.symm)
    rw [← hS] at hstep
    have hx := step_cut he hq hr hstep nofun
    cases q' with
    | some b => cases hq
    | none =>
      generalize hst : step _ escape none _ = st at hx
      cases hx
      exact .stop hst
  | @take style quote q1 S M R ps qs hstep hm ih =>
    subst hS hR
    have hM : sourceOf qs ++ r ++ x = M := by rw [List.append_assoc, hm.sourceOf_append_eq]
    have hp := (Scans.take hstep hm).hasNewline_of_append hr
    have hx := step_cut he hq hp hstep
      (fun _ _ _ e => by cases e; exact ⟨_, hM.symm, hr.append_left _⟩)
    generalize hst : step style escape q' p = st at hx
    cases hx with
    | take _ hq1 m => exact .take hst (ih hr hq1.symm rfl rfl)
  | @last style quote S R ps hstep =>
    subst hS hR
    have hp := (Scans.last hstep).hasNewline_of_append hr
    have hx := step_cut he hq hp hstep nofun
    generalize hst : step style escape q' p = st at hx
    generalize hR : r ++ x = R at hx
    cases hx with
    | last _ m =>
      obtain rfl := List.append_cancel_right hR
      exact .last hst
  | @reference style quote S M M' R name op ws qs hstep hw hm ihw ih =>
    subst hS hR
    have hM : sourceOf qs ++ r ++ x = M' := by rw [List.append_assoc, hm.sourceOf_append_eq]
    have hp := (Scans.reference hstep hw hm).hasNewline_of_append hr
    have hx := step_cut he hq hp hstep nofun
    generalize hst : step style escape q' p = st at hx
    cases hx with
    | reference _ _ m =>
      have hnl : HasNewline (sourceOf qs ++ r) := hr.append_left _
      refine .reference hst (ihw (r := '}' :: (sourceOf qs ++ r)) (hnl.cons _) rfl rfl ?_) ?_
      · rw [← hM]
        rfl
      · exact ih hr hq hM rfl

/-- A literal without blanks that are left out at its end is stable. -/
theorem stable_grammar (he : escape ≠ '\n') (hs : style.trimsEnd = false) :
    Stable (grammar style escape) := by
  refine Stable.node _ fun p x ts r hr => ?_
  have hcut : ∀ ps : List Piece, Literal.cut style ps = (ps, []) := by
    intro ps
    rw [Literal.cut, hs]
    rfl
  simp only [body_eq_ok, hcut, List.nil_append]
  constructor
  · rintro ⟨ps, m, h, rfl, rfl, hne⟩
    exact ⟨ps, r, h.cut he hr rfl, rfl, rfl, hne⟩
  · rintro ⟨ps, m, h, rfl, rfl, hne⟩
    exact ⟨ps, r ++ x, h.append he hr rfl x, rfl, rfl, hne⟩

end Literal

end Containerfile
