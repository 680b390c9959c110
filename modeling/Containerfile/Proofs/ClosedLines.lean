import Containerfile.Proofs.Steps

/-!
# Texts in which a line ends

A text is closed if a walk through it comes to a line end.  What is behind that line end is then of
no interest to the readers of arguments: their answers are decided on closed texts.

This needs that all readers agree on which line ends are escaped.  They do, but for the strings of
an array when the escape character is a backtick.

## Main definitions

* `Closed` — the line that the text begins in has an end.

## Main results

* `argumentReaders_within` — the readers of arguments are decided on closed texts.
* `arrayReaders_within` — so are those of arrays, if the backslash is the escape character.
* `Walk.closed_of_bracket` — an array that is followed by a closed text begins a closed text,
  whichever the escape character is.
-/

namespace Containerfile

open Lexeme

/-- A walk through the text, without the special moves in the strings of an array, comes to a line
end. -/
inductive Closed (escape : Char) : Text → Prop where
  | lineEnd {c : Char} {s : Text} (h : Text.atLineEnd (c :: s) = true) : Closed escape (c :: s)
  | plain {c : Char} {s : Text} (hc : c ≠ escape) (h : Closed escape s) : Closed escape (c :: s)
  | pair {d : Char} {s : Text} (hc : ∃ m, continuation escape (escape :: d :: s) = .stuck m)
      (h : Closed escape s) : Closed escape (escape :: d :: s)
  | continuation {s r : Text} {ts : List Token} (hc : continuation escape s = .ok ts r)
      (h : Closed escape r) : Closed escape s

namespace Closed

variable {escape : Char} {s r : Text}

theorem ne_nil (h : Closed escape s) : s ≠ [] := by
  rintro rfl
  cases h with
  | continuation hc _ =>
    obtain ⟨s', hs⟩ := eq_cons_of_continuation hc
    cases hs

theorem hasNewline (h : Closed escape s) : HasNewline s := by
  induction h with
  | lineEnd h =>
    obtain rfl | ⟨rfl, r, rfl⟩ := Text.atLineEnd_cons.1 h
    · exact List.mem_cons_self
    · exact HasNewline.cons List.mem_cons_self _
  | plain _ _ ih => exact ih.cons _
  | pair _ _ ih => exact (ih.cons _).cons _
  | continuation hc _ ih => exact lossless_continuation escape _ _ _ hc ▸ ih.append_left _

theorem tail {c : Char} (h : Closed escape (c :: s)) (hc : c ≠ escape)
    (hs : Text.atLineEnd (c :: s) = false) : Closed escape s := by
  cases h with
  | lineEnd h =>
    rw [hs] at h
    cases h
  | plain _ h => exact h
  | pair _ _ => exact absurd rfl hc
  | continuation hc' _ =>
    obtain ⟨s', hs'⟩ := eq_cons_of_continuation hc'
    cases hs'
    exact absurd rfl hc

theorem of_continuation {ts : List Token} (h : Closed escape s)
    (hc : Lexeme.continuation escape s = .ok ts r) (he : isLineBreak escape = false) :
    Closed escape r := by
  obtain ⟨s', rfl⟩ := eq_cons_of_continuation hc
  cases h with
  | lineEnd h =>
    rw [Text.atLineEnd_eq_false he] at h
    cases h
  | plain hc' _ => exact absurd rfl hc'
  | pair hc' _ =>
    obtain ⟨m, hm⟩ := hc'
    rw [hc] at hm
    cases hm
  | continuation hc' h =>
    rw [hc] at hc'
    cases hc'
    exact h

theorem of_pair {d : Char} (h : Closed escape (escape :: d :: s))
    (hc : ∃ m, Lexeme.continuation escape (escape :: d :: s) = .stuck m)
    (he : isLineBreak escape = false) : Closed escape s := by
  cases h with
  | lineEnd h =>
    rw [Text.atLineEnd_eq_false he] at h
    cases h
  | plain hc' _ => exact absurd rfl hc'
  | pair _ h => exact h
  | continuation hc' _ =>
    obtain ⟨m, hm⟩ := hc
    rw [hc'] at hm
    cases hm

/-- What can be reached from a closed text is closed. -/
theorem walk (he : IsEscape escape) (h : Walk escape false s r) :
    Closed escape s → Closed escape r := by
  intro hs
  induction h with
  | refl s => exact hs
  | plain hc hend _ ih => exact ih (hs.tail hc hend)
  | pair hc hend _ ih =>
    obtain ⟨rfl, hc⟩ | ⟨-, -, hj⟩ := hc
    · exact ih (hs.of_pair hc he.isLineBreak)
    · cases hj
  | lone =>
    cases hs with
    | lineEnd h =>
      rw [Text.atLineEnd_eq_false he.isLineBreak] at h
      cases h
    | plain hc _ => exact absurd rfl hc
    | continuation hc _ =>
      obtain ⟨ts, r, hn⟩ := continuation_cons_eq_ok.1 ⟨_, _, hc⟩
      obtain ⟨h, -⟩ | ⟨h, -⟩ := newline_eq_ok.1 hn <;> cases h
  | continuation hc _ ih => exact ih (hs.of_continuation hc he.isLineBreak)

/-- A text from which a closed text can be reached is closed. -/
theorem of_walk (h : Walk escape false s r) : Closed escape r → Closed escape s := by
  intro hr
  induction h with
  | refl s => exact hr
  | plain hc _ _ ih => exact .plain hc (ih hr)
  | pair hc _ _ ih =>
    obtain ⟨rfl, hc⟩ | ⟨-, -, hj⟩ := hc
    · exact .pair hc (ih hr)
    · cases hj
  | lone => exact absurd rfl hr.ne_nil
  | continuation hc _ ih => exact .continuation hc (ih hr)

theorem of_newline {ts : List Token} (h : newline s = .ok ts r) : Closed escape s := by
  obtain ⟨rfl, -⟩ | ⟨rfl, -⟩ := newline_eq_ok.1 h
  · exact .lineEnd rfl
  · exact .lineEnd rfl

/-- Characters that neither escape nor end a line can be taken off a closed text. -/
theorem peels (he : IsEscape escape) {q : Char → Bool}
    (hq : (q '\\' || q '`' || q '\r' || q '\n') = false) : Peels (Closed escape) q where
  nil h := absurd rfl h.ne_nil
  tail c s hc h := by
    have ho := he.ordinary hq c hc
    exact h.tail ho.1 (Text.atLineEnd_eq_false ho.2)

end Closed

/-! ## Walks behind which more text stands -/

/-- A walk to a place with a line feed behind it does not depend on what is behind the text. -/
theorem Walk.cut {escape : Char} {json : Bool} (he : IsEscape escape) {s r x : Text}
    (hr : HasNewline r) (h : Walk escape json (s ++ x) (r ++ x)) : Walk escape json s r := by
  generalize hS : s ++ x = S at h
  generalize hR : r ++ x = R at h
  induction h generalizing s with
  | refl S =>
    obtain rfl := List.append_cancel_right (hS.trans hR.symm)
    exact .refl _
  | @plain c S R hc hend hw ih =>
    obtain ⟨w, hw⟩ := hw.suffix
    rw [hw, ← hR, ← List.append_assoc] at hS hend ih
    rw [← List.cons_append] at hS hend
    obtain rfl := List.append_cancel_right hS
    have hnl : HasNewline (w ++ r) := hr.append_left w
    rw [Text.atLineEnd_append (hnl.cons c)] at hend
    exact .plain hc hend (ih rfl rfl)
  | @pair c d S R hc hend hw ih =>
    obtain ⟨w, hw⟩ := hw.suffix
    rw [hw, ← hR, ← List.append_assoc] at hS hend ih hc
    rw [← List.cons_append] at hS hend hc
    rw [← List.cons_append] at hS hc
    obtain rfl := List.append_cancel_right hS
    have hnl : HasNewline (w ++ r) := hr.append_left w
    rw [Text.atLineEnd_append (hnl.cons d)] at hend
    rw [refuses_continuation he.ne_newline _ _ ((hnl.cons d).cons c)] at hc
    exact .pair hc hend (ih rfl rfl)
  | lone =>
    rw [List.append_eq_nil_iff] at hR
    rw [hR.1] at hr
    cases hr
  | @continuation S M R ts hc hw ih =>
    obtain ⟨w, rfl⟩ := hw.suffix
    rw [← hR, ← List.append_assoc] at hc ih
    rw [← hS] at hc
    exact .continuation ((stable_continuation he.ne_newline _ _ _ _ (hr.append_left w)).1 hc)
      (ih rfl rfl)

/-! ## Literals -/

namespace Literal

variable {escape : Char} {style : Style} {q q' : Option Quote} {p : Text}

/-- The scan of a text with `x` behind it. -/
inductive Scanned.Extends (x : Text) : Scanned → Scanned → Prop where
  | ok (ps : List Piece) (r : Text) : Extends x (.ok (ps, r)) (.ok (ps, r ++ x))
  | error (f f' : Fault) : Extends x (.error f) (.error f')

theorem Scanned.Extends.prepend {x : Text} {o o' : Scanned} (h : Scanned.Extends x o o')
    (ps : List Piece) : Scanned.Extends x (o.prepend ps) (o'.prepend ps) := by
  cases h with
  | ok qs r => exact .ok _ _
  | error f f' => exact .error _ _

theorem closeReference_eq_error {c : Char} (hc : c ≠ '}') (start name r : Text) (m : Modifier)
    (ps : List Piece) :
    closeReference start name m (.ok (ps, c :: r)) = .error ⟨.malformed .missingBrace, start⟩ := by
  unfold closeReference
  split
  · rename_i h
    cases h
    exact absurd rfl hc
  · rfl
  · rename_i h
    cases h

section Closed

variable (he : IsEscape escape) (hj : style.jsonEscapes = true → escape = '\\')
include he hj

theorem closed_of_step_take {ps : List Piece} {r : Text}
    (h : step style escape q p = .take ps q' r) (hp : Closed escape p) : Closed escape r :=
  hp.walk he ((takes_step (fun hs => .inr (hj hs)) h).walk he)

theorem closed_of_scan {ps : List Piece} {r : Text} (h : scan style escape q p = .ok (ps, r))
    (hp : Closed escape p) : Closed escape r :=
  hp.walk he ((scan_eq_ok.1 h).walk he fun hs => .inr (hj hs))

/-- A reading of a closed text ends in the same way with more text behind, be it a success or an
error. -/
theorem scan_extends (hp : Closed escape p) (hq : SameQuote q q') (x : Text) :
    (scan style escape q p).Extends x (scan style escape q' (p ++ x)) := by
  induction hn : p.length using Nat.strongRecOn generalizing p q q' style with
  | ind n ih =>
    have hx : (step style escape q p).Extends x (step style escape q' (p ++ x)) :=
      step_append he.ne_newline hq hp.hasNewline rfl
        (fun _ _ _ e => (closed_of_step_take he hj e hp).hasNewline) x
    rw [scan.eq_def, scan.eq_def]
    generalize hst : step style escape q p = st at hx
    generalize step style escape q' (p ++ x) = st' at hx
    cases hx with
    | stop =>
      cases q with
      | none =>
        cases q' with
        | none => exact .ok _ _
        | some b => cases hq
      | some a =>
        cases q' with
        | none => cases hq
        | some b => exact .error _ _
    | take ps hq1 r =>
      have hlt := length_lt_of_step_take hst
      have hlt' : (r ++ x).length < (p ++ x).length := by
        simp only [List.length_append]
        omega
      simp only [hlt, hlt', if_true]
      refine Scanned.Extends.prepend ?_ ps
      exact ih _ (hn ▸ hlt) hj (closed_of_step_take he hj hst hp) hq1 rfl
    | last ps r => exact .ok _ _
    | reference name m r =>
      have hlt := length_lt_of_step_reference hst
      have hlt' : (r ++ x).length < (p ++ x).length := by
        simp only [List.length_append]
        omega
      have hr : Closed escape r := hp.walk he (walk_of_step_reference he hst)
      have hword : (scan .modifierWord escape none r).Extends x
          (scan .modifierWord escape none (r ++ x)) := ih _ (hn ▸ hlt) nofun hr rfl rfl
      simp only [hlt, hlt', if_true]
      generalize hw : scan .modifierWord escape none r = o at hword
      generalize scan .modifierWord escape none (r ++ x) = o' at hword
      cases hword with
      | error f f' => exact .error _ _
      | ok ws r' =>
        have hr' : Closed escape r' := closed_of_scan he (absurd · (by decide)) hw hr
        cases r' with
        | nil => exact absurd rfl hr'.ne_nil
        | cons c m' =>
          by_cases hc : c = '}'
          · subst hc
            have hb : Ordinary escape '}' := he.ordinary (q := (· == '}')) (by decide) '}' rfl
            have hm' : Closed escape m' := hr'.tail hb.1 (Text.atLineEnd_eq_false hb.2)
            have hlt1 := Scans.length_lt_of_reference hst (scan_eq_ok.1 hw)
            have hlt2 : (m' ++ x).length < (p ++ x).length := by
              simp only [List.length_append]
              omega
            simp only [List.cons_append, closeReference, hlt1, hlt2, if_true]
            exact Scanned.Extends.prepend (ih _ (hn ▸ hlt1) hj hm' hq rfl) _
          · rw [List.cons_append, closeReference_eq_error hc, closeReference_eq_error hc]
            exact .error _ _
    | malformed problem => exact .error _ _

/-- Literals are decided on closed texts, unless a backslash is special in them and not the escape
character. -/
theorem within_grammar : Within (Closed escape) (grammar style escape) where
  decided := Decided.node _ fun p hp x => by
    unfold body
    have hx : (scan style escape none p).Extends x (scan style escape none (p ++ x)) :=
      scan_extends he hj hp rfl x
    generalize scan style escape none p = o at hx
    generalize scan style escape none (p ++ x) = o' at hx
    cases hx with
    | error f f' => exact .failed _ _
    | ok ps r =>
      unfold ofScanned
      dsimp only
      rw [← List.append_assoc]
      cases assemble (if style.trimsEnd = true then trimEnd ps else (ps, [])).1 with
      | nil =>
        dsimp only
        split
        · exact .ok _ _
        · exact .stuck _ _
      | cons t ts => exact .ok _ _
  rest p ts r e hp := hp.walk he (walks_literal he (fun hs => .inr (hj hs)) p ts r e)

end Closed

end Literal

/-! ## Readers of arguments -/

theorem Lexeme.decided_lineEnd (escape : Char) : Decided (Closed escape) lineEnd := by
  refine Decided.either (fun p hp x => ?_) (fun p hp x => decided_newline p hp.hasNewline x)
  cases p with
  | nil => exact absurd rfl hp.ne_nil
  | cons c p => exact .stuck _ _

section Readers

variable {escape : Char} (he : IsEscape escape)
include he

theorem Lexeme.within_continuation : Within (Closed escape) (continuation escape) where
  decided p hp x := by
    obtain ⟨ts, r, e⟩ | ⟨m, e⟩ := continuation_eq_ok_or_stuck escape p
    · have hr := (hp.of_continuation e he.isLineBreak).hasNewline
      rw [e, (stable_continuation he.ne_newline p x ts r hr).2 e]
      exact .ok _ _
    · obtain ⟨m', e'⟩ := (refuses_continuation he.ne_newline p x hp.hasNewline).2 ⟨m, e⟩
      rw [e, e']
      exact .stuck _ _
  rest p ts r e hp := hp.of_continuation e he.isLineBreak

/-- The readers of arguments are decided on closed texts, and leave closed texts. -/
theorem argumentReaders_within : ArgumentReaders (Within (Closed escape)) escape where
  toSequential := (compositional_within _).toSequential
  keyValue := (compositional_within _).node _ rfl
  blanks := (Closed.peels he (by decide)).within_run _
  continuation := within_continuation he
  keyword k := (Closed.peels he (by decide)).within_keyword k.isNameChar_of_mem_name
  stageKeyword :=
    (Closed.peels he (by decide)).within_keyword (List.all_eq_true.1 (by decide))
  stageName := (Closed.peels he (by decide)).within_run _
  flagName := (Closed.peels he (by decide)).within_run _
  labelName := (Closed.peels he (by decide)).within_run _
  dashes := (Closed.peels he (q := (· == '-')) (by decide)).within_exactly _
    (List.all_eq_true.1 (by decide))
  equals := (Closed.peels he (q := (· == '=')) (by decide)).within_exactly _
    (List.all_eq_true.1 (by decide))
  literal style hs := Literal.within_grammar he (by rw [hs]; nofun)

theorem Lexeme.decided_finish : Decided (Closed escape) (finish escape) := by
  have h := argumentReaders_within he
  exact (h.optional h.separator).seq_decided ((decided_lineEnd escape).commit _)

theorem Lexeme.atFinish_append {p : Text} (hp : Closed escape p) (x : Text) :
    atFinish escape (p ++ x) = atFinish escape p := by
  have h := argumentReaders_within he
  have hsep := h.optional h.separator
  have hx := hsep.decided p hp x
  unfold atFinish
  generalize hs : Grammar.optional (separator escape) p = o at hx
  generalize Grammar.optional (separator escape) (p ++ x) = o' at hx
  cases hx with
  | ok ts r => exact Text.atLineEnd_append (hsep.rest p ts r hs hp).hasNewline x
  | stuck m m' => rfl
  | failed f f' => rfl

end Readers

/-- Where the backslash is the escape character, arrays are decided on closed texts as well. -/
theorem arrayReaders_within : ArrayReaders (Within (Closed '\\')) '\\' := by
  have he : IsEscape '\\' := .inl rfl
  exact { argumentReaders_within he with
    execForm := (compositional_within _).node _ rfl
    openingBracket := (Closed.peels he (q := (· == '[')) (by decide)).within_exactly _
      (List.all_eq_true.1 (by decide))
    comma := (Closed.peels he (q := (· == ',')) (by decide)).within_exactly _
      (List.all_eq_true.1 (by decide))
    closingBracket := (Closed.peels he (q := (· == ']')) (by decide)).within_exactly _
      (List.all_eq_true.1 (by decide))
    quoteAhead := within_when fun s hs x => by
      cases s with
      | nil => exact absurd rfl hs.ne_nil
      | cons c s => rfl
    element := fun references => Literal.within_grammar he fun _ => rfl
    finishAhead := within_when fun s hs x => atFinish_append he hs x }

end Containerfile
