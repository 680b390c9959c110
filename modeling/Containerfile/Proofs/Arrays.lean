import Containerfile.Proofs.ClosedLines

/-!
# Arrays and what is behind them

An array ends with its bracket, so whether a text starts with an array is settled by the text up
to there.  A walk to the bracket may have made moves that a walk outside arrays does not make.
Still, if the text behind the bracket is closed, then so is the text from the beginning of the
array on: the two walks can only be apart by one character, and the bracket is not one that can be
escaped.

## Main results

* `Walk.closed_of_bracket` — a text is closed if a walk comes to a bracket and the text behind the
  bracket is closed.
* `ExecForm.stable_grammar` — arrays are stable.
-/

namespace Containerfile

open Lexeme

/-! ## Walks to a bracket -/

namespace Walk

variable {escape : Char} {s m : Text}

theorem not_newline_of_ordinary {c : Char} (hc : isLineBreak c = false) :
    ¬ ∃ ts r, newline (c :: s) = .ok ts r := by
  rintro ⟨ts, r, e⟩
  obtain ⟨h, -⟩ | ⟨h, -⟩ := newline_eq_ok.1 e <;> cases h <;> cases hc

/-- Where a walk comes to a bracket, there are not only blanks before the next line end. -/
theorem not_newline_of_bracket (he : IsEscape escape) (h : Walk escape true s (']' :: m)) :
    ¬ ∃ ts r, newline (s.dropWhile isBlank) = .ok ts r := by
  have hesc : isBlank escape = false ∧ isLineBreak escape = false := by
    obtain rfl | rfl := he <;> decide
  generalize hr : ']' :: m = r at h
  induction h with
  | refl s =>
    rw [← hr, List.dropWhile_cons_of_neg (by decide)]
    exact not_newline_of_ordinary rfl
  | @plain c s r hc hend _ ih =>
    by_cases hb : isBlank c = true
    · rw [List.dropWhile_cons_of_pos hb]
      exact ih hr
    · rw [List.dropWhile_cons_of_neg hb]
      rintro ⟨ts, r', e⟩
      obtain ⟨h, -⟩ | ⟨h, -⟩ := newline_eq_ok.1 e <;> cases h <;> cases hend
  | @pair c d s r hc _ _ ih =>
    have hc' : isBlank c = false ∧ isLineBreak c = false := by
      obtain ⟨rfl, -⟩ | ⟨-, rfl, -⟩ := hc
      · exact hesc
      · decide
    rw [List.dropWhile_cons_of_neg (by simp [hc'.1])]
    exact not_newline_of_ordinary hc'.2
  | lone => cases hr
  | continuation hc _ ih =>
    obtain ⟨s', rfl⟩ := eq_cons_of_continuation hc
    rw [List.dropWhile_cons_of_neg (by simp [hesc.1])]
    exact not_newline_of_ordinary hesc.2

theorem continuation_stuck_of_bracket (he : IsEscape escape) (h : Walk escape true s (']' :: m)) :
    ∃ k, Lexeme.continuation escape (escape :: s) = .stuck k := by
  obtain hok | hstuck := continuation_eq_ok_or_stuck escape (escape :: s)
  · exact absurd (continuation_cons_eq_ok.1 hok) (h.not_newline_of_bracket he)
  · exact hstuck

end Walk

theorem Closed.of_dropWhile {escape : Char} (he : IsEscape escape) {s : Text}
    (h : Closed escape (s.dropWhile isBlank)) : Closed escape s := by
  induction s with
  | nil => exact h
  | cons c s ih =>
    by_cases hc : isBlank c = true
    · rw [List.dropWhile_cons_of_pos hc] at h
      exact .plain (he.ordinary (by decide) c hc).1 (ih h)
    · rwa [List.dropWhile_cons_of_neg hc] at h

/-- A text is closed if a walk comes to a bracket and the text behind the bracket is closed.  The
same holds with one more escape character in front, which is what a walk outside arrays meets when
the two are apart. -/
theorem Walk.closed_of_bracket {escape : Char} (he : IsEscape escape) {s m : Text}
    (hm : Closed escape m) (h : Walk escape true s (']' :: m)) :
    Closed escape s ∧ Closed escape (escape :: s) := by
  generalize hr : ']' :: m = r at h
  induction h with
  | refl s =>
    subst hr
    have hb : Ordinary escape ']' := he.ordinary (q := (· == ']')) (by decide) ']' rfl
    exact ⟨.plain hb.1 hm, .pair (continuation_stuck_of_bracket he (.refl _)) hm⟩
  | @plain c s r hc hend h ih =>
    obtain ⟨hs, -⟩ := ih hr
    subst hr
    exact ⟨.plain hc hs, .pair (continuation_stuck_of_bracket he (.plain hc hend h)) hs⟩
  | @pair c d s r hc hend h ih =>
    obtain ⟨hs, hes⟩ := ih hr
    subst hr
    have hd : Closed escape (d :: s) := by
      by_cases hd : d = escape
      · rw [hd]
        exact hes
      · exact .plain hd hs
    refine ⟨?_, .pair (continuation_stuck_of_bracket he (.pair hc hend h)) hd⟩
    obtain ⟨rfl, hstuck⟩ | ⟨hne, -, -⟩ := hc
    · exact .pair hstuck hs
    · exact .plain hne hd
  | lone => cases hr
  | @continuation s k r ts hc h ih =>
    obtain ⟨hk, -⟩ := ih hr
    subst hr
    obtain ⟨s', rfl⟩ := eq_cons_of_continuation hc
    obtain ⟨ns, n, hn⟩ := continuation_cons_eq_ok.1 ⟨_, _, hc⟩
    have hs' : Closed escape s' := Closed.of_dropWhile he (Closed.of_newline hn)
    exact ⟨.continuation hc hk,
      .pair (continuation_stuck_of_bracket he (.continuation hc h)) hs'⟩

/-! ## Reading arrays -/

namespace Grammar

theorem seq_assoc (g h k : Grammar) : (g ++ h) ++ k = g ++ (h ++ k) := by
  funext s
  change seq (seq g h) k s = seq g (seq h k) s
  unfold seq
  cases g s with
  | ok ts r =>
    dsimp only
    cases h r with
    | ok us r' =>
      dsimp only
      cases k r' <;> simp
    | stuck m => rfl
    | failed f => rfl
  | stuck m => rfl
  | failed f => rfl

end Grammar

/-- A repetition that goes on to a certain character is stable if that character cannot start
another round. -/
theorem Stable.many_exactly {g : Grammar} (hg : Stable g) (hl : Lossless g)
    (ha : Grammar.Advances g) (kind : LeafKind) {c : Char} (hc : ∀ s, ∃ m, g (c :: s) = .stuck m) :
    Stable (.many g ++ .exactly kind [c]) := by
  have hlm := Grammar.compositional_lossless.many hl
  have hmany : ∀ (p x r : Text) (us : List Token), HasNewline r →
      (Grammar.many g (p ++ x) = .ok us (c :: r ++ x) ↔ Grammar.many g p = .ok us (c :: r)) := by
    intro p x r us hr
    have hr' : HasNewline (c :: r) := hr.cons c
    induction hn : p.length using Nat.strongRecOn generalizing p us with
    | ind n ih =>
      constructor
      · intro e
        obtain ⟨us, m, vs, hu, hlt, hm, rfl⟩ | ⟨hu, hlt⟩ | ⟨-, rfl, hp⟩ := Grammar.many_eq_ok.1 e
        · obtain rfl := hlm.eq_append hm rfl
          have hu' := (hg _ _ _ _ (hr'.append_left _)).1 hu
          have hlt' := ha _ _ _ hu'
          exact Grammar.many_eq_ok.2
            (.inl ⟨us, _, vs, hu', hlt', (ih _ (hn ▸ hlt') _ _ rfl).1 hm, rfl⟩)
        · exact absurd (ha _ _ _ hu) hlt
        · obtain rfl := List.append_cancel_right hp
          exact Grammar.many_eq_ok.2 (.inr (.inr ⟨hc r, rfl, rfl⟩))
      · intro e
        obtain ⟨us, m, vs, hu, hlt, hm, rfl⟩ | ⟨hu, hlt⟩ | ⟨-, rfl, rfl⟩ := Grammar.many_eq_ok.1 e
        · have hm' : HasNewline m := hlm _ _ _ hm ▸ hr'.append_left _
          have hu' := (hg _ x _ _ hm').2 hu
          exact Grammar.many_eq_ok.2
            (.inl ⟨us, _, vs, hu', ha _ _ _ hu', (ih _ (hn ▸ hlt) _ _ rfl).2 hm, rfl⟩)
        · exact absurd (ha _ _ _ hu) hlt
        · exact Grammar.many_eq_ok.2 (.inr (.inr ⟨hc _, rfl, rfl⟩))
  intro p x ts r hr
  rw [Grammar.seq_eq_ok, Grammar.seq_eq_ok]
  simp only [Grammar.exactly_eq_ok]
  constructor
  · rintro ⟨us, vs, m, hu, ⟨rfl, rfl⟩, rfl⟩
    exact ⟨us, _, _, (hmany p x r us hr).1 hu, ⟨rfl, rfl⟩, rfl⟩
  · rintro ⟨us, vs, m, hu, ⟨rfl, rfl⟩, rfl⟩
    exact ⟨us, _, _, (hmany p x r us hr).2 hu, ⟨rfl, rfl⟩, rfl⟩

namespace ExecForm

open Grammar

variable {escape : Char}

theorem decided_symbol {start : String} (hs : '\n' ∉ start.toList) :
    Decided HasNewline (symbol start) := by
  have hq : start.toList.contains '\n' = false := by simpa using hs
  exact ((peels_newline hq).within_exactly _ fun c hc => by simpa using hc).decided

theorem stable_symbol {start : String} (hs : '\n' ∉ start.toList) : Stable (symbol start) :=
  (decided_symbol hs).stable (lossless_exactly _ _)

theorem stable_optional_separator (he : escape ≠ '\n') : Stable (optional (separator escape)) :=
  (stable_separator he).optional (refuses_separator he)

theorem stable_element (he : escape ≠ '\n') (references : Bool) :
    Stable (element escape references) := by
  have hl := arrayReaders_lossless escape
  have hquote : Within HasNewline (when fun s => s.head? == some '"') :=
    within_when fun s hs x => by
      cases s with
      | nil => cases hs
      | cons c s => rfl
  refine Stable.seq (Stable.seq ?_ ?_ (hl.element references)) (stable_optional_separator he)
    (hl.optional hl.separator)
  · exact hquote.decided.stable hl.quoteAhead
  · exact Literal.stable_grammar he rfl

theorem advances_nextElement (escape : Char) (references : Bool) :
    Advances (nextElement escape references) := by
  have hl := arrayReaders_lossless escape
  exact ((advances_exactly _ (by decide)).seq (hl.optional hl.separator).shrinks).seq
    (hl.elementBody references).shrinks

theorem nextElement_stuck (escape : Char) (references : Bool) (s : Text) :
    ∃ m, nextElement escape references (']' :: s) = .stuck m :=
  ⟨']' :: s, rfl⟩

/-- Whether a text starts with an array, and which one it is, does not depend on what is behind. -/
theorem stable_grammar (he : escape ≠ '\n') (references : Bool) :
    Stable (grammar escape references) := by
  have hl := arrayReaders_lossless escape
  have hel := stable_element he references
  have hsep := stable_optional_separator he
  have hnext : Stable (nextElement escape references) :=
    ((stable_symbol (by decide)).seq hsep (hl.optional hl.separator)).seq hel
      (hl.elementBody references)
  have hlnext : Lossless (nextElement escape references) :=
    hl.seq (hl.seq hl.comma (hl.optional hl.separator)) (hl.elementBody references)
  have hclose := hnext.many_exactly hlnext (advances_nextElement escape references) .symbol
    (nextElement_stuck escape references)
  have hlclose : Lossless (many (nextElement escape references) ++ symbol "]") :=
    hl.seq (hl.many hlnext) hl.closingBracket
  have helems : Stable (element escape references ++ many (nextElement escape references)
      ++ symbol "]") := by
    rw [seq_assoc]
    exact hel.seq hclose hlclose
  have hlelems : Lossless (element escape references ++ many (nextElement escape references)
      ++ symbol "]") :=
    hl.seq (hl.seq (hl.elementBody references) (hl.many hlnext)) hl.closingBracket
  refine Stable.node _ (Stable.tentative (Stable.seq ?_ ?_ (hl.either hl.closingBracket hlelems)))
  · exact (stable_symbol (by decide)).seq hsep (hl.optional hl.separator)
  · exact (stable_symbol (by decide)).either (decided_symbol (by decide)).refuses helems hlelems

end ExecForm

end Containerfile
