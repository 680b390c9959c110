import Containerfile.Proofs.Lookahead

/-!
# Continued lines

A continuation takes with it all comment lines and blank lines that follow, so how far it goes is
not settled by the line that it is on.  It is settled if a line feed is in what it leaves: then a
line that is neither blank nor a comment has begun, and is there to its end.

## Main definitions

* `Stable` — a reader whose success is settled if a line feed is in what it leaves.
* `Refuses` — a reader whose refusal is settled on texts with a line feed.

## Main results

* `Lexeme.stable_continuation`, `Lexeme.stable_separator` — continuations and separators are stable.
-/

namespace Containerfile

/-- Whether the reader succeeds with a rest in which there is a line feed does not depend on what is
behind the text. -/
def Stable (g : Grammar) : Prop :=
  ∀ p x ts r, HasNewline r → (g (p ++ x) = .ok ts (r ++ x) ↔ g p = .ok ts r)

/-- Whether the reader is stuck on a text with a line feed does not depend on what is behind. -/
def Refuses (g : Grammar) : Prop :=
  ∀ p x, HasNewline p → ((∃ m, g (p ++ x) = .stuck m) ↔ ∃ m, g p = .stuck m)

/-- What a lossless reader leaves is the end of the text, also if more is behind. -/
theorem Lossless.eq_append {g : Grammar} (hg : Lossless g) {s t : Text} {ts : List Token}
    (e : g s = .ok ts t) {r x : Text} (ht : t = r ++ x) : s = (Token.textAll ts ++ r) ++ x := by
  rw [← hg _ _ _ e, ht, List.append_assoc]

theorem Decided.stable {g : Grammar} (hg : Decided HasNewline g) (hl : Lossless g) : Stable g := by
  intro p x ts r hr
  constructor
  · intro e
    have hp : p = Token.textAll ts ++ r := List.append_cancel_right (hl.eq_append e rfl)
    exact (hg p (hp ▸ hr.append_left _) x).of_eq_ok e
  · intro e
    have hp : Token.textAll ts ++ r = p := hl _ _ _ e
    exact (hg p (hp ▸ hr.append_left _) x).eq_ok e

theorem Decided.refuses {g : Grammar} (hg : Decided HasNewline g) : Refuses g :=
  fun p x hp => (hg p hp x).stuck_iff

namespace Stable

variable {g h : Grammar}

theorem seq (hg : Stable g) (hh : Stable h) (hl : Lossless h) : Stable (g ++ h) := by
  intro p x ts r hr
  rw [Grammar.seq_eq_ok, Grammar.seq_eq_ok]
  constructor
  · rintro ⟨us, vs, m, hu, hv, rfl⟩
    obtain rfl := hl.eq_append hv rfl
    exact ⟨us, vs, _, (hg _ _ _ _ (hr.append_left _)).1 hu, (hh _ _ _ _ hr).1 hv, rfl⟩
  · rintro ⟨us, vs, m, hu, hv, rfl⟩
    have hm : HasNewline m := hl _ _ _ hv ▸ hr.append_left _
    exact ⟨us, vs, m ++ x, (hg _ _ _ _ hm).2 hu, (hh _ _ _ _ hr).2 hv, rfl⟩

theorem optional (hg : Stable g) (hs : Refuses g) : Stable (.optional g) := by
  intro p x ts r hr
  rw [Grammar.optional_eq_ok, Grammar.optional_eq_ok, hg p x ts r hr, List.append_left_inj]
  refine or_congr_right (and_congr_left ?_)
  rintro ⟨-, rfl⟩
  exact hs r x hr

theorem either (hg : Stable g) (hs : Refuses g) (hh : Stable h) (hl : Lossless h) :
    Stable (.either g h) := by
  intro p x ts r hr
  rw [Grammar.either_eq_ok, Grammar.either_eq_ok, hg p x ts r hr, hh p x ts r hr]
  refine or_congr_right (and_congr_left fun e => hs p x ?_)
  exact hl _ _ _ e ▸ hr.append_left _

theorem tentative (hg : Stable g) : Stable (.tentative g) := by
  intro p x ts r hr
  rw [Grammar.tentative_eq_ok, Grammar.tentative_eq_ok, hg p x ts r hr]

theorem nonempty (hg : Stable g) : Stable (.nonempty g) := by
  intro p x ts r hr
  rw [Grammar.nonempty_eq_ok, Grammar.nonempty_eq_ok, hg p x ts r hr]

theorem node (kind : NodeKind) (hg : Stable g) : Stable (.node kind g) := by
  intro p x ts r hr
  rw [Grammar.node_eq_ok, Grammar.node_eq_ok]
  exact exists_congr fun us => and_congr_left' (hg p x us r hr)

theorem many (hg : Stable g) (hs : Refuses g) (hl : Lossless g) : Stable (.many g) := by
  have hlm := Grammar.compositional_lossless.many hl
  intro p x ts r hr
  induction hn : p.length using Nat.strongRecOn generalizing p ts with
  | ind n ih =>
    rw [Grammar.many_eq_ok, Grammar.many_eq_ok, hg p x ts r hr]
    refine or_congr ?_ (or_congr ?_ ?_)
    · constructor
      · rintro ⟨us, m, vs, hu, hlt, hm, rfl⟩
        obtain rfl := hlm.eq_append hm rfl
        have hlt' : (Token.textAll vs ++ r).length < p.length := by
          simp only [List.length_append] at hlt ⊢
          omega
        refine ⟨us, _, vs, (hg _ _ _ _ (hr.append_left _)).1 hu, hlt', ?_, rfl⟩
        exact (ih _ (hn ▸ hlt') _ _ rfl).1 hm
      · rintro ⟨us, m, vs, hu, hlt, hm, rfl⟩
        have hnl : HasNewline m := hlm _ _ _ hm ▸ hr.append_left _
        refine ⟨us, m ++ x, vs, (hg _ _ _ _ hnl).2 hu, ?_, (ih _ (hn ▸ hlt) _ _ rfl).2 hm, rfl⟩
        simp only [List.length_append]
        omega
    · simp only [List.length_append, Nat.add_lt_add_iff_right]
    · rw [List.append_left_inj]
      refine and_congr_left ?_
      rintro ⟨-, rfl⟩
      exact hs r x hr

end Stable

namespace Grammar

variable {g h : Grammar} {s r : Text} {ts : List Token}

theorem either_eq_stuck :
    (∃ m, either g h s = .stuck m) ↔ (∃ m, g s = .stuck m) ∧ ∃ m, h s = .stuck m := by
  unfold either
  cases g s <;> simp

/-- A sequence whose second part always succeeds is stuck exactly where its first part is. -/
theorem seq_eq_stuck (hh : ∀ s, ∃ ts r, h s = .ok ts r) :
    (∃ m, (g ++ h) s = .stuck m) ↔ ∃ m, g s = .stuck m := by
  change (∃ m, seq g h s = .stuck m) ↔ _
  unfold seq
  cases g s with
  | ok us m =>
    obtain ⟨vs, r', hm⟩ := hh m
    simp [hm]
  | stuck m => simp
  | failed f => simp

/-- A repetition ends where one more round is not possible. -/
theorem stuck_of_many (hg : Advances g) : ∀ s ts r, many g s = .ok ts r → ∃ m, g r = .stuck m := by
  intro s
  induction hn : s.length using Nat.strongRecOn generalizing s with
  | ind n ih =>
    intro ts r e
    obtain ⟨us, m, vs, hu, hlt, hm, -⟩ | ⟨hu, hlt⟩ | ⟨hs, -, rfl⟩ := many_eq_ok.1 e
    · exact ih _ (hn ▸ hlt) m rfl _ _ hm
    · exact absurd (hg _ _ _ hu) hlt
    · exact hs

/-- Leaving out a repetition that gives no token is the same as repeating, since such a repetition
takes no text. -/
theorem optional_nonempty_many (hg : Unfailing g) (hne : ∀ s ts r, g s = .ok ts r → ts ≠ [])
    (s : Text) : optional (nonempty (many g)) s = many g s := by
  obtain ⟨ts, r, e⟩ := hg.many_eq_ok s
  unfold optional nonempty
  rw [e]
  cases ts with
  | cons t ts => rfl
  | nil =>
    obtain ⟨us, m, vs, hu, -, -, hts⟩ | ⟨hu, -⟩ | ⟨-, -, rfl⟩ := many_eq_ok.1 e
    · exact absurd (List.append_eq_nil_iff.1 hts).1 (hne _ _ _ hu)
    · exact absurd rfl (hne _ _ _ hu)
    · rfl

theorem nonempty_many_eq_stuck (hg : Unfailing g) (hne : ∀ s ts r, g s = .ok ts r → ts ≠ []) :
    (∃ m, nonempty (many g) s = .stuck m) ↔ ∃ m, g s = .stuck m := by
  obtain ⟨ts, r, e⟩ := hg.many_eq_ok s
  unfold nonempty
  rw [e]
  obtain ⟨us, m, vs, hu, -, -, rfl⟩ | ⟨hu, -⟩ | ⟨hs, rfl, rfl⟩ := many_eq_ok.1 e
  · have hus := hne _ _ _ hu
    cases us with
    | nil => exact absurd rfl hus
    | cons u us => simp [hu]
  · cases ts with
    | nil => exact absurd rfl (hne _ _ _ hu)
    | cons t ts => simp [hu]
  · simpa using hs

end Grammar

/-! ## Separators -/

namespace Lexeme

open Grammar

/-- One part of a separator. -/
def gap (escape : Char) : Grammar :=
  either blanks (continuation escape)

theorem separator_eq (escape : Char) : separator escape = nonempty (many (gap escape)) :=
  rfl

theorem lossless_gap (escape : Char) : Lossless (gap escape) :=
  compositional_lossless.either lossless_blanks (lossless_continuation escape)

theorem unfailing_continuation (escape : Char) : Unfailing (continuation escape) := by
  refine (unfailing_lineContinuation escape).seq fun s f e => ?_
  obtain ⟨ts, r, e'⟩ := lines_eq_ok s
  change lines s = _ at e
  rw [e'] at e
  cases e

theorem unfailing_gap (escape : Char) : Unfailing (gap escape) :=
  (Unfailing.run _ _).either (unfailing_continuation escape)

theorem gap_ne_nil (escape : Char) : ∀ s ts r, gap escape s = .ok ts r → ts ≠ [] := by
  intro s ts r e
  obtain e | ⟨-, e⟩ := either_eq_ok.1 e
  · obtain ⟨-, rfl, -⟩ := run_eq_ok.1 e
    simp
  · obtain ⟨us, vs, m, hu, -, rfl⟩ := seq_eq_ok.1 e
    obtain ⟨ws, -, rfl⟩ := node_eq_ok.1 hu
    simp

theorem advances_gap (escape : Char) : Advances (gap escape) :=
  advances_blanks.either (advances_continuation escape)

/-- Separators that may be missing are a repetition. -/
theorem optional_separator_eq (escape : Char) : optional (separator escape) = many (gap escape) :=
  funext (optional_nonempty_many (unfailing_gap escape) (gap_ne_nil escape))

section Stability

variable {escape : Char} (he : escape ≠ '\n')
include he

theorem stable_continuation : Stable (continuation escape) := by
  have h := compositional_lossless
  have hl := lossless_filler
  refine Stable.seq ((decided_lineContinuation he).stable ?_)
    ((decided_filler.stable hl).many decided_filler.refuses hl) (h.many hl)
  exact h.node _ rfl
    (h.seq (h.seq (lossless_exactly _ _) (h.optional lossless_blanks)) lossless_newline)

/-- A continuation is there exactly if its first line is. -/
theorem refuses_continuation : Refuses (continuation escape) := by
  intro p x hp
  rw [continuation_eq, seq_eq_stuck lines_eq_ok, seq_eq_stuck lines_eq_ok]
  exact (decided_lineContinuation he).refuses p x hp

theorem refuses_gap : Refuses (gap escape) := by
  intro p x hp
  unfold gap
  rw [either_eq_stuck, either_eq_stuck, within_blanks.decided.refuses p x hp,
    refuses_continuation he p x hp]

theorem stable_gap : Stable (gap escape) := by
  have hb : Decided HasNewline blanks := within_blanks.decided
  exact (hb.stable lossless_blanks).either hb.refuses (stable_continuation he)
    (lossless_continuation escape)

theorem stable_separator : Stable (separator escape) :=
  ((stable_gap he).many (refuses_gap he) (lossless_gap escape)).nonempty

theorem refuses_separator : Refuses (separator escape) := by
  intro p x hp
  have hg := unfailing_gap escape
  have hne := gap_ne_nil escape
  rw [separator_eq, nonempty_many_eq_stuck hg hne, nonempty_many_eq_stuck hg hne]
  exact refuses_gap he p x hp

end Stability

end Lexeme

end Containerfile
