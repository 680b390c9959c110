import Containerfile.Proofs.Lossless

/-!
# How far a reader looks ahead

A reader looks at more text than it takes: a run of characters ends before the first other one, a
blank line is one only if its line end is there.  On many texts, though, all that it looks at is
inside the text, and then it makes no difference what is put behind.

This is said for a class of texts.  Two classes occur: the texts with a line feed, which settle all
that is read within one line, and later the texts in which the line of an instruction ends.

## Main definitions

* `Outcome.Extends` — the answer for a text with more text behind it.
* `Decided`, `Within` — a reader whose answer is settled on the texts of a class.
* `Peels` — characters that can be taken off the front of the texts of a class.
* `Unfailing` — a reader that may be stuck but does not fail.
-/

namespace Containerfile

/-! ## Answers with more text behind -/

/-- The answer for a text with `x` behind it: of the same kind, with the same value, and with `x`
behind the rest. -/
inductive Outcome.Extends {α : Type} (x : Text) : Outcome α → Outcome α → Prop where
  | ok (a : α) (r : Text) : Extends x (.ok a r) (.ok a (r ++ x))
  | stuck (r r' : Text) : Extends x (.stuck r) (.stuck r')
  | failed (f f' : Fault) : Extends x (.failed f) (.failed f')

namespace Outcome.Extends

variable {α β : Type} {x r : Text} {a : α} {o o' : Outcome α}

theorem eq_ok (h : Extends x o o') (e : o = .ok a r) : o' = .ok a (r ++ x) := by
  cases h with
  | ok b m => cases e; rfl
  | stuck => cases e
  | failed => cases e

theorem of_eq_ok (h : Extends x o o') (e : o' = .ok a (r ++ x)) : o = .ok a r := by
  cases h with
  | ok b m =>
    obtain ⟨rfl, hm⟩ := Outcome.ok.inj e
    rw [List.append_cancel_right hm]
  | stuck => cases e
  | failed => cases e

theorem exists_of_eq_ok (h : Extends x o o') (e : o' = .ok a r) :
    ∃ m, o = .ok a m ∧ r = m ++ x := by
  cases h with
  | ok b m => cases e; exact ⟨m, rfl, rfl⟩
  | stuck => cases e
  | failed => cases e

theorem stuck_iff (h : Extends x o o') : (∃ m, o' = .stuck m) ↔ ∃ m, o = .stuck m := by
  cases h <;> simp

theorem map (f : α → β) (h : Extends x o o') : Extends x (o.map f) (o'.map f) := by
  cases h with
  | ok b m => exact .ok _ _
  | stuck m m' => exact .stuck _ _
  | failed e e' => exact .failed _ _

end Outcome.Extends

/-- On the texts of a class, the reader's answer does not depend on what is behind the text. -/
def Decided (C : Text → Prop) (g : Grammar) : Prop :=
  ∀ p, C p → ∀ x, (g p).Extends x (g (p ++ x))

/-- The reader is decided on the texts of a class, and what it leaves is of the class again. -/
structure Within (C : Text → Prop) (g : Grammar) : Prop where
  decided : Decided C g
  rest : ∀ p ts r, g p = .ok ts r → C p → C r

section Combinators

variable {C : Text → Prop} {g h : Grammar}

/-- Of two readers in a row, the last one may leave a text of any kind. -/
theorem Within.seq_decided (hg : Within C g) (hh : Decided C h) : Decided C (g ++ h) := by
  intro p hp x
  have hgx := hg.decided p hp x
  change (Grammar.seq g h p).Extends x (Grammar.seq g h (p ++ x))
  unfold Grammar.seq
  cases hs : g p with
  | ok ts r =>
    rw [hgx.eq_ok hs]
    have hhx := hh r (hg.rest _ _ _ hs hp) x
    dsimp only
    generalize h r = o at hhx
    generalize h (r ++ x) = o' at hhx
    cases hhx with
    | ok us r' => exact .ok _ _
    | stuck m m' => exact .stuck _ _
    | failed f f' => exact .failed _ _
  | stuck m =>
    obtain ⟨m', hm⟩ := hgx.stuck_iff.2 ⟨m, hs⟩
    rw [hm]
    exact .stuck _ _
  | failed f =>
    rw [hs] at hgx
    generalize g (p ++ x) = o' at hgx
    cases hgx
    exact .failed _ _

theorem Decided.optional (hg : Decided C g) : Decided C (.optional g) := by
  intro p hp x
  have hgx := hg p hp x
  unfold Grammar.optional
  generalize g p = o at hgx
  generalize g (p ++ x) = o' at hgx
  cases hgx with
  | ok ts r => exact .ok _ _
  | stuck m m' => exact .ok _ _
  | failed f f' => exact .failed _ _

theorem Decided.either (hg : Decided C g) (hh : Decided C h) : Decided C (.either g h) := by
  intro p hp x
  have hgx := hg p hp x
  unfold Grammar.either
  generalize g p = o at hgx
  generalize g (p ++ x) = o' at hgx
  cases hgx with
  | ok ts r => exact .ok _ _
  | stuck m m' => exact hh p hp x
  | failed f f' => exact .failed _ _

theorem Decided.attempt (hg : Decided C g) : Decided C (.attempt g) := by
  intro p hp x
  have hgx := hg p hp x
  unfold Grammar.attempt
  generalize g p = o at hgx
  generalize g (p ++ x) = o' at hgx
  cases hgx with
  | ok ts r => exact .ok _ _
  | stuck m m' => exact .stuck _ _
  | failed f f' => exact .failed _ _

theorem Decided.commit (what : String) (hg : Decided C g) : Decided C (.commit what g) := by
  intro p hp x
  have hgx := hg p hp x
  unfold Grammar.commit
  generalize g p = o at hgx
  generalize g (p ++ x) = o' at hgx
  cases hgx with
  | ok ts r => exact .ok _ _
  | stuck m m' => exact .failed _ _
  | failed f f' => exact .failed _ _

theorem Decided.tentative (hg : Decided C g) : Decided C (.tentative g) := by
  intro p hp x
  have hgx := hg p hp x
  unfold Grammar.tentative
  generalize g p = o at hgx
  generalize g (p ++ x) = o' at hgx
  cases hgx with
  | ok ts r => exact .ok _ _
  | stuck m m' => exact .stuck _ _
  | failed f f' => exact .stuck _ _

theorem Decided.nonempty (hg : Decided C g) : Decided C (.nonempty g) := by
  intro p hp x
  have hgx := hg p hp x
  unfold Grammar.nonempty
  generalize g p = o at hgx
  generalize g (p ++ x) = o' at hgx
  cases hgx with
  | ok ts r =>
    cases ts with
    | nil => exact .stuck _ _
    | cons t ts => exact .ok _ _
  | stuck m m' => exact .stuck _ _
  | failed f f' => exact .failed _ _

theorem Decided.node (kind : NodeKind) (hg : Decided C g) : Decided C (.node kind g) :=
  fun p hp x => (hg p hp x).map _

theorem Within.many_decided (hg : Within C g) : Decided C (.many g) := by
  intro p
  induction hn : p.length using Nat.strongRecOn generalizing p with
  | ind n ih =>
    intro hp x
    have hgx := hg.decided p hp x
    rw [Grammar.many, Grammar.many]
    cases hs : g p with
    | ok ts r =>
      rw [hgx.eq_ok hs]
      simp only [List.length_append, Nat.add_lt_add_iff_right]
      by_cases hlt : r.length < p.length
      · simp only [hlt, if_true]
        have hrx := ih r.length (hn ▸ hlt) r rfl (hg.rest _ _ _ hs hp) x
        generalize Grammar.many g r = o at hrx
        generalize Grammar.many g (r ++ x) = o' at hrx
        cases hrx with
        | ok us r' => exact .ok _ _
        | stuck m m' => exact .stuck _ _
        | failed f f' => exact .failed _ _
      · simp only [hlt, if_false]
        exact .ok _ _
    | stuck m =>
      obtain ⟨m', hm⟩ := hgx.stuck_iff.2 ⟨m, hs⟩
      rw [hm]
      exact .ok _ _
    | failed f =>
      rw [hs] at hgx
      generalize g (p ++ x) = o' at hgx
      cases hgx
      exact .failed _ _

/-- What the readers leave of a text of the class is of the class, if each of them leaves such a
text. -/
theorem compositional_rest (C : Text → Prop) :
    Compositional fun g => ∀ p ts r, g p = .ok ts r → C p → C r :=
  .ofRelation (R := fun p _ r => C p → C r) (fun _ hp => hp) (fun hm hr hp => hr (hm hp))
    (fun _ _ hr => hr)

/-- The combinators do not look further ahead than their parts. -/
theorem compositional_within (C : Text → Prop) : Compositional (Within C) where
  seq hg hh := ⟨hg.seq_decided hh.decided, (compositional_rest C).seq hg.rest hh.rest⟩
  optional hg := ⟨hg.decided.optional, (compositional_rest C).optional hg.rest⟩
  either hg hh := ⟨hg.decided.either hh.decided, (compositional_rest C).either hg.rest hh.rest⟩
  attempt hg := ⟨hg.decided.attempt, (compositional_rest C).attempt hg.rest⟩
  tentative hg := ⟨hg.decided.tentative, (compositional_rest C).tentative hg.rest⟩
  many hg := ⟨hg.many_decided, (compositional_rest C).many hg.rest⟩
  nonempty hg := ⟨hg.decided.nonempty, (compositional_rest C).nonempty hg.rest⟩
  commit what hg := ⟨hg.decided.commit what, (compositional_rest C).commit what hg.rest⟩
  node kind hk hg := ⟨hg.decided.node kind, (compositional_rest C).node kind hk hg.rest⟩

/-- A look ahead is decided if its condition is. -/
theorem within_when {p : Text → Bool} (h : ∀ s, C s → ∀ x, p (s ++ x) = p s) :
    Within C (.when p) where
  decided s hs x := by
    unfold Grammar.when
    rw [h s hs x]
    cases p s with
    | true => exact .ok _ _
    | false => exact .stuck _ _
  rest s ts r e hs := (Grammar.when_eq_ok.1 e).2.2 ▸ hs

end Combinators

/-! ## Characters off the front -/

/-- The texts of the class are not empty, and a character that satisfies `q` can be taken off their
front. -/
structure Peels (C : Text → Prop) (q : Char → Bool) : Prop where
  nil : ¬ C []
  tail : ∀ c s, q c = true → C (c :: s) → C s

namespace Peels

variable {C : Text → Prop} {q : Char → Bool} (h : Peels C q)
include h

theorem of_append {w r : Text} (hw : ∀ c ∈ w, q c = true) (hp : C (w ++ r)) : C r := by
  induction w with
  | nil => exact hp
  | cons c w ih =>
    refine ih (fun d hd => hw d (List.mem_cons_of_mem _ hd)) ?_
    exact h.tail c _ (hw c List.mem_cons_self) hp

/-- A run of the characters ends within the text. -/
theorem takeWhile_append {p : Text} (hp : C p) (x : Text) :
    (p ++ x).takeWhile q = p.takeWhile q ∧ (p ++ x).dropWhile q = p.dropWhile q ++ x ∧
      C (p.dropWhile q) := by
  induction p with
  | nil => exact absurd hp h.nil
  | cons c p ih =>
    by_cases hc : q c = true
    · have := ih (h.tail c p hc hp)
      simpa [hc] using this
    · simpa [hc] using hp

theorem within_run (kind : LeafKind) : Within C (.run kind q) where
  decided p hp x := by
    obtain ⟨ht, hd, -⟩ := h.takeWhile_append hp x
    unfold Grammar.run
    rw [ht, hd]
    cases p.takeWhile q with
    | nil => exact .stuck _ _
    | cons c cs => exact .ok _ _
  rest p ts r e hp := by
    obtain ⟨-, -, rfl⟩ := Grammar.run_eq_ok.1 e
    exact (h.takeWhile_append hp []).2.2

theorem after?_append {start p : Text} (hs : ∀ c ∈ start, q c = true) (hp : C p) (x : Text) :
    Text.after? start (p ++ x) = (Text.after? start p).map (· ++ x) := by
  induction start generalizing p with
  | nil => rfl
  | cons c cs ih =>
    cases p with
    | nil => exact absurd hp h.nil
    | cons d p =>
      rw [List.cons_append, Text.after?, Text.after?]
      by_cases hd : c = d
      · subst hd
        simp only [if_true]
        refine ih (fun b hb => hs b (List.mem_cons_of_mem _ hb)) ?_
        exact h.tail c p (hs c List.mem_cons_self) hp
      · simp [hd]

theorem within_exactly (kind : LeafKind) {start : Text} (hs : ∀ c ∈ start, q c = true) :
    Within C (.exactly kind start) where
  decided p hp x := by
    unfold Grammar.exactly
    rw [h.after?_append hs hp x]
    cases Text.after? start p with
    | none => exact .stuck _ _
    | some r => exact .ok _ _
  rest p ts r e hp := by
    obtain ⟨rfl, -⟩ := Grammar.exactly_eq_ok.1 e
    exact h.of_append hs hp

end Peels

/-! ## Keywords -/

section

variable {p : Char → Bool} (hp : ∀ d : Char, d.isAlpha = true → p d = true)
include hp

/-- The case of a letter makes no difference to what holds of all letters. -/
theorem apply_toLower (c : Char) : p c.toLower = p c := by
  by_cases hr : c.val ≥ 'A'.val ∧ c.val ≤ 'Z'.val
  · have hn : 65 ≤ c.val.toNat ∧ c.val.toNat ≤ 90 := by
      simpa [UInt32.le_iff_toNat_le] using hr
    have hv : c.toLower.val.toNat = c.val.toNat + 32 := by
      have hval : c.toLower.val = c.val + 32 := congrArg Char.val (dif_pos hr)
      rw [hval, UInt32.toNat_add]
      exact Nat.mod_eq_of_lt (show c.val.toNat + 32 < 2 ^ 32 by omega)
    have hupper : c.isUpper = true := decide_eq_true hr
    have hlower : c.toLower.isLower = true := by
      refine Bool.and_eq_true_iff.2 ⟨decide_eq_true ?_, decide_eq_true ?_⟩
      · exact UInt32.le_iff_toNat_le.2 (show 97 ≤ c.toLower.val.toNat by omega)
      · exact UInt32.le_iff_toNat_le.2 (show c.toLower.val.toNat ≤ 122 by omega)
    rw [hp _ (Bool.or_eq_true_iff.2 (.inr hlower)), hp c (Bool.or_eq_true_iff.2 (.inl hupper))]
  · exact congrArg p (dif_neg hr)

theorem forall_of_sameLetters {word name : Text} (h : Text.sameLetters word name = true)
    (hn : ∀ c ∈ name, p c = true) : ∀ c ∈ word, p c = true := by
  intro c hc
  have hm : c.toLower ∈ name.map Char.toLower := by
    rw [← eq_of_beq h]
    exact List.mem_map_of_mem hc
  obtain ⟨d, hd, hcd⟩ := List.mem_map.1 hm
  rw [← apply_toLower hp, ← hcd, apply_toLower hp]
  exact hn d hd

end

theorem isNameChar_of_sameLetters {word name : Text} (h : Text.sameLetters word name = true)
    (hn : ∀ c ∈ name, isNameChar c = true) : ∀ c ∈ word, isNameChar c = true :=
  forall_of_sameLetters (fun d hd => by simp [isNameChar, Char.isAlphanum, hd]) h hn

theorem Keyword.isNameChar_of_mem_name (k : Keyword) : ∀ c ∈ k.name, isNameChar c = true := by
  exact List.all_eq_true.1 (by cases k <;> decide)

theorem Lexeme.keyword_eq_ok_or_stuck (name s : Text) :
    (∃ ts r, keyword name s = .ok ts r) ∨ keyword name s = .stuck s := by
  unfold keyword
  dsimp only
  split
  · exact .inl ⟨_, _, rfl⟩
  · exact .inr rfl

/-- Whether a keyword comes first is settled by a text that goes on behind names. -/
theorem Peels.within_keyword {C : Text → Prop} (h : Peels C isNameChar) {name : Text}
    (hn : ∀ c ∈ name, isNameChar c = true) : Within C (Lexeme.keyword name) where
  decided p hp x := by
    have hhead : ∀ r : Text, C r → (r ++ x).head? = r.head? := by
      intro r hr
      cases r with
      | nil => exact absurd hr h.nil
      | cons c r => rfl
    obtain ⟨ts, r, e⟩ | e := Lexeme.keyword_eq_ok_or_stuck name p
    · obtain ⟨word, rfl, hw, hr, rfl⟩ := Grammar.keyword_eq_ok.1 e
      have hC := h.of_append (isNameChar_of_sameLetters hw hn) hp
      have e' : Lexeme.keyword name (word ++ r ++ x) = .ok [.leaf .keyword word] (r ++ x) :=
        Grammar.keyword_eq_ok.2 ⟨word, by simp, hw, by rwa [hhead r hC], rfl⟩
      rw [e, e']
      exact .ok _ _
    · rw [e]
      obtain ⟨ts, r, e'⟩ | e' := Lexeme.keyword_eq_ok_or_stuck name (p ++ x)
      · exfalso
        obtain ⟨word, hs, hw, hr, -⟩ := Grammar.keyword_eq_ok.1 e'
        have hword := isNameChar_of_sameLetters hw hn
        obtain ⟨m, rfl, hm⟩ | ⟨m, rfl, hm⟩ := List.append_eq_append_iff.1 hs
        · refine h.nil (h.of_append (w := p) (fun c hc => ?_) (by simpa using hp))
          exact hword c (List.mem_append_left _ hc)
        · have hC := h.of_append hword hp
          rw [hm, hhead m hC] at hr
          rw [Grammar.keyword_eq_ok.2 ⟨word, rfl, hw, hr, rfl⟩] at e
          cases e
      · rw [e']
        exact .stuck _ _
  rest p ts r e hp := by
    obtain ⟨word, rfl, hw, -, -⟩ := Grammar.keyword_eq_ok.1 e
    exact h.of_append (isNameChar_of_sameLetters hw hn) hp

/-! ## Lines -/

/-- The text has a line feed. -/
def HasNewline (s : Text) : Prop :=
  '\n' ∈ s

theorem HasNewline.append_left {s : Text} (h : HasNewline s) (t : Text) : HasNewline (t ++ s) :=
  List.mem_append_right _ h

theorem HasNewline.cons {s : Text} (h : HasNewline s) (c : Char) : HasNewline (c :: s) :=
  List.mem_cons_of_mem _ h

theorem peels_newline {q : Char → Bool} (hq : q '\n' = false) : Peels HasNewline q where
  nil := List.not_mem_nil
  tail c s hc h := by
    obtain rfl | hs := List.mem_cons.1 h
    · rw [hq] at hc
      cases hc
    · exact hs

namespace Lexeme

open Grammar

theorem decided_newline : Decided HasNewline newline := by
  refine Decided.either (fun p hp x => ?_) (fun p hp x => ?_)
  · cases p with
    | nil => cases hp
    | cons c p =>
      by_cases hc : c = '\r'
      · subst hc
        cases p with
        | nil => simp [HasNewline] at hp
        | cons d p =>
          by_cases hd : d = '\n'
          · subst hd
            exact .ok _ p
          · simp only [exactly, List.cons_append, Text.after?, if_true, Ne.symm hd, if_false]
            exact .stuck _ _
      · simp only [exactly, List.cons_append, Text.after?, Ne.symm hc, if_false]
        exact .stuck _ _
  · cases p with
    | nil => cases hp
    | cons c p =>
      by_cases hc : c = '\n'
      · subst hc
        exact .ok _ p
      · simp only [exactly, List.cons_append, Text.after?, Ne.symm hc, if_false]
        exact .stuck _ _

theorem within_blanks : Within HasNewline blanks :=
  (peels_newline rfl).within_run _

theorem decided_blankLine : Decided HasNewline blankLine :=
  ((compositional_within _).optional within_blanks).seq_decided decided_newline

theorem decided_commentBody : Decided HasNewline commentBody := by
  have h := compositional_within HasNewline
  refine Within.seq_decided (h.seq (h.seq (h.optional within_blanks) ?_) ?_)
    decided_newline.optional
  · exact (peels_newline (q := (· == '#')) rfl).within_exactly _ (by simp)
  · exact h.optional ((peels_newline (by rfl)).within_run _)

theorem decided_lineContinuation {escape : Char} (he : escape ≠ '\n') :
    Decided HasNewline (lineContinuation escape) := by
  have h := compositional_within HasNewline
  refine Decided.node _ (Within.seq_decided (h.seq ?_ (h.optional within_blanks)) decided_newline)
  exact (peels_newline (q := (· == escape)) (by simpa using he.symm)).within_exactly _ (by simp)

end Lexeme

/-! ## Readers that never fail -/

/-- The reader may be stuck but does not fail. -/
def Unfailing (g : Grammar) : Prop :=
  ∀ s f, g s ≠ .failed f

namespace Unfailing

variable {g h : Grammar}

theorem seq (hg : Unfailing g) (hh : Unfailing h) : Unfailing (g ++ h) := by
  intro s f e
  change Grammar.seq g h s = _ at e
  unfold Grammar.seq at e
  split at e
  · split at e
    · cases e
    · cases e
    · rename_i e'
      exact hh _ _ e'
  · cases e
  · rename_i e'
    exact hg _ _ e'

theorem optional (hg : Unfailing g) : Unfailing (.optional g) := by
  intro s f e
  unfold Grammar.optional at e
  split at e
  · cases e
  · cases e
  · rename_i e'
    exact hg _ _ e'

theorem either (hg : Unfailing g) (hh : Unfailing h) : Unfailing (.either g h) := by
  intro s f e
  unfold Grammar.either at e
  split at e
  · cases e
  · exact hh _ _ e
  · rename_i e'
    exact hg _ _ e'

theorem node (kind : NodeKind) (hg : Unfailing g) : Unfailing (.node kind g) := by
  intro s f e
  unfold Grammar.node Outcome.map at e
  split at e
  · cases e
  · cases e
  · rename_i e'
    exact hg _ _ e'

theorem exactly (kind : LeafKind) (start : Text) : Unfailing (.exactly kind start) := by
  intro s f e
  unfold Grammar.exactly at e
  split at e <;> cases e

theorem run (kind : LeafKind) (q : Char → Bool) : Unfailing (.run kind q) := by
  intro s f e
  unfold Grammar.run at e
  split at e <;> cases e

/-- An option succeeds, perhaps with nothing. -/
theorem optional_eq_ok (hg : Unfailing g) (s : Text) : ∃ ts r, Grammar.optional g s = .ok ts r := by
  unfold Grammar.optional
  cases hs : g s with
  | ok ts r => exact ⟨ts, r, rfl⟩
  | stuck m => exact ⟨[], s, rfl⟩
  | failed f => exact absurd hs (hg s f)

/-- A repetition succeeds, perhaps with no round at all. -/
theorem many_eq_ok (hg : Unfailing g) (s : Text) : ∃ ts r, Grammar.many g s = .ok ts r := by
  induction hn : s.length using Nat.strongRecOn generalizing s with
  | ind n ih =>
    rw [Grammar.many]
    cases hs : g s with
    | ok us m =>
      by_cases hlt : m.length < s.length
      · obtain ⟨vs, r, hm⟩ := ih m.length (hn ▸ hlt) m rfl
        exact ⟨us ++ vs, r, by simp [hlt, hm]⟩
      · exact ⟨us, m, by simp [hlt]⟩
    | stuck m => exact ⟨[], s, rfl⟩
    | failed f => exact absurd hs (hg s f)

theorem many (hg : Unfailing g) : Unfailing (.many g) := by
  intro s f e
  obtain ⟨ts, r, e'⟩ := hg.many_eq_ok s
  rw [e'] at e
  cases e

theorem nonempty (hg : Unfailing g) : Unfailing (.nonempty g) := by
  intro s f e
  unfold Grammar.nonempty at e
  split at e
  · cases e
  · cases e
  · cases e
  · rename_i e'
    exact hg _ _ e'

theorem attempt (hg : Unfailing g) : Unfailing (.attempt g) := by
  intro s f e
  unfold Grammar.attempt at e
  split at e
  · cases e
  · cases e
  · rename_i e'
    exact hg _ _ e'

theorem tentative (g : Grammar) : Unfailing (.tentative g) := by
  intro s f e
  unfold Grammar.tentative at e
  split at e <;> cases e

theorem when (p : Text → Bool) : Unfailing (.when p) := by
  intro s f e
  unfold Grammar.when at e
  split at e <;> cases e

end Unfailing

namespace Lexeme

theorem unfailing_newline : Unfailing newline :=
  (Unfailing.exactly _ _).either (Unfailing.exactly _ _)

theorem unfailing_blankLine : Unfailing blankLine :=
  (Unfailing.run _ _).optional.seq unfailing_newline

theorem unfailing_commentBody : Unfailing commentBody :=
  (((Unfailing.run _ _).optional.seq (Unfailing.exactly _ _)).seq (Unfailing.run _ _).optional).seq
    unfailing_newline.optional

theorem unfailing_lineContinuation (escape : Char) : Unfailing (lineContinuation escape) :=
  (((Unfailing.exactly _ _).seq (Unfailing.run _ _).optional).seq unfailing_newline).node _

/-- A comment line or a blank line. -/
def filler : Grammar :=
  .either commentLine blankLine

/-- The comment lines and blank lines that belong to a continuation. -/
def lines : Grammar :=
  .many filler

theorem continuation_eq (escape : Char) :
    continuation escape = lineContinuation escape ++ lines :=
  rfl

theorem decided_filler : Decided HasNewline filler :=
  (decided_commentBody.node _).either decided_blankLine

theorem lossless_filler : Lossless filler :=
  Grammar.compositional_lossless.either
    (Grammar.compositional_lossless.node _ rfl lossless_commentBody) lossless_blankLine

theorem advances_filler : Grammar.Advances filler :=
  advances_commentLine.either advances_blankLine

theorem lines_eq_ok (s : Text) : ∃ ts r, lines s = .ok ts r :=
  ((unfailing_commentBody.node _).either unfailing_blankLine).many_eq_ok s

end Lexeme

end Containerfile
