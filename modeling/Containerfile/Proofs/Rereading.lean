import Containerfile.Proofs.Editing
import Containerfile.Proofs.Tails

/-!
# Arguments with another text behind

The arguments before a place are read again after the text behind that place has changed: first
separators, literals and names with values, then the declarations of an `ARG` and the flag, the
image and the name of a `FROM`.  All readers end before that text, but for a literal right before
it, which takes the text as far as it belongs to no other argument.  If this part is `Silent`, the
literal says what it said before.

`Declarations` is the chain of the declared names with the separators before them.  It is what the
reader of an `ARG` walks along, in a form that can be cut at a name and joined again.

## Main definitions

* `Literal.Silent` — a literal goes on into a text and says nothing with it.
* `Declarations` — declared names, one behind another.
* `Detached` — a text does not become a part of a value before it.

## Main results

* `KeyValue.named_swap` — a name with a value, with another text behind.
* `Declarations.rejoin` — two chains with a gap between them are one chain.
* `Instruction.declarations_removed` — an `ARG` without one of its names.
* `Instruction.naming_removed` — a `FROM` without the name of its stage.
-/

namespace Containerfile

open Lexeme Grammar

/-! ## Where readers are stuck -/

namespace Grammar

variable {g h : Grammar} {s r : Text} {ts : List Token} {kind : LeafKind} {p : Char → Bool}

theorem seq_stuck_iff : (∃ m, (g ++ h) s = .stuck m) ↔
    (∃ m, g s = .stuck m) ∨ ∃ ts r, g s = .ok ts r ∧ ∃ m, h r = .stuck m := by
  change (∃ m, seq g h s = .stuck m) ↔ _
  unfold seq
  constructor
  · rintro ⟨m, hm⟩
    cases hg : g s with
    | ok ts r =>
      cases hr : h r with
      | stuck k => exact .inr ⟨ts, r, rfl, k, hr⟩
      | ok us k => simp [hg, hr] at hm
      | failed f => simp [hg, hr] at hm
    | stuck k => exact .inl ⟨k, rfl⟩
    | failed f => simp [hg] at hm
  · rintro (⟨m, hm⟩ | ⟨ts, r, hg, m, hm⟩)
    · exact ⟨m, by simp [hm]⟩
    · exact ⟨m, by simp [hg, hm]⟩

theorem attempt_stuck_iff : (∃ m, attempt g s = .stuck m) ↔ ∃ m, g s = .stuck m := by
  unfold attempt
  cases g s <;> simp

theorem node_stuck_iff {kind : NodeKind} :
    (∃ m, node kind g s = .stuck m) ↔ ∃ m, g s = .stuck m := by
  unfold node Outcome.map
  cases g s <;> simp

theorem optional_ne_stuck (m : Text) : optional g s ≠ .stuck m := by
  unfold optional
  cases g s <;> nofun

theorem exactly_stuck_iff {start : Text} :
    (∃ m, exactly kind start s = .stuck m) ↔ ¬ ∃ r, s = start ++ r := by
  simp only [← after?_eq_some]
  unfold exactly
  cases Text.after? start s <;> simp

theorem run_stuck_iff : (∃ m, run kind p s = .stuck m) ↔ s.head?.any p = false := by
  unfold run
  cases s with
  | nil => simp
  | cons c s => cases hc : p c <;> simp [hc]

/-- A run takes all characters of its class, and another one is behind it. -/
theorem run_shape : run kind p s = .ok ts r ↔ ∃ k, s = k ++ r ∧ k ≠ [] ∧ (∀ c ∈ k, p c = true) ∧
    r.head?.any p = false ∧ ts = [.leaf kind k] := by
  rw [run_eq_ok]
  constructor
  · rintro ⟨hne, rfl, rfl⟩
    refine ⟨_, List.takeWhile_append_dropWhile.symm, hne, List.all_eq_true.1 List.all_takeWhile,
      ?_, rfl⟩
    cases hr : s.dropWhile p with
    | nil => rfl
    | cons c k => exact Text.eq_false_of_dropWhile hr
  · rintro ⟨k, rfl, hne, hall, hr, rfl⟩
    obtain ⟨htake, hdrop⟩ := Text.span_append hr k
    have htake' : k.takeWhile p = k := by
      simpa using @List.takeWhile_append_of_pos _ p k [] hall
    have hdrop' : k.dropWhile p = [] := by
      simpa using @List.dropWhile_append_of_pos _ p k [] hall
    rw [htake, hdrop, htake', hdrop']
    exact ⟨hne, rfl, rfl⟩

end Grammar

/-! ## Separators -/

namespace Lexeme

variable {e : Char} {s r : Text} {ts : List Token}

theorem continuation_stuck_iff :
    (∃ m, continuation e s = .stuck m) ↔ ¬ ∃ ts r, continuation e s = .ok ts r := by
  constructor
  · rintro ⟨m, hm⟩ ⟨ts, r, hr⟩
    rw [hm] at hr
    cases hr
  · exact (continuation_eq_ok_or_stuck e s).resolve_left

theorem separator_eq_ok : separator e s = .ok ts r ↔ many (gap e) s = .ok ts r ∧ ts ≠ [] :=
  nonempty_eq_ok

/-- A statement about separators holds if it holds of none, and is kept by blanks and by a
continuation before them. -/
theorem gaps_induction {motive : ∀ s ts r, many (gap e) s = .ok ts r → Prop}
    (nil : ∀ s m (_ : gap e s = .stuck m) h, motive s [] s h)
    (blanks : ∀ c b m vs r (_ : ∀ x ∈ c :: b, isBlank x = true) (hm : many (gap e) m = .ok vs r) h,
      motive m vs r hm → motive (c :: (b ++ m)) (.leaf .blank (c :: b) :: vs) r h)
    (continuation : ∀ s us m vs r (_ : Lexeme.continuation e s = .ok us m)
      (hm : many (gap e) m = .ok vs r) h, motive m vs r hm → motive s (us ++ vs) r h) :
    ∀ s ts r h, motive s ts r h := by
  intro s ts r h
  induction s, ts, r, h using (advances_gap e).many_induction with
  | nil s m hs h => exact nil s m hs h
  | round s us m vs r hu hm h ih =>
    rcases either_eq_ok.1 hu with hb | ⟨-, hc⟩
    · obtain ⟨b, rfl, hne, hall, -, rfl⟩ := run_shape.1 hb
      obtain ⟨c, b, rfl⟩ := List.exists_cons_of_ne_nil hne
      exact blanks c b m vs r hall hm h ih
    · exact continuation s us m vs r hc hm h ih

/-- An argument is stuck behind its separators. -/
theorem argument_stuck_iff {g : Grammar} (hsep : separator e s = .ok ts r) :
    (∃ m, argument e g s = .stuck m) ↔ ∃ m, g r = .stuck m := by
  unfold argument
  rw [attempt_stuck_iff, seq_stuck_iff, hsep]
  constructor
  · rintro (⟨m, hm⟩ | ⟨us, k, hok, hk⟩)
    · cases hm
    · cases hok
      exact hk
  · exact fun hr => .inr ⟨ts, r, rfl, hr⟩

/-- There is no argument behind separators, or behind none, where there is none to read. -/
theorem argument_stuck_of_gaps {g : Grammar} (h : many (gap e) s = .ok ts r)
    (hg : ∃ m, g r = .stuck m) : ∃ m, argument e g s = .stuck m := by
  by_cases hts : ts = []
  · subst hts
    refine attempt_stuck_iff.2 (seq_stuck_iff.2 (.inl ⟨s, ?_⟩))
    rw [separator_eq, nonempty, h]
  · exact (argument_stuck_iff (separator_eq_ok.2 ⟨h, hts⟩)).2 hg

theorem advances_separator (e : Char) : Advances (separator e) := by
  intro s ts r h
  obtain ⟨hgaps, hne⟩ := separator_eq_ok.1 h
  rcases many_eq_ok.1 hgaps with ⟨us, m, vs, -, hlt, hvs, -⟩ | ⟨hu, -⟩ | ⟨-, hnil, -⟩
  · have hle := (advances_gap e).shrinks.many _ _ _ hvs
    omega
  · exact advances_gap e _ _ _ hu
  · exact absurd hnil hne

theorem advances_argument {g : Grammar} (hg : Shrinks g) : Advances (argument e g) :=
  fun s ts r h => (advances_separator e).seq hg s ts r (Instruction.argument_eq_ok.1 h)

/-- Separators begin with a blank or with the escape character. -/
theorem exists_cons_of_separator (h : separator e s = .ok ts r) :
    ∃ c k, s = c :: k ∧ (isBlank c = true ∨ c = e) := by
  obtain ⟨hgaps, hne⟩ := separator_eq_ok.1 h
  rcases many_eq_ok.1 hgaps with ⟨us, m, vs, hu, -⟩ | ⟨hu, hlt⟩ | ⟨-, hnil, -⟩
  · rcases either_eq_ok.1 hu with hb | ⟨-, hc⟩
    · cases s with
      | nil => cases hb
      | cons c k =>
        refine ⟨c, k, rfl, .inl ?_⟩
        by_cases hc : isBlank c = true
        · exact hc
        · obtain ⟨hne, -⟩ := run_eq_ok.1 hb
          exact absurd (List.takeWhile_cons_of_neg hc) hne
    · obtain ⟨k, rfl⟩ := eq_cons_of_continuation hc
      exact ⟨e, k, rfl, .inr rfl⟩
  · exact absurd (advances_gap e _ _ _ hu) hlt
  · exact absurd hnil hne

/-- Separators are the same with another text from a place on, if they end there and the
continuations among them are the same. -/
theorem gaps_transfer {u t t' z : Text} {ss : List Token} (he : IsEscape e)
    (hcontinuation : ∀ p w k us, u = p ++ w → continuation e (w ++ t) = .ok us (k ++ t) →
      continuation e (w ++ t') = .ok us (k ++ t'))
    (hstuck : ∃ m, gap e (z ++ t') = .stuck m) (h : many (gap e) (u ++ t) = .ok ss (z ++ t)) :
    many (gap e) (u ++ t') = .ok ss (z ++ t') := by
  generalize hs : u ++ t = s at h
  generalize hr : z ++ t = r at h
  induction s, ss, r, h using (advances_gap e).many_induction generalizing u with
  | nil s m _ _ =>
    subst hs
    obtain rfl := List.append_cancel_right hr
    exact many_eq_ok.2 (.inr (.inr ⟨hstuck, rfl, rfl⟩))
  | round s us m vs r hu hm _ ih =>
    subst hs hr
    have hvs := compositional_lossless.many (lossless_gap e) _ _ _ hm
    obtain ⟨k, rfl⟩ : ∃ k, m = k ++ t := ⟨Token.textAll vs ++ z, by rw [List.append_assoc, hvs]⟩
    have htext := lossless_gap e _ _ _ hu
    rw [← List.append_assoc] at htext
    obtain rfl := List.append_cancel_right htext
    have hrest :=
      ih (fun p w k ws hk => hcontinuation (Token.textAll us ++ p) w k ws (by simp [hk])) rfl rfl
    suffices hgap : gap e (Token.textAll us ++ k ++ t') = .ok us (k ++ t') from
      many_eq_ok.2 (.inl ⟨us, _, vs, hgap, advances_gap e _ _ _ hgap, hrest, rfl⟩)
    rcases either_eq_ok.1 hu with hb | ⟨hb, hc⟩
    · obtain ⟨b, heq, hne, hall, hhead, hus⟩ := run_shape.1 hb
      rw [List.append_assoc] at heq
      obtain rfl := List.append_cancel_right heq
      refine either_eq_ok.2 (.inl (run_shape.2 ⟨_, by simp, hne, hall, ?_, hus⟩))
      cases k with
      | cons c k => exact hhead
      | nil =>
        obtain rfl : z = [] := by
          have hlen := congrArg List.length hvs
          simp only [List.nil_append, List.length_append] at hlen
          exact List.length_eq_zero_iff.1 (by omega)
        exact run_stuck_iff.1 (either_eq_stuck.1 hstuck).1
    · have hc' := hcontinuation [] (Token.textAll us ++ k) k us rfl hc
      refine either_eq_ok.2 (.inr ⟨run_stuck_iff.2 ?_, hc'⟩)
      obtain ⟨w, hw⟩ := eq_cons_of_continuation hc'
      rw [hw]
      rcases he with rfl | rfl <;> rfl

/-- Separators before a word are the same before another. -/
theorem separator_solid {c c' : Char} {u n n' : Text} {ss : List Token} (he : IsEscape e)
    (hc : isSolid c = true) (hc' : isSolid c' = true) (hescape : c' ≠ e)
    (h : separator e (u ++ c :: n) = .ok ss (c :: n)) :
    separator e (u ++ c' :: n') = .ok ss (c' :: n') := by
  obtain ⟨hgaps, hss⟩ := separator_eq_ok.1 h
  refine separator_eq_ok.2 ⟨gaps_transfer (z := []) he
    (fun _ _ _ _ _ hcont => continuation_solid hc hc' hcont) ?_ hgaps, hss⟩
  refine either_eq_stuck.2 ⟨run_stuck_iff.2 (isSolid_iff.1 hc').1, continuation_stuck_iff.2 ?_⟩
  rintro ⟨ts, r, hok⟩
  obtain ⟨k, hk⟩ := eq_cons_of_continuation hok
  exact hescape (List.cons.inj hk).1

end Lexeme

namespace Swaps

variable {e : Char} {u t t' z : Text}

/-- Where no character of a class without blanks, escapes and line ends comes next, none does with
the other text. -/
theorem head?_any (h : Swaps e u t t') (he : IsEscape e) {p : Char → Bool}
    (hp : (p ' ' || p '\t' || p '\\' || p '`' || p '\r' || p '\n') = false)
    (hz : (z ++ t).head?.any p = false) : (z ++ t').head?.any p = false := by
  cases z with
  | nil => exact h.edge.head?_any he hp
  | cons c z => exact hz

theorem head?_ne_equals (h : Swaps e u t t') (he : IsEscape e) (hz : (z ++ t).head? ≠ some '=') :
    (z ++ t').head? ≠ some '=' := by
  cases z with
  | nil => exact h.edge.head?_ne_equals he
  | cons c z => exact hz

/-- Separators before an argument are the same with the other text. -/
theorem gaps (h : Swaps e u t t') (he : IsEscape e) (hz : z ≠ []) (hescape : z ≠ [e])
    {ss : List Token} (hgaps : many (Lexeme.gap e) (u ++ t) = .ok ss (z ++ t)) :
    many (Lexeme.gap e) (u ++ t') = .ok ss (z ++ t') := by
  obtain ⟨m, hstuck⟩ := stuck_of_many (advances_gap e) _ _ _ hgaps
  obtain ⟨hblanks, hcontinuation⟩ := either_eq_stuck.1 ⟨m, hstuck⟩
  obtain ⟨p, hp⟩ : ∃ p, u = p ++ z := by
    have htext := compositional_lossless.many (lossless_gap e) _ _ _ hgaps
    rw [← List.append_assoc] at htext
    exact ⟨_, (List.append_cancel_right htext).symm⟩
  have hsuffix : Swaps e z t t' := of_append (hp ▸ h)
  refine gaps_transfer he (fun p w k ts hu hc => (of_append (hu ▸ h)).continuation he hc) ?_ hgaps
  obtain ⟨c, w, rfl⟩ := List.exists_cons_of_ne_nil hz
  have hhead := run_stuck_iff.1 hblanks
  refine either_eq_stuck.2 ⟨run_stuck_iff.2 hhead, ?_⟩
  rw [continuation_stuck_iff] at hcontinuation ⊢
  by_cases hc : c = e
  · subst hc
    have hw : w ≠ [] := fun hw => hescape (by rw [hw])
    exact (hsuffix.of_append (k := [c])).continuation_stuck hw hcontinuation
  · rintro ⟨ts, r, hok⟩
    obtain ⟨k, hk⟩ := eq_cons_of_continuation hok
    exact hc (List.cons.inj hk).1

theorem separator (h : Swaps e u t t') (he : IsEscape e) (hz : z ≠ []) (hescape : z ≠ [e])
    {ss : List Token} (hsep : separator e (u ++ t) = .ok ss (z ++ t)) :
    Lexeme.separator e (u ++ t') = .ok ss (z ++ t') := by
  obtain ⟨hgaps, hss⟩ := separator_eq_ok.1 hsep
  exact separator_eq_ok.2 ⟨h.gaps he hz hescape hgaps, hss⟩

end Swaps

/-! ## Where arguments are -/

/-- Whether a token is an argument: a name, a literal, or a key with an optional value. -/
def Token.isArgument (t : Token) : Bool :=
  t.isLeaf .identifier || t.isLiteral || t.isKeyValue

/-- Tokens without an argument among them. -/
def Frame (ts : List Token) : Prop :=
  ∀ t ∈ ts, t.isArgument = false

namespace Frame

variable {ts us : List Token}

theorem append (h : Frame ts) (h' : Frame us) : Frame (ts ++ us) := by
  intro t ht
  rcases List.mem_append.1 ht with ht | ht
  · exact h t ht
  · exact h' t ht

theorem of_isTrivia (h : ∀ t ∈ ts, t.isTrivia = true) : Frame ts := by
  intro t ht
  have htrivia := h t ht
  cases t with
  | leaf kind text => cases kind <;> first | rfl | cases htrivia
  | node kind ts => cases kind <;> first | rfl | cases htrivia

theorem keyword (word : Text) : Frame [.leaf .keyword word] := by
  intro t ht
  obtain rfl := List.mem_singleton.1 ht
  rfl

variable (h : Frame ts)
include h

theorem isLiteral : ∀ t ∈ ts, t.isLiteral = false := by
  intro t ht
  have hargument := h t ht
  simp only [Token.isArgument, Bool.or_eq_false_iff] at hargument
  exact hargument.1.2

theorem isLeaf : ∀ t ∈ ts, t.isLeaf .identifier = false := by
  intro t ht
  have hargument := h t ht
  simp only [Token.isArgument, Bool.or_eq_false_iff] at hargument
  exact hargument.1.1

theorem keyValue? : ∀ t ∈ ts, t.keyValue? = none := by
  intro t ht
  have hargument := h t ht
  cases t with
  | leaf kind text => rfl
  | node kind ts => cases kind <;> first | rfl | cases hargument

theorem filterMap_keyValue? : ts.filterMap Token.keyValue? = [] :=
  List.filterMap_eq_nil_iff.2 h.keyValue?

end Frame

namespace Lexeme

variable {e : Char} {s r : Text} {ts : List Token}

theorem isTrivia_of_separator (h : separator e s = .ok ts r) : ∀ t ∈ ts, t.isTrivia = true :=
  onlyTrivia_gaps e _ _ _ (separator_eq_ok.1 h).1

theorem frame_of_separator (h : separator e s = .ok ts r) : Frame ts :=
  .of_isTrivia (isTrivia_of_separator h)

end Lexeme

/-! ## Literals -/

namespace Literal

variable {e : Char} {style : Style} {a t t' z s r : Text}

/-- A reading ends where a step stops. -/
theorem Scans.step_rest {q : Option Quote} {ps : List Piece} (h : Scans e style q s ps r)
    (hone : style.oneQuotedRun = false) : step style e none r = .stop := by
  induction h with
  | stop hstep => exact hstep
  | take _ _ ih => exact ih hone
  | last hstep => exact absurd hstep (step_ne_last hone)
  | reference _ _ _ _ ih => exact ih hone

/-- A reading that takes no text has no pieces, and no quote is open. -/
theorem Scans.eq_nil {q : Option Quote} {ps : List Piece} (h : Scans e style q s ps s)
    (hone : style.oneQuotedRun = false) : ps = [] ∧ q = none := by
  generalize hr : s = r at h
  have hshrink : ∀ {q' : Option Quote} {m : Text} {qs : List Piece}, Scans e style q' m qs r →
      r.length ≤ m.length := fun hm => by
    rw [← hm.sourceOf_append_eq, List.length_append]
    omega
  cases h with
  | stop => exact ⟨rfl, rfl⟩
  | take hstep hm =>
    have hlt := length_lt_of_step_take hstep
    have hle := hshrink hm
    omega
  | last hstep => exact absurd hstep (step_ne_last hone)
  | reference hstep hw hm =>
    have hlt := length_lt_of_reference hstep hw
    have hle := hshrink hm
    omega

/-- The pieces that a reading of `t` adds to a literal before it say nothing, and it ends at `r`. -/
def Silent (e : Char) (style : Style) (t r : Text) : Prop :=
  ∃ ps, Scans e style none t ps r ∧ valueOfPieces ps = []

/-- A blank ends a word. -/
theorem step_blank (he : IsEscape e) (hblanks : style.blanksEnd = true) {c : Char}
    (hc : isBlank c = true) : step style e none (c :: s) = .stop := by
  simp only [isBlank, Bool.or_eq_true, beq_iff_eq] at hc
  rcases hc with rfl | rfl <;> rcases he with rfl | rfl <;>
    simp [step, stepUnquoted, hblanks, isBlank, isQuote, Text.atLineEnd]

/-- A line end ends a literal. -/
theorem step_atLineEnd (he : IsEscape e) (hs : s.atLineEnd = true) :
    step style e none s = .stop := by
  cases s with
  | nil => rfl
  | cons c s =>
    rcases Text.atLineEnd_cons.1 hs with rfl | ⟨rfl, r, rfl⟩ <;> rcases he with rfl | rfl <;>
      simp [step, Text.atLineEnd]

/-- Blanks before a line end, or that line end, end a word. -/
theorem step_of_newline (he : IsEscape e) (hblanks : style.blanksEnd = true) {ns : List Token}
    (hn : newline (s.dropWhile isBlank) = .ok ns r) : step style e none s = .stop := by
  cases s with
  | nil => rfl
  | cons c s =>
    by_cases hc : isBlank c = true
    · exact step_blank he hblanks hc
    · rw [List.dropWhile_cons_of_neg hc] at hn
      exact step_atLineEnd he (atLineEnd_of_newline hn)

/-- A character of a name is one of a value too. -/
theorem step_stageChar (he : IsEscape e) {c : Char} (hc : isStageChar c = true) :
    step .value e none (c :: s) = .take [.text [c]] none s := by
  have hne : ∀ {d}, isStageChar d = false → c ≠ d := by
    rintro d hd rfl
    rw [hd] at hc
    cases hc
  have hescape : c ≠ e := by rcases he with rfl | rfl <;> exact hne rfl
  have hbreak : isLineBreak c = false := by
    simp [isLineBreak, hne (d := '\r') rfl, hne (d := '\n') rfl]
  have hblank : isBlank c = false := by simp [isBlank, hne (d := ' ') rfl, hne (d := '\t') rfl]
  simp [step, stepUnquoted, stepChar, Style.value, isQuote, hescape, hblank,
    Text.atLineEnd_eq_false hbreak, hne (d := '"') rfl, hne (d := '\'') rfl, hne (d := '$') rfl]

/-- Where a step stops, a reading adds nothing and ends at once. -/
theorem Silent.eq_of_stop (h : Silent e style t r) (hstop : step style e none t = .stop) :
    r = t := by
  obtain ⟨ps, hps, -⟩ := h
  cases hps with
  | stop => rfl
  | take hstep => cases hstop.symm.trans hstep
  | last hstep => cases hstop.symm.trans hstep
  | reference hstep => cases hstop.symm.trans hstep

/-- A reading that begins with a step that takes pieces adds them. -/
theorem Silent.of_take (h : Silent e style t r) {ps : List Piece} {m : Text}
    (htake : step style e none t = .take ps none m) : valueOfPieces ps = [] ∧
    Silent e style m r := by
  obtain ⟨qs, hqs, hvalue⟩ := h
  cases hqs with
  | stop hstep => cases htake.symm.trans hstep
  | take hstep hm =>
    cases htake.symm.trans hstep
    rw [valueOfPieces_append, List.append_eq_nil_iff] at hvalue
    exact ⟨hvalue.1, _, hm, hvalue.2⟩
  | last hstep => cases htake.symm.trans hstep
  | reference hstep => cases htake.symm.trans hstep

/-- A value that adds nothing before a name takes continuations at most, and leaves separators. -/
theorem Silent.separator (h : Silent e .value t r) (he : IsEscape e) {ss : List Token} {k : Text}
    (hgaps : many (gap e) t = .ok ss k) (hk : ∃ c w, k = c :: w ∧ isStageChar c = true) :
    ∃ ss', separator e r = .ok ss' k := by
  induction t, ss, k, hgaps using gaps_induction with
  | nil s m _ _ =>
    obtain ⟨c, w, rfl, hc⟩ := hk
    obtain ⟨hvalue, -⟩ := h.of_take (step_stageChar he hc)
    cases hvalue
  | blanks c b m vs k hall hm hgaps ih =>
    obtain rfl := h.eq_of_stop (step_blank he rfl (hall c List.mem_cons_self))
    exact ⟨_, separator_eq_ok.2 ⟨hgaps, by simp⟩⟩
  | continuation s us m vs k hc hm hgaps ih => exact ih (h.of_take (step_of_continuation hc)).2 hk

theorem body_of_trimsEnd (htrim : style.trimsEnd = false) {ts : List Token} :
    body style e s = .ok ts r ↔
      ∃ ps, Scans e style none s ps r ∧ ts = assemble ps ∧
        (ts ≠ [] ∨ style.allowsEmpty = true) := by
  have hcut : ∀ ps, cut style ps = (ps, []) := fun ps => by simp [cut, htrim]
  simp only [body_eq_ok, hcut, List.nil_append]
  constructor
  · rintro ⟨ps, m, hps, hts, rfl, hne⟩
    exact ⟨ps, hps, hts, hne⟩
  · rintro ⟨ps, hps, hts, hne⟩
    exact ⟨ps, r, hps, hts, rfl, hne⟩

/-- A literal that may be empty is always there, unless it is malformed. -/
theorem body_ne_stuck (hempty : style.allowsEmpty = true) (m : Text) :
    body style e s ≠ .stuck m := by
  unfold body
  cases scan style e none s with
  | error f => nofun
  | ok scanned =>
    obtain ⟨ps, k⟩ := scanned
    simp [ofScanned_ok, hempty]

/-- A literal says the same with another text behind, if that text adds nothing to it. -/
theorem body_swap (htrim : style.trimsEnd = false) (hstyle : style.Plain) (he : IsEscape e)
    (hs : Swaps e a t t') {ts : List Token}
    (h : body style e (a ++ t) = .ok ts (z ++ t)) (hrest : Silent e style (z ++ t') r) :
    ∃ us, body style e (a ++ t') = .ok us r ∧ valueOf us = valueOf ts := by
  simp only [body_of_trimsEnd htrim] at h ⊢
  obtain ⟨ps, hps, rfl, hne⟩ := h
  obtain ⟨qs, hqs, hsilent⟩ := hrest
  have hne' : assemble ps ≠ [] → assemble (ps ++ qs) ≠ [] := by
    intro hne hnil
    have htext := textAll_assemble (ps ++ qs)
    rw [hnil, sourceOf_append] at htext
    have hnil' : sourceOf ps = [] := (List.append_eq_nil_iff.1 htext.symm).1
    have heq := hps.sourceOf_append_eq
    rw [hnil', List.nil_append] at heq
    rw [← heq] at hps
    rw [(hps.eq_nil hstyle.runs).1] at hne
    exact hne rfl
  refine ⟨_, ⟨ps ++ qs, (hps.swap he hstyle hs rfl).2 ⟨qs, rfl, hqs⟩, rfl, hne.imp_left hne'⟩, ?_⟩
  rw [valueOf_assemble, valueOf_assemble, valueOfPieces_append, hsilent, List.append_nil]

/-- A literal is the same with another text behind, if it ends where that text begins. -/
theorem body_swap_of_stop (htrim : style.trimsEnd = false) (hstyle : style.Plain) (he : IsEscape e)
    (hs : Swaps e a t t') {ts : List Token} (h : body style e (a ++ t) = .ok ts (z ++ t))
    (hstop : step style e none (z ++ t') = .stop) : body style e (a ++ t') = .ok ts (z ++ t') := by
  rw [body_of_trimsEnd htrim] at h ⊢
  obtain ⟨ps, hps, rfl, hne⟩ := h
  exact ⟨ps, (hps.swap he hstyle hs rfl).2 ⟨[], (List.append_nil _).symm, .stop hstop⟩, rfl, hne⟩

/-- A literal that ends before another argument is the same with another text behind that. -/
theorem body_swap_within (htrim : style.trimsEnd = false) (hstyle : style.Plain) (he : IsEscape e)
    (hs : Swaps e a t t') (hz : z ≠ []) {ts : List Token}
    (h : body style e (a ++ t) = .ok ts (z ++ t)) : body style e (a ++ t') = .ok ts (z ++ t') := by
  obtain ⟨ps, hps, -⟩ := (body_of_trimsEnd htrim).1 h
  have ha : sourceOf ps ++ z = a :=
    List.append_cancel_right (by rw [List.append_assoc, hps.sourceOf_append_eq])
  have hz' : Swaps e z t t' := Swaps.of_append (ha ▸ hs)
  have hstep : (step style e none (z ++ t)).Swapped t t' (step style e none (z ++ t')) :=
    step_swapped rfl he hz' hz hstyle
  rw [hps.step_rest hstyle.runs] at hstep
  generalize hst : step style e none (z ++ t') = st at hstep
  cases hstep
  exact body_swap_of_stop htrim hstyle he hs h hst

end Literal

/-! ## Names with values -/

namespace KeyValue

variable {e : Char} {p : Char → Bool} {a t t' z s r : Text} {ts : List Token}

/-- The name and the value. -/
def field (p : KeyValue) : Text × Option Text :=
  (p.key, p.value?)

/-- Reads a name of the characters of a class, and its value if there is one. -/
def named (e : Char) (p : Char → Bool) : Grammar :=
  run .identifier p ++ optional (assignment e)

theorem flag_eq (e : Char) : flag e = node .keyValue (symbol "--" ++ named e isFlagChar) := by
  unfold flag named
  rw [seq_assoc]

theorem assignment_stuck_iff : (∃ m, assignment e s = .stuck m) ↔ s.head? ≠ some '=' := by
  have hliteral : ∀ k, ¬ ∃ m, Literal.grammar .value e k = .stuck m := by
    rintro k ⟨m, hm⟩
    obtain ⟨m, hm⟩ := node_stuck_iff.1 ⟨m, hm⟩
    exact Literal.body_ne_stuck rfl m hm
  have hequals : (∃ r, s = ['='] ++ r) ↔ s.head? = some '=' := List.head?_eq_some_iff.symm
  unfold assignment
  rw [seq_stuck_iff]
  simp only [hliteral, and_false, exists_const, or_false]
  rw [symbol, exactly_stuck_iff]
  exact not_congr hequals

/-- A flag begins with two dashes and a character of its name. -/
theorem flag_stuck_iff : (∃ m, flag e s = .stuck m) ↔
    ¬ ∃ c r, s = '-' :: '-' :: c :: r ∧ isFlagChar c = true := by
  have hnamed : ∀ k, (∃ m, named e isFlagChar k = .stuck m) ↔ k.head?.any isFlagChar = false := by
    intro k
    unfold named
    rw [seq_stuck_iff, run_stuck_iff, or_iff_left]
    rintro ⟨ts, r, -, m, hm⟩
    exact optional_ne_stuck m hm
  rw [flag_eq, node_stuck_iff, seq_stuck_iff, symbol, exactly_stuck_iff]
  constructor
  · rintro (hdashes | ⟨ts, r, hdashes, hr⟩) ⟨c, k, rfl, hc⟩
    · exact hdashes ⟨c :: k, rfl⟩
    · obtain ⟨hk, -⟩ := exactly_eq_ok.1 hdashes
      obtain rfl : c :: k = r := by simpa using hk
      rw [hnamed] at hr
      exact absurd hc (by simpa using hr)
  · intro hstuck
    by_cases hdashes : ∃ r, s = "--".toList ++ r
    · obtain ⟨r, rfl⟩ := hdashes
      refine .inr ⟨_, r, exactly_eq_ok.2 ⟨rfl, rfl⟩, (hnamed r).2 ?_⟩
      cases r with
      | nil => rfl
      | cons c k =>
        cases hc : isFlagChar c with
        | false => simpa using hc
        | true => exact absurd ⟨c, k, rfl, hc⟩ hstuck
    · exact .inl hdashes

/-- A name that is read is bare, or an equals sign and a value are behind it. -/
theorem named_eq_ok : named e p s = .ok ts r ↔
    ∃ k m, s = k ++ m ∧ k ≠ [] ∧ (∀ c ∈ k, p c = true) ∧ m.head?.any p = false ∧
      (m.head? ≠ some '=' ∧ r = m ∧ ts = [.identifier k] ∨
        ∃ m' ls, m = '=' :: m' ∧ Literal.body .value e m' = .ok ls r ∧
          ts = [.identifier k, .symbol ['='], .node (.literal true) ls]) := by
  unfold named
  rw [seq_eq_ok]
  constructor
  · rintro ⟨us, vs, m, hu, hv, rfl⟩
    obtain ⟨k, rfl, hne, hall, hhead, rfl⟩ := run_shape.1 hu
    refine ⟨k, m, rfl, hne, hall, hhead, ?_⟩
    rcases optional_eq_ok.1 hv with hv | ⟨hstuck, rfl, rfl⟩
    · obtain ⟨qs, ls, m', hq, hl, rfl⟩ := seq_eq_ok.1 hv
      obtain ⟨rfl, rfl⟩ := exactly_eq_ok.1 hq
      obtain ⟨ls, hbody, rfl⟩ := node_eq_ok.1 hl
      exact .inr ⟨m', ls, rfl, hbody, rfl⟩
    · exact .inl ⟨assignment_stuck_iff.1 hstuck, rfl, rfl⟩
  · rintro ⟨k, m, rfl, hne, hall, hhead, hrest⟩
    have hrun : run .identifier p (k ++ m) = .ok [.identifier k] m :=
      run_shape.2 ⟨k, rfl, hne, hall, hhead, rfl⟩
    rcases hrest with ⟨hequals, rfl, rfl⟩ | ⟨m', ls, rfl, hl, rfl⟩
    · exact ⟨_, [], r, hrun, optional_eq_ok.2 (.inr ⟨assignment_stuck_iff.2 hequals, rfl, rfl⟩),
        rfl⟩
    · have hassign :
          assignment e ('=' :: m') = .ok ([.symbol ['=']] ++ [.node (.literal true) ls]) r :=
        seq_eq_ok.2 ⟨_, _, m', exactly_eq_ok.2 ⟨rfl, rfl⟩, node_eq_ok.2 ⟨ls, hl, rfl⟩, rfl⟩
      exact ⟨_, _, _, hrun, optional_eq_ok.2 (.inl hassign), rfl⟩

theorem exists_cons_of_named (h : named e p s = .ok ts r) : ∃ c k, s = c :: k ∧ p c = true := by
  obtain ⟨k, m, rfl, hne, hall, -⟩ := named_eq_ok.1 h
  obtain ⟨c, k, rfl⟩ := List.exists_cons_of_ne_nil hne
  exact ⟨c, k ++ m, rfl, hall c List.mem_cons_self⟩

theorem lossless_named (e : Char) (p : Char → Bool) : Lossless (named e p) :=
  compositional_lossless.seq (lossless_run _ _)
    (compositional_lossless.optional (arrayReaders_lossless e).assignment)

theorem advances_named (e : Char) (p : Char → Bool) : Advances (named e p) :=
  (advances_run _ _).seq (arrayReaders_lossless e).assignment.shrinks.optional

/-- A name that ends before a text that is behind is bare, or its value ends there. -/
theorem named_append (h : named e p (a ++ t) = .ok ts (z ++ t)) :
    ∃ k m, a = k ++ m ∧ k ≠ [] ∧ (∀ c ∈ k, p c = true) ∧ (m ++ t).head?.any p = false ∧
      ((m ++ t).head? ≠ some '=' ∧ m = z ∧ ts = [.identifier k] ∨
        ∃ w ls, m = '=' :: w ∧ Literal.body .value e (w ++ t) = .ok ls (z ++ t) ∧
          ts = [.identifier k, .symbol ['='], .node (.literal true) ls]) := by
  obtain ⟨k, m, heq, hne, hall, hhead, ⟨hequals, rfl, rfl⟩ | ⟨m', ls, rfl, hbody, rfl⟩⟩ :=
    named_eq_ok.1 h
  · have ha : a = k ++ z := List.append_cancel_right (by rw [heq, List.append_assoc])
    exact ⟨k, z, ha, hne, hall, hhead, .inl ⟨hequals, rfl, rfl⟩⟩
  · obtain ⟨w, rfl⟩ : ∃ w, m' = w ++ t :=
      ⟨_, by rw [List.append_assoc, Literal.lossless_body _ _ _ _ _ hbody]⟩
    have ha : a = k ++ '=' :: w := List.append_cancel_right (by rw [heq]; simp)
    exact ⟨k, '=' :: w, ha, hne, hall, hhead, .inr ⟨w, ls, rfl, hbody, rfl⟩⟩

/-- Where an argument ends if `t` comes to stand behind it: what has a value ends at `r`, and the
value does not change; what has none ends at once. -/
def EndsAt (e : Char) (valued : Bool) (t r : Text) : Prop :=
  if valued then Literal.Silent e .value t r else r = t

section

variable (he : IsEscape e) (hp : (p ' ' || p '\t' || p '\\' || p '`' || p '\r' || p '\n') = false)
  (hs : Swaps e a t t')
include he hp hs

/-- A name and its value are the same with another text behind, if that text adds nothing to the
value. -/
theorem named_swap (h : named e p (a ++ t) = .ok ts (z ++ t))
    (hend : EndsAt e (ts.any Token.isLiteral) (z ++ t') r) :
    ∃ us, named e p (a ++ t') = .ok us r ∧ field ⟨us⟩ = field ⟨ts⟩ := by
  obtain ⟨k, m, rfl, hne, hall, hhead, ⟨hequals, rfl, rfl⟩ | ⟨w, ls, rfl, hbody, rfl⟩⟩ :=
    named_append h
  · obtain rfl : r = m ++ t' := hend
    exact ⟨_, named_eq_ok.2 ⟨k, m ++ t', List.append_assoc .., hne, hall, hs.head?_any he hp hhead,
      .inl ⟨hs.head?_ne_equals he hequals, rfl, rfl⟩⟩, rfl⟩
  · have hw : Swaps e w t t' := Swaps.of_append (k := k ++ ['=']) (by simpa using hs)
    obtain ⟨us, hus, hvalue⟩ := Literal.body_swap rfl ⟨rfl, rfl⟩ he hw hbody hend
    refine ⟨_, named_eq_ok.2 ⟨k, '=' :: (w ++ t'), by simp, hne, hall, hhead,
      .inr ⟨_, us, rfl, hus, rfl⟩⟩, ?_⟩
    exact congrArg (fun v => (k, some v)) hvalue

/-- A name and its value are the same with another text behind, if they end where it begins. -/
theorem named_swap_of_end (h : named e p (a ++ t) = .ok ts (z ++ t))
    (hend : ts.any Token.isLiteral = true → Literal.step .value e none (z ++ t') = .stop) :
    named e p (a ++ t') = .ok ts (z ++ t') := by
  obtain ⟨k, m, rfl, hne, hall, hhead, ⟨hequals, rfl, rfl⟩ | ⟨w, ls, rfl, hbody, rfl⟩⟩ :=
    named_append h
  · exact named_eq_ok.2 ⟨k, m ++ t', List.append_assoc .., hne, hall, hs.head?_any he hp hhead,
      .inl ⟨hs.head?_ne_equals he hequals, rfl, rfl⟩⟩
  · have hw : Swaps e w t t' := Swaps.of_append (k := k ++ ['=']) (by simpa using hs)
    have hbody' := Literal.body_swap_of_stop rfl ⟨rfl, rfl⟩ he hw hbody (hend rfl)
    exact named_eq_ok.2 ⟨k, '=' :: (w ++ t'),
      by simp, hne, hall, hhead, .inr ⟨_, ls, rfl, hbody', rfl⟩⟩

/-- A name and its value before another argument are the same with another text behind that. -/
theorem named_swap_within (hz : z ≠ []) (h : named e p (a ++ t) = .ok ts (z ++ t)) :
    named e p (a ++ t') = .ok ts (z ++ t') := by
  refine named_swap_of_end he hp hs h fun hvalued => ?_
  obtain ⟨k, m, rfl, -, -, -, ⟨-, rfl, rfl⟩ | ⟨w, ls, rfl, hbody, rfl⟩⟩ := named_append h
  · cases hvalued
  · have hw : Swaps e w t t' := Swaps.of_append (k := k ++ ['=']) (by simpa using hs)
    have hbody' := Literal.body_swap_within rfl ⟨rfl, rfl⟩ he hw hz hbody
    obtain ⟨ps, hps, -⟩ := (Literal.body_of_trimsEnd rfl).1 hbody'
    exact hps.step_rest rfl

end

end KeyValue

/-! ## Keywords -/

namespace Lexeme

variable {e : Char} {k : Keyword} {a t t' z s r : Text} {ts : List Token}

theorem head?_keyword {word : Text} (hw : Text.sameLetters word k.name = true) (r : Text) :
    (word ++ r).head?.any isBlank = false := by
  have hlen : word.length = k.name.length := by simpa using congrArg List.length (eq_of_beq hw)
  have hname := isNameChar_of_sameLetters hw k.isNameChar_of_mem_name
  cases word with
  | nil => cases k <;> cases hlen
  | cons c word => exact Instruction.isBlank_of_isNameChar (hname c List.mem_cons_self)

/-- An instruction starts with blanks and its keyword. -/
theorem start_shape : start k.name s = .ok ts r ↔
    ∃ b word, s = b ++ (word ++ r) ∧ (∀ c ∈ b, isBlank c = true) ∧
      Text.sameLetters word k.name = true ∧ r.head?.any isNameChar = false ∧
      ts = (if b = [] then [] else [.blank b]) ++ [.leaf .keyword word] := by
  unfold start
  rw [seq_eq_ok]
  constructor
  · rintro ⟨us, vs, m, hu, hv, rfl⟩
    obtain ⟨word, rfl, hw, hhead, rfl⟩ := keyword_eq_ok.1 hv
    rcases optional_eq_ok.1 hu with hu | ⟨-, rfl, rfl⟩
    · obtain ⟨b, rfl, hne, hall, -, rfl⟩ := run_shape.1 hu
      exact ⟨b, word, rfl, hall, hw, hhead, by rw [if_neg hne]; rfl⟩
    · exact ⟨[], word, rfl, nofun, hw, hhead, rfl⟩
  · rintro ⟨b, word, rfl, hall, hw, hhead, rfl⟩
    have hblank := head?_keyword hw r
    refine ⟨_, _, word ++ r, optional_eq_ok.2 ?_, keyword_eq_ok.2 ⟨word, rfl, hw, hhead, rfl⟩, rfl⟩
    by_cases hb : b = []
    · subst hb
      exact .inr ⟨run_stuck_iff.2 hblank, rfl, rfl⟩
    · rw [if_neg hb]
      exact .inl (run_shape.2 ⟨b, rfl, hb, hall, hblank, rfl⟩)

/-- The start of an instruction is the same with another text behind. -/
theorem start_swap (he : IsEscape e) (hs : Swaps e a t t')
    (h : start k.name (a ++ t) = .ok ts (z ++ t)) : start k.name (a ++ t') = .ok ts (z ++ t') := by
  obtain ⟨b, word, heq, hall, hw, hhead, rfl⟩ := start_shape.1 h
  have ha : a = b ++ (word ++ z) := List.append_cancel_right (by rw [heq]; simp)
  exact start_shape.2 ⟨b, word, by simp [ha], hall, hw, hs.head?_any he rfl hhead, rfl⟩

/-- The first word of an instruction is its keyword. -/
theorem firstWord_of_start (h : start k.name s = .ok ts r) :
    Children.firstLeaf? .keyword ts = some (Instruction.firstWord s) := by
  obtain ⟨b, word, rfl, hall, hw, hhead, rfl⟩ := start_shape.1 h
  have hdrop : (word ++ r).dropWhile isBlank = word ++ r := by
    have hblank := head?_keyword hw r
    generalize word ++ r = m at hblank ⊢
    cases m with
    | nil => rfl
    | cons c m => exact List.dropWhile_cons_of_neg (by simpa using hblank)
  have hword : word.takeWhile isNameChar = word := by
    simpa using @List.takeWhile_append_of_pos _ _ word []
      (isNameChar_of_sameLetters hw k.isNameChar_of_mem_name)
  unfold Instruction.firstWord Instruction.fromFirstWord
  rw [List.dropWhile_append_of_pos hall, hdrop, (Text.span_append hhead word).1, hword]
  split <;> rfl

end Lexeme

/-! ## Declarations -/

/-- Declarations in a row, each with the separators before it. -/
inductive Declarations (e : Char) : Text → List (List Token × KeyValue) → Text → Prop where
  | nil (s : Text) : Declarations e s [] s
  | cons {s m m' r : Text} {ss : List Token} {p : KeyValue} {ds : List (List Token × KeyValue)}
      (hsep : separator e s = .ok ss m) (hname : KeyValue.named e isStageChar m = .ok p.parts m')
      (hrest : Declarations e m' ds r) : Declarations e s ((ss, p) :: ds) r

namespace Declarations

variable {e : Char} {s m r a t t' z : Text} {ds ds' : List (List Token × KeyValue)}
  {ts : List Token}

/-- The tokens of declarations. -/
def tokens (ds : List (List Token × KeyValue)) : List Token :=
  ds.flatMap fun d => d.1 ++ [d.2.token]

/-- The names and values of declarations. -/
def fields (ds : List (List Token × KeyValue)) : List (Text × Option Text) :=
  ds.map fun d => d.2.field

/-- Whether the last declaration has a value. -/
def endsValued (ds : List (List Token × KeyValue)) : Bool :=
  ds.getLast?.any fun d => d.2.parts.any Token.isLiteral

theorem text_append (h : Declarations e s ds r) : Token.textAll (tokens ds) ++ r = s := by
  induction h with
  | nil s => rfl
  | @cons s m m' r ss p ds hsep hname hrest ih =>
    rw [← (arrayReaders_lossless e).separator _ _ _ hsep, ← KeyValue.lossless_named _ _ _ _ _ hname,
      ← ih]
    simp [tokens, KeyValue.token, Token.textAll, Token.text]

theorem append_iff : Declarations e s (ds ++ ds') r ↔
    ∃ m, Declarations e s ds m ∧ Declarations e m ds' r := by
  induction ds generalizing s with
  | nil =>
    constructor
    · exact fun h => ⟨s, .nil s, h⟩
    · rintro ⟨m, h, h'⟩
      cases h
      exact h'
  | cons d ds ih =>
    constructor
    · intro h
      cases h with
      | cons hsep hname hrest =>
        obtain ⟨m, hds, hds'⟩ := ih.1 hrest
        exact ⟨m, .cons hsep hname hds, hds'⟩
    · rintro ⟨m, h, h'⟩
      cases h with
      | cons hsep hname hrest => exact .cons hsep hname (ih.2 ⟨m, hrest, h'⟩)

theorem argument_eq_ok : argument e (KeyValue.declaration e isStageChar) s = .ok ts r ↔
    ∃ ss p m, separator e s = .ok ss m ∧ KeyValue.named e isStageChar m = .ok p.parts r ∧
      ts = ss ++ [KeyValue.token p] := by
  rw [Instruction.argument_eq_ok, seq_eq_ok]
  constructor
  · rintro ⟨ss, vs, m, hsep, hv, rfl⟩
    obtain ⟨us, hus, rfl⟩ := node_eq_ok.1 hv
    exact ⟨ss, ⟨us⟩, m, hsep, hus, rfl⟩
  · rintro ⟨ss, p, m, hsep, hname, rfl⟩
    exact ⟨ss, _, m, hsep, node_eq_ok.2 ⟨_, hname, rfl⟩, rfl⟩

theorem advances_argument : Advances (argument e (KeyValue.declaration e isStageChar)) :=
  Lexeme.advances_argument (Advances.node _ (KeyValue.advances_named _ _)).shrinks

/-- Reading declarations as long as there are some. -/
theorem many_eq_ok : many (argument e (KeyValue.declaration e isStageChar)) s = .ok ts r ↔
    ∃ ds, Declarations e s ds r ∧ ts = tokens ds ∧
      ∃ m, argument e (KeyValue.declaration e isStageChar) r = .stuck m := by
  constructor
  · intro h
    induction s, ts, r, h using advances_argument.many_induction with
    | nil s m hstuck _ => exact ⟨[], .nil s, rfl, m, hstuck⟩
    | round s us m vs r hu _ _ ih =>
      obtain ⟨ss, p, k, hsep, hname, rfl⟩ := argument_eq_ok.1 hu
      obtain ⟨ds, hds, rfl, hstuck⟩ := ih
      exact ⟨(ss, p) :: ds, .cons hsep hname hds, rfl, hstuck⟩
  · rintro ⟨ds, h, rfl, hstuck⟩
    induction h with
    | nil s => exact Grammar.many_eq_ok.2 (.inr (.inr ⟨hstuck, rfl, rfl⟩))
    | @cons s m m' r ss p ds hsep hname hrest ih =>
      have hu := argument_eq_ok.2 ⟨ss, p, m, hsep, hname, rfl⟩
      exact Grammar.many_eq_ok.2 (.inl ⟨_, m', _, hu, advances_argument _ _ _ hu, ih hstuck, rfl⟩)

theorem length_lt {d : List Token × KeyValue} (h : Declarations e s (d :: ds) r) :
    r.length < s.length := by
  cases h with
  | @cons _ m m' _ ss p _ hsep hname hrest =>
    have hlt := advances_argument _ _ _ (argument_eq_ok.2 ⟨ss, p, m, hsep, hname, rfl⟩)
    have hle := congrArg List.length hrest.text_append
    rw [List.length_append] at hle
    omega

/-- The separators before a declaration are there with another text behind that too. -/
theorem separator_swap {k : Text} {ss : List Token} (he : IsEscape e) (hs : Swaps e a t t')
    (h : separator e (a ++ t) = .ok ss (k ++ t))
    (hname : KeyValue.named e isStageChar (k ++ t) = .ok ts (m ++ t)) :
    separator e (a ++ t') = .ok ss (k ++ t') := by
  obtain ⟨c, w, hcw, hc⟩ := KeyValue.exists_cons_of_named hname
  have hne : k ≠ [] := by
    rintro rfl
    have hlt := KeyValue.advances_named _ _ _ _ _ hname
    simp only [List.nil_append, List.length_append] at hlt
    omega
  have hescape : k ≠ [e] := by
    rintro rfl
    obtain ⟨rfl, -⟩ := List.cons.inj hcw
    rcases he with rfl | rfl <;> cases hc
  exact hs.separator he hne hescape h

/-- Declarations before another argument are the same with another text behind that. -/
theorem swap_within (h : Declarations e (a ++ t) ds (z ++ t)) (he : IsEscape e)
    (hs : Swaps e a t t') (hz : z ≠ []) : Declarations e (a ++ t') ds (z ++ t') := by
  generalize hS : a ++ t = S at h
  generalize hR : z ++ t = R at h
  induction h generalizing a with
  | nil s =>
    obtain rfl := List.append_cancel_right (hS.trans hR.symm)
    exact .nil _
  | @cons s m m' r' ss p ds hsep hname hrest ih =>
    subst hS hR
    -- the separators and the declaration both end before the text that is behind
    obtain ⟨w, rfl⟩ : ∃ w, m' = w ++ t :=
      ⟨Token.textAll (tokens ds) ++ z, by rw [List.append_assoc, hrest.text_append]⟩
    obtain ⟨k, rfl⟩ : ∃ k, m = k ++ t :=
      ⟨_, by rw [List.append_assoc, KeyValue.lossless_named _ _ _ _ _ hname]⟩
    have hw : w ≠ [] := by
      rintro rfl
      have hlen := congrArg List.length hrest.text_append
      have hpos := List.length_pos_iff.2 hz
      simp only [List.nil_append, List.length_append] at hlen
      omega
    have hk : Swaps e k t t' := by
      have htext := (arrayReaders_lossless e).separator _ _ _ hsep
      rw [← List.append_assoc] at htext
      exact Swaps.of_append (List.append_cancel_right htext ▸ hs)
    have hw' : Swaps e w t t' := by
      have htext := KeyValue.lossless_named _ _ _ _ _ hname
      rw [← List.append_assoc] at htext
      exact Swaps.of_append (List.append_cancel_right htext ▸ hk)
    exact .cons (separator_swap he hs hsep hname) (KeyValue.named_swap_within he rfl hk hw hname)
      (ih hw' rfl rfl)

/-- Declarations say the same with another text behind, if that text adds nothing to the last of
them. -/
theorem swap (h : Declarations e (a ++ t) ds t) (he : IsEscape e) (hs : Swaps e a t t')
    (hend : KeyValue.EndsAt e (endsValued ds) t' r) :
    ∃ ds', Declarations e (a ++ t') ds' r ∧ fields ds' = fields ds := by
  rcases List.eq_nil_or_concat ds with rfl | ⟨es, ⟨ss, p⟩, hds⟩
  · obtain rfl : a = [] := by simpa [tokens, Token.textAll] using h.text_append
    obtain rfl : r = t' := hend
    exact ⟨[], .nil _, rfl⟩
  · rw [List.concat_eq_append] at hds
    subst hds
    obtain ⟨m, hes, hd⟩ := append_iff.1 h
    cases hd with
    | @cons _ m' _ _ _ _ _ hsep hname hrest =>
      cases hrest
      obtain ⟨k, rfl⟩ : ∃ k, m' = k ++ t := ⟨_, (KeyValue.lossless_named _ _ _ _ _ hname).symm⟩
      obtain ⟨z, rfl⟩ : ∃ z, m = z ++ t :=
        ⟨_, by rw [List.append_assoc, (arrayReaders_lossless e).separator _ _ _ hsep]⟩
      have hz : z ≠ [] := by
        rintro rfl
        exact absurd (length_lt (.cons hsep hname (.nil t))) (Nat.lt_irrefl _)
      have hz' : Swaps e z t t' := by
        have htext := hes.text_append
        rw [← List.append_assoc] at htext
        exact Swaps.of_append (List.append_cancel_right htext ▸ hs)
      have hk : Swaps e k t t' := by
        have htext := (arrayReaders_lossless e).separator _ _ _ hsep
        rw [← List.append_assoc] at htext
        exact Swaps.of_append (List.append_cancel_right htext ▸ hz')
      have hend' : KeyValue.EndsAt e (p.parts.any Token.isLiteral) ([] ++ t') r := by
        simpa [endsValued] using hend
      obtain ⟨us, hus, hfield⟩ := KeyValue.named_swap (z := []) he rfl hk hname hend'
      refine ⟨es ++ [(ss, ⟨us⟩)], append_iff.2 ⟨_, hes.swap_within he hs hz,
        .cons (separator_swap (m := []) he hz' hsep hname) hus (.nil r)⟩, ?_⟩
      simp only [fields, List.map_append, List.map_cons, List.map_nil, hfield]

/-- Declarations are still there behind a value that adds nothing. -/
theorem rejoin {d : List Token × KeyValue} (h : Declarations e t (d :: ds) r) (he : IsEscape e)
    (hsilent : Literal.Silent e .value t m) : ∃ ss, Declarations e m ((ss, d.2) :: ds) r := by
  cases h with
  | cons hsep hname hrest =>
    obtain ⟨ss, hss⟩ :=
      hsilent.separator he (separator_eq_ok.1 hsep).1 (KeyValue.exists_cons_of_named hname)
    exact ⟨ss, .cons hss hname hrest⟩

end Declarations

/-! ## The end of an instruction -/

namespace Lexeme

variable {e : Char} {t r k : Text} {ts : List Token}

/-- An instruction with a line end of its own ends with blanks and the line end. -/
theorem newline_of_finish (h : finish e t = .ok ts r)
    (hend : Token.lineStateAll ts .within = .ended) :
    ∃ us ns, many (gap e) t = .ok us (t.dropWhile isBlank) ∧
      newline (t.dropWhile isBlank) = .ok ns r := by
  obtain ⟨us, m, hus, ⟨rfl, -, rfl⟩ | ⟨ns, hn, rfl⟩⟩ := finish_eq_ok.1 h
  · rcases separators_cases hus with ⟨-, hstate⟩ | ⟨-, hstate⟩ <;>
      · rw [hstate] at hend
        cases hend
  · rcases separators_cases hus with ⟨rfl, -⟩ | ⟨hstuck, -⟩
    · exact ⟨us, ns, hus, hn⟩
    · exact absurd hn (hstuck ns r)

/-- Behind blanks there is a continuation, or what is behind all separators. -/
theorem dropWhile_of_gaps (he : IsEscape e) (h : many (gap e) t = .ok ts k) :
    (∃ w, t.dropWhile isBlank = e :: w) ∨ t.dropWhile isBlank = k := by
  induction t, ts, k, h using (advances_gap e).many_induction with
  | nil s m hstuck _ =>
    obtain ⟨hb, -⟩ := either_eq_stuck.1 ⟨m, hstuck⟩
    exact .inr (optional_run_rest (optional_eq_ok.2 (.inr ⟨hb, rfl, rfl⟩))).symm
  | round s us m vs k hu _ _ ih =>
    rcases either_eq_ok.1 hu with hb | ⟨-, hc⟩
    · have hm := optional_run_rest (optional_eq_ok.2 (.inl hb))
      rwa [hm, Text.dropWhile_dropWhile] at ih
    · obtain ⟨w, rfl⟩ := eq_cons_of_continuation hc
      refine .inl ⟨w, List.dropWhile_cons_of_neg ?_⟩
      rcases he with rfl | rfl <;> decide

end Lexeme

namespace Declarations

variable {e : Char} {t r : Text} {ds : List (List Token × KeyValue)} {ns : List Token}

/-- A separator before a name is not followed by a line end or a comment. -/
theorem dropWhile_of_cons {d : List Token × KeyValue} (h : Declarations e t (d :: ds) r)
    (he : IsEscape e) : ∃ c k, t.dropWhile isBlank = c :: k ∧ (c = e ∨ isStageChar c = true) := by
  cases h with
  | cons hsep hname hrest =>
    obtain ⟨c, k, rfl, hc⟩ := KeyValue.exists_cons_of_named hname
    rcases dropWhile_of_gaps he (separator_eq_ok.1 hsep).1 with ⟨w, hw⟩ | hk
    · exact ⟨e, w, hw, .inl rfl⟩
    · exact ⟨c, k, hk, .inr hc⟩

/-- Declarations up to the line end of an instruction begin with a separator or with that line end,
and not with a comment. -/
theorem edge (h : Declarations e t ds r) (he : IsEscape e)
    (hr : newline (r.dropWhile isBlank) = .ok ns []) :
    Edge e t ∧ (t.dropWhile isBlank).head? ≠ some '#' := by
  cases ds with
  | nil =>
    cases h
    constructor
    · cases t with
      | nil => exact .line rfl
      | cons c t =>
        by_cases hc : isBlank c = true
        · exact .gap (.inl hc)
        · rw [List.dropWhile_cons_of_neg hc] at hr
          exact .line (atLineEnd_of_newline hr)
    · rcases newline_eq_ok.1 hr with ⟨hr, -⟩ | ⟨hr, -⟩ <;> simp [hr]
  | cons d ds =>
    obtain ⟨c, k, hck, hc⟩ := h.dropWhile_of_cons he
    cases h with
    | cons hsep _ _ =>
      obtain ⟨b, w, rfl, hb⟩ := exists_cons_of_separator hsep
      refine ⟨.gap hb, ?_⟩
      rw [hck]
      rintro ⟨⟩
      rcases hc with rfl | hc
      · rcases he with he | he <;> cases he
      · cases hc

/-- Where declarations begin with the line end, there are none. -/
theorem eq_nil_of_atLineEnd (h : Declarations e t ds r) (he : IsEscape e)
    (ht : Text.atLineEnd (t.dropWhile isBlank) = true) : ds = [] ∧ r = t := by
  cases ds with
  | nil =>
    cases h
    exact ⟨rfl, rfl⟩
  | cons d ds =>
    obtain ⟨c, k, hck, hc⟩ := h.dropWhile_of_cons he
    rw [hck] at ht
    rcases Text.atLineEnd_cons.1 ht with rfl | ⟨rfl, -⟩ <;>
      · rcases hc with rfl | hc
        · rcases he with he | he <;> cases he
        · cases hc

/-- Where declarations go on, once the text before them has ended. -/
theorem behind {m : Text} {valued : Bool} (h : Declarations e t ds r) (he : IsEscape e)
    (hr : newline (r.dropWhile isBlank) = .ok ns []) (hend : KeyValue.EndsAt e valued t m) :
    ∃ ds', Declarations e m ds' r ∧ fields ds' = fields ds := by
  cases valued with
  | false =>
    obtain rfl : m = t := hend
    exact ⟨ds, h, rfl⟩
  | true =>
    have hsilent : Literal.Silent e .value t m := hend
    cases ds with
    | nil =>
      cases h
      obtain rfl := hsilent.eq_of_stop (Literal.step_of_newline he rfl hr)
      exact ⟨[], .nil _, rfl⟩
    | cons d ds =>
      obtain ⟨ss, hss⟩ := h.rejoin he hsilent
      exact ⟨_, hss, rfl⟩

end Declarations

/-- Whether a value that is read at `t` says nothing. -/
def Literal.isSilent (e : Char) (t : Text) : Bool :=
  match body .value e t with
  | .ok ts _ => (valueOf ts).isEmpty
  | _ => false

/-- The text `t` does not become a part of a value at the end of `a`: where the value ends with
blanks or a line end, `t` does not go on with an empty line; where it ends with a carriage return,
`t` does not make a line end of it; and what `t` adds to the value says nothing. -/
structure Detached (e : Char) (a t : Text) : Prop where
  line : (a.getLast?.any fun c => isBlank c || c == '\n') = true →
    Text.atLineEnd (t.dropWhile isBlank) = false
  feed : a.getLast? = some '\r' → t.head? ≠ some '\n'
  silent : Literal.isSilent e t = true

instance (e : Char) (a t : Text) : Decidable (Detached e a t) :=
  decidable_of_iff
    ((((a.getLast?.any fun c => isBlank c || c == '\n') = true →
      Text.atLineEnd (t.dropWhile isBlank) = false) ∧
      (a.getLast? = some '\r' → t.head? ≠ some '\n')) ∧ Literal.isSilent e t = true)
    ⟨fun h => ⟨h.1.1, h.1.2, h.2⟩, fun h => ⟨⟨h.line, h.feed⟩, h.silent⟩⟩

theorem Detached.exists_silent {e : Char} {a t : Text} (h : Detached e a t) :
    ∃ r, Literal.Silent e .value t r := by
  have hsilent := h.silent
  unfold Literal.isSilent at hsilent
  split at hsilent
  · rename_i ts r hts
    obtain ⟨ps, hps, rfl, -⟩ := (Literal.body_of_trimsEnd rfl).1 hts
    rw [Literal.valueOf_assemble] at hsilent
    exact ⟨r, ps, hps, List.isEmpty_iff.1 hsilent⟩
  · cases hsilent

/-- What is behind a removed argument can come to stand behind what is before it, if it does not
go on with a line end there. -/
theorem Declarations.swaps {e : Char} {a t t' r : Text} {ds : List (List Token × KeyValue)}
    {ns : List Token} (h : Declarations e t' ds r) (he : IsEscape e)
    (hr : newline (r.dropWhile isBlank) = .ok ns [])
    (ht : ∃ c k, t = c :: k ∧ (isBlank c = true ∨ c = e))
    (hline : (a.getLast?.any fun c => isBlank c || c == '\n') = true →
      Text.atLineEnd (t'.dropWhile isBlank) = false)
    (hfeed : a.getLast? = some '\r' → t'.head? ≠ some '\n') : Swaps e a t t' := by
  obtain ⟨hedge, hhash⟩ := h.edge he hr
  refine .of_gap he ht hedge (fun c hc hblank => ?_) hfeed
  refine (filler_eq_ok_or_stuck t').resolve_left fun hok => ?_
  rcases exists_filler_iff.1 hok with hhead | ⟨us, k, hn⟩
  · exact hhash hhead
  · have hend := hline (by rw [hc]; simpa using hblank)
    rw [atLineEnd_of_newline hn] at hend
    cases hend

/-! ## Declarations of arguments -/

/-- The characters of a name belong to a word. -/
theorem Lexeme.isSolid_of_isStageChar {c : Char} (hc : isStageChar c = true) :
    isSolid c = true := by
  refine Lexeme.isSolid_iff.2 ⟨?_, ?_, ?_⟩
  · refine Bool.eq_false_iff.2 fun hblank => ?_
    simp only [isBlank, Bool.or_eq_true, beq_iff_eq] at hblank
    rcases hblank with rfl | rfl <;> cases hc
  · refine Bool.eq_false_iff.2 fun hbreak => ?_
    simp only [isLineBreak, Bool.or_eq_true, beq_iff_eq] at hbreak
    rcases hbreak with rfl | rfl <;> cases hc
  · rintro rfl
    cases hc

theorem IsEscape.ne_of_isStageChar {e : Char} (he : IsEscape e) {c : Char}
    (hc : isStageChar c = true) : c ≠ e := by
  rintro rfl
  rcases he with rfl | rfl <;> cases hc

theorem isStageChar_of_isNameChar {c : Char} (hc : isNameChar c = true) : isStageChar c = true := by
  simp only [isNameChar, isStageChar, Bool.or_eq_true] at hc ⊢
  exact .inl (.inl hc)

/-- The start of an instruction ends with a character of its keyword. -/
theorem Lexeme.getLast?_of_start {k : Keyword} {s r : Text} {ts : List Token}
    (h : start k.name s = .ok ts r) :
    ∃ c, (Token.textAll ts).getLast? = some c ∧ isStageChar c = true := by
  obtain ⟨b, word, rfl, -, hw, -, rfl⟩ := start_shape.1 h
  have hname := isNameChar_of_sameLetters hw k.isNameChar_of_mem_name
  have hne : word ≠ [] := by
    rintro rfl
    have hlen := congrArg List.length (eq_of_beq hw)
    cases k <;> cases hlen
  have hlast := List.getLast?_eq_some_getLast hne
  refine ⟨word.getLast hne, ?_, isStageChar_of_isNameChar (hname _ (List.getLast_mem hne))⟩
  rw [Token.textAll_append, List.getLast?_append]
  simp [Token.textAll, Token.text, hlast]

/-- Declarations of which the last has no value end with a character of its name. -/
theorem Declarations.getLast?_of_bare {e : Char} {s r : Text} {ds : List (List Token × KeyValue)}
    (h : Declarations e s ds r) (hne : ds ≠ []) (hbare : endsValued ds = false) :
    ∃ c, (Token.textAll (tokens ds)).getLast? = some c ∧ isStageChar c = true := by
  obtain ⟨ds, d, rfl⟩ : ∃ ds' d, ds = ds' ++ [d] := ⟨_, _, (List.dropLast_concat_getLast hne).symm⟩
  obtain ⟨m, -, hd⟩ := append_iff.1 h
  obtain ⟨ss, p⟩ := d
  cases hd with
  | cons _ hname _ =>
    obtain ⟨k, m, -, hk, hall, -, ⟨-, -, hparts⟩ | ⟨w, ls, -, -, hparts⟩⟩ :=
      KeyValue.named_eq_ok.1 hname
    · have hlast := List.getLast?_eq_some_getLast hk
      refine ⟨k.getLast hk, ?_, hall _ (List.getLast_mem hk)⟩
      simp [tokens, KeyValue.token, hparts, Token.textAll, Token.text, Token.identifier, hlast]
    · simp [endsValued, hparts, Token.isLiteral] at hbare

namespace Declarations

variable {e : Char} {s m r t t' : Text} {k : Keyword} {st fin ns : List Token}
  {ds ds' : List (List Token × KeyValue)}

theorem text_of_finish (h : Declarations e s ds r) (hfin : finish e r = .ok fin []) :
    Token.textAll (tokens ds ++ fin) = s := by
  rw [Token.textAll_append, Lexeme.text_of_finish hfin, h.text_append]

/-- An instruction up to a declaration without a value ends with a character of a word. -/
theorem getLast?_of_start (h : Declarations e m ds r) (hst : start k.name s = .ok st m)
    (hbare : endsValued ds = false) :
    ∃ c, (Token.textAll st ++ Token.textAll (tokens ds)).getLast? = some c ∧
      isStageChar c = true := by
  by_cases hnil : ds = []
  · subst hnil
    simpa [tokens, Token.textAll] using Lexeme.getLast?_of_start hst
  · obtain ⟨c, hc, hstage⟩ := h.getLast?_of_bare hnil hbare
    exact ⟨c, by rw [List.getLast?_append, hc]; rfl, hstage⟩

/-- What is behind a removed declaration can come to stand behind those before it, if it is detached
from the value that is before it. -/
theorem swaps_of_detached (h : Declarations e m ds t) (h' : Declarations e t' ds' r)
    (he : IsEscape e) (hst : start k.name s = .ok st m)
    (hr : newline (r.dropWhile isBlank) = .ok ns [])
    (ht : ∃ c x, t = c :: x ∧ (isBlank c = true ∨ c = e)) (hdetached : endsValued ds = true →
      Detached e (Token.textAll st ++ Token.textAll (tokens ds)) t') :
    Swaps e (Token.textAll st ++ Token.textAll (tokens ds)) t t' := by
  cases hvalued : endsValued ds with
  | true => exact h'.swaps he hr ht (hdetached hvalued).line (hdetached hvalued).feed
  | false =>
    obtain ⟨c, hc, hstage⟩ := h.getLast?_of_start hst hvalued
    refine h'.swaps he hr ht (fun hline => ?_) fun hreturn => ?_
    · rw [hc] at hline
      simp only [Option.any_some, isBlank, Bool.or_eq_true, beq_iff_eq] at hline
      rcases hline with (rfl | rfl) | rfl <;> cases hstage
    · cases hc.symm.trans hreturn
      cases hstage

end Declarations

namespace Instruction

variable {e : Char} {s r m : Text} {ts : List Token}

/-- An `ARG` is its keyword and at least one declaration. -/
theorem argContent_eq_ok : argContent e s = .ok ts r ↔
    ∃ st m ds, start Keyword.ARG.name s = .ok st m ∧ Declarations e m ds r ∧ ds ≠ [] ∧
      ts = st ++ Declarations.tokens ds ∧
      ∃ k, argument e (KeyValue.declaration e isStageChar) r = .stuck k := by
  unfold argContent
  rw [seq_assoc, seq_eq_ok]
  constructor
  · rintro ⟨st, _, m, hst, hds, rfl⟩
    obtain ⟨us, vs, k, hu, hv, rfl⟩ := seq_eq_ok.1 hds
    obtain ⟨ss, p, l, hsep, hname, rfl⟩ :=
      Declarations.argument_eq_ok.1 (argument_eq_ok.2 (required_eq_ok.1 hu))
    obtain ⟨ds, hrest, rfl, hstuck⟩ := Declarations.many_eq_ok.1 hv
    exact ⟨st, m, (ss, p) :: ds, hst, .cons hsep hname hrest, List.cons_ne_nil _ _, rfl, hstuck⟩
  · rintro ⟨st, m, ds, hst, hds, hne, rfl, hstuck⟩
    cases hds with
    | nil => exact absurd rfl hne
    | cons hsep hname hrest =>
      have hu := Declarations.argument_eq_ok.2 ⟨_, _, _, hsep, hname, rfl⟩
      exact ⟨st, _, m, hst, seq_eq_ok.2 ⟨_, _, _, required_eq_ok.2 (argument_eq_ok.1 hu),
        Declarations.many_eq_ok.2 ⟨_, hrest, rfl, hstuck⟩, rfl⟩, rfl⟩

/-- Without one of its declarations, an `ARG` is read with the others as they were. -/
theorem declarations_removed {st fin : List Token} {ds₁ ds₂ : List (List Token × KeyValue)}
    {d : List Token × KeyValue} (he : IsEscape e) (hst : start Keyword.ARG.name s = .ok st m)
    (hds : Declarations e m (ds₁ ++ d :: ds₂) r) (hfin : finish e r = .ok fin [])
    (hended : Token.lineStateAll fin .within = .ended)
    (hdetached : Declarations.endsValued ds₁ = true →
      Detached e (Token.textAll (st ++ Declarations.tokens ds₁))
        (Token.textAll (Declarations.tokens ds₂ ++ fin))) :
    ∃ m' ds, start Keyword.ARG.name (Token.textAll (st ++ Declarations.tokens ds₁ ++
        (Declarations.tokens ds₂ ++ fin))) = .ok st m' ∧
      Declarations e m' ds r ∧ Declarations.fields ds = Declarations.fields (ds₁ ++ ds₂) := by
  obtain ⟨t, hds₁, hd⟩ := Declarations.append_iff.1 hds
  cases hd with
  | @cons _ _ t' _ ss p _ hsep hname hds₂ =>
    obtain ⟨-, ns, -, hn⟩ := newline_of_finish hfin hended
    have ht' := hds₂.text_of_finish hfin
    rw [ht', Token.textAll_append] at hdetached
    have hswaps := hds₁.swaps_of_detached hds₂ he hst hn (exists_cons_of_separator hsep) hdetached
    have hstart : start Keyword.ARG.name
        (Token.textAll st ++ Token.textAll (Declarations.tokens ds₁) ++ t') =
          .ok st (Token.textAll (Declarations.tokens ds₁) ++ t') := by
      refine start_swap he hswaps ?_
      rwa [List.append_assoc, hds₁.text_append, (arrayReaders_lossless e).start .ARG _ _ _ hst]
    obtain ⟨k, hend⟩ : ∃ k, KeyValue.EndsAt e (Declarations.endsValued ds₁) t' k := by
      cases hvalued : Declarations.endsValued ds₁ with
      | true => exact (hdetached hvalued).exists_silent
      | false => exact ⟨t', rfl⟩
    rw [← hds₁.text_append] at hds₁
    obtain ⟨ds₁', hds₁', hfields₁⟩ := hds₁.swap he hswaps.of_append hend
    obtain ⟨ds₂', hds₂', hfields₂⟩ := hds₂.behind he hn hend
    refine ⟨_, ds₁' ++ ds₂', ?_, Declarations.append_iff.2 ⟨k, hds₁', hds₂'⟩, ?_⟩
    · rwa [Token.textAll_append, ht', Token.textAll_append]
    · simp only [Declarations.fields, List.map_append] at hfields₁ hfields₂ ⊢
      rw [hfields₁, hfields₂]

end Instruction

/-! ## The stage -/

namespace KeyValue

variable {e : Char} {a b w t t' s r : Text} {fs ss : List Token}

/-- The flag that may be before the image of a stage. -/
def oneFlag (e : Char) : Grammar :=
  optional (argument e (flag e))

/-- A flag is two dashes and a name, behind separators. -/
theorem argument_flag_eq_ok : argument e (flag e) s = .ok fs r ↔
    ∃ ss m us, separator e s = .ok ss ('-' :: '-' :: m) ∧ named e isFlagChar m = .ok us r ∧
      fs = ss ++ [token ⟨.symbol ['-', '-'] :: us⟩] := by
  rw [Instruction.argument_eq_ok, seq_eq_ok, flag_eq]
  constructor
  · rintro ⟨ss, vs, m, hsep, hv, rfl⟩
    obtain ⟨_, hflag, rfl⟩ := node_eq_ok.1 hv
    obtain ⟨ds, us, k, hd, hus, rfl⟩ := seq_eq_ok.1 hflag
    obtain ⟨rfl, rfl⟩ := exactly_eq_ok.1 hd
    exact ⟨ss, k, us, hsep, hus, rfl⟩
  · rintro ⟨ss, m, us, hsep, hus, rfl⟩
    exact ⟨ss, _, _, hsep, node_eq_ok.2 ⟨_, seq_eq_ok.2 ⟨_, us, m,
      exactly_eq_ok.2 ⟨rfl, rfl⟩, hus, rfl⟩, rfl⟩, rfl⟩

/-- There is a flag, behind separators, or no argument that could be one. -/
theorem oneFlag_eq_ok : oneFlag e s = .ok fs r ↔
    (∃ m, argument e (flag e) s = .stuck m) ∧ fs = [] ∧ r = s ∨
      ∃ ss m us, separator e s = .ok ss ('-' :: '-' :: m) ∧ named e isFlagChar m = .ok us r ∧
        fs = ss ++ [token ⟨.symbol ['-', '-'] :: us⟩] := by
  unfold oneFlag
  rw [optional_eq_ok, or_comm, argument_flag_eq_ok]

/-- A flag before the image is the same with another text behind the image, and where there is none,
there is none with that text. -/
theorem oneFlag_swap (he : IsEscape e) (hs : Swaps e a t t')
    (h : oneFlag e (a ++ t) = .ok fs (b ++ t)) (hsep : separator e (b ++ t) = .ok ss (w ++ t))
    (hw : w ≠ []) (hescape : w ≠ [e]) :
    oneFlag e (a ++ t') = .ok fs (b ++ t') := by
  rcases oneFlag_eq_ok.1 h with ⟨hstuck, rfl, heq⟩ | ⟨ss', m, us, hsep', hus, rfl⟩
  · obtain rfl := List.append_cancel_right heq
    refine oneFlag_eq_ok.2 (.inl ⟨?_, rfl, rfl⟩)
    rw [argument_stuck_iff hsep, flag_stuck_iff] at hstuck
    rw [argument_stuck_iff (hs.separator he hw hescape hsep), flag_stuck_iff]
    rintro ⟨c, r, heq, hc⟩
    -- the dashes and the first character of the name would not reach into the other text
    have hedge := hs.edge.head?_any he (p := isFlagChar) rfl
    match w, hw with
    | ['-'], _ =>
      obtain rfl : t' = '-' :: c :: r := by simpa using heq
      cases hedge
    | ['-', '-'], _ =>
      obtain rfl : t' = c :: r := by simpa using heq
      exact absurd hc (by simpa using hedge)
    | d :: d' :: d'' :: w, _ =>
      simp only [List.cons_append, List.cons.injEq] at heq
      obtain ⟨rfl, rfl, rfl, -⟩ := heq
      exact hstuck ⟨d'', w ++ t, rfl, hc⟩
  · obtain ⟨f, rfl⟩ : ∃ f, m = f ++ t :=
      ⟨_, by rw [List.append_assoc, lossless_named _ _ _ _ _ hus]⟩
    have ha : Token.textAll ss' ++ ('-' :: '-' :: f) = a := by
      have htext := (arrayReaders_lossless e).separator _ _ _ hsep'
      exact List.append_cancel_right (by simpa using htext)
    have hf : Swaps e f t t' :=
      Swaps.of_append (k := Token.textAll ss' ++ ['-', '-']) (by simpa [ha] using hs)
    have hb : b ≠ [] := by
      rintro rfl
      have hle := shrinks_separator e _ _ _ hsep
      have hpos := List.length_pos_iff.2 hw
      simp only [List.nil_append, List.length_append] at hle
      omega
    have hsep'' := hs.separator (z := '-' :: '-' :: f) he (List.cons_ne_nil _ _) nofun hsep'
    exact oneFlag_eq_ok.2 (.inr ⟨ss', f ++ t', us, hsep'', named_swap_within he rfl hf hb hus, rfl⟩)

end KeyValue

/-- A literal that ends before the text behind it is more than the escape character, which goes on
into that text. -/
theorem Literal.Scans.ne_escape {e : Char} {style : Style} {u a z t t' : Text} {ps : List Piece}
    (h : Scans e style none (a ++ t) ps (z ++ t)) (he : IsEscape e) (hs : Swaps e u t t') :
    a ≠ [e] := by
  rintro rfl
  obtain ⟨qs, m, hstep, hlt⟩ : ∃ qs m, step style e none (e :: t) = .take qs none m ∧
      m.length < t.length := by
    simpa [step] using stepEscape_past he hs none
  obtain ⟨ws, -, hm⟩ := (scans_iff_of_take hstep).1 h
  have hlen := congrArg List.length hm.sourceOf_append_eq
  simp only [List.length_append] at hlen
  omega

namespace Instruction

variable {e : Char} {s r m m₁ m₂ t : Text} {ts : List Token}

/-- What may be behind the image of a stage: its name. -/
def naming (e : Char) : Grammar :=
  argument e (Lexeme.keyword "AS".toList) ++ required e "stage name" (identifier isStageChar)

/-- A `FROM` is its keyword, perhaps a flag, an image, and perhaps a name. -/
theorem stageContent_eq_ok : stageContent e s = .ok ts r ↔
    ∃ st m fs m₁ ss m₂ ls t ns, start Keyword.FROM.name s = .ok st m ∧
      KeyValue.oneFlag e m = .ok fs m₁ ∧ separator e m₁ = .ok ss m₂ ∧
      Literal.body .word e m₂ = .ok ls t ∧ optional (naming e) t = .ok ns r ∧
      ts = st ++ fs ++ ss ++ .node (.literal true) ls :: ns := by
  unfold stageContent
  rw [seq_assoc, seq_assoc, seq_eq_ok]
  constructor
  · rintro ⟨st, _, m, hst, hrest, rfl⟩
    obtain ⟨fs, _, m₁, hfs, himage, rfl⟩ := seq_eq_ok.1 hrest
    obtain ⟨is, ns, t, his, hns, rfl⟩ := seq_eq_ok.1 himage
    obtain ⟨ss, _, m₂, hss, hl, rfl⟩ := seq_eq_ok.1 (required_eq_ok.1 his)
    obtain ⟨ls, hls, rfl⟩ := node_eq_ok.1 hl
    exact ⟨st, m, fs, m₁, ss, m₂, ls, t, ns, hst, hfs, hss, hls, hns, by simp; rfl⟩
  · rintro ⟨st, m, fs, m₁, ss, m₂, ls, t, ns, hst, hfs, hss, hls, hns, rfl⟩
    have himage : (separator e ++ Literal.grammar .word e) m₁ =
        .ok (ss ++ [.node (.literal true) ls]) t :=
      seq_eq_ok.2 ⟨ss, _, m₂, hss, node_eq_ok.2 ⟨ls, hls, rfl⟩, rfl⟩
    exact ⟨st, _, m, hst, seq_eq_ok.2 ⟨fs, _, m₁, hfs, seq_eq_ok.2
      ⟨_, ns, t, required_eq_ok.2 himage, hns, rfl⟩, rfl⟩, by simp⟩

/-- No name of a stage begins at its line end. -/
theorem naming_stuck {us ns : List Token} (hgaps : many (gap e) t = .ok us m)
    (hn : newline m = .ok ns r) : ∃ k, naming e t = .stuck k := by
  have hkeyword : ∃ k, Lexeme.keyword "AS".toList m = .stuck k := by
    rcases newline_eq_ok.1 hn with ⟨rfl, -⟩ | ⟨rfl, -⟩ <;> exact ⟨_, rfl⟩
  exact seq_stuck_iff.2 (.inl (argument_stuck_of_gaps hgaps hkeyword))

/-- A word before a gap is not empty, and it is not the escape character alone. -/
theorem word_ne {u a z t' : Text} {ls : List Token}
    (h : Literal.body .word e (a ++ t) = .ok ls (z ++ t)) (he : IsEscape e) (hs : Swaps e u t t') :
    a ≠ [] ∧ a ≠ [e] := by
  obtain ⟨ps, hps, rfl, hne⟩ := (Literal.body_of_trimsEnd rfl).1 h
  refine ⟨?_, hps.ne_escape he hs⟩
  rintro rfl
  obtain rfl : z = [] := by
    have hlen := congrArg List.length hps.sourceOf_append_eq
    simp only [List.nil_append, List.length_append] at hlen
    exact List.length_eq_zero_iff.1 (by omega)
  rw [(Literal.Scans.eq_nil hps rfl).1] at hne
  rcases hne with hne | hempty
  · exact hne rfl
  · cases hempty

/-- A stage is named by the keyword `AS` and a name, each of them behind separators. -/
theorem naming_shape {ns : List Token} : naming e t = .ok ns r ↔
    ∃ ss word m ss' name, separator e t = .ok ss (word ++ m) ∧
      Text.sameLetters word "AS".toList = true ∧ m.head?.any isNameChar = false ∧
      separator e m = .ok ss' (name ++ r) ∧ name ≠ [] ∧ (∀ c ∈ name, isStageChar c = true) ∧
      r.head?.any isStageChar = false ∧
      ns = ss ++ [.leaf .keyword word] ++ ss' ++ [.identifier name] := by
  unfold naming
  rw [seq_eq_ok]
  constructor
  · rintro ⟨_, _, m, has, hname, rfl⟩
    obtain ⟨ss, _, _, hss, hkeyword, rfl⟩ := seq_eq_ok.1 (argument_eq_ok.1 has)
    obtain ⟨word, rfl, hword, hhead, rfl⟩ := keyword_eq_ok.1 hkeyword
    obtain ⟨ss', _, _, hss', hrun, rfl⟩ := seq_eq_ok.1 (required_eq_ok.1 hname)
    obtain ⟨name, rfl, hne, hall, hend, rfl⟩ := run_shape.1 hrun
    exact ⟨ss, word, m, ss', name, hss, hword, hhead, hss', hne, hall, hend, by simp; rfl⟩
  · rintro ⟨ss, word, m, ss', name, hss, hword, hhead, hss', hne, hall, hend, rfl⟩
    have hkeyword := keyword_eq_ok.2 ⟨word, rfl, hword, hhead, rfl⟩
    have hrun : identifier isStageChar (name ++ r) = .ok [.identifier name] r :=
      run_shape.2 ⟨name, rfl, hne, hall, hend, rfl⟩
    exact ⟨_, _, m, argument_eq_ok.2 (seq_eq_ok.2 ⟨ss, _, _, hss, hkeyword, rfl⟩),
      required_eq_ok.2 (seq_eq_ok.2 ⟨ss', _, _, hss', hrun, rfl⟩), by simp⟩

/-- The text of a `FROM` up to its image. -/
theorem text_of_image {st fs ss ls : List Token} (hst : start Keyword.FROM.name s = .ok st m)
    (hfs : KeyValue.oneFlag e m = .ok fs m₁) (hss : separator e m₁ = .ok ss m₂)
    (hls : Literal.body .word e m₂ = .ok ls t) :
    Token.textAll (st ++ fs ++ ss ++ [.node (.literal true) ls]) ++ t = s := by
  have hreaders := arrayReaders_lossless e
  rw [← hreaders.start .FROM _ _ _ hst,
    ← hreaders.optional (hreaders.argument hreaders.flag) _ _ _ hfs, ← hreaders.separator _ _ _ hss,
    ← Literal.lossless_body _ _ _ _ _ hls]
  simp [Token.textAll, Token.text]

/-- Up to its image, a `FROM` is the same with another text behind, if the image ends before it. -/
theorem image_swap {a z t' : Text} {st fs ss ls : List Token} (he : IsEscape e)
    (hs : Swaps e a t t') (hst : start Keyword.FROM.name (a ++ t) = .ok st m)
    (hfs : KeyValue.oneFlag e m = .ok fs m₁) (hss : separator e m₁ = .ok ss m₂)
    (hls : Literal.body .word e m₂ = .ok ls (z ++ t))
    (hend : z = [] → Literal.step .word e none t' = .stop) :
    ∃ m' m₁' m₂', start Keyword.FROM.name (a ++ t') = .ok st m' ∧
      KeyValue.oneFlag e m' = .ok fs m₁' ∧ separator e m₁' = .ok ss m₂' ∧
      Literal.body .word e m₂' = .ok ls (z ++ t') := by
  have hreaders := arrayReaders_lossless e
  have hs₀ := hreaders.start .FROM _ _ _ hst
  obtain rfl := hreaders.optional (hreaders.argument hreaders.flag) _ _ _ hfs
  obtain rfl := hreaders.separator _ _ _ hss
  obtain rfl := Literal.lossless_body _ _ _ _ _ hls
  -- all parts begin before the text that is behind
  have ha :
      a = Token.textAll st ++ (Token.textAll fs ++ (Token.textAll ss ++ (Token.textAll ls ++ z))) :=
    List.append_cancel_right (by rw [← hs₀]; simp)
  subst ha
  rw [← List.append_assoc _ z t] at hss hls
  rw [← List.append_assoc (Token.textAll ss)] at hss
  obtain ⟨hne, hescape⟩ := word_ne hls he hs
  have hst' :=
    start_swap (z := Token.textAll fs ++ (Token.textAll ss ++ (Token.textAll ls ++ z))) he hs
    (by simpa using hst)
  have hs₁ := hs.of_append
  have hfs' := KeyValue.oneFlag_swap he hs₁ (by simpa using hfs) hss hne hescape
  have hs₂ := hs₁.of_append
  have hss' := hs₂.separator he hne hescape hss
  refine ⟨_, _, _, hst', hfs', hss', ?_⟩
  by_cases hz : z = []
  · subst hz
    exact Literal.body_swap_of_stop rfl ⟨rfl, rfl⟩ he hs₂.of_append hls (hend rfl)
  · exact Literal.body_swap_within rfl ⟨rfl, rfl⟩ he hs₂.of_append hz hls

/-- Without its name, a `FROM` is read with its flag and its image as they were. -/
theorem naming_removed {st fs ss ls ns fin : List Token} (he : IsEscape e)
    (hst : start Keyword.FROM.name s = .ok st m) (hfs : KeyValue.oneFlag e m = .ok fs m₁)
    (hss : separator e m₁ = .ok ss m₂) (hls : Literal.body .word e m₂ = .ok ls t)
    (hns : naming e t = .ok ns r) (hfin : finish e r = .ok fin [])
    (hended : Token.lineStateAll fin .within = .ended)
    (hdetached : Detached e (Token.textAll (st ++ fs ++ ss ++ [.node (.literal true) ls]))
      (Token.textAll fin)) :
    ∃ m' m₁' m₂', start Keyword.FROM.name (Token.textAll
        (st ++ fs ++ ss ++ [.node (.literal true) ls] ++ fin)) = .ok st m' ∧
      KeyValue.oneFlag e m' = .ok fs m₁' ∧ separator e m₁' = .ok ss m₂' ∧
      Literal.body .word e m₂' = .ok ls r ∧ optional (naming e) r = .ok [] r := by
  obtain ⟨us, ns', hgaps, hn⟩ := newline_of_finish hfin hended
  have hr := text_of_finish hfin
  obtain ⟨_, _, _, _, _, hsep, -⟩ := naming_shape.1 hns
  rw [hr] at hdetached
  have hswaps := (Declarations.nil r).swaps he hn (exists_cons_of_separator hsep) hdetached.line
    hdetached.feed
  rw [← text_of_image hst hfs hss hls] at hst
  rw [Token.textAll_append, hr]
  obtain ⟨m', m₁', m₂', hst', hfs', hss', hls'⟩ := image_swap (z := []) he hswaps hst hfs hss hls
    fun _ => Literal.step_of_newline he rfl hn
  exact ⟨m', m₁', m₂', hst', hfs', hss', hls',
    optional_eq_ok.2 (.inr ⟨naming_stuck hgaps hn, rfl, rfl⟩)⟩

end Instruction

end Containerfile
