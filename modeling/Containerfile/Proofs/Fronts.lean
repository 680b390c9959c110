import Containerfile.Proofs.Flags

/-!
# What is before an argument

An edit puts another text in the place of an argument.  The keyword, the flags and the arguments
before that place are read as they were: a reader that has come to the separators before an
argument has looked no further than to its first character.  There is one exception, a comment at
the end of the text before the place, which would take the new argument in; `Precedes` leaves it
out.

## Main definitions

* `Apart` — the place where an argument begins behind separators.
* `LocalReader` — the readers of arguments that read the same before another argument.
* `Listed` — arguments in a row.
* `KeyValue.AtMostOne` — no flag, or one.
* `Front` — what an instruction is read as up to the place of an argument.

## Main results

* `Precedes.separator`, `Precedes.start` — separators and keywords before another argument.
* `KeyValue.localReader_reader`, `KeyValue.localReader_flag` — pairs and flags are read the same.
* `Listed.carry`, `Front.carry` — so is all that is before a place.
* `Listed.exists_of_token` — the place of a pair among others.
-/

namespace Containerfile

open Grammar Lexeme

/-! ## Separators -/

/-- Separators begin here, and an argument is behind them. -/
def Apart (e : Char) (s : Text) : Prop :=
  ∃ ss r, separator e s = .ok ss r ∧ r.atLineEnd = false

namespace Apart

variable {e : Char} {s : Text}

theorem exists_cons (h : Apart e s) : ∃ c w, s = c :: w ∧ (isBlank c = true ∨ c = e) := by
  obtain ⟨ss, r, hsep, -⟩ := h
  exact exists_cons_of_separator hsep

theorem not_newline (h : Apart e s) (he : IsEscape e) :
    ¬ ∃ ts r, newline (s.dropWhile isBlank) = .ok ts r := by
  obtain ⟨ss, k, hsep, hend⟩ := h
  rintro ⟨ts, r, hr⟩
  have hline := atLineEnd_of_newline hr
  rcases dropWhile_of_gaps he (separator_eq_ok.1 hsep).1 with ⟨w, hw⟩ | hk
  · rw [hw, Text.atLineEnd_eq_false he.isLineBreak] at hline
    cases hline
  · rw [hk, hend] at hline
    cases hline

end Apart

namespace Lexeme

variable {e : Char} {b s r : Text} {ss : List Token}

/-- Separators with more blanks before them end where they did. -/
theorem exists_gaps_of_blanks (hb : ∀ c ∈ b, isBlank c = true) (h : many (gap e) s = .ok ss r) :
    ∃ ss', many (gap e) (b ++ s) = .ok ss' r := by
  obtain ⟨us, hus⟩ : ∃ us, many (gap e) (s.dropWhile isBlank) = .ok us r := by
    have hself (hblank : ∃ m, blanks s = .stuck m) : s.dropWhile isBlank = s :=
      (optional_run_rest (optional_eq_ok.2 (.inr ⟨hblank, rfl, rfl⟩))).symm
    rcases many_eq_ok.1 h with ⟨us, m, vs, hu, -, hm, -⟩ | ⟨hu, hlong⟩ | ⟨hstuck, rfl, rfl⟩
    · rcases either_eq_ok.1 hu with hblanks | ⟨hblank, -⟩
      · obtain rfl := optional_run_rest (optional_eq_ok.2 (.inl hblanks))
        exact ⟨vs, hm⟩
      · exact ⟨ss, (hself hblank).symm ▸ h⟩
    · exact absurd (advances_gap e _ _ _ hu) hlong
    · exact ⟨[], (hself (either_eq_stuck.1 hstuck).1).symm ▸ h⟩
  cases b with
  | nil => exact ⟨ss, h⟩
  | cons c b =>
    have hrun : blanks (c :: b ++ s) = .ok _ (s.dropWhile isBlank) := run_eq_ok.2
      ⟨by simp [hb c List.mem_cons_self], rfl, (List.dropWhile_append_of_pos hb).symm⟩
    have hgap : gap e (c :: b ++ s) = .ok _ (s.dropWhile isBlank) := either_eq_ok.2 (.inl hrun)
    exact ⟨_, many_eq_ok.2 (.inl ⟨_, _, us, hgap, advances_gap e _ _ _ hgap, hus, rfl⟩)⟩

theorem many_of_continuation {us : List Token} {m : Text} (he : IsEscape e)
    (hc : continuation e s = .ok us m) (h : many (gap e) m = .ok ss r) :
    many (gap e) s = .ok (us ++ ss) r := by
  obtain ⟨w, rfl⟩ := eq_cons_of_continuation hc
  have hblank : ∃ m, blanks (e :: w) = .stuck m :=
    run_stuck_iff.2 (by rcases he with rfl | rfl <;> rfl)
  have hgap : gap e (e :: w) = .ok us m := either_eq_ok.2 (.inr ⟨hblank, hc⟩)
  exact many_eq_ok.2 (.inl ⟨us, m, ss, hgap, advances_gap e _ _ _ hgap, h, rfl⟩)

end Lexeme

namespace Precedes

variable {e : Char} {a u z t t' : Text} {ss : List Token}

theorem of_append {k : Text} (h : Precedes e (k ++ u) t t') (ht : t ≠ []) : Precedes e u t t' where
  feed := h.feed
  line' := h.line'
  escape hnil := absurd hnil ht
  continuation p w z ts hu hc := h.continuation (k ++ p) w z ts (by rw [hu, List.append_assoc]) hc

/-- Separators are the same before the other text, if they do not go on there. -/
theorem gaps (h : Precedes e a t t') (he : IsEscape e) (hstuck : z = [] → ∃ m, gap e t' = .stuck m)
    (hgaps : many (gap e) (a ++ t) = .ok ss (z ++ t)) :
    many (gap e) (a ++ t') = .ok ss (z ++ t') := by
  refine gaps_transfer he h.continuation ?_ hgaps
  cases z with
  | nil => exact hstuck rfl
  | cons c z =>
    obtain ⟨m, hm⟩ := stuck_of_many (advances_gap e) _ _ _ hgaps
    obtain ⟨hblank, hcontinuation⟩ := gap_stuck_iff.1 ⟨m, hm⟩
    refine gap_stuck_iff.2 ⟨hblank, ?_⟩
    rw [continuation_stuck_iff] at hcontinuation ⊢
    by_cases hc : c = e
    · subst hc
      exact h.continuation_stuck hcontinuation
    · rintro ⟨ts, r, hr⟩
      obtain ⟨w, hw⟩ := eq_cons_of_continuation hr
      exact hc (List.cons.inj hw).1

/-- Separators go on with those that the other text begins with. -/
theorem exists_gaps {ls : List Token} {r : Text} (h : Precedes e a t t') (he : IsEscape e)
    (ht : t ≠ []) (hgaps : many (gap e) (a ++ t) = .ok ss t)
    (ht' : many (gap e) t' = .ok ls r) : ∃ ss', many (gap e) (a ++ t') = .ok ss' r := by
  generalize hs : a ++ t = s at hgaps
  generalize hk : t = k at hgaps
  induction s, ss, k, hgaps using gaps_induction generalizing a with
  | nil s m _ _ =>
    obtain rfl : a = [] := List.append_cancel_right (hs.trans hk.symm)
    exact ⟨ls, ht'⟩
  | blanks c b m vs k hall hm _ ih =>
    subst hk
    have htext := compositional_lossless.many (lossless_gap e) _ _ _ hm
    rw [← htext, ← List.cons_append, ← List.append_assoc] at hs
    obtain rfl := List.append_cancel_right hs
    obtain ⟨us, hus⟩ := ih (h.of_append ht) htext rfl
    rw [List.append_assoc]
    exact exists_gaps_of_blanks hall hus
  | continuation s us m vs k hc hm _ ih =>
    subst hk hs
    obtain ⟨z, rfl⟩ : ∃ z, m = z ++ t :=
      ⟨_, (compositional_lossless.many (lossless_gap e) _ _ _ hm).symm⟩
    have hc' := h.continuation [] a z us rfl hc
    have htext := lossless_continuation e _ _ _ hc
    rw [← List.append_assoc] at htext
    obtain rfl := List.append_cancel_right htext
    obtain ⟨ws, hws⟩ := ih (h.of_append ht) rfl rfl
    exact ⟨_, many_of_continuation he hc' hws⟩

theorem exists_separator {ls : List Token} {r : Text} (h : Precedes e a t t') (he : IsEscape e)
    (ht : t ≠ []) (ha : a ≠ []) (hsep : separator e (a ++ t) = .ok ss t)
    (ht' : many (gap e) t' = .ok ls r) : ∃ ss', Lexeme.separator e (a ++ t') = .ok ss' r := by
  obtain ⟨ss', hss'⟩ := h.exists_gaps he ht (separator_eq_ok.1 hsep).1 ht'
  refine ⟨ss', separator_eq_ok.2 ⟨hss', ?_⟩⟩
  rintro rfl
  have hall := compositional_lossless.many (lossless_gap e) _ _ _ hss'
  have htext := compositional_lossless.many (lossless_gap e) _ _ _ ht'
  rw [← htext, ← List.append_assoc] at hall
  have hnil : a ++ Token.textAll ls = [] := List.append_cancel_right hall.symm
  exact ha (List.append_eq_nil_iff.1 hnil).1

theorem separator (h : Precedes e a t t') (he : IsEscape e)
    (hstuck : z = [] → ∃ m, gap e t' = .stuck m) (hsep : separator e (a ++ t) = .ok ss (z ++ t)) :
    Lexeme.separator e (a ++ t') = .ok ss (z ++ t') := by
  obtain ⟨hgaps, hss⟩ := separator_eq_ok.1 hsep
  exact separator_eq_ok.2 ⟨h.gaps he hstuck hgaps, hss⟩

/-- Behind the separators of an argument, the other text can stand in the place of `t`. -/
theorem carries (h : Precedes e (a ++ z) t t') (he : IsEscape e) (hz : z ≠ [])
    (hapart : Apart e (z ++ t)) : Carries e a (z ++ t) (z ++ t') := by
  obtain ⟨c, z, rfl⟩ := List.exists_cons_of_ne_nil hz
  obtain ⟨d, w, hdw, hgap⟩ := hapart.exists_cons
  obtain ⟨rfl, -⟩ := List.cons.inj hdw
  have hedge (x : Text) : Edge e (c :: (z ++ x)) := .gap hgap
  have hbreak : isLineBreak c = false := by
    rcases hgap with hblank | rfl
    · exact isLineBreak_of_isBlank hblank
    · exact he.isLineBreak
  refine ⟨⟨?_, ?_, nofun, ?_⟩, (hedge t).head?_any he rfl, (hedge t').head?_any he rfl,
    .inr (Text.atLineEnd_eq_false hbreak)⟩
  · rintro ⟨⟩
    cases hbreak
  · rintro ⟨ts, r, hr⟩
    refine hapart.not_newline he ?_
    rw [List.dropWhile_append] at hr ⊢
    by_cases hblank : (c :: z).dropWhile isBlank = []
    · rw [hblank, List.isEmpty_nil, if_pos rfl] at hr
      exact absurd ⟨ts, r, hr⟩ h.line'
    · rw [if_neg (by simpa using hblank)] at hr ⊢
      obtain ⟨y, hy, -⟩ := (newline_append_iff hblank fun _ => h.feed').1 hr
      exact ⟨ts, y ++ t, (newline_append_iff hblank fun _ => h.feed).2 ⟨y, hy, rfl⟩⟩
  · intro p u y ts ha hc
    have hc' := h.continuation p (u ++ c :: z) (y ++ c :: z) ts (by rw [ha, List.append_assoc])
      (by simpa using hc)
    simpa using hc'

/-- A keyword is the same with another text behind. -/
theorem start {k : Keyword} {ts : List Token} (hz : z ≠ [])
    (h : start k.name (a ++ t) = .ok ts (z ++ t)) :
    Lexeme.start k.name (a ++ t') = .ok ts (z ++ t') := by
  obtain ⟨b, word, heq, hall, hw, hhead, rfl⟩ := start_shape.1 h
  have ha : a = b ++ (word ++ z) := List.append_cancel_right (by rw [heq]; simp)
  obtain ⟨c, z, rfl⟩ := List.exists_cons_of_ne_nil hz
  exact start_shape.2 ⟨b, word, by simp [ha], hall, hw, hhead, rfl⟩

end Precedes

/-! ## Pairs and flags -/

/-- A reader of arguments that reads the same before another argument. -/
structure LocalReader (e : Char) (g : Grammar) : Prop where
  lossless : Lossless g
  advances : Advances g
  atLineEnd : ∀ {s ts r}, g s = .ok ts r → s.atLineEnd = false
  carry : ∀ {a z t t' ts}, Precedes e a t t' → t ≠ [] → z ≠ [] → Apart e (z ++ t) →
    g (a ++ t) = .ok ts (z ++ t) → g (a ++ t') = .ok ts (z ++ t')

namespace KeyValue

variable {e : Char} {p : Char → Bool} {bare : Bool} {a z s r t t' : Text} {ts : List Token}

/-- A name and its value are the same before another argument. -/
theorem named_carry (hs : Precedes e a t t') (he : IsEscape e) (ht : t ≠ []) (hz : z ≠ [])
    (hapart : Apart e (z ++ t)) (h : named e p (a ++ t) = .ok ts (z ++ t)) :
    named e p (a ++ t') = .ok ts (z ++ t') := by
  obtain ⟨c, y, rfl⟩ := List.exists_cons_of_ne_nil hz
  obtain ⟨k, m, rfl, hne, hall, hhead, ⟨hequals, rfl, rfl⟩ | ⟨w, ls, rfl, hbody, rfl⟩⟩ :=
    named_append h
  · exact named_eq_ok.2 ⟨k, c :: y ++ t', List.append_assoc .., hne, hall, hhead,
      .inl ⟨hequals, rfl, rfl⟩⟩
  · obtain ⟨ps, hps, rfl, hempty⟩ := (Literal.body_of_trimsEnd rfl).1 hbody
    obtain ⟨x, rfl⟩ : ∃ x, w = x ++ c :: y :=
      ⟨_, (List.append_cancel_right (by rw [List.append_assoc, hps.sourceOf_append_eq])).symm⟩
    have hx : Precedes e (x ++ c :: y) t t' :=
      Precedes.of_append (k := k ++ ['=']) (by simpa using hs) ht
    have hstop : Literal.step .value e none (c :: y ++ t') = .stop := by
      have hrest := hps.step_rest rfl
      obtain ⟨d, v, hdv, hd | rfl⟩ := hapart.exists_cons
      · obtain ⟨rfl, -⟩ := List.cons.inj hdv
        exact Literal.step_blank he rfl hd
      · obtain ⟨rfl, -⟩ := List.cons.inj hdv
        exact absurd hrest Literal.step_escape_ne_stop
    have hps' := Literal.Scans.carry (z := []) (by simpa using hps) he (by simp [Style.value])
      (hx.carries he hz hapart) (show Literal.SameQuote none none from rfl) fun _ _ => hstop
    refine named_eq_ok.2 ⟨k, '=' :: (x ++ c :: y ++ t'),
      by simp, hne, hall, hhead, .inr ⟨_, _, rfl, ?_, rfl⟩⟩
    exact (Literal.body_of_trimsEnd rfl).2 ⟨ps, by simpa using hps', rfl, hempty⟩

/-- What is read as a pair, which has a value unless it may be left out. -/
theorem reader_iff : reader e p bare s = .ok ts r ↔ ∃ q : KeyValue, ts = [q.token] ∧
    named e p s = .ok q.parts r ∧ (bare = true ∨ q.parts.any Token.isLiteral = true) := by
  constructor
  · intro h
    obtain ⟨q, rfl, hq⟩ := reader_eq_ok h
    refine ⟨q, rfl, hq, ?_⟩
    cases bare with
    | true => exact .inl rfl
    | false =>
      obtain ⟨us, hu, hus⟩ := node_eq_ok.1 h
      obtain ⟨vs, ws, m, hv, hw, rfl⟩ := seq_eq_ok.1 hu
      obtain ⟨xs, ys, k, -, hy, rfl⟩ := seq_eq_ok.1 hw
      obtain ⟨ls, -, rfl⟩ := node_eq_ok.1 hy
      obtain ⟨parts⟩ := q
      obtain rfl : parts = vs ++ (xs ++ [.node (.literal _) ls]) := by
        simpa [token] using hus
      exact .inr (by simp [Token.isLiteral])
  · rintro ⟨q, rfl, hq, hvalued⟩
    cases bare with
    | true => exact node_eq_ok.2 ⟨_, hq, rfl⟩
    | false =>
      obtain ⟨vs, ws, m, hv, hw, hparts⟩ := seq_eq_ok.1 hq
      refine node_eq_ok.2 ⟨q.parts, seq_eq_ok.2 ⟨vs, ws, m, hv, ?_, hparts⟩, rfl⟩
      rcases optional_eq_ok.1 hw with hw | ⟨-, rfl, -⟩
      · exact hw
      · obtain ⟨k, -, -, -, -, rfl⟩ := run_shape.1 hv
        rw [← hparts] at hvalued
        rcases hvalued with hfalse | hfalse <;> cases hfalse

theorem localReader_reader (he : IsEscape e) (hreturn : p '\r' = false) (hfeed : p '\n' = false) :
    LocalReader e (reader e p bare) where
  lossless s ts r h := by
    obtain ⟨q, rfl, hq⟩ := reader_eq_ok h
    simpa [Token.textAll, token, Token.text] using lossless_named _ _ _ _ _ hq
  advances s ts r h := by
    obtain ⟨q, -, hq⟩ := reader_eq_ok h
    exact advances_named _ _ _ _ _ hq
  atLineEnd h := by
    obtain ⟨q, -, hq⟩ := reader_eq_ok h
    obtain ⟨c, k, rfl, hc⟩ := exists_cons_of_named hq
    refine Text.atLineEnd_eq_false (Bool.eq_false_iff.2 fun hbreak => ?_)
    simp only [isLineBreak, Bool.or_eq_true, beq_iff_eq] at hbreak
    rcases hbreak with rfl | rfl
    · rw [hreturn] at hc
      cases hc
    · rw [hfeed] at hc
      cases hc
  carry hs ht hz hapart h := by
    obtain ⟨q, rfl, hq, hvalued⟩ := reader_iff.1 h
    exact reader_iff.2 ⟨q, rfl, named_carry hs he ht hz hapart hq, hvalued⟩

theorem flag_eq_ok : flag e s = .ok ts r ↔ ∃ m us, s = '-' :: '-' :: m ∧
    named e isFlagChar m = .ok us r ∧ ts = [token ⟨.symbol ['-', '-'] :: us⟩] := by
  rw [flag_eq, node_eq_ok]
  constructor
  · rintro ⟨_, hflag, rfl⟩
    obtain ⟨ds, us, k, hd, hus, rfl⟩ := seq_eq_ok.1 hflag
    obtain ⟨rfl, rfl⟩ := exactly_eq_ok.1 hd
    exact ⟨k, us, rfl, hus, rfl⟩
  · rintro ⟨m, us, rfl, hus, rfl⟩
    exact ⟨_, seq_eq_ok.2 ⟨_, us, m, exactly_eq_ok.2 ⟨rfl, rfl⟩, hus, rfl⟩, rfl⟩

theorem localReader_flag (he : IsEscape e) : LocalReader e (flag e) where
  lossless := (arrayReaders_lossless e).flag
  advances s ts r h := by
    obtain ⟨m, us, rfl, hus, -⟩ := flag_eq_ok.1 h
    have hlt := advances_named _ _ _ _ _ hus
    simp only [List.length_cons]
    omega
  atLineEnd h := by
    obtain ⟨m, us, rfl, -, -⟩ := flag_eq_ok.1 h
    rfl
  carry {a z t t' ts} hs ht hz hapart h := by
    obtain ⟨m, us, hm, hus, rfl⟩ := flag_eq_ok.1 h
    obtain ⟨f, rfl⟩ : ∃ f, m = f ++ t :=
      ⟨_, by rw [List.append_assoc, lossless_named _ _ _ _ _ hus]⟩
    obtain rfl : a = '-' :: '-' :: f := List.append_cancel_right (by simpa using hm)
    have hf : Precedes e f t t' := Precedes.of_append (k := ['-', '-']) hs ht
    exact flag_eq_ok.2 ⟨f ++ t', us, rfl, named_carry hf he ht hz hapart hus, rfl⟩

end KeyValue

/-! ## Arguments in a row -/

/-- Arguments in a row, each behind separators. -/
inductive Listed (e : Char) (g : Grammar) : Text → List Token → Text → Prop where
  | nil (s : Text) : Listed e g s [] s
  | cons {s k m r : Text} {ss us ts : List Token} (hsep : separator e s = .ok ss k)
      (harg : g k = .ok us m) (hrest : Listed e g m ts r) : Listed e g s (ss ++ us ++ ts) r

namespace Listed

variable {e : Char} {g : Grammar} {a z s r t t' : Text} {ts xs ys : List Token}

/-- Arguments are read as long as there are some. -/
theorem many_eq_ok (hg : Advances g) : many (argument e g) s = .ok ts r ↔
    Listed e g s ts r ∧ ∃ m, argument e g r = .stuck m := by
  have hadvances := Lexeme.advances_argument (e := e) hg.shrinks
  constructor
  · intro h
    induction s, ts, r, h using hadvances.many_induction with
    | nil s m hstuck _ => exact ⟨.nil s, m, hstuck⟩
    | round s us m vs r hu _ _ ih =>
      obtain ⟨ss, ws, k, hsep, hw, rfl⟩ := seq_eq_ok.1 (Instruction.argument_eq_ok.1 hu)
      exact ⟨.cons hsep hw ih.1, ih.2⟩
  · rintro ⟨h, hstuck⟩
    induction h with
    | nil s => exact Grammar.many_eq_ok.2 (.inr (.inr ⟨hstuck, rfl, rfl⟩))
    | cons hsep harg _ ih =>
      have hu := Instruction.argument_eq_ok.2 (seq_eq_ok.2 ⟨_, _, _, hsep, harg, rfl⟩)
      exact Grammar.many_eq_ok.2 (.inl ⟨_, _, _, hu, hadvances _ _ _ hu, ih hstuck, rfl⟩)

theorem text_append (hg : Lossless g) (h : Listed e g s ts r) : Token.textAll ts ++ r = s := by
  induction h with
  | nil s => rfl
  | cons hsep harg _ ih =>
    rw [Token.textAll_append, Token.textAll_append, List.append_assoc, ih, List.append_assoc,
      hg _ _ _ harg, (arrayReaders_lossless e).separator _ _ _ hsep]

theorem walk (hg : Walks e false g) (h : Listed e g s ts r) (he : IsEscape e) :
    Walk e false s r := by
  induction h with
  | nil => exact .refl _
  | cons hsep harg _ ih =>
    exact ((argumentReaders_walks he false).separator _ _ _ hsep).trans ((hg _ _ _ harg).trans ih)

theorem append {m : Text} (h : Listed e g s xs m) (h' : Listed e g m ys r) :
    Listed e g s (xs ++ ys) r := by
  induction h with
  | nil => exact h'
  | cons hsep harg _ ih =>
    rw [List.append_assoc]
    exact .cons hsep harg (ih h')

/-- Where an argument is behind the place, separators are. -/
theorem eq_or_apart (hg : LocalReader e g) (h : Listed e g s ts r) : r = s ∨ Apart e s := by
  cases h with
  | nil => exact .inl rfl
  | cons hsep harg _ => exact .inr ⟨_, _, hsep, hg.atLineEnd harg⟩

/-- Arguments before another one are the same before another text in its place. -/
theorem carry (hg : LocalReader e g) (h : Listed e g (a ++ t) ts (z ++ t)) (he : IsEscape e)
    (hs : Precedes e a t t') (ht : t ≠ []) (hz : z ≠ []) (hapart : Apart e (z ++ t)) :
    Listed e g (a ++ t') ts (z ++ t') := by
  generalize hS : a ++ t = S at h
  generalize hR : z ++ t = R at h
  induction h generalizing a with
  | nil s =>
    obtain rfl := List.append_cancel_right (hS.trans hR.symm)
    exact .nil _
  | @cons S K M R ss us ts hsep harg hrest ih =>
    subst hS hR
    -- the argument and the separators before it end before the place
    obtain ⟨m, rfl⟩ : ∃ m, M = m ++ t :=
      ⟨Token.textAll ts ++ z, by rw [List.append_assoc, hrest.text_append hg.lossless]⟩
    obtain ⟨k, rfl⟩ : ∃ k, K = k ++ t := ⟨_, by rw [List.append_assoc, hg.lossless _ _ _ harg]⟩
    have hk : k ≠ [] := by
      rintro rfl
      have hlt := hg.advances _ _ _ harg
      simp only [List.nil_append, List.length_append] at hlt
      omega
    have hm : m ≠ [] := by
      rintro rfl
      have hlen := congrArg List.length (hrest.text_append hg.lossless)
      have hpos := List.length_pos_iff.2 hz
      simp only [List.nil_append, List.length_append] at hlen
      omega
    have hnext : Apart e (m ++ t) := by
      rcases hrest.eq_or_apart hg with hm | hm
      · exact hm ▸ hapart
      · exact hm
    have hpk : Precedes e k t t' := by
      have htext := (arrayReaders_lossless e).separator _ _ _ hsep
      rw [← List.append_assoc] at htext
      exact Precedes.of_append (List.append_cancel_right htext ▸ hs) ht
    have hpm : Precedes e m t t' := by
      have htext := hg.lossless _ _ _ harg
      rw [← List.append_assoc] at htext
      exact Precedes.of_append (List.append_cancel_right htext ▸ hpk) ht
    exact .cons (hs.separator he (fun hnil => absurd hnil hk) hsep) (hg.carry hpk ht hm hnext harg)
      (ih hpm rfl rfl)

/-- A pair among others is read behind those before it, and those behind it are read from its
end. -/
theorem exists_of_token {q : KeyValue} (h : Listed e g s (xs ++ q.token :: ys) r)
    (hg : ∀ {s ts r}, g s = .ok ts r → ∃ p : KeyValue, ts = [p.token]) :
    ∃ us ss m k n, xs = us ++ ss ∧ Listed e g s us m ∧ separator e m = .ok ss k ∧
      g k = .ok [q.token] n ∧ Listed e g n ys r := by
  generalize hts : xs ++ q.token :: ys = ts at h
  induction h generalizing xs with
  | nil => simp at hts
  | @cons s k m r ss us ts hsep harg hrest ih =>
    obtain ⟨p, rfl⟩ := hg harg
    rcases List.append_eq_append_iff.1 hts with ⟨x, hx, hys⟩ | ⟨x, rfl, hts'⟩
    · cases x with
      | nil =>
        obtain ⟨us, ss', m', k', n, hxs, hus, hsep', harg', hrest'⟩ :=
          ih (show [] ++ q.token :: ys = _ from hys)
        obtain ⟨rfl, rfl⟩ := List.append_eq_nil_iff.1 hxs.symm
        exact ⟨_, _, m', k', n, by simpa using hx.symm,
          append (.cons hsep harg (.nil m)) hus, hsep', harg', hrest'⟩
      | cons y x =>
        obtain ⟨rfl, rfl⟩ := List.cons.inj hys
        rcases List.eq_nil_or_concat x with rfl | ⟨x, y, rfl⟩
        · obtain ⟨rfl, hp⟩ := List.append_inj' hx rfl
          exact ⟨[], ss, s, k, m, rfl, .nil s, hsep, hp ▸ harg, hrest⟩
        · -- no pair is among the separators
          have hmem : q.token ∈ ss := by
            rw [List.concat_eq_append, ← List.cons_append, ← List.append_assoc] at hx
            obtain ⟨rfl, -⟩ := List.append_inj' hx rfl
            simp
          cases (frame_of_separator hsep).keyValue? _ hmem
    · obtain ⟨us, ss', m', k', n, rfl, hus, hsep', harg', hrest'⟩ := ih hts'.symm
      exact ⟨_, ss', m', k', n,
        by simp, append (.cons hsep harg (.nil m)) hus, hsep', harg', hrest'⟩

/-- At least one argument, and all that there are. -/
theorem required_eq_ok (hg : Advances g) {what : String} :
    (required e what g ++ many (argument e g)) s = .ok ts r ↔
      Listed e g s ts r ∧ ts ≠ [] ∧ ∃ m, argument e g r = .stuck m := by
  constructor
  · intro h
    obtain ⟨us, vs, m, hu, hv, rfl⟩ := seq_eq_ok.1 h
    obtain ⟨ss, ws, k, hsep, harg, rfl⟩ := seq_eq_ok.1 (Instruction.required_eq_ok.1 hu)
    obtain ⟨hvs, hstuck⟩ := (many_eq_ok hg).1 hv
    exact ⟨.cons hsep harg hvs, by simp [(separator_eq_ok.1 hsep).2], hstuck⟩
  · rintro ⟨h, hne, hstuck⟩
    cases h with
    | nil => exact absurd rfl hne
    | cons hsep harg hrest =>
      exact seq_eq_ok.2
        ⟨_, _, _, Instruction.required_eq_ok.2 (seq_eq_ok.2 ⟨_, _, _, hsep, harg, rfl⟩),
          (many_eq_ok hg).2 ⟨hrest, hstuck⟩, rfl⟩

/-- Where there is no pair, there is no argument. -/
theorem eq_nil (h : Listed e g s ts r)
    (hg : ∀ {s ts r}, g s = .ok ts r → ∃ q : KeyValue, ts = [q.token])
    (hts : ∀ t ∈ ts, t.keyValue? = none) : ts = [] ∧ r = s := by
  cases h with
  | nil => exact ⟨rfl, rfl⟩
  | cons _ harg _ =>
    obtain ⟨q, rfl⟩ := hg harg
    cases hts q.token (by simp)

end Listed

/-! ## One flag -/

namespace KeyValue

variable {e : Char} {s r : Text} {fs ts : List Token}

theorem exists_token_of_flag (h : flag e s = .ok ts r) : ∃ q : KeyValue, ts = [q.token] := by
  obtain ⟨m, us, -, -, rfl⟩ := flag_eq_ok.1 h
  exact ⟨_, rfl⟩

theorem exists_token_of_reader {p : Char → Bool} {bare : Bool} (h : reader e p bare s = .ok ts r) :
    ∃ q : KeyValue, ts = [q.token] := by
  obtain ⟨q, rfl, -⟩ := reader_eq_ok h
  exact ⟨q, rfl⟩

/-- No flag, or one behind separators. -/
def AtMostOne (fs : List Token) : Prop :=
  fs = [] ∨ ∃ ws, ∃ q : KeyValue, fs = ws ++ [q.token] ∧ ∀ w ∈ ws, w.keyValue? = none

theorem listed_of_oneFlag (h : oneFlag e s = .ok fs r) :
    Listed e (flag e) s fs r ∧ AtMostOne fs := by
  rcases optional_eq_ok.1 h with h | ⟨-, rfl, rfl⟩
  · obtain ⟨ss, ts, k, hsep, hflag, rfl⟩ := seq_eq_ok.1 (Instruction.argument_eq_ok.1 h)
    refine ⟨by simpa using Listed.cons hsep hflag (.nil r), ?_⟩
    obtain ⟨q, rfl⟩ := exists_token_of_flag hflag
    exact .inr ⟨ss, q, rfl, (frame_of_separator hsep).keyValue?⟩
  · exact ⟨.nil _, .inl rfl⟩

theorem oneFlag_of_listed (h : Listed e (flag e) s fs r) (hone : AtMostOne fs)
    (hstuck : fs = [] → ∃ m, argument e (flag e) r = .stuck m) : oneFlag e s = .ok fs r := by
  rcases hone with rfl | ⟨ws, q, rfl, hws⟩
  · obtain ⟨-, rfl⟩ := h.eq_nil exists_token_of_flag nofun
    exact optional_eq_ok.2 (.inr ⟨hstuck rfl, rfl, rfl⟩)
  · obtain ⟨us, ss, m, k, n, rfl, hus, hsep, hflag, hrest⟩ := h.exists_of_token exists_token_of_flag
    obtain ⟨rfl, rfl⟩ :=
      hus.eq_nil exists_token_of_flag fun t ht => hws t (List.mem_append_left _ ht)
    obtain ⟨-, rfl⟩ := hrest.eq_nil exists_token_of_flag nofun
    exact optional_eq_ok.2
      (.inl (Instruction.argument_eq_ok.2 (seq_eq_ok.2 ⟨ss, _, k, hsep, hflag, rfl⟩)))

end KeyValue

/-! ## The text before an argument -/

/-- Up to an argument there are the keyword, other arguments and separators. -/
structure Front (e : Char) (k : Keyword) (g : Grammar) (s : Text) (st us ss : List Token)
    (r : Text) : Prop where
  intro ::
  read : ∃ m n, start k.name s = .ok st m ∧ Listed e g m us n ∧ separator e n = .ok ss r

namespace Front

variable {e : Char} {k : Keyword} {g : Grammar} {a s r t t' : Text} {st us ss : List Token}

theorem walk (hg : Walks e false g) (h : Front e k g s st us ss r) (he : IsEscape e) :
    Walk e false s r := by
  obtain ⟨m, n, hst, hus, hss⟩ := h.read
  have hw := argumentReaders_walks he false
  exact (hw.start k _ _ _ hst).trans ((hus.walk hg he).trans (hw.separator _ _ _ hss))

/-- What is before an argument is read the same before another text in its place, with the
separators that this text begins with. -/
theorem carry {ls : List Token} (hg : LocalReader e g) (h : Front e k g (a ++ t) st us ss t)
    (he : IsEscape e) (hs : Precedes e a t t') (ht : t.atLineEnd = false)
    (ht' : many (gap e) t' = .ok ls r) : ∃ ss', Front e k g (a ++ t') st us ss' r := by
  obtain ⟨m, n, hst, hus, hss⟩ := h.read
  have hne : t ≠ [] := by
    rintro rfl
    cases ht
  have hsep_text := (arrayReaders_lossless e).separator _ _ _ hss
  obtain ⟨z, rfl⟩ : ∃ z, n = z ++ t := ⟨_, hsep_text.symm⟩
  have hus_text := hus.text_append hg.lossless
  obtain ⟨y, rfl⟩ : ∃ y, m = y ++ t := ⟨_, by rw [List.append_assoc, hus_text]⟩
  have hz : z ≠ [] := by
    rintro rfl
    exact absurd (advances_separator e _ _ _ hss) (lt_irrefl _)
  have hy : y ≠ [] := by
    rintro rfl
    rw [← List.append_assoc] at hus_text
    have hnil : Token.textAll us ++ z = [] := List.append_cancel_right hus_text
    exact hz (List.append_eq_nil_iff.1 hnil).2
  have hst_text := (arrayReaders_lossless e).start k _ _ _ hst
  rw [← List.append_assoc] at hst_text hus_text
  have hpy : Precedes e y t t' := Precedes.of_append (List.append_cancel_right hst_text ▸ hs) hne
  have hpz : Precedes e z t t' := Precedes.of_append (List.append_cancel_right hus_text ▸ hpy) hne
  obtain ⟨ss', hss'⟩ := hpz.exists_separator he hne hz hss ht'
  exact ⟨ss', y ++ t', z ++ t', Precedes.start hy hst,
    hus.carry hg he hpy hne hz ⟨ss, t, hss, ht⟩, hss'⟩

end Front

end Containerfile
