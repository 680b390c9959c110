import Containerfile.Proofs.Rereading

/-!
# Values that take in what is behind them

The converse of reading an argument again with another text behind.  Suppose that the arguments of
an instruction are read as they were after one of them has been cut out.  Then what was behind
that one is `Detached` from a value before it, for each of the three ways in which the value could
take it in changes what is read:

* A value that ends with an escaped blank or with a continuation is inside a line that is not over.
  Before an empty line it takes in that line too, and the line end of its instruction is missing.
* A carriage return at the end of a value is a part of it.  Before a line feed it becomes a part
  of the line end, and the value is shorter than it was.
* Whatever else the value takes in says something, unless it is `Silent`.

## Main definitions

* `Instruction.Assigns`, `Instruction.Images` — where the value of a declaration or the image is
  read.

## Main results

* `Literal.Scans.getLast?_of_closed` — the end of a literal before a line end.
* `Literal.valueOf_ne_of_carriage` — a carriage return before a line feed is lost.
* `Literal.isSilent_of_body` — a literal that stays the same takes in nothing that says anything.
* `Instruction.detached_of_declarations`, `Instruction.detached_of_naming` — an `ARG` and a `FROM`.
-/

namespace Containerfile

open Lexeme Grammar

theorem Lexeme.eq_nil_of_newline {s : Text} {ts : List Token}
    (h : newline ('\n' :: s) = .ok ts []) :
    s = [] := by
  rcases newline_eq_ok.1 h with ⟨heq, -⟩ | ⟨heq, -⟩
  · cases heq
  · exact (List.cons.inj heq).2

/-! ## Walks with another text behind -/

namespace Swaps

variable {e : Char}

/-- Any text may be behind the escape character. -/
theorem escape (he : IsEscape e) (a s s' : Text) : Swaps e a (e :: s) (e :: s') := by
  refine .of_gap he ⟨e, s, rfl, .inr rfl⟩ (.gap (.inr rfl)) (fun _ _ _ => ?_)
    fun _ hfeed => he.ne_newline (Option.some.inj hfeed)
  refine (filler_eq_ok_or_stuck _).resolve_left fun hok => ?_
  rw [exists_filler_iff] at hok
  rcases he with rfl | rfl <;> rcases hok with hhead | ⟨ts, r, hn⟩ <;>
    first
    | cases hhead
    | rcases newline_eq_ok.1 hn with ⟨hn, -⟩ | ⟨hn, -⟩ <;> cases hn

/-- A line end may give way to its carriage return and another text. -/
theorem carriage (e : Char) (a : Text) {t : Text} (ht : t.head? ≠ some '\n') :
    Swaps e a ['\r', '\n'] ('\r' :: t) where
  gap := .inr ⟨List.cons_ne_nil _ _, rfl⟩
  edge := .carriage t
  line _ _ _ := filler_of_broken (.inr ⟨t, rfl, Text.atLineEnd_carriage ht⟩)
  feed _ := by nofun
  feed' _ := by nofun

end Swaps

namespace Walk

variable {e : Char} {json : Bool} {a t t' z x r : Text}

/-- A walk is the same with another text behind. -/
theorem swap (h : Walk e json (a ++ t) (z ++ t)) (he : IsEscape e) (hs : Swaps e a t t') :
    Walk e json (a ++ t') (z ++ t') := by
  generalize hS : a ++ t = S at h
  generalize hR : z ++ t = R at h
  induction h generalizing a with
  | refl s =>
    obtain rfl := List.append_cancel_right (hS.trans hR.symm)
    exact .refl _
  | @plain c s r hc hend h ih =>
    subst hR
    obtain ⟨w, rfl, rfl⟩ := h.exists_append (k := [c]) hS
    have hend' := (hs.atLineEnd_eq (List.cons_ne_nil _ _)).trans hend
    exact .plain hc hend' (ih (hs.of_append (k := [c])) rfl rfl)
  | @pair c d s r hc hend h ih =>
    subst hR
    obtain ⟨w, rfl, rfl⟩ := h.exists_append (k := [c, d]) hS
    have hw : Swaps e (d :: w) t t' := hs.of_append (k := [c])
    have hend' := (hw.atLineEnd_eq (List.cons_ne_nil _ _)).trans hend
    refine .pair (hc.imp_left ?_) hend' (ih (hw.of_append (k := [d])) rfl rfl)
    rintro ⟨rfl, hstuck⟩
    rw [continuation_stuck_iff] at hstuck
    exact ⟨rfl, continuation_stuck_iff.2 (hw.continuation_stuck (List.cons_ne_nil _ _) hstuck)⟩
  | lone => exact absurd (List.append_eq_nil_iff.1 hR).2 hs.ne_nil
  | @continuation s m r ts hc h ih =>
    subst hR
    obtain ⟨w, rfl, rfl⟩ := h.exists_append (hS.trans (lossless_continuation e _ _ _ hc).symm)
    subst hS
    exact .continuation (hs.continuation he hc) (ih hs.of_append rfl rfl)

/-- No walk ends between a carriage return and a line feed. -/
theorem not_between (h : Walk e json (x ++ '\r' :: '\n' :: t) ('\n' :: t)) : False := by
  generalize hS : x ++ '\r' :: '\n' :: t = S at h
  generalize hR : '\n' :: t = R at h
  induction h generalizing x with
  | refl s =>
    have hlen := congrArg List.length (hS.trans hR.symm)
    simp only [List.length_append, List.length_cons] at hlen
    omega
  | @plain c s r hc hend h ih =>
    cases x with
    | nil =>
      cases hS
      cases hend
    | cons d x => exact ih (List.cons.inj hS).2 hR
  | @pair c d s r hc hend h ih =>
    match x with
    | [] =>
      cases hS
      obtain ⟨w, hw⟩ := h.suffix
      have hlen := congrArg List.length hw
      simp only [← hR, List.length_append, List.length_cons] at hlen
      omega
    | [_] =>
      cases hS
      cases hend
    | _ :: _ :: x => exact ih (List.cons.inj (List.cons.inj hS).2).2 hR
  | lone => cases hR
  | @continuation s m r ts hc h ih =>
    subst hR hS
    obtain ⟨w, rfl⟩ := h.suffix
    obtain ⟨ls, hls, hlast⟩ := continuation_shape hc
    have heq : x ++ ['\r'] = ls ++ w := by
      have heq' : x ++ ['\r'] ++ '\n' :: t = ls ++ w ++ '\n' :: t := by simpa using hls
      exact List.append_cancel_right heq'
    rcases List.eq_nil_or_concat w with rfl | ⟨w, c, rfl⟩
    · rw [List.append_nil] at heq
      rcases hlast with hlast | hbroken | ⟨r, hr, -⟩
      · simp [← heq] at hlast
      · cases hbroken
      · cases hr
    · rw [List.concat_eq_append] at heq ih
      obtain rfl : c = '\r' := by
        have hc := congrArg List.getLast? heq
        simpa [← List.append_assoc] using hc.symm
      exact ih (x := w) (by simp) rfl

/-- A walk that leaves blanks and a line end leaves all of a line end. -/
theorem exists_blanks {ns : List Token} (h : Walk e json (x ++ ['\r', '\n']) r)
    (hn : newline (r.dropWhile isBlank) = .ok ns []) :
    ∃ b, r = b ++ ['\r', '\n'] ∧ ∀ c ∈ b, isBlank c = true := by
  obtain ⟨b, hb, hblank⟩ := Text.eq_append_dropWhile isBlank r
  refine ⟨b, ?_, hblank⟩
  rcases newline_eq_ok.1 hn with ⟨hr, -⟩ | ⟨hr, -⟩
  · rw [hb, hr]
  · rw [hr] at hb
    subst hb
    obtain ⟨w, hw⟩ := h.suffix
    have heq : x ++ ['\r'] = w ++ b := by
      have heq' : x ++ ['\r'] ++ ['\n'] = w ++ b ++ ['\n'] := by simpa using hw
      exact List.append_cancel_right heq'
    rcases List.eq_nil_or_concat b with rfl | ⟨b, c, rfl⟩
    · exact (not_between h).elim
    · rw [List.concat_eq_append] at heq hblank
      obtain rfl : c = '\r' := by
        have hc := congrArg List.getLast? heq
        simpa [← List.append_assoc] using hc.symm
      exact absurd (hblank '\r' (by simp)) (by decide)

end Walk

/-! ## The end of a value -/

/-- A line behind comment lines and blank lines is one more of them. -/
theorem Filler.concat {cs l : Text} (h : Filler cs) (hl : FillerLine l) : Filler (cs ++ l) := by
  induction h with
  | nil => simpa using Filler.cons hl .nil
  | cons hl' _ ih =>
    rw [List.append_assoc]
    exact .cons hl' ih

theorem FillerLine.of_newline {t : Text} {ns : List Token}
    (ht : newline (t.dropWhile isBlank) = .ok ns []) : FillerLine t := by
  obtain ⟨b, hb, hblank⟩ := Text.eq_append_dropWhile isBlank t
  obtain ⟨q, hq, hreturn⟩ := newline_shape ht
  refine ⟨⟨b ++ q, by rw [hb, hq]; simp, newline_notMem hblank hreturn⟩, ?_⟩
  obtain ⟨ts, r, hr⟩ := exists_filler_iff.2 (.inr ⟨ns, [], ht⟩)
  rcases filler_eq_ok hr with hc | hl
  · obtain ⟨s, us, hs, -⟩ := commentBody_eq_ok.1 hc
    rcases newline_eq_ok.1 ht with ⟨ht, -⟩ | ⟨ht, -⟩ <;> cases ht.symm.trans hs
  · obtain ⟨us, hn⟩ := blankLine_eq_ok.1 hl
    cases ht.symm.trans hn
    exact ⟨ts, hr⟩

namespace Continued

variable {e : Char} {w t : Text}

/-- The empty line behind an escaped blank or a continuation is taken with it. -/
theorem append {ns : List Token} (hw : (∃ c, w = [c] ∧ isBlank c = true) ∨ Continued w)
    (ht : newline (t.dropWhile isBlank) = .ok ns []) : Continued (w ++ t) := by
  rcases hw with ⟨c, rfl, hc⟩ | @⟨b, q, cs, hb, hq, hcs⟩
  · obtain ⟨b, hb, hblank⟩ := Text.eq_append_dropWhile isBlank t
    obtain ⟨q, hq, hreturn⟩ := newline_shape ht
    have heq : [c] ++ t = c :: b ++ q ++ '\n' :: [] := by
      rw [hb, hq]
      simp
    rw [heq]
    exact .mk (List.forall_mem_cons.2 ⟨hc, hblank⟩) hreturn .nil
  · rw [List.append_assoc, List.cons_append]
    exact .mk hb hq (hcs.concat (.of_newline ht))

/-- A continuation up to the end of a text leaves nothing. -/
theorem continuation_eq (hw : Continued w) (he : IsEscape e) :
    ∃ ts, Lexeme.continuation e (e :: w) = .ok ts [] := by
  obtain ⟨ts, r, hr⟩ := hw.continuation (e := e) []
  have hlt := advances_continuation e _ _ _ hr
  have hlen : r.length ≤ ([] : Text).length :=
    hw.length_le he hr (a := []) rfl (by simpa using Nat.lt_succ_iff.1 hlt)
  rw [List.append_nil] at hr
  exact ⟨ts, List.length_eq_zero_iff.1 (Nat.le_zero.1 hlen) ▸ hr⟩

/-- A continuation that ends at a line is made of a line end and of whole lines. -/
theorem of_continuation {ts : List Token} (h : Lexeme.continuation e (w ++ t) = .ok ts t)
    (ht : ¬ Broken t) : ∃ k, w = e :: k ∧ Continued k := by
  obtain ⟨b, q, l, us, hs, hb, hq, hl⟩ := eq_of_continuation h
  obtain ⟨ls, rfl, hshape⟩ := lines_shape hl
  obtain rfl : w = e :: (b ++ q) ++ '\n' :: ls := List.append_cancel_right (hs.trans (by simp))
  refine ⟨b ++ q ++ '\n' :: ls, rfl, .mk hb hq ?_⟩
  have hv := lines_swap hl (filler_of_broken (.inl rfl)) fun _ => .inl rfl
  rw [List.append_nil] at hv
  exact filler_of_lines hv (or_assoc.2 hshape |>.resolve_right ht)

end Continued

namespace Literal

variable {e : Char} {style : Style} {s t r v : Text} {ps : List Piece} {q q' : Option Quote}

/-- Only a quote opens a quoted run. -/
theorem isQuote_of_take (h : step style e q s = .take ps q' r)
    (hq : ∀ b ∈ q, isQuote b.mark = true) :
    ∀ b ∈ q', isQuote b.mark = true := by
  have hpossible := possible_step style e q s
  rw [h] at hpossible
  cases hpossible with
  | continuation | pair | lone | char | blank | reference => exact hq
  | openingQuote _ _ hquote =>
    intro b hmem
    cases hmem
    exact hquote
  | closingQuote => simp

/-- A blank is taken within quotes only. -/
theorem step_blank_ne {c : Char} (he : IsEscape e) (hstyle : style.Plain)
    (hblanks : style.blanksEnd = true) (hq : ∀ b ∈ q, isQuote b.mark = true)
    (hc : isBlank c = true) :
    step style e q (c :: s) ≠ .take ps none r := by
  intro h
  cases q with
  | none =>
    rw [step_blank he hblanks hc] at h
    cases h
  | some b =>
    have hmark : c ≠ b.mark := by
      rintro rfl
      have hquote := hq b rfl
      simp only [isBlank, isQuote, Bool.or_eq_true, beq_iff_eq] at hc hquote
      rcases hc with hc | hc <;> rw [hc] at hquote <;> simp at hquote
    simp only [isBlank, Bool.or_eq_true, beq_iff_eq] at hc
    rcases hc with rfl | rfl <;> rcases he with rfl | rfl <;>
      simp [step, stepQuoted, stepChar, hstyle.escapes, hmark, Text.atLineEnd] at h

/-- What a step takes ends with a blank or a line feed if it is an escaped blank, a continuation
or a blank. -/
theorem Takes.exists_escape (h : Takes e false (v ++ t) ps t) (ht : ¬ Broken t) {c : Char}
    (hc : v.getLast? = some c) (hline : isBlank c = true ∨ c = '\n') :
    (isBlank c = true ∧ v = [c]) ∨
      ∃ w, v = e :: w ∧ ((∃ d, w = [d] ∧ isBlank d = true) ∨ Continued w) := by
  generalize hS : v ++ t = S at h
  generalize hR : t = R at h
  cases h with
  | continuation hcont =>
    subst hS hR
    obtain ⟨w, rfl, hw⟩ := Continued.of_continuation hcont ht
    exact .inr ⟨w, rfl, .inr hw⟩
  | @pair d d' s hd hend =>
    subst hR
    obtain rfl : v = [d, d'] := List.append_cancel_right hS
    obtain rfl : d' = c := by simpa using hc
    obtain ⟨rfl, -⟩ := hd.resolve_right fun hd => Bool.false_ne_true hd.2.2
    refine .inr ⟨_, rfl, .inl ⟨d', rfl, hline.resolve_right ?_⟩⟩
    rintro rfl
    cases hend
  | lone => exact absurd (.inl hR) ht
  | @char d s p hp hd hend =>
    subst hR
    obtain rfl : v = [d] := List.append_cancel_right hS
    obtain rfl : d = c := by simpa using hc
    refine .inl ⟨hline.resolve_right ?_, rfl⟩
    rintro rfl
    cases hend
  | reference hhead =>
    subst hS hR
    have htext := List.append_cancel_right (Reference.eq_of_head_whole hhead)
    have hchar := Reference.isHeadChar_of_head_whole hhead c (htext ▸ List.mem_of_getLast? hc)
    simp only [isBlank, Bool.or_eq_true, beq_iff_eq] at hline
    rcases hline with (rfl | rfl) | rfl <;> cases hchar

/-- A value that ends with a blank or a line feed ends with an escaped blank or with a
continuation. -/
theorem Scans.exists_escape (h : Scans e style q (v ++ t) ps t) (he : IsEscape e)
    (hstyle : style.Plain) (hblanks : style.blanksEnd = true) (ht : ¬ Broken t)
    (hq : ∀ b ∈ q, isQuote b.mark = true) {c : Char} (hc : v.getLast? = some c)
    (hline : isBlank c = true ∨ c = '\n') :
    ∃ v₀ w, v = v₀ ++ e :: w ∧ Walk e false (v ++ t) (e :: (w ++ t)) ∧
      ((∃ d, w = [d] ∧ isBlank d = true) ∨ Continued w) := by
  generalize hS : v ++ t = S at h
  generalize hR : t = R at h
  induction h generalizing v with
  | stop =>
    obtain rfl : v = [] := by simpa [hR] using hS
    cases hc
  | @take style quote q1 S M R ps qs hstep hm ih =>
    subst hS hR
    obtain ⟨m, rfl⟩ : ∃ m, M = m ++ t := ⟨_, hm.sourceOf_append_eq.symm⟩
    have htakes : Takes e false (v ++ t) ps (m ++ t) :=
      takes_step (by rw [hstyle.escapes]; nofun) hstep
    have hsource := accounts_step style e quote (v ++ t)
    rw [hstep] at hsource
    obtain rfl : sourceOf ps ++ m = v :=
      List.append_cancel_right (by simpa [Step.Accounts] using hsource)
    by_cases hnil : m = []
    · subst hnil
      obtain ⟨-, rfl⟩ := Scans.eq_nil hm hstyle.runs
      rcases htakes.exists_escape ht hc hline with ⟨hblank, hv⟩ | ⟨w, hv, hw⟩
      · rw [hv] at hstep
        exact absurd hstep (step_blank_ne he hstyle hblanks hq hblank)
      · exact ⟨[], w, hv, by rw [hv]; exact .refl _, hw⟩
    · obtain ⟨v₀, w, rfl, hwalk, hw⟩ :=
        ih hstyle hblanks (isQuote_of_take hstep hq) (Text.getLast?_of_append hc hnil) rfl rfl
      exact ⟨sourceOf ps ++ v₀, w, (List.append_assoc ..).symm, (htakes.walk he).trans hwalk, hw⟩
  | last hstep => exact absurd hstep (step_ne_last hstyle.runs)
  | @reference style quote S M M' R name op ws qs' hstep hw hm ihw ih =>
    subst hS hR
    obtain ⟨m, rfl⟩ : ∃ m, M' = m ++ t := ⟨_, hm.sourceOf_append_eq.symm⟩
    have hsource := accounts_step style e quote (v ++ t)
    rw [hstep] at hsource
    have hsource : '$' :: '{' :: name ++ op.operator ++ M = v ++ t := hsource
    rw [← hw.sourceOf_append_eq] at hsource
    obtain rfl : '$' :: '{' :: name ++ op.operator ++ sourceOf ws ++ '}' :: m = v :=
      List.append_cancel_right (by simpa using hsource)
    have hnil : m ≠ [] := by
      rintro rfl
      rw [List.getLast?_append] at hc
      obtain rfl : '}' = c := by simpa using hc
      rcases hline with hline | hline <;> cases hline
    have hlast : m.getLast? = some c := by
      rw [List.append_cons] at hc
      exact Text.getLast?_of_append hc hnil
    obtain ⟨v₀, w, rfl, hwalk, hw'⟩ := ih hstyle hblanks hq hlast rfl rfl
    refine ⟨'$' :: '{' :: name ++ op.operator ++ sourceOf ws ++ '}' :: v₀, w, by simp, ?_, hw'⟩
    exact (walk_of_reference he hstep (hw.walk he (absurd · (by decide)))).trans hwalk

/-- A value behind `x` that is followed by an empty line ends neither with an escaped blank nor
with a continuation, which would take the line end. -/
theorem Scans.getLast?_of_closed {x t' : Text} {ns : List Token}
    (h : Scans e style none (v ++ t) ps t) (he : IsEscape e) (hstyle : style.Plain)
    (hblanks : style.blanksEnd = true) (ht : ¬ Broken t)
    (hwalk : Walk e false (x ++ (v ++ t)) (v ++ t)) (hclosed : Closed e (x ++ (v ++ t')))
    (ht' : newline (t'.dropWhile isBlank) = .ok ns []) {c : Char} (hc : v.getLast? = some c) :
    (isBlank c || c == '\n') = false := by
  rw [← Bool.not_eq_true, Bool.or_eq_true, beq_iff_eq]
  intro hline
  obtain ⟨v₀, w, rfl, hescape, hw⟩ := h.exists_escape he hstyle hblanks ht nofun hc hline
  have hwalk' : Walk e false ((x ++ v₀) ++ e :: (w ++ t)) ([] ++ e :: (w ++ t)) := by
    simpa using hwalk.trans hescape
  have hcut : Closed e (e :: (w ++ t')) :=
    Closed.walk he (hwalk'.swap he (.escape he _ _ _)) (by simpa using hclosed)
  obtain ⟨ts, hts⟩ := (Continued.append hw ht').continuation_eq he
  exact (hcut.of_continuation hts he.isLineBreak).ne_nil rfl

/-- A carriage return is a character of a literal if no line feed is behind it. -/
theorem step_carriage (he : IsEscape e) (hstyle : style.Plain) (ht : t.head? ≠ some '\n') :
    step style e none ('\r' :: t) = .take [.text ['\r']] none t := by
  have hend := Text.atLineEnd_carriage ht
  rcases he with rfl | rfl <;>
    simp [step, hend, hstyle.escapes, stepUnquoted, stepChar, isQuote, isBlank]

/-- A carriage return at the end of a literal belongs to its value, and does not before a line
feed. -/
theorem valueOf_ne_of_carriage {x b : Text} {ls ls' : List Token} (htrim : style.trimsEnd = false)
    (hstyle : style.Plain) (hblanks : style.blanksEnd = true) (he : IsEscape e)
    (ht : t.head? ≠ some '\n') (h : body style e (x ++ '\r' :: t) = .ok ls t)
    (h' : body style e (x ++ ['\r', '\n']) = .ok ls' (b ++ ['\r', '\n']))
    (hb : ∀ c ∈ b, isBlank c = true) : valueOf ls' ≠ valueOf ls := by
  obtain ⟨ps, hps, rfl, -⟩ := (body_of_trimsEnd htrim).1 h
  obtain ⟨ps', hps', rfl, -⟩ := (body_of_trimsEnd htrim).1 h'
  obtain ⟨qs, rfl, hqs⟩ := (hps'.swap he hstyle (.carriage e x ht) rfl).1 hps
  intro heq
  rw [valueOf_assemble, valueOf_assemble, valueOfPieces_append, eq_comm,
    List.append_right_eq_self] at heq
  cases b with
  | nil =>
    obtain ⟨us, rfl, -⟩ := (scans_iff_of_take (step_carriage he hstyle ht)).1 hqs
    cases heq
  | cons c b =>
    obtain ⟨-, hr⟩ := hqs.unique (.stop (step_blank he hblanks (hb c List.mem_cons_self)))
    have hlen := congrArg List.length hr
    simp only [List.cons_append, List.length_cons, List.length_append] at hlen
    omega

end Literal

/-- What a value takes in without a change says nothing. -/
theorem Literal.isSilent_of_body {e : Char} {w t t' r : Text} {ls ls' : List Token}
    (he : IsEscape e) (hs : Swaps e w t t') (h : body .value e (w ++ t) = .ok ls t)
    (h' : body .value e (w ++ t') = .ok ls' r) (hvalue : valueOf ls' = valueOf ls) :
    isSilent e t' = true := by
  obtain ⟨ps, hps, rfl, -⟩ := (body_of_trimsEnd rfl).1 h
  obtain ⟨ps', hps', rfl, -⟩ := (body_of_trimsEnd rfl).1 h'
  obtain ⟨qs, rfl, hqs⟩ := (Scans.swap (z := []) hps he ⟨rfl, rfl⟩ hs rfl).1 hps'
  rw [valueOf_assemble, valueOf_assemble, valueOfPieces_append, List.append_right_eq_self] at hvalue
  have hbody : body .value e t' = .ok (assemble qs) r :=
    (body_of_trimsEnd rfl).2 ⟨qs, hqs, rfl, .inr rfl⟩
  unfold isSilent
  rw [hbody]
  simp [valueOf_assemble, hvalue]

/-- Nothing is added to a value where it ends. -/
theorem Literal.isSilent_of_newline {e : Char} {t : Text} {ns : List Token} (he : IsEscape e)
    (ht : newline (t.dropWhile isBlank) = .ok ns []) : isSilent e t = true := by
  have hbody : body .value e t = .ok [] t :=
    (body_of_trimsEnd rfl).2 ⟨[], .stop (step_of_newline he rfl ht), rfl, .inr rfl⟩
  unfold isSilent
  rw [hbody]
  rfl

/-! ## Declarations -/

/-- A name before an equals sign has the value behind it. -/
theorem KeyValue.named_assigned_iff {e : Char} {p : Char → Bool} {k w r : Text} {ts : List Token}
    (hp : p '=' = false) (hne : k ≠ []) (hall : ∀ c ∈ k, p c = true) :
    named e p (k ++ '=' :: w) = .ok ts r ↔ ∃ ls, Literal.body .value e w = .ok ls r ∧
      ts = [.identifier k, .symbol ['='], .node (.literal true) ls] := by
  rw [named_eq_ok]
  constructor
  · rintro ⟨k', m, heq, hne', hall', hhead, hrest⟩
    have hrun : run .identifier p (k ++ '=' :: w) = .ok [.identifier k] ('=' :: w) :=
      run_shape.2 ⟨k, rfl, hne, hall, hp, rfl⟩
    cases hrun.symm.trans (run_shape.2 ⟨k', heq, hne', hall', hhead, rfl⟩)
    rcases hrest with ⟨hequals, -, -⟩ | ⟨m', ls, hm, hbody, rfl⟩
    · exact absurd rfl hequals
    · cases hm
      exact ⟨ls, hbody, rfl⟩
  · rintro ⟨ls, hbody, rfl⟩
    exact ⟨k, '=' :: w, rfl, hne, hall, hp, .inr ⟨w, ls, rfl, hbody, rfl⟩⟩

namespace Declarations

variable {e : Char} {s r r' a t t' z k k' n m : Text} {ds ds' : List (List Token × KeyValue)}
  {ss ss' ts : List Token}

theorem unique (h : Declarations e s ds r) (h' : Declarations e s ds' r')
    (hlen : ds.length = ds'.length) : ds = ds' ∧ r = r' := by
  induction h generalizing ds' with
  | nil s =>
    obtain rfl := List.length_eq_zero_iff.1 hlen.symm
    cases h'
    exact ⟨rfl, rfl⟩
  | @cons s m m' r ss p ds hsep hname _ ih =>
    cases h' with
    | nil => cases hlen
    | @cons _ _ _ _ ss' p' ds' hsep' hname' hrest' =>
      cases hsep.symm.trans hsep'
      obtain ⟨us⟩ := p
      obtain ⟨us'⟩ := p'
      cases hname.symm.trans hname'
      obtain ⟨rfl, rfl⟩ := ih hrest' (Nat.succ.inj hlen)
      exact ⟨rfl, rfl⟩

theorem walk (h : Declarations e s ds r) (he : IsEscape e) (json : Bool) : Walk e json s r := by
  have hw := argumentReaders_walks he json
  induction h with
  | nil s => exact .refl s
  | cons hsep hname _ ih =>
    have hnamed := hw.seq hw.stageName (hw.optional hw.assignment) _ _ _ hname
    exact (hw.separator _ _ _ hsep).trans (hnamed.trans ih)

/-- With another text behind, a declaration is where it was. -/
theorem aligned (h : Declarations e (a ++ t) ds (z ++ t))
    (hsep : separator e (z ++ t) = .ok ss (k ++ t))
    (hname : KeyValue.named e isStageChar (k ++ t) = .ok ts (m ++ t)) (he : IsEscape e)
    (hs : Swaps e a t t') (h' : Declarations e (a ++ t') ds' n) (hlen : ds.length = ds'.length)
    (hsep' : separator e n = .ok ss' k') : k' = k ++ t' := by
  have hz : z ≠ [] := by
    rintro rfl
    have hlt := length_lt (Declarations.cons hsep (p := ⟨ts⟩) hname (.nil _))
    simp only [List.nil_append, List.length_append] at hlt
    omega
  obtain ⟨-, rfl⟩ := (h.swap_within he hs hz).unique h' hlen
  have hz' : Swaps e z t t' := by
    have htext := h.text_append
    rw [← List.append_assoc] at htext
    exact Swaps.of_append (List.append_cancel_right htext ▸ hs)
  cases (separator_swap he hz' hsep hname).symm.trans hsep'
  rfl

end Declarations

namespace Instruction

/-- Behind the keyword of an `ARG` and the declarations `es`, the name `k` is declared, and its
value is read from `v` up to `r`. -/
structure Assigns (e : Char) (s : Text) (es : List (List Token × KeyValue)) (k v : Text)
    (ls : List Token) (r : Text) : Prop where
  read : ∃ st m n ss, start Keyword.ARG.name s = .ok st m ∧ Declarations e m es n ∧
    separator e n = .ok ss (k ++ '=' :: v)
  ne_nil : k ≠ []
  name : ∀ c ∈ k, isStageChar c = true
  value : Literal.body .value e v = .ok ls r

/-- A declaration with a value. -/
theorem exists_assigns {e : Char} {s m r : Text} {st : List Token} {d : List Token × KeyValue}
    {es ds : List (List Token × KeyValue)} (hst : start Keyword.ARG.name s = .ok st m)
    (hds : Declarations e m (es ++ d :: ds) r) (hvalue : d.2.value? ≠ none) :
    ∃ k v ls n, Assigns e s es k v ls n ∧ d.2.field = (k, some (Literal.valueOf ls)) ∧
      Declarations e m (es ++ [d]) n ∧ Declarations e n ds r := by
  obtain ⟨n, hes, hd⟩ := Declarations.append_iff.1 hds
  cases hd with
  | @cons _ _ n' _ ss p _ hsep hname hrest =>
    have hlast := Declarations.append_iff.2 ⟨n, hes, .cons hsep hname (.nil n')⟩
    obtain ⟨k, m', rfl, hne, hall, -, hcase⟩ := KeyValue.named_eq_ok.1 hname
    obtain ⟨parts⟩ := p
    rcases hcase with ⟨-, -, rfl⟩ | ⟨v, ls, rfl, hbody, rfl⟩
    · exact absurd rfl hvalue
    · exact ⟨k, v, ls, n', ⟨⟨st, m, n, ss, hst, hes, hsep⟩, hne, hall, hbody⟩, rfl, hlast, hrest⟩

namespace Assigns

variable {e : Char} {a b s t t' k k' v v' w r r' : Text} {es es' : List (List Token × KeyValue)}
  {ls ls' : List Token}

theorem walk (h : Assigns e s es k v ls r) (he : IsEscape e) : Walk e false s ('=' :: v) := by
  obtain ⟨st, m, n, ss, hst, hes, hsep⟩ := h.read
  have hw := argumentReaders_walks he false
  have hk : Walk e false (k ++ '=' :: v) ('=' :: v) :=
    .of_ordinary (fun c hc => he.ordinary rfl c (h.name c hc)) _
  exact (hw.start .ARG _ _ _ hst).trans
    ((hes.walk he false).trans ((hw.separator _ _ _ hsep).trans hk))

theorem walk_value (h : Assigns e s es k v ls r) (he : IsEscape e) : Walk e false s r := by
  have hequals : Ordinary e '=' := he.ordinary (q := (· == '=')) rfl '=' rfl
  obtain ⟨ps, hps, -⟩ := (Literal.body_of_trimsEnd rfl).1 h.value
  exact (h.walk he).trans (.plain hequals.1 (Text.atLineEnd_eq_false hequals.2)
    (hps.walk he (absurd · (by decide))))

/-- With another text behind, a name and its value are where they were. -/
theorem aligned (h : Assigns e (a ++ t) es k (w ++ t) ls (b ++ t))
    (h' : Assigns e (a ++ t') es' k' v' ls' r') (hlen : es.length = es'.length) (he : IsEscape e)
    (hs : Swaps e a t t') : k' = k ∧ v' = w ++ t' := by
  obtain ⟨st, m, n, ss, hst, hes, hsep⟩ := h.read
  obtain ⟨st', m', n', ss', hst', hes', hsep'⟩ := h'.read
  obtain ⟨z, rfl⟩ : ∃ z, n = z ++ t :=
    ⟨Token.textAll ss ++ k ++ '=' :: w, by
      rw [← (arrayReaders_lossless e).separator _ _ _ hsep]
      simp⟩
  obtain ⟨m, rfl⟩ : ∃ m₀, m = m₀ ++ t :=
    ⟨Token.textAll (Declarations.tokens es) ++ z, by rw [List.append_assoc, hes.text_append]⟩
  cases (start_swap he hs hst).symm.trans hst'
  have hm : Swaps e m t t' := by
    have htext := (arrayReaders_lossless e).start .ARG _ _ _ hst
    rw [← List.append_assoc] at htext
    exact Swaps.of_append (List.append_cancel_right htext ▸ hs)
  obtain ⟨ts, hname⟩ : ∃ ts, KeyValue.named e isStageChar ((k ++ '=' :: w) ++ t) =
      .ok ts (b ++ t) := by
    rw [List.append_assoc]
    exact ⟨_, (KeyValue.named_assigned_iff rfl h.ne_nil h.name).2 ⟨ls, h.value, rfl⟩⟩
  have heq : k' ++ '=' :: v' = (k ++ '=' :: w) ++ t' :=
    hes.aligned (by simpa using hsep) hname he hm hes' hlen hsep'
  have hrun : ∀ {x y : Text}, x ≠ [] → (∀ c ∈ x, isStageChar c = true) →
      run .identifier isStageChar (x ++ '=' :: y) = .ok [.identifier x] ('=' :: y) :=
    fun hne hall => run_shape.2 ⟨_, rfl, hne, hall, rfl, rfl⟩
  have hleft := hrun h'.ne_nil h'.name (y := v')
  rw [heq, List.append_assoc] at hleft
  cases hleft.symm.trans (hrun h.ne_nil h.name)
  exact ⟨rfl, rfl⟩

/-- What a value takes in says nothing if the value stays the same. -/
theorem isSilent (h : Assigns e (a ++ t) es k (w ++ t) ls t)
    (h' : Assigns e (a ++ t') es' k' v' ls' r') (hlen : es.length = es'.length) (he : IsEscape e)
    (hs : Swaps e a t t') (hvalue : Literal.valueOf ls' = Literal.valueOf ls) :
    Literal.isSilent e t' = true := by
  obtain ⟨-, rfl⟩ := aligned (b := []) h h' hlen he hs
  have hw : Swaps e w t t' := by
    obtain ⟨y, hy⟩ := (h.walk he).suffix
    have ha : a = y ++ ['='] ++ w := List.append_cancel_right (by rw [hy]; simp)
    exact Swaps.of_append (ha ▸ hs)
  exact Literal.isSilent_of_body he hw h.value h'.value hvalue

/-- A carriage return at the end of a value is lost before a line feed. -/
theorem value_ne (h : Assigns e (a ++ '\r' :: t) es k (w ++ '\r' :: t) ls t)
    (ht : t.head? ≠ some '\n')
    (h' : Assigns e (a ++ ['\r', '\n']) es' k' v' ls' (b ++ ['\r', '\n']))
    (hb : ∀ c ∈ b, isBlank c = true) (hlen : es.length = es'.length) (he : IsEscape e) :
    Literal.valueOf ls' ≠ Literal.valueOf ls := by
  obtain ⟨w', rfl⟩ : ∃ w', v' = w' ++ ['\r', '\n'] :=
    ⟨Token.textAll ls' ++ b, by rw [List.append_assoc, Literal.lossless_body _ _ _ _ _ h'.value]⟩
  obtain ⟨-, hw⟩ := h'.aligned h hlen.symm he (.carriage e a ht)
  obtain rfl := List.append_cancel_right hw
  exact Literal.valueOf_ne_of_carriage rfl ⟨rfl, rfl⟩ rfl he ht h.value h'.value hb

/-- Before an empty line the value ends neither with an escaped blank nor with a continuation. -/
theorem line {y : Text} {ns : List Token} (h : Assigns e (y ++ '=' :: (w ++ t)) es k (w ++ t) ls t)
    (he : IsEscape e) (ht : ¬ Broken t) (hclosed : Closed e (y ++ '=' :: w ++ t'))
    (ht' : newline (t'.dropWhile isBlank) = .ok ns []) :
    ((y ++ '=' :: w).getLast?.any fun c => isBlank c || c == '\n') = false := by
  rcases List.eq_nil_or_concat w with rfl | ⟨w, c, rfl⟩
  · simp [isBlank]
  · rw [List.concat_eq_append] at *
    obtain ⟨ps, hps, -⟩ := (Literal.body_of_trimsEnd rfl).1 h.value
    have hequals : Ordinary e '=' := he.ordinary (q := (· == '=')) rfl '=' rfl
    have hwalk : Walk e false ((y ++ ['=']) ++ (w ++ [c] ++ t)) (w ++ [c] ++ t) := by
      rw [List.append_assoc]
      exact (h.walk he).trans (.plain hequals.1 (Text.atLineEnd_eq_false hequals.2) (.refl _))
    rw [← List.cons_append, ← List.append_assoc, List.getLast?_concat]
    exact hps.getLast?_of_closed he ⟨rfl, rfl⟩ rfl ht hwalk (by simpa using hclosed) ht'
      List.getLast?_concat

/-- Before a line feed a value that stays the same does not end with a carriage return. -/
theorem feed {y : Text} {ns : List Token} (h : Assigns e (y ++ '=' :: (w ++ t)) es k (w ++ t) ls t)
    (he : IsEscape e) (ht : t.head? ≠ some '\n')
    (h' : Assigns e (y ++ '=' :: w ++ ['\n']) es' k' v' ls' r')
    (hr' : newline (r'.dropWhile isBlank) = .ok ns []) (hlen : es.length = es'.length)
    (hvalue : Literal.valueOf ls' = Literal.valueOf ls) : (y ++ '=' :: w).getLast? ≠ some '\r' := by
  intro hlast
  rcases List.eq_nil_or_concat w with rfl | ⟨w, c, rfl⟩
  · simp at hlast
  · rw [List.concat_eq_append] at *
    rw [← List.cons_append, ← List.append_assoc, List.getLast?_concat] at hlast
    obtain rfl := Option.some.inj hlast
    obtain ⟨b, rfl, hb⟩ :=
      Walk.exists_blanks (x := y ++ '=' :: w) (by simpa using h'.walk_value he) hr'
    exact value_ne (a := y ++ '=' :: w) (by simpa using h) ht (by simpa using h') hb hlen he hvalue

end Assigns

/-- The line of an instruction with a line end of its own is closed. -/
theorem closed_of_finish {e : Char} {s r : Text} {fin : List Token} (he : IsEscape e)
    (hwalk : Walk e false s r) (hfin : finish e r = .ok fin [])
    (hended : Token.lineStateAll fin .within = .ended) : Closed e s := by
  have hw := argumentReaders_walks he false
  obtain ⟨us, ns, hgaps, hn⟩ := newline_of_finish hfin hended
  exact .of_walk (hwalk.trans (hw.many (hw.either hw.blanks hw.continuation) _ _ _ hgaps))
    (.of_newline hn)

/-- If the declarations behind a value are read as they were without the text `t` between them, they
are detached from the value. -/
theorem detached_of_assigns {e : Char} {y w t t' k k' v r r' n : Text} {ls ls' fin ns : List Token}
    {es es' ds ds' : List (List Token × KeyValue)} (he : IsEscape e)
    (h : Assigns e (y ++ '=' :: (w ++ t)) es k (w ++ t) ls t)
    (ht : ∃ c x, t = c :: x ∧ (isBlank c = true ∨ c = e)) (hds : Declarations e t' ds r)
    (hn : newline (r.dropWhile isBlank) = .ok ns [])
    (h' : Assigns e (y ++ '=' :: w ++ t') es' k' v ls' n) (hds' : Declarations e n ds' r')
    (hfin : finish e r' = .ok fin []) (hended : Token.lineStateAll fin .within = .ended)
    (hlen : es.length = es'.length) (hlen' : ds.length = ds'.length)
    (hvalue : Literal.valueOf ls' = Literal.valueOf ls) : Detached e (y ++ '=' :: w) t' := by
  obtain ⟨c, x, rfl, hc⟩ := ht
  obtain ⟨hbroken, hhead⟩ := not_broken_of_gap he hc x
  have hclosed := closed_of_finish he ((h'.walk_value he).trans (hds'.walk he false)) hfin hended
  have hline : ((y ++ '=' :: w).getLast?.any fun c => isBlank c || c == '\n') = true →
      Text.atLineEnd (t'.dropWhile isBlank) = false := by
    intro hlast
    cases hend : Text.atLineEnd (t'.dropWhile isBlank) with
    | false => rfl
    | true =>
      obtain ⟨-, rfl⟩ := hds.eq_nil_of_atLineEnd he hend
      rw [h.line he hbroken hclosed hn] at hlast
      cases hlast
  have hfeed : (y ++ '=' :: w).getLast? = some '\r' → t'.head? ≠ some '\n' := by
    intro hreturn hhead'
    obtain ⟨x, rfl⟩ := List.head?_eq_some_iff.1 hhead'
    obtain ⟨rfl, rfl⟩ := hds.eq_nil_of_atLineEnd he rfl
    obtain rfl := List.length_eq_zero_iff.1 hlen'.symm
    obtain rfl := eq_nil_of_newline hn
    cases hds'
    obtain ⟨-, ns', -, hn'⟩ := newline_of_finish hfin hended
    exact h.feed he hhead h' hn' hlen hvalue hreturn
  refine ⟨hline, hfeed, ?_⟩
  cases hend : Text.atLineEnd (t'.dropWhile isBlank) with
  | true =>
    obtain ⟨-, rfl⟩ := hds.eq_nil_of_atLineEnd he hend
    exact Literal.isSilent_of_newline he hn
  | false =>
    have hs := hds.swaps he hn ⟨c, x, rfl, hc⟩ hline hfeed
    exact Assigns.isSilent (by simpa using h) h' hlen he hs hvalue

/-- A declared name has a value exactly if there is a literal among its tokens. -/
theorem value?_ne_none {e : Char} {s r : Text} {es : List (List Token × KeyValue)}
    {d : List Token × KeyValue} (h : Declarations e s (es ++ [d]) r)
    (hvalued : Declarations.endsValued (es ++ [d]) = true) : d.2.value? ≠ none := by
  obtain ⟨n, -, hd⟩ := Declarations.append_iff.1 h
  obtain ⟨ss, ⟨parts⟩⟩ := d
  cases hd with
  | cons _ hname _ =>
    obtain ⟨k, m, -, -, -, -, ⟨-, -, rfl⟩ | ⟨v, ls, -, -, rfl⟩⟩ := KeyValue.named_eq_ok.1 hname
    · simp [Declarations.endsValued, Token.isLiteral, Token.identifier] at hvalued
    · exact Option.some_ne_none _

/-- If an `ARG` is read without one of its declarations with the others as they were, then what was
behind the declaration is detached from the value that was before it. -/
theorem detached_of_declarations {e : Char} {s m m' r r' : Text} {st st' fin fin' : List Token}
    {ds ds₁ ds₂ : List (List Token × KeyValue)} {d : List Token × KeyValue} (he : IsEscape e)
    (hst : start Keyword.ARG.name s = .ok st m) (hds : Declarations e m (ds₁ ++ d :: ds₂) r)
    (hfin : finish e r = .ok fin []) (hended : Token.lineStateAll fin .within = .ended)
    (hvalued : Declarations.endsValued ds₁ = true)
    (hst' : start Keyword.ARG.name (Token.textAll (st ++ Declarations.tokens ds₁ ++
      (Declarations.tokens ds₂ ++ fin))) = .ok st' m')
    (hds' : Declarations e m' ds r')
    (hfields : Declarations.fields ds = Declarations.fields (ds₁ ++ ds₂))
    (hfin' : finish e r' = .ok fin' []) (hended' : Token.lineStateAll fin' .within = .ended) :
    Detached e (Token.textAll (st ++ Declarations.tokens ds₁))
      (Token.textAll (Declarations.tokens ds₂ ++ fin)) := by
  rcases List.eq_nil_or_concat ds₁ with rfl | ⟨es, d₁, hconcat⟩
  · cases hvalued
  rw [List.concat_eq_append] at hconcat
  subst hconcat
  obtain ⟨t, hds₁, hd⟩ := Declarations.append_iff.1 hds
  have hvalue := value?_ne_none hds₁ hvalued
  obtain ⟨k, v, ls, t₁, h, hfield, hds₁', -⟩ := exists_assigns hst hds₁ hvalue
  obtain ⟨-, rfl⟩ := hds₁'.unique hds₁ rfl
  obtain ⟨w, rfl⟩ : ∃ w, v = w ++ t₁ := ⟨_, (Literal.lossless_body _ _ _ _ _ h.value).symm⟩
  cases hd with
  | @cons _ _ t' _ ss p _ hsep hname hds₂ =>
    obtain ⟨-, ns, -, hn⟩ := newline_of_finish hfin hended
    have ht' := hds₂.text_of_finish hfin
    obtain ⟨y, rfl⟩ := (h.walk he).suffix
    have ha : Token.textAll (st ++ Declarations.tokens (es ++ [d₁])) = y ++ '=' :: w := by
      have htext := (arrayReaders_lossless e).start .ARG _ _ _ hst
      rw [← hds₁.text_append, ← List.append_assoc, ← Token.textAll_append] at htext
      exact List.append_cancel_right (htext.trans (by simp))
    rw [Token.textAll_append, ha, ht'] at hst'
    rw [ha, ht']
    -- the declarations that are read again, and the one with the value among them
    simp only [Declarations.fields, List.map_append, List.append_assoc, List.map_cons,
      List.singleton_append] at hfields
    obtain ⟨es', _, rfl, hes', hrest⟩ := List.map_eq_append_iff.1 hfields
    obtain ⟨d', ds₂', rfl, hd', hds₂'⟩ := List.map_eq_cons_iff.1 hrest
    have hlen : es.length = es'.length := by simpa using (congrArg List.length hes').symm
    have hvalue' : d'.2.value? ≠ none := by
      rw [show d'.2.value? = d₁.2.value? from congrArg Prod.snd hd']
      exact hvalue
    obtain ⟨k', v', ls', n, h', hfield', -, hrest'⟩ := exists_assigns hst' hds' hvalue'
    have hvalues : Literal.valueOf ls' = Literal.valueOf ls := by
      rw [hfield, hfield'] at hd'
      exact Option.some.inj (congrArg Prod.snd hd')
    have hlen' : ds₂.length = ds₂'.length := by simpa using (congrArg List.length hds₂').symm
    exact detached_of_assigns he h (exists_cons_of_separator hsep) hds₂ hn h' hrest' hfin'
      hended' hlen
      hlen' hvalues

/-- Behind the keyword of a `FROM`, its flag and separators, the image is read from `v` up to
`r`. -/
structure Images (e : Char) (s v : Text) (ls : List Token) (r : Text) : Prop where
  read : ∃ st m fs m₁ ss, start Keyword.FROM.name s = .ok st m ∧ KeyValue.oneFlag e m = .ok fs m₁ ∧
    separator e m₁ = .ok ss v
  value : Literal.body .word e v = .ok ls r

namespace Images

variable {e : Char} {a b s t t' v v' w r r' : Text} {ls ls' : List Token}

theorem walk (h : Images e s v ls r) (he : IsEscape e) : Walk e false s v := by
  obtain ⟨st, m, fs, m₁, ss, hst, hfs, hss⟩ := h.read
  have hw := argumentReaders_walks he false
  exact (hw.start .FROM _ _ _ hst).trans
    ((hw.optional (hw.argument hw.flag) _ _ _ hfs).trans (hw.separator _ _ _ hss))

theorem walk_value (h : Images e s v ls r) (he : IsEscape e) : Walk e false s r := by
  obtain ⟨ps, hps, -⟩ := (Literal.body_of_trimsEnd rfl).1 h.value
  exact (h.walk he).trans (hps.walk he (absurd · (by decide)))

/-- With another text behind, the image is where it was. -/
theorem aligned (h : Images e (a ++ t) (w ++ t) ls (b ++ t)) (h' : Images e (a ++ t') v' ls' r')
    (he : IsEscape e) (hs : Swaps e a t t') : v' = w ++ t' := by
  obtain ⟨st, m, fs, m₁, ss, hst, hfs, hss⟩ := h.read
  obtain ⟨st', m', fs', m₁', ss', hst', hfs', hss'⟩ := h'.read
  have hreaders := arrayReaders_lossless e
  obtain ⟨hne, hescape⟩ := word_ne h.value he hs
  -- the parts before the image begin before the text that is behind them
  obtain ⟨z, rfl⟩ : ∃ z, m₁ = z ++ t :=
    ⟨Token.textAll ss ++ w, by rw [List.append_assoc, hreaders.separator _ _ _ hss]⟩
  have hfs_text := hreaders.optional (hreaders.argument hreaders.flag) _ _ _ hfs
  obtain ⟨q, rfl⟩ : ∃ q, m = q ++ t := ⟨Token.textAll fs ++ z, by rw [List.append_assoc, hfs_text]⟩
  have hst_text := hreaders.start .FROM _ _ _ hst
  rw [← List.append_assoc] at hfs_text hst_text
  have hq : Swaps e q t t' := Swaps.of_append (List.append_cancel_right hst_text ▸ hs)
  have hz : Swaps e z t t' := Swaps.of_append (List.append_cancel_right hfs_text ▸ hq)
  cases (start_swap he hs hst).symm.trans hst'
  cases (KeyValue.oneFlag_swap he hq hfs hss hne hescape).symm.trans hfs'
  cases (hz.separator he hne hescape hss).symm.trans hss'
  rfl

/-- A carriage return at the end of an image is lost before a line feed. -/
theorem value_ne (h : Images e (a ++ '\r' :: t) (w ++ '\r' :: t) ls t) (ht : t.head? ≠ some '\n')
    (h' : Images e (a ++ ['\r', '\n']) v' ls' (b ++ ['\r', '\n']))
    (hb : ∀ c ∈ b, isBlank c = true) (he : IsEscape e) :
    Literal.valueOf ls' ≠ Literal.valueOf ls := by
  obtain ⟨w', rfl⟩ : ∃ w', v' = w' ++ ['\r', '\n'] :=
    ⟨Token.textAll ls' ++ b, by rw [List.append_assoc, Literal.lossless_body _ _ _ _ _ h'.value]⟩
  obtain rfl := List.append_cancel_right (h'.aligned h he (.carriage e a ht))
  exact Literal.valueOf_ne_of_carriage rfl ⟨rfl, rfl⟩ rfl he ht h.value h'.value hb

/-- Before an empty line the image ends neither with an escaped blank nor with a continuation. -/
theorem line {y : Text} {c : Char} {ns : List Token}
    (h : Images e (y ++ (w ++ [c] ++ t)) (w ++ [c] ++ t) ls t) (he : IsEscape e) (ht : ¬ Broken t)
    (hclosed : Closed e (y ++ (w ++ [c]) ++ t'))
    (ht' : newline (t'.dropWhile isBlank) = .ok ns []) :
    (isBlank c || c == '\n') = false := by
  obtain ⟨ps, hps, -⟩ := (Literal.body_of_trimsEnd rfl).1 h.value
  exact hps.getLast?_of_closed he ⟨rfl, rfl⟩ rfl ht (h.walk he) (by simpa using hclosed) ht'
    List.getLast?_concat

/-- Before a line feed an image that stays the same does not end with a carriage return. -/
theorem feed {y : Text} {c : Char} {ns : List Token}
    (h : Images e (y ++ (w ++ [c] ++ t)) (w ++ [c] ++ t) ls t) (he : IsEscape e)
    (ht : t.head? ≠ some '\n') (h' : Images e (y ++ (w ++ [c]) ++ ['\n']) v' ls' r')
    (hr' : newline (r'.dropWhile isBlank) = .ok ns [])
    (hvalue : Literal.valueOf ls' = Literal.valueOf ls) : c ≠ '\r' := by
  rintro rfl
  obtain ⟨b, rfl, hb⟩ := Walk.exists_blanks (x := y ++ w) (by simpa using h'.walk_value he) hr'
  exact value_ne (a := y ++ w) (by simpa using h) ht (by simpa using h') hb he hvalue

end Images

/-- If an image is read as it was without the text `t` between it and a line end, then the line
end is detached from the image. -/
theorem detached_of_images {e : Char} {y w t t' v r : Text} {ls ls' fin ns : List Token}
    (he : IsEscape e) (h : Images e (y ++ (w ++ t)) (w ++ t) ls t)
    (ht : ∃ c x, t = c :: x ∧ (isBlank c = true ∨ c = e))
    (hn : newline (t'.dropWhile isBlank) = .ok ns []) (h' : Images e (y ++ w ++ t') v ls' r)
    (hfin : finish e r = .ok fin []) (hended : Token.lineStateAll fin .within = .ended)
    (hvalue : Literal.valueOf ls' = Literal.valueOf ls) : Detached e (y ++ w) t' := by
  obtain ⟨d, x, rfl, hd⟩ := ht
  obtain ⟨hbroken, hhead⟩ := not_broken_of_gap he hd x
  have hclosed := closed_of_finish he (h'.walk_value he) hfin hended
  obtain ⟨hne, -⟩ := word_ne (z := []) h.value he
    (.of_gap he ⟨d, x, rfl, hd⟩ (.gap hd) nofun nofun : Swaps e [] (d :: x) (d :: x))
  obtain ⟨w, c, hw⟩ := (List.eq_nil_or_concat w).resolve_left hne
  rw [List.concat_eq_append] at hw
  subst hw
  have hlast : (y ++ (w ++ [c])).getLast? = some c := by
    rw [← List.append_assoc, List.getLast?_concat]
  refine ⟨fun hline => ?_, fun hreturn hfeed => ?_, Literal.isSilent_of_newline he hn⟩
  · rw [hlast, Option.any_some, h.line he hbroken hclosed hn] at hline
    cases hline
  · obtain ⟨k, rfl⟩ := List.head?_eq_some_iff.1 hfeed
    obtain rfl := eq_nil_of_newline hn
    obtain ⟨-, ns', -, hn'⟩ := newline_of_finish hfin hended
    exact h.feed he hhead h' hn' hvalue (Option.some.inj (hlast.symm.trans hreturn))

/-- If a `FROM` is read without the name of its stage with the image as it was, then what was
behind the name is detached from the image. -/
theorem detached_of_naming {e : Char} {s m m₁ m₂ t r v r' : Text}
    {st fs ss ls ns fin ls' fin' : List Token} (he : IsEscape e)
    (hst : start Keyword.FROM.name s = .ok st m) (hfs : KeyValue.oneFlag e m = .ok fs m₁)
    (hss : separator e m₁ = .ok ss m₂) (hls : Literal.body .word e m₂ = .ok ls t)
    (hns : naming e t = .ok ns r) (hfin : finish e r = .ok fin [])
    (hended : Token.lineStateAll fin .within = .ended)
    (h' : Images e (Token.textAll (st ++ fs ++ ss ++ [.node (.literal true) ls] ++ fin)) v ls' r')
    (hfin' : finish e r' = .ok fin' []) (hended' : Token.lineStateAll fin' .within = .ended)
    (hvalue : Literal.valueOf ls' = Literal.valueOf ls) :
    Detached e (Token.textAll (st ++ fs ++ ss ++ [.node (.literal true) ls]))
      (Token.textAll fin) := by
  have h : Images e s m₂ ls t := ⟨⟨st, m, fs, m₁, ss, hst, hfs, hss⟩, hls⟩
  obtain ⟨-, ns', -, hn⟩ := newline_of_finish hfin hended
  have hr := text_of_finish hfin
  obtain ⟨_, _, _, hname, -, -⟩ := seq_eq_ok.1 hns
  obtain ⟨_, _, _, hsep, -, -⟩ := seq_eq_ok.1 (argument_eq_ok.1 hname)
  have hreaders := arrayReaders_lossless e
  obtain rfl := hreaders.start .FROM _ _ _ hst
  obtain rfl := hreaders.optional (hreaders.argument hreaders.flag) _ _ _ hfs
  obtain rfl := hreaders.separator _ _ _ hss
  obtain rfl := Literal.lossless_body _ _ _ _ _ hls
  have htext : Token.textAll (st ++ fs ++ ss ++ [.node (.literal true) ls]) =
      Token.textAll (st ++ fs ++ ss) ++ Token.textAll ls := by
    simp [Token.textAll, Token.text]
  rw [Token.textAll_append, htext, hr] at h'
  rw [htext, hr]
  exact detached_of_images he (by simpa using h) (exists_cons_of_separator hsep) hn h' hfin' hended'
    hvalue

end Instruction

end Containerfile
