import Containerfile.Proofs.Fronts

/-!
# Instructions that take up their line

An instruction is read up to the end of its line.  Where the text of a line can be walked to its
line end, what is read as an instruction there takes up all of the line, and has the line end for
its own.

A command is read whatever the rest of its line is: an array, or else the line as it stands.

## Main results

* `Closed.eq_nil_of_walk` — a closed line that is walked to its line end has nothing behind it.
* `Instruction.read_of_walk`, `Instruction.read_of_walk_nil` — an instruction takes up its line.
* `Instruction.exists_command` — there is a command in every line.
-/

namespace Containerfile

open Grammar Lexeme

/-! ## Instructions that take up their line -/

/-- A line is closed whatever is behind it. -/
theorem Closed.append {e : Char} {p : Text} (h : Closed e p) (he : IsEscape e) (x : Text) :
    Closed e (p ++ x) := by
  induction h with
  | @lineEnd c s hend =>
    have hclosed : Closed e (c :: s) := .lineEnd hend
    exact .lineEnd ((Text.atLineEnd_append hclosed.hasNewline x).trans hend)
  | plain hc _ ih => exact .plain hc ih
  | @pair d s hc hs ih =>
    exact .pair ((refuses_continuation he.ne_newline (e :: d :: s) x
      ((hs.hasNewline.cons d).cons e)).2 hc) ih
  | continuation hc hr ih =>
    exact .continuation ((stable_continuation he.ne_newline _ x _ _ hr.hasNewline).2 hc) ih

/-- A closed line that is walked to its line end has nothing behind it. -/
theorem Closed.eq_nil_of_walk {e : Char} {p x nl : Text} {ns : List Token} (hp : Closed e p)
    (he : IsEscape e) (hw : Walk e false (p ++ x) nl) (hn : newline nl = .ok ns []) : x = [] := by
  generalize hs : p ++ x = s at hw
  induction hw generalizing p with
  | refl s =>
    subst hs
    have hreturn : p ≠ ['\r'] := by
      rintro rfl
      have hmem := hp.hasNewline
      simp [HasNewline] at hmem
    obtain ⟨z, -, hnil⟩ := (newline_append_iff hp.ne_nil (absurd · hreturn)).1 hn
    exact (List.append_eq_nil_iff.1 hnil.symm).2
  | @plain c s r hc hend _ ih =>
    obtain ⟨d, p, rfl⟩ := List.exists_cons_of_ne_nil hp.ne_nil
    obtain ⟨rfl, rfl⟩ := List.cons.inj hs
    have hend' : Text.atLineEnd ((d :: p) ++ x) = false := hend
    rw [Text.atLineEnd_append hp.hasNewline] at hend'
    exact ih (hp.tail hc hend') hn rfl
  | @pair c d s r hc _ _ ih =>
    obtain ⟨rfl, hstuck⟩ := hc.resolve_right fun hc => Bool.false_ne_true hc.2.2
    cases hp with
    | lineEnd hline =>
      obtain ⟨rfl, -⟩ := List.cons.inj hs
      rw [Text.atLineEnd_eq_false he.isLineBreak] at hline
      cases hline
    | plain hne _ =>
      obtain ⟨rfl, -⟩ := List.cons.inj hs
      exact absurd rfl hne
    | pair _ hrest =>
      obtain ⟨-, heq⟩ := List.cons.inj hs
      exact ih hrest hn (List.cons.inj heq).2
    | continuation hcont hrest =>
      have hok := (stable_continuation he.ne_newline _ x _ _ hrest.hasNewline).2 hcont
      rw [hs] at hok
      obtain ⟨m, hm⟩ := hstuck
      rw [hok] at hm
      cases hm
  | lone =>
    obtain ⟨d, p, rfl⟩ := List.exists_cons_of_ne_nil hp.ne_nil
    obtain ⟨rfl, hnil⟩ := List.cons.inj hs
    exact (List.append_eq_nil_iff.1 hnil).2
  | @continuation s m r ts hc _ ih =>
    subst hs
    have hiff := stable_continuation he.ne_newline p x
    have hstuck := refuses_continuation he.ne_newline p x hp.hasNewline
    obtain ⟨us, k, hk⟩ : ∃ us k, Lexeme.continuation e p = .ok us k := by
      rcases continuation_eq_ok_or_stuck e p with hok | hno
      · exact hok
      · obtain ⟨k, hk⟩ := hstuck.2 hno
        rw [hc] at hk
        cases hk
    have hclosed := hp.of_continuation hk he.isLineBreak
    cases hc.symm.trans ((hiff _ _ hclosed.hasNewline).2 hk)
    exact ih hclosed hn rfl

namespace Lexeme

variable {e : Char} {m nl : Text} {fin us : List Token}

theorem walk_of_gaps (he : IsEscape e) (h : many (gap e) m = .ok us nl) (json : Bool) :
    Walk e json m nl :=
  have hw := argumentReaders_walks he json
  hw.many (hw.either hw.blanks hw.continuation) _ _ _ h

theorem eq_of_gaps_nil (h : many (gap e) m = .ok [] nl) : m = nl := by
  have hl := arrayReaders_lossless e
  exact (hl.many (hl.either hl.blanks hl.continuation) _ _ _ h).symm

/-- Separators that begin with no blank begin with a continuation. -/
theorem exists_continuation_of_gaps (h : many (gap e) m = .ok us nl) (hus : us ≠ [])
    (hm : m.head?.any isBlank = false) : ∃ ts k vs, continuation e m = .ok ts k ∧
      many (gap e) k = .ok vs nl ∧ us = ts ++ vs := by
  induction m, us, nl, h using gaps_induction with
  | nil => exact absurd rfl hus
  | blanks c b m vs r hall =>
    have hc := hall c List.mem_cons_self
    rw [List.head?_cons, Option.any_some, hc] at hm
    cases hm
  | continuation s ts m vs r hc hvs => exact ⟨ts, m, vs, hc, hvs, rfl⟩

/-- What ends an instruction without a line end takes the text to its end. -/
theorem gaps_of_finish (he : IsEscape e) (h : finish e m = .ok fin [])
    (hend : Token.lineStateAll fin .within ≠ .ended) : ∃ us, many (gap e) m = .ok us [] := by
  obtain ⟨us, k, hus, ⟨rfl, -, -⟩ | ⟨ns, hn, rfl⟩⟩ := finish_eq_ok.1 h
  · exact ⟨us, hus⟩
  · exact absurd (lineCut_of_newline he hus hn).1 hend

end Lexeme

namespace Instruction

variable {e : Char} {k : Keyword} {u r nl : Text} {ts ns : List Token} {j : Instruction}

/-- Arguments in a line that has an end are ended there. -/
theorem ended_of_arguments (he : IsEscape e) {g : Grammar} (hg : ArgumentGrammar e g)
    (hs : Settled g) (h : (g ++ finish e) u = .ok ts []) (hclosed : Closed e u) :
    Token.lineStateAll ts .within = .ended := by
  obtain ⟨us, fin, m, hus, hfin, rfl⟩ := seq_eq_ok.1 h
  rw [Token.lineStateAll_append, hs _ _ _ hus]
  by_contra hend
  obtain ⟨vs, hvs⟩ := gaps_of_finish he hfin hend
  have hwalk := (hg _ (argumentReaders_walks he false) _ _ _ hus).trans (walk_of_gaps he hvs false)
  exact (hclosed.walk he hwalk).ne_nil rfl

/-- An array in a line that has an end is ended there. -/
theorem ended_of_bracketed (he : IsEscape e) {g : Grammar} (hg : Bracketed e g)
    (h : (opening e k ++ g ++ finish e) u = .ok ts []) (hw : Walk e false u nl)
    (hn : newline nl = .ok ns []) : Token.lineStateAll ts .within = .ended := by
  obtain ⟨_, fin, m, hcontent, hfin, rfl⟩ := seq_eq_ok.1 h
  obtain ⟨os, ws, a, ho, hws, rfl⟩ := seq_eq_ok.1 hcontent
  rw [Token.lineStateAll_append, Token.lineStateAll_append, hg.settled _ _ _ hws]
  by_contra hend
  obtain ⟨vs, hvs⟩ := gaps_of_finish he hfin hend
  -- the line end would be a part of the separators behind the bracket
  have hbracket := ((argumentReaders_walks he true).opening k _ _ _ ho).trans (hg.walk hws)
  obtain ⟨p, hp⟩ := hbracket.suffix
  have hlast : u.getLast? = some '\n' := by
    obtain ⟨x, rfl⟩ := hw.suffix
    obtain ⟨q, rfl, -⟩ := newline_shape hn
    simp
  obtain ⟨l, c, b, w, hs, hb, hcontinued, hc⟩ := exists_continued_of_bracket he hvs (hp ▸ hlast)
  have hs' : u = l ++ c :: b ++ e :: (w ++ []) := by rw [hp, hs, List.append_nil]
  exact hw.not_continued he hn hs' (last_ne_escape he hb (hc.imp_left And.right)) hcontinued
    (Nat.le_refl _) (Nat.zero_le _)

/-- An instruction whose text is walked to the line end takes up its line. -/
theorem read_of_walk (he : IsEscape e) (h : read e u = .ok j r) (hform : j.form ≠ .onBuild)
    (hw : Walk e false u nl) (hn : newline nl = .ok ns []) : r = [] ∧ j.endsLine = true := by
  rcases read_cases he h with ⟨hend, p, hcut⟩ | ⟨hend, rfl⟩
  · exact ⟨hcut.closed.eq_nil_of_walk he (hcut.eq ▸ hw) hn, hend⟩
  · obtain ⟨k, ts, -, hbody, rfl⟩ := read_eq_ok.1 h
    have hk : k ≠ .ONBUILD := by
      rintro rfl
      exact hform rfl
    obtain ⟨g, hg, heq⟩ := exists_shape e (read e) hk
    rw [heq] at hbody
    have hclosed : Closed e u := .of_walk hw (.of_newline hn)
    suffices hended : Token.lineStateAll ts .within = .ended from
      ⟨rfl, beq_iff_eq.2 hended⟩
    cases hg with
    | plain _ hg hs => exact ended_of_arguments he hg hs hbody hclosed
    | array _ what => exact ended_of_bracketed he (bracketed_required he what false) hbody hw hn
    | @choice references g _ hg hs =>
      obtain ⟨_, fin, m, hcontent, hfin, rfl⟩ := seq_eq_ok.1 hbody
      obtain ⟨os, ws, a, ho, hws, rfl⟩ := seq_eq_ok.1 hcontent
      rcases either_eq_ok.1 hws with hws | ⟨-, hws⟩
      · exact ended_of_bracketed he (bracketed_wholeArray he references)
          (seq_eq_ok.2 ⟨_, fin, m, seq_eq_ok.2 ⟨os, ws, a, ho, hws, rfl⟩, hfin, rfl⟩) hw hn
      · have hg' : ArgumentGrammar e (opening e k ++ g) := fun P h => h.seq (h.opening k) (hg P h)
        exact ended_of_arguments he hg' hs.seq
          (seq_eq_ok.2 ⟨_, fin, m, seq_eq_ok.2 ⟨os, ws, a, ho, hws, rfl⟩, hfin, rfl⟩) hclosed

/-- An instruction whose text is walked to its end takes it up. -/
theorem read_of_walk_nil (he : IsEscape e) (h : read e u = .ok j r) (hw : Walk e false u []) :
    r = [] := by
  rcases read_cases he h with ⟨-, p, hcut⟩ | ⟨-, hr⟩
  · have hclosed : Closed e u := by
      rw [hcut.eq]
      exact hcut.closed.append he r
    exact absurd rfl (hclosed.walk he hw).ne_nil
  · exact hr

end Instruction

/-! ## Lines -/

namespace Literal

variable {e : Char}

/-- A line is read up to its end, whatever is in it. -/
theorem exists_scans_line (he : IsEscape e) (s : Text) :
    ∃ ps m, Scans e lineStyle none s ps m ∧ m.atLineEnd = true ∧
      ∀ c, Piece.blank c ∈ ps → isBlank c = true := by
  induction hlen : s.length using Nat.strongRecOn generalizing s with
  | ind n ih =>
    subst hlen
    have htake {ps : List Piece} {m : Text} (hstep : step lineStyle e none s = .take ps none m)
        (hlt : m.length < s.length) (hps : ∀ c, Piece.blank c ∈ ps → isBlank c = true) :
        ∃ ps m, Scans e lineStyle none s ps m ∧ m.atLineEnd = true ∧
          ∀ c, Piece.blank c ∈ ps → isBlank c = true := by
      obtain ⟨qs, k, hqs, hk, hblank⟩ := ih _ hlt m rfl
      exact ⟨_, k, .take hstep hqs, hk, fun c hc => (List.mem_append.1 hc).elim (hps c) (hblank c)⟩
    by_cases hend : s.atLineEnd = true
    · exact ⟨[], s, .stop (step_atLineEnd he hend), hend, nofun⟩
    rw [Bool.not_eq_true] at hend
    cases s with
    | nil => cases hend
    | cons c s =>
      by_cases hc : c = e
      · subst hc
        rcases continuation_eq_ok_or_stuck c (c :: s) with ⟨ts, m, hm⟩ | ⟨m, hm⟩
        · exact htake (step_of_continuation hm) (advances_continuation c _ _ _ hm) (by simp)
        · have hstep : step lineStyle c none (c :: s) = stepEscaped none c s := by
            simp [step, stepEscape, hm]
          cases s with
          | nil => exact htake hstep (by simp) (by simp)
          | cons d s =>
            by_cases hd : Text.atLineEnd (d :: s) = true
            · exact htake (m := d :: s) (by simpa [stepEscaped, hd] using hstep) (by simp) (by simp)
            · exact htake (m := s) (by simpa [stepEscaped, hd] using hstep)
                (Nat.lt_succ_of_lt (Nat.lt_succ_self _)) (by simp)
      · refine htake (step_line_char hend hc) (by simp) fun d hd => ?_
        unfold charPiece at hd
        split at hd
        · rename_i hblank
          obtain rfl : d = c := by simpa using hd
          exact hblank
        · simp at hd

/-- A line that begins with no blank is read, with what ends it. -/
theorem exists_line (he : IsEscape e) {s : Text} (hs : s.atLineEnd = false)
    (hblank : s.head?.any isBlank = false) :
    ∃ ls r fin r', body lineStyle e s = .ok ls r ∧ finish e r = .ok fin r' := by
  obtain ⟨ps, m, hps, hm, hblanks⟩ := exists_scans_line he s
  have hcut : ∀ c ∈ (trimEnd ps).2, isBlank c = true := fun c hc =>
    hblanks c (blank_mem_of_mem_trimEnd hc)
  have hkept : assemble (trimEnd ps).1 ≠ [] := by
    intro hnil
    have hsource : sourceOf (trimEnd ps).1 = [] := by rw [← textAll_assemble, hnil]; rfl
    have htext : (trimEnd ps).2 ++ m = s := by
      rw [← hps.sourceOf_append_eq, ← sourceOf_trimEnd, hsource, List.nil_append]
    cases hempty : (trimEnd ps).2 with
    | nil =>
      rw [hempty, List.nil_append] at htext
      rw [htext, hs] at hm
      cases hm
    | cons c b =>
      rw [← htext, hempty, List.cons_append, List.head?_cons, Option.any_some,
        hcut c (by rw [hempty]; exact List.mem_cons_self)] at hblank
      cases hblank
  have hgap : ∃ k, gap e m = .stuck k := by
    rw [gap_stuck_iff, continuation_stuck_iff]
    cases m with
    | nil =>
      refine ⟨rfl, ?_⟩
      rintro ⟨ts, r, hr⟩
      obtain ⟨x, hx⟩ := eq_cons_of_continuation hr
      cases hx
    | cons c m =>
      have hbreak : isLineBreak c = true := by
        rcases Text.atLineEnd_cons.1 hm with rfl | ⟨rfl, -⟩ <;> rfl
      refine ⟨Bool.eq_false_iff.2 fun hc => ?_, ?_⟩
      · have hno := isLineBreak_of_isBlank (by simpa using hc)
        rw [hbreak] at hno
        cases hno
      · rintro ⟨ts, r, hr⟩
        obtain ⟨x, hx⟩ := eq_cons_of_continuation hr
        obtain ⟨rfl, -⟩ := List.cons.inj hx
        rw [he.isLineBreak] at hbreak
        cases hbreak
  have hfin : ∃ fin r', finish e ((trimEnd ps).2 ++ m) = .ok fin r' := by
    have hgaps := gaps_of_blanks hcut hgap
    cases m with
    | nil => exact ⟨_, _, finish_eq_ok.2 ⟨_, _, hgaps, .inl ⟨rfl, rfl, rfl⟩⟩⟩
    | cons c m =>
      obtain ⟨ns, r, hn⟩ := newline_of_atLineEnd hm
      exact ⟨_, _, finish_eq_ok.2 ⟨_, _, hgaps, .inr ⟨ns, hn, rfl⟩⟩⟩
  obtain ⟨fin, r', hfin⟩ := hfin
  exact ⟨_, _, fin, r', body_eq_ok.2 ⟨ps, m, hps, rfl, rfl, .inl hkept⟩, hfin⟩

end Literal

namespace Instruction

variable {e : Char} {s k : Text} {ss : List Token}

/-- Behind separators there is always a command, unless the line ends there. -/
theorem exists_command (he : IsEscape e) (hsep : separator e s = .ok ss k)
    (hk : k.atLineEnd = false) : ∃ ts r, (commandArguments e ++ finish e) s = .ok ts r := by
  have hstuck := stuck_of_many (advances_gap e) _ _ _ (separator_eq_ok.1 hsep).1
  cases harray : wholeArray e false s with
  | ok ws m =>
    have hfin : ∃ fin r, finish e m = .ok fin r := by
      rcases atFinish_cases he (wholeArray_eq_ok.1 harray).2 with ⟨fin, r, hfin, -⟩ | ⟨us, hus⟩
      · exact ⟨fin, r, hfin⟩
      · exact ⟨us, [], finish_eq_ok.2 ⟨us, [], hus, .inl ⟨rfl, rfl, rfl⟩⟩⟩
    obtain ⟨fin, r, hfin⟩ := hfin
    exact ⟨_, r, seq_eq_ok.2 ⟨ws, fin, m, either_eq_ok.2 (.inl harray), hfin, rfl⟩⟩
  | stuck m =>
    obtain ⟨ls, m', fin, r, hls, hfin⟩ := Literal.exists_line he hk (gap_stuck_iff.1 hstuck).1
    have hline : lineArgument e "command" s = .ok (ss ++ [.node (.literal false) ls]) m' :=
      required_eq_ok.2 (seq_eq_ok.2 ⟨ss, _, k, hsep, node_eq_ok.2 ⟨ls, hls, rfl⟩, rfl⟩)
    exact ⟨_, r, seq_eq_ok.2 ⟨_, fin, m', either_eq_ok.2 (.inr ⟨⟨m, harray⟩, hline⟩), hfin, rfl⟩⟩
  | failed f => exact absurd harray (unfailing_wholeArray e false s f)

end Instruction

end Containerfile
