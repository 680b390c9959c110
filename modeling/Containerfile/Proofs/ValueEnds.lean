import Containerfile.Proofs.CreatedStages
import Mathlib.Data.List.DropRight

/-!
# Where a value ends in its line

A value that is read to its end when it stands alone need not end where it is put before other text.
Three things can be behind it, and each meets the last characters of the value in its own way.

* Nothing: it ends with the text.
* Blanks and the end of the line: it takes the line end, and goes on in the next line, exactly if
  it ends with an escaping character, with a line feed of its own, or in a comment.  Blanks at its
  end do not matter.
* One more argument, behind a separator: it takes a part of that exactly if it ends with an escaping
  character, or in a comment that goes on there.

## Main definitions

* `Text.runsOn` — a value that goes on in the next line.
* `StaysApart` — a value stays apart from the text behind it.

## Main results

* `Walk.before_line` — what is left of a value and the line end behind it.
* `StaysApart.walk`, `Literal.scans_of_staysApart` — a value that stays apart is left, and read,
  as if it stood alone.
-/

namespace Containerfile

open Grammar Lexeme

namespace Text

variable {e : Char} {p s t : Text}

/-- Whether a value that is followed by a line end goes on in the next line: it ends with an
escaping character or with a line feed, blanks aside, or in a comment. -/
def runsOn (e : Char) (v : Text) : Bool :=
  escapesNext e (v.rdropWhile isBlank) || (v.rdropWhile isBlank).getLast? == some '\n' ||
    v.opensComment []

/-! ## Blanks at the end -/

theorem rdropWhile_append (hs : s.rdropWhile isBlank ≠ []) :
    (p ++ s).rdropWhile isBlank = p ++ s.rdropWhile isBlank := by
  unfold List.rdropWhile at hs ⊢
  rw [List.reverse_append, List.dropWhile_append, if_neg (by simpa using hs), List.reverse_append,
    List.reverse_reverse]

theorem rdropWhile_append_blank (hs : s.rdropWhile isBlank = []) :
    (p ++ s).rdropWhile isBlank = p.rdropWhile isBlank := by
  unfold List.rdropWhile at hs ⊢
  rw [List.reverse_append, List.dropWhile_append, if_pos (by simpa using hs)]

theorem rdropWhile_of_getLast? {c : Char} (h : s.getLast? = some c) (hc : isBlank c = false) :
    s.rdropWhile isBlank = s := by
  obtain ⟨p, rfl⟩ := List.getLast?_eq_some_iff.1 h
  exact List.rdropWhile_concat_neg _ _ _ (by simp [hc])

/-! ## Steps of a value that goes on -/

theorem runsOn_iff : runsOn e s = true ↔ escapesNext e (s.rdropWhile isBlank) = true ∨
    (s.rdropWhile isBlank).getLast? = some '\n' ∨ s.opensComment [] = true := by
  simp [runsOn, or_assoc]

theorem runsOn_cons {c : Char} (hc : c ≠ e) (hline : c ≠ '\n') (s : Text) :
    runsOn e (c :: s) = runsOn e s := by
  have hopen : opensComment (c :: s) [] = opensComment s [] := by
    simp [opensComment, beq_eq_false_iff_ne.2 hline]
  unfold runsOn
  rw [hopen]
  by_cases hs : s.rdropWhile isBlank = []
  · have hlast : List.rdropWhile isBlank (c :: s) = List.rdropWhile isBlank [c] :=
      rdropWhile_append_blank (p := [c]) hs
    rw [hlast, hs, List.rdropWhile_singleton]
    split
    · rfl
    · simp [escapesNext, hc, hline]
  · have hcons : List.rdropWhile isBlank (c :: s) = c :: s.rdropWhile isBlank :=
      rdropWhile_append (p := [c]) hs
    rw [hcons, escapesNext_cons hc, List.getLast?_cons_of_ne_nil hs]

theorem runsOn_pair {d : Char} (he : IsEscape e) (hline : d ≠ '\n')
    (hs : (d :: s).rdropWhile isBlank ≠ []) : runsOn e (e :: d :: s) = runsOn e s := by
  have hopen : opensComment (e :: d :: s) [] = opensComment s [] := by
    have hd : (d == '\n') = false := by simpa using hline
    have hescape : (e == '\n') = false := by simpa using he.ne_newline
    simp [opensComment, hd, hescape]
  have hfirst : List.rdropWhile isBlank (e :: d :: s) = e :: List.rdropWhile isBlank (d :: s) :=
    rdropWhile_append (p := [e]) hs
  unfold runsOn
  rw [hopen, hfirst]
  by_cases hblank : s.rdropWhile isBlank = []
  · have hd : List.rdropWhile isBlank (d :: s) = [d] := by
      have hsingle : List.rdropWhile isBlank (d :: s) = List.rdropWhile isBlank [d] :=
        rdropWhile_append_blank (p := [d]) hblank
      rw [hsingle, List.rdropWhile_singleton] at hs ⊢
      split at hs
      · exact absurd rfl hs
      · rename_i hd
        rw [if_neg hd]
    rw [hd, hblank]
    simp [escapesNext, hline]
  · have hcons : List.rdropWhile isBlank (d :: s) = d :: s.rdropWhile isBlank :=
      rdropWhile_append (p := [d]) hblank
    rw [hcons, escapesNext_pair, List.getLast?_cons_cons,
      List.getLast?_cons_of_ne_nil hblank]

theorem runsOn_escape (he : IsEscape e) (hs : s.rdropWhile isBlank = []) :
    runsOn e (e :: s) = true := by
  have hlast : List.rdropWhile isBlank ([e] ++ s) = [e] := by
    rw [rdropWhile_append_blank hs, List.rdropWhile_singleton,
      if_neg (by rcases he with rfl | rfl <;> decide)]
  have hescape : escapesNext e (List.rdropWhile isBlank (e :: s)) = true := by
    rw [← List.singleton_append, hlast]
    simp [escapesNext]
  exact runsOn_iff.2 (.inl hescape)

/-- Only a text that begins with a comment can make one of the last line before it. -/
theorem opensComment_eq (ht : (t.dropWhile isBlank).head? ≠ some '#') :
    s.opensComment t = s.opensComment [] :=
  opensComment_congr ⟨fun h => absurd h ht, nofun⟩

/-- What does not go on in the next line is kept apart from what is behind it in its own line. -/
theorem endsBefore_of_runsOn (h : runsOn e s = false) (ht : (t.dropWhile isBlank).head? ≠ some '#')
    (he : IsEscape e) : EndsBefore e s t := by
  rw [← Bool.not_eq_true, runsOn_iff, not_or, not_or] at h
  obtain ⟨hescape, -, hopen⟩ := h
  constructor
  · by_cases hblank : ∃ c, s.getLast? = some c ∧ isBlank c = true
    · obtain ⟨c, hc, hblank⟩ := hblank
      exact escapesNext_of_getLast? hc (he.ordinary (by decide) c hblank).1
    · have hself : s.rdropWhile isBlank = s := by
        refine List.rdropWhile_eq_self_iff.2 fun hne hc => hblank ⟨_, ?_, hc⟩
        exact List.getLast?_eq_some_getLast hne
      rw [hself] at hescape
      exact Bool.eq_false_iff.2 hescape
  · rw [opensComment_eq ht]
    exact Bool.eq_false_iff.2 hopen

end Text

/-! ## Continuations at the end of a value -/

namespace Lexeme

variable {e : Char} {s l m t : Text} {ts us ns : List Token}

/-- Lines up to the end of a text end with a line feed or with a comment. -/
theorem getLast?_or_opensComment_of_lines (h : lines l = .ok us []) :
    l = [] ∨ l.getLast? = some '\n' ∨ Text.opensComment ('\n' :: l) [] = true := by
  generalize hr : ([] : Text) = r at h
  induction l, us, r, h using advances_filler.many_induction with
  | nil l m _ _ =>
    subst hr
    exact .inl rfl
  | round l vs m ws r hu hm _ ih =>
    subst hr
    obtain ⟨k, rfl, ⟨q, rfl, -⟩ | ⟨hk, hbroken⟩⟩ := filler_shape hu
    · refine .inr ?_
      rcases ih rfl with rfl | hlast | hopen
      · exact .inl (by simp)
      · rw [List.getLast?_append, hlast]
        exact .inl rfl
      · right
        rw [Text.opensComment_iff] at hopen ⊢
        obtain ⟨p, w, heq, hw⟩ := hopen
        exact ⟨'\n' :: q ++ p, w, by simp [heq], hw⟩
    · obtain rfl := eq_of_lines_of_broken hbroken hm
      rw [List.append_nil] at hu ⊢
      obtain ⟨hbreak, hhead⟩ := comment_of_filler hu hk
      exact .inr (.inr (Text.opensComment_iff.2 ⟨[], k, rfl, hbreak, by rwa [List.append_nil]⟩))

/-- A value whose last continuation leaves nothing but blanks goes on in the next line. -/
theorem runsOn_of_continuation (hc : continuation e s = .ok ts m) (hm : m.rdropWhile isBlank = []) :
    s.runsOn e = true := by
  rw [Text.runsOn_iff]
  have hfeed {p : Text} (hp : p.getLast? = some '\n') :
      ((p ++ m).rdropWhile isBlank).getLast? = some '\n' := by
    rw [Text.rdropWhile_append_blank hm, Text.rdropWhile_of_getLast? hp rfl, hp]
  obtain ⟨b, q, l, us, rfl, -, -, hl⟩ := eq_of_continuation hc
  obtain ⟨ls, rfl, hls⟩ := lines_shape hl
  rcases hls with rfl | hlast | rfl | ⟨r, rfl, -⟩
  · exact .inr (.inl (by simpa using hfeed (p := e :: (b ++ q) ++ ['\n']) List.getLast?_concat))
  · refine .inr (.inl ?_)
    have hlast' : (e :: (b ++ q) ++ '\n' :: ls).getLast? = some '\n' := by
      rw [List.append_cons, List.getLast?_append, hlast]
      rfl
    simpa using hfeed hlast'
  · rw [List.append_nil] at hl ⊢
    rcases getLast?_or_opensComment_of_lines hl with rfl | hlast | hopen
    · exact .inr (.inl (by simpa using hfeed (p := e :: (b ++ q) ++ ['\n']) List.getLast?_concat))
    · refine .inr (.inl ?_)
      have hlast' : (e :: (b ++ q) ++ '\n' :: ls).getLast? = some '\n' := by
        rw [List.append_cons, List.getLast?_append, hlast]
        rfl
      simpa using hfeed hlast'
    · refine .inr (.inr ?_)
      rw [Text.opensComment_iff] at hopen ⊢
      obtain ⟨p, w, heq, hw⟩ := hopen
      exact ⟨e :: (b ++ q) ++ p, w, by simp [heq], hw⟩
  · have hblank := List.rdropWhile_eq_nil_iff.1 hm '\r' List.mem_cons_self
    cases hblank

/-- Behind a continuation, a value goes on in the next line exactly if what is left of it does. -/
theorem runsOn_continuation (he : IsEscape e) (hc : continuation e s = .ok ts m)
    (hm : m.rdropWhile isBlank ≠ []) : s.runsOn e = m.runsOn e := by
  obtain ⟨ls, rfl, hshape⟩ := continuation_shape hc
  have hne : m ≠ [] := by
    rintro rfl
    exact hm rfl
  have hbroken : Broken m → ∃ r, m = '\r' :: r := by
    rintro (rfl | ⟨r, rfl, -⟩)
    · exact absurd rfl hne
    · exact ⟨r, rfl⟩
  have hescape : Text.escapesNext e (ls ++ m.rdropWhile isBlank) =
      Text.escapesNext e (m.rdropWhile isBlank) := by
    refine Text.escapesNext_append_of_line he (hshape.imp_right fun hb => ?_)
    obtain ⟨r, rfl⟩ := hbroken hb
    obtain ⟨k, hk⟩ := List.rdropWhile_prefix isBlank (l := '\r' :: r)
    obtain ⟨c, x, hx⟩ := List.exists_cons_of_ne_nil hm
    rw [hx] at hk ⊢
    exact congrArg some (List.cons.inj hk).1
  have hopen : (ls ++ m).opensComment [] = m.opensComment [] := by
    rw [Bool.eq_iff_iff, Text.opensComment_iff, Text.opensComment_iff]
    constructor
    · rintro ⟨p, w, heq, hw, hhead⟩
      rcases List.append_eq_append_iff.1 heq with ⟨x, -, hx⟩ | ⟨x, hls, hx⟩
      · exact ⟨x, w, hx, hw, hhead⟩
      · cases x with
        | nil => exact ⟨[], w, hx.symm, hw, hhead⟩
        | cons c x =>
          -- the comment would begin in the lines of the continuation
          obtain ⟨rfl, rfl⟩ := List.cons.inj hx
          exfalso
          rcases hshape with hlast | hb
          · cases x with
            | nil => exact not_stuck_of_comment (by simpa using hhead) (stuck_of_continuation hc)
            | cons d x =>
              rw [hls] at hlast
              have hmem := List.mem_of_getLast? (Text.getLast?_of_append (a := p ++ ['\n'])
                (by simpa using hlast) (List.cons_ne_nil d x))
              cases hw '\n' (List.mem_append_left m hmem)
          · obtain ⟨r, rfl⟩ := hbroken hb
            cases hw '\r' (by simp)
    · rintro ⟨p, w, rfl, hw, hhead⟩
      exact ⟨ls ++ p, w, by simp, hw, hhead⟩
  have hlast : (ls ++ m.rdropWhile isBlank).getLast? = (m.rdropWhile isBlank).getLast? := by
    rw [List.getLast?_append, Option.or_of_isSome (by simpa using hm)]
  unfold Text.runsOn
  rw [Text.rdropWhile_append hm, hescape, hopen, hlast]

/-- A line with more than blanks is ended where it was, with a line end behind it. -/
theorem newline_dropWhile_append (hs : s.rdropWhile isBlank ≠ [])
    (hfeed : s.getLast? = some '\r' → t.head? ≠ some '\n')
    (h : ∃ ts r, newline ((s ++ t).dropWhile isBlank) = .ok ts r) :
    ∃ ts r, newline (s.dropWhile isBlank) = .ok ts r := by
  have hdrop : s.dropWhile isBlank ≠ [] := fun hnil =>
    hs (List.rdropWhile_eq_nil_iff.2 (List.dropWhile_eq_nil_iff.1 hnil))
  obtain ⟨ts, r, hr⟩ := h
  rw [List.dropWhile_append, if_neg (by simpa using hdrop)] at hr
  have hreturn : s.dropWhile isBlank = ['\r'] → t.head? ≠ some '\n' := fun heq => by
    obtain ⟨b, hb, -⟩ := Text.eq_append_dropWhile isBlank s
    exact hfeed (by rw [hb, heq]; simp)
  obtain ⟨z, hz, -⟩ := (newline_append_iff hdrop hreturn).1 hr
  exact ⟨ts, z, hz⟩

/-- A continuation that leaves more than blanks leaves the line end behind it. -/
theorem continuation_append (hfeed : m.getLast? = some '\r' → t.head? ≠ some '\n')
    (hc : continuation e s = .ok ts m) (hm : m.rdropWhile isBlank ≠ []) :
    continuation e (s ++ t) = .ok ts (m ++ t) := by
  have hstuck : ∃ k, filler (m ++ t) = .stuck k := by
    refine (filler_eq_ok_or_stuck _).resolve_left fun hok => ?_
    obtain ⟨x, hx⟩ := stuck_of_continuation hc
    have hfiller : ∃ vs r, filler m = .ok vs r := by
      rw [exists_filler_iff] at hok ⊢
      refine hok.imp (fun hhead => ?_) (newline_dropWhile_append hm hfeed)
      have hdrop : m.dropWhile isBlank ≠ [] := fun hnil =>
        hm (List.rdropWhile_eq_nil_iff.2 (List.dropWhile_eq_nil_iff.1 hnil))
      rwa [List.dropWhile_append, if_neg (by simpa using hdrop),
        List.head?_append_of_ne_nil _ hdrop] at hhead
    obtain ⟨vs, r, hr⟩ := hfiller
    rw [hr] at hx
    cases hx
  have hbroken : Broken m → Broken (m ++ t) := by
    rintro (rfl | ⟨r, rfl, hend⟩)
    · exact absurd rfl hm
    · refine .inr ⟨r ++ t, rfl, Text.atLineEnd_carriage ?_⟩
      cases r with
      | nil => exact hfeed rfl
      | cons c r =>
        rintro ⟨⟩
        cases hend
  obtain ⟨b, q, l, us, rfl, hb, hq, hl⟩ := eq_of_continuation hc
  obtain ⟨ls, rfl, -⟩ := lines_shape hl
  have hc' := continuation_congr hb hq hc fun us hus => lines_swap hus hstuck hbroken
  simpa using hc'

variable (hn : newline (t.dropWhile isBlank) = .ok ns [])
include hn

theorem fillerLine_of_blank (hm : m.rdropWhile isBlank = []) : FillerLine (m ++ t) := by
  have hline : newline ((m ++ t).dropWhile isBlank) = .ok ns [] := by
    rw [List.dropWhile_append_of_pos (by simpa using List.rdropWhile_eq_nil_iff.1 hm)]
    exact hn
  exact .of_newline hline

/-- A comment goes on up to the line end behind it. -/
theorem fillerLine_of_comment (h : filler l = .ok us []) (hl : '\n' ∉ l) : FillerLine (l ++ t) := by
  obtain ⟨hbreak, hhead⟩ := comment_of_filler h hl
  obtain ⟨w, hw⟩ := List.head?_eq_some_iff.1 hhead
  obtain ⟨b, hb, hblank⟩ := Text.eq_append_dropWhile isBlank t
  obtain ⟨q, hq, hreturn⟩ := newline_shape hn
  have hdrop : (l ++ t).dropWhile isBlank = '#' :: (w ++ t) := by
    rw [List.dropWhile_append, hw]
    rfl
  have htext : (w ++ t).dropWhile (fun c => !isLineBreak c) = t.dropWhile isBlank := by
    have hwbreak : ∀ c ∈ w, (!isLineBreak c) = true := fun c hc => by
      have hmem : c ∈ l.dropWhile isBlank := hw ▸ List.mem_cons_of_mem _ hc
      simpa using hbreak c (List.dropWhile_subset _ hmem)
    rw [List.dropWhile_append_of_pos hwbreak]
    conv_lhs => rw [hb]
    rw [List.dropWhile_append_of_pos fun c hc =>
      by simpa using isLineBreak_of_isBlank (hblank c hc)]
    rcases newline_eq_ok.1 hn with ⟨heq, -⟩ | ⟨heq, -⟩ <;> rw [heq] <;> rfl
  refine ⟨⟨l ++ (b ++ q), by rw [hb, hq]; simp, ?_⟩, ?_⟩
  · rw [List.mem_append, not_or]
    exact ⟨hl, newline_notMem hblank hreturn⟩
  · obtain ⟨vs, hvs⟩ := commentBody_eq_ok.2 ⟨_, ns, hdrop, optional_eq_ok.2 (.inl (htext ▸ hn))⟩
    exact ⟨_, either_eq_ok.2 (.inl (node_eq_ok.2 ⟨vs, hvs, rfl⟩))⟩

/-- Lines that leave nothing but blanks go on up to the line end behind them. -/
theorem filler_of_lines_append (h : lines l = .ok us m) (hm : m.rdropWhile isBlank = []) :
    Filler (l ++ t) := by
  induction l, us, m, h using advances_filler.many_induction with
  | nil l _ _ _ => simpa using Filler.cons (fillerLine_of_blank hn hm) .nil
  | round l vs k ws m hu hk _ ih =>
    obtain ⟨x, rfl, ⟨q, rfl, hq⟩ | ⟨hx, hbroken⟩⟩ := filler_shape hu
    · rw [List.append_assoc]
      exact .cons (fillerLine_of_read hq hu) (ih hm)
    · obtain rfl := eq_of_lines_of_broken hbroken hk
      rcases hbroken with rfl | ⟨r, rfl, -⟩
      · rw [List.append_nil] at hu ⊢
        simpa using Filler.cons (fillerLine_of_comment hn hu hx) .nil
      · have hblank := List.rdropWhile_eq_nil_iff.1 hm '\r' List.mem_cons_self
        cases hblank

/-- A continuation that leaves nothing but blanks takes the line end behind them. -/
theorem continuation_of_blank (he : IsEscape e) (hc : continuation e s = .ok ts m)
    (hm : m.rdropWhile isBlank = []) : ∃ us, continuation e (s ++ t) = .ok us [] := by
  obtain ⟨b, q, l, us, rfl, hb, hq, hl⟩ := eq_of_continuation hc
  have hcontinued : Continued (b ++ q ++ '\n' :: (l ++ t)) :=
    .mk hb hq (filler_of_lines_append hn hl hm)
  simpa using hcontinued.continuation_eq he

/-- An escape character before nothing but blanks continues the line. -/
theorem continuation_of_escape (he : IsEscape e) (hm : m.rdropWhile isBlank = []) :
    ∃ us, continuation e (e :: (m ++ t)) = .ok us [] := by
  obtain ⟨b, hb, hblank⟩ := Text.eq_append_dropWhile isBlank t
  obtain ⟨q, hq, hreturn⟩ := newline_shape hn
  have hall : ∀ c ∈ m ++ b, isBlank c = true := fun c hc =>
    (List.mem_append.1 hc).elim (List.rdropWhile_eq_nil_iff.1 hm c) (hblank c)
  have hcontinued : Continued ((m ++ b) ++ q ++ '\n' :: []) := .mk hall hreturn .nil
  have heq : (m ++ b) ++ q ++ '\n' :: [] = m ++ t := by
    rw [hb, hq]
    simp
  exact heq ▸ hcontinued.continuation_eq he

end Lexeme

/-! ## Values before a line end -/

theorem Text.atLineEnd_append_of_feed {s t : Text} (hs : s ≠ []) (hend : s.atLineEnd = false)
    (hfeed : s.getLast? = some '\r' → t.head? ≠ some '\n') : (s ++ t).atLineEnd = false := by
  obtain ⟨c, s, rfl⟩ := List.exists_cons_of_ne_nil hs
  refine Bool.eq_false_iff.2 fun hline => ?_
  obtain ⟨ts, r, hr⟩ := newline_of_atLineEnd hline
  obtain ⟨z, hz, -⟩ := (newline_append_iff hs fun heq => hfeed (by rw [heq]; rfl)).1 hr
  rw [atLineEnd_of_newline hz] at hend
  cases hend

/-- A value that goes on in the next line takes the line end behind it, and one that does not leaves
it. -/
theorem Walk.before_line {e : Char} {v t : Text} {ns : List Token} (h : Walk e false v [])
    (he : IsEscape e) (hn : newline (t.dropWhile isBlank) = .ok ns [])
    (hfeed : v.getLast? = some '\r' → t.head? ≠ some '\n') :
    Walk e false (v ++ t) (if v.runsOn e then [] else t) := by
  generalize hr : ([] : Text) = r at h
  have hsuffix {k s : Text} (hs : (k ++ s).getLast? = some '\r' → t.head? ≠ some '\n') :
      s.getLast? = some '\r' → t.head? ≠ some '\n' := fun hlast =>
    hs (by rw [List.getLast?_append, hlast]; rfl)
  induction h with
  | refl s =>
    subst hr
    exact .refl _
  | @plain c s r hc hend _ ih =>
    have hline : c ≠ '\n' := by
      rintro rfl
      cases hend
    rw [Text.runsOn_cons hc hline]
    exact .plain hc (Text.atLineEnd_append_of_feed (List.cons_ne_nil c s) hend hfeed)
      (ih (hsuffix (k := [c]) hfeed) hr)
  | @pair c d s r hc hend _ ih =>
    subst hr
    obtain ⟨rfl, hstuck⟩ := hc.resolve_right fun hc => Bool.false_ne_true hc.2.2
    by_cases hblank : (d :: s).rdropWhile isBlank = []
    · rw [if_pos (Text.runsOn_escape he hblank)]
      obtain ⟨us, hus⟩ := continuation_of_escape hn he hblank
      exact .continuation hus (.refl _)
    · have hline : d ≠ '\n' := by
        rintro rfl
        cases hend
      have hstuck' : ∃ m, Lexeme.continuation c (c :: d :: (s ++ t)) = .stuck m := by
        rw [continuation_stuck_iff, continuation_cons_eq_ok] at hstuck ⊢
        exact fun hok => hstuck (newline_dropWhile_append hblank (hsuffix (k := [c]) hfeed) hok)
      rw [Text.runsOn_pair he hline hblank]
      exact .pair (.inl ⟨rfl, hstuck'⟩) (Text.atLineEnd_append_of_feed (List.cons_ne_nil d s) hend
        (hsuffix (k := [c]) hfeed)) (ih (hsuffix (k := [c, d]) hfeed) rfl)
  | lone =>
    rw [if_pos (Text.runsOn_escape he rfl)]
    obtain ⟨us, hus⟩ := continuation_of_escape (m := []) hn he rfl
    exact .continuation hus (.refl _)
  | @continuation s m r ts hc _ ih =>
    subst hr
    by_cases hm : m.rdropWhile isBlank = []
    · rw [if_pos (runsOn_of_continuation hc hm)]
      obtain ⟨us, hus⟩ := continuation_of_blank hn he hc hm
      exact .continuation hus (.refl _)
    · have hfeed' : m.getLast? = some '\r' → t.head? ≠ some '\n' := by
        obtain ⟨ls, rfl, -⟩ := continuation_shape hc
        exact hsuffix hfeed
      rw [runsOn_continuation he hc hm]
      exact .continuation (continuation_append hfeed' hc hm) (ih hfeed' rfl)

/-! ## Values that stay apart -/

/-- A value stays apart from the text behind it in its line. -/
inductive StaysApart (e : Char) (v t : Text) : Prop where
  /-- Nothing is behind it. -/
  | last (ht : t = [])
  /-- Only blanks are behind it in its line. -/
  | line (ht : Text.atLineEnd (t.dropWhile isBlank) = true) (hv : v.runsOn e = false)
      (hfeed : v.getLast? = some '\r' → t.head? ≠ some '\n')
  /-- One more argument is behind it, or another line. -/
  | argument (ht : Text.atLineEnd (t.dropWhile isBlank) = false) (hv : EndsBefore e v t)

namespace StaysApart

variable {e : Char} {v t : Text}

theorem iff : StaysApart e v t ↔ t = [] ∨
    (Text.atLineEnd (t.dropWhile isBlank) = true ∧ v.runsOn e = false ∧
      (v.getLast? = some '\r' → t.head? ≠ some '\n')) ∨
    (Text.atLineEnd (t.dropWhile isBlank) = false ∧ EndsBefore e v t) := by
  constructor
  · rintro (ht | ⟨ht, hv, hfeed⟩ | ⟨ht, hv⟩)
    · exact .inl ht
    · exact .inr (.inl ⟨ht, hv, hfeed⟩)
    · exact .inr (.inr ⟨ht, hv⟩)
  · rintro (ht | ⟨ht, hv, hfeed⟩ | ⟨ht, hv⟩)
    · exact .last ht
    · exact .line ht hv hfeed
    · exact .argument ht hv

instance (e : Char) (v t : Text) : Decidable (StaysApart e v t) :=
  decidable_of_iff _ iff.symm

/-- No line end is made of the last character of the value and the first one behind it. -/
theorem feed (h : StaysApart e v t) : v.getLast? = some '\r' → t.head? ≠ some '\n' := by
  intro hreturn hfeed
  cases h with
  | last ht =>
    rw [ht] at hfeed
    cases hfeed
  | line _ _ h => exact h hreturn hfeed
  | argument ht =>
    obtain ⟨r, rfl⟩ := List.head?_eq_some_iff.1 hfeed
    cases ht

/-- So does what a value ends with, if it begins behind no escaping character. -/
theorem of_append {p : Text} (h : StaysApart e (p ++ v) t) (hp : p.escapesNext e = false)
    (hv : v.rdropWhile isBlank ≠ []) : StaysApart e v t := by
  have hne : v ≠ [] := by
    rintro rfl
    exact hv rfl
  cases h with
  | last ht => exact .last ht
  | line ht hruns hfeed =>
    refine .line ht ?_ ?_
    · simp only [Text.runsOn, Bool.or_eq_false_iff] at hruns ⊢
      rw [Text.rdropWhile_append hv, Text.escapesNext_append hp,
        List.getLast?_append_of_ne_nil _ hv] at hruns
      exact hruns.imp_right Text.opensComment_of_append
    · rwa [List.getLast?_append_of_ne_nil _ hne] at hfeed
  | argument ht hends =>
    refine .argument ht ⟨?_, Text.opensComment_of_append hends.uncommented⟩
    rw [← hends.unescaped, Text.escapesNext_append hp]

/-- A value that begins no continuation begins none before the text behind it. -/
theorem continues_append (h : StaysApart e v t) (he : IsEscape e) (hv : v ≠ [])
    (hc : continues e v = false) : continues e (v ++ t) = false := by
  cases h with
  | last ht => rwa [ht, List.append_nil]
  | argument ht =>
    rw [Containerfile.continues_append hv, hc]
    rintro ⟨ts, r, hr⟩
    rw [atLineEnd_of_newline hr] at ht
    cases ht
  | line _ hruns hfeed =>
    rw [continues_eq_false_iff, continuation_stuck_iff] at hc ⊢
    rintro ⟨ts, r, hr⟩
    obtain ⟨s, hs⟩ := eq_cons_of_continuation hr
    obtain ⟨c, w, rfl⟩ := List.exists_cons_of_ne_nil hv
    obtain ⟨rfl, rfl⟩ := List.cons.inj hs
    by_cases hw : w.rdropWhile isBlank = []
    · rw [Text.runsOn_escape he hw] at hruns
      cases hruns
    · have hfeed' : w.getLast? = some '\r' → t.head? ≠ some '\n' := fun hlast =>
        hfeed (by rw [List.getLast?_cons, hlast]; rfl)
      have hok := newline_dropWhile_append hw hfeed' (continuation_cons_eq_ok.1 ⟨ts, r, hr⟩)
      exact hc (continuation_cons_eq_ok.2 hok)

/-- In a text that ends with its line, a value that stays apart is left where it ends. -/
theorem walk (h : StaysApart e v t) (he : IsEscape e) (hv : Walk e false v [])
    (ht : t.dropWhile isBlank = [] ∨ Text.atLineEnd (t.dropWhile isBlank) = false ∨
      ∃ ns, newline (t.dropWhile isBlank) = .ok ns []) : Walk e false (v ++ t) t := by
  have hwalk (hline : ¬ ∃ ts r, newline (t.dropWhile isBlank) = .ok ts r)
      (hends : EndsBefore e v t) : Walk e false (v ++ t) t :=
    (Precedes.of_opensComment (t := []) nofun hline (fun _ => hends.unescaped)
      hends.uncommented).walk (z := []) he (by simpa using hv)
  cases h with
  | last hnil =>
    subst hnil
    simpa using hv
  | line hend hruns hfeed =>
    rcases ht with hnil | hfalse | ⟨ns, hn⟩
    · refine hwalk ?_ (Text.endsBefore_of_runsOn hruns ?_ he)
      · rw [hnil]
        rintro ⟨ts, r, hr⟩
        rcases newline_eq_ok.1 hr with ⟨heq, -⟩ | ⟨heq, -⟩ <;> cases heq
      · rw [hnil]
        nofun
    · rw [hend] at hfalse
      cases hfalse
    · simpa [hruns] using hv.before_line he hn hfeed
  | argument hend hends =>
    refine hwalk ?_ hends
    rintro ⟨ts, r, hr⟩
    rw [atLineEnd_of_newline hr] at hend
    cases hend

end StaysApart

theorem Edge.of_blank_or_atLineEnd {e : Char} {t : Text}
    (ht : t.head?.any isBlank = true ∨ t.atLineEnd = true) : Edge e t := by
  rcases ht with hblank | hend
  · cases t with
    | nil => cases hblank
    | cons c r => exact .gap (.inl hblank)
  · exact .line hend

theorem Continued.getLast? {w : Text} (h : Continued w) : w.getLast? = some '\n' := by
  obtain @⟨b, q, cs, -, -, hcs⟩ := h
  generalize b ++ q = p
  induction hcs generalizing p with
  | nil => exact List.getLast?_concat
  | cons hl _ ih =>
    obtain ⟨q, rfl, -⟩ := hl.shape
    simpa using ih (p ++ '\n' :: q)

namespace Literal

variable {e : Char} {style : Style} {v t : Text} (he : IsEscape e) (hstyle : style.Plain)
  (hblanks : style.blanksEnd = true) (hv : ∃ ps, Scans e style none v ps [])
include he hstyle hblanks hv

/-- A value ends with no blank and no line feed if it does not go on in the next line. -/
theorem not_blank_of_runsOn (hruns : v.runsOn e = false) {c : Char} (hc : v.getLast? = some c)
    (hline : isBlank c = true ∨ c = '\n') : False := by
  have hends : EndsBefore e v [' ', 'x'] := Text.endsBefore_of_runsOn hruns (by decide) he
  obtain ⟨us, hus⟩ := (scans_before_iff he rfl rfl hstyle hblanks).2 ⟨hv, hends⟩
  have hbroken : ¬ Broken [' ', 'x'] := (not_broken_of_gap he (.inl rfl) ['x']).1
  rw [← Bool.not_eq_true, Text.runsOn_iff, not_or, not_or] at hruns
  obtain ⟨hescape, hfeed, -⟩ := hruns
  obtain ⟨v₀, w, rfl, hwalk, hw⟩ := hus.exists_escape he hstyle hblanks hbroken nofun hc hline
  have hbefore := Walk.endsBefore (v := v₀) (t := e :: (w ++ [' ', 'x'])) (by simpa using hwalk) he
    (by simp [he.isLineBreak])
  rcases hw with ⟨d, rfl, hd⟩ | hw
  · -- the blank is escaped
    have hkept : List.rdropWhile isBlank (v₀ ++ [e, d]) = v₀ ++ [e] := by
      rw [List.append_cons, List.rdropWhile_concat_pos _ _ _ hd, List.rdropWhile_concat_neg]
      rcases he with rfl | rfl <;> decide
    rw [hkept, Text.escapesNext_append hbefore.unescaped] at hescape
    exact hescape (by simp [Text.escapesNext])
  · have hlast : (v₀ ++ e :: w).getLast? = some '\n' := by
      rw [List.append_cons, List.getLast?_append, hw.getLast?]
      rfl
    rw [Text.rdropWhile_of_getLast? hlast rfl] at hfeed
    exact hfeed hlast

/-- Before a line or before the escape character, a value is read as if it stood alone, and then
what is behind it. -/
theorem exists_scans_append_iff (hends : EndsBefore e v [' ', 'x']) (hedge : Edge e t)
    (hline : ∀ c, v.getLast? = some c → isBlank c = true ∨ c = '\n' → ∃ m, filler t = .stuck m)
    (hfeed : v.getLast? = some '\r' → t.head? ≠ some '\n') :
    ∃ us, ∀ {ws r}, Scans e style none (v ++ t) ws r ↔
      ∃ qs, ws = us ++ qs ∧ Scans e style none t qs r := by
  obtain ⟨us, hus⟩ := (scans_before_iff he rfl rfl hstyle hblanks).2 ⟨hv, hends⟩
  have hswaps : Swaps e v [' ', 'x'] t := .of_gap he ⟨' ', ['x'], rfl, .inl rfl⟩ hedge hline hfeed
  exact ⟨us, fun {ws r} =>
    Scans.swap (z := []) hus he hstyle hswaps (show SameQuote none none from rfl)⟩

/-- A value that stays apart is read up to the text behind it, if that begins with a blank or with a
line end. -/
theorem scans_of_staysApart (h : StaysApart e v t)
    (ht : t.head?.any isBlank = true ∨ t.atLineEnd = true) :
    ∃ ps, Scans e style none (v ++ t) ps t := by
  have hstop : step style e none t = .stop := by
    rcases ht with hblank | hend
    · obtain ⟨c, r, rfl⟩ : ∃ c r, t = c :: r := by
        cases t with
        | nil => cases hblank
        | cons c r => exact ⟨c, r, rfl⟩
      exact step_blank he hblanks hblank
    · exact step_atLineEnd he hend
  have hedge : Edge e t := .of_blank_or_atLineEnd ht
  cases h with
  | last hnil =>
    subst hnil
    simpa using hv
  | line hend hruns hfeed =>
    have hends : EndsBefore e v [' ', 'x'] := Text.endsBefore_of_runsOn hruns (by decide) he
    obtain ⟨us, hus⟩ := exists_scans_append_iff he hstyle hblanks hv hends hedge
      (fun c hc hline => (not_blank_of_runsOn he hstyle hblanks hv hruns hc hline).elim) hfeed
    exact ⟨us, hus.2 ⟨[], by simp, .stop hstop⟩⟩
  | argument hend hends =>
    obtain ⟨ps, hps⟩ := hv
    have hline : ¬ ∃ ts r, newline (t.dropWhile isBlank) = .ok ts r := by
      rintro ⟨ts, r, hr⟩
      rw [atLineEnd_of_newline hr] at hend
      cases hend
    have hcarries := hends.carries (hedge.head?_any he rfl) hline
    have hps' : Scans e style none (v ++ []) ps ([] ++ []) := by simpa using hps
    exact ⟨ps, hps'.carry he (by rw [hstyle.escapes]; nofun) hcarries
      (show SameQuote none none from rfl) fun _ _ => hstop⟩

end Literal

end Containerfile
