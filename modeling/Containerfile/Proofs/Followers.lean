import Containerfile.Proofs.Commands

/-!
# Arguments behind a value

A value that stands alone is read to its end.  With one more argument behind it, after a blank, it
is still read to the same place, with two exceptions: the value ends with an escape character that
now escapes the blank, or its last line is a comment, or becomes one with the argument, and takes
the argument with it.  There is nothing else, whatever quotes, references and continued lines are
in the value.

## Main definitions

* `Text.opensComment` — whether a comment on the last line of a text goes on into the text behind.
* `EndsBefore` — a value is kept apart from the text behind it.
* `Precedes`, `Carries` — another text can stand behind a text that is read up to its end.

## Main results

* `Walk.endsBefore` — whatever is read up to a place is kept apart from what stands there.
* `Literal.Scans.carry` — a reading is the same with another text behind.
* `Literal.scans_before_iff` — a literal is read up to a blank exactly if it is kept apart from it.
-/

namespace Containerfile

open Lexeme Grammar

/-! ## Ends of values -/

namespace Text

/-- Whether the last line of a text, together with the text behind it, is a comment that is not
ended in the text.  The first line has no line before it that it continues, so it is never a
comment. -/
def opensComment : Text → Text → Bool
  | [], _ => false
  | c :: s, t =>
    opensComment s t ||
      (c == '\n' && s.all (!isLineBreak ·) && ((s ++ t).dropWhile isBlank).head? == some '#')

variable {e : Char} {p s t : Text}

theorem opensComment_iff : s.opensComment t = true ↔
    ∃ p w, s = p ++ '\n' :: w ∧ (∀ c ∈ w, isLineBreak c = false) ∧
      ((w ++ t).dropWhile isBlank).head? = some '#' := by
  induction s with
  | nil => simp [opensComment]
  | cons c s ih =>
    rw [opensComment, Bool.or_eq_true, ih]
    constructor
    · rintro (⟨p, w, rfl, hw⟩ | h)
      · exact ⟨c :: p, w, rfl, hw⟩
      · simp only [Bool.and_eq_true, beq_iff_eq, List.all_eq_true, Bool.not_eq_true'] at h
        obtain ⟨⟨rfl, hs⟩, hhead⟩ := h
        exact ⟨[], s, rfl, hs, hhead⟩
    · rintro ⟨p, w, hs, hw, hhead⟩
      cases p with
      | nil =>
        obtain ⟨rfl, rfl⟩ := List.cons.inj hs
        exact .inr (by simpa [hhead] using hw)
      | cons d p =>
        obtain ⟨-, rfl⟩ := List.cons.inj hs
        exact .inl ⟨p, w, rfl, hw, hhead⟩

/-- What opens a comment at its end does so behind any text. -/
theorem opensComment_of_append (h : (p ++ s).opensComment t = false) :
    s.opensComment t = false := by
  rw [← Bool.not_eq_true, opensComment_iff] at h ⊢
  rintro ⟨p', w, rfl, hw⟩
  exact h ⟨p ++ p', w, by simp, hw⟩

/-- Of the text behind only its first character matters, blanks aside. -/
theorem opensComment_congr {t' : Text} (h : (t.dropWhile isBlank).head? = some '#' ↔
    (t'.dropWhile isBlank).head? = some '#') : s.opensComment t = s.opensComment t' := by
  have hline (w : Text) : ((w ++ t).dropWhile isBlank).head? = some '#' ↔
      ((w ++ t').dropWhile isBlank).head? = some '#' := by
    rw [List.dropWhile_append, List.dropWhile_append]
    by_cases hw : w.dropWhile isBlank = []
    · simpa [hw] using h
    · obtain ⟨c, k, hk⟩ := List.exists_cons_of_ne_nil hw
      rw [hk]
      exact Iff.rfl
  rw [Bool.eq_iff_iff, opensComment_iff, opensComment_iff]
  simp only [hline]

/-- Of an argument behind a blank only the first character matters. -/
theorem opensComment_argument {c : Char} (hc : isBlank c = false) (s n n' : Text) :
    s.opensComment (' ' :: c :: n) = s.opensComment (' ' :: c :: n') := by
  have hhead (n : Text) : (List.dropWhile isBlank (' ' :: c :: n)).head? = some c := by
    rw [List.dropWhile_cons_of_pos (by rfl), List.dropWhile_cons_of_neg (by simp [hc])]
    rfl
  exact opensComment_congr (by rw [hhead, hhead])

theorem escapesNext_cons {c : Char} (hc : c ≠ e) (s : Text) :
    escapesNext e (c :: s) = escapesNext e s := by
  have : escapesNext e [c] = false := by simp [escapesNext, hc]
  exact escapesNext_append this s

theorem escapesNext_pair (d : Char) (s : Text) :
    escapesNext e (e :: d :: s) = escapesNext e s := by
  have : escapesNext e [e, d] = false := by simp [escapesNext]
  exact escapesNext_append this s

theorem escapesNext_of_getLast? {c : Char} (h : s.getLast? = some c) (hc : c ≠ e) :
    escapesNext e s = false := by
  obtain ⟨p, rfl⟩ := List.getLast?_eq_some_iff.1 h
  simp [escapesNext, List.foldl_append, hc]

/-- A line end separates what it is behind from what is behind it. -/
theorem escapesNext_append_of_line (he : IsEscape e)
    (h : p.getLast? = some '\n' ∨ s.head? = some '\r') :
    escapesNext e (p ++ s) = escapesNext e s := by
  rcases h with hp | hs
  · exact escapesNext_append (escapesNext_of_getLast? hp he.ne_newline.symm) s
  · obtain ⟨s, rfl⟩ := List.head?_eq_some_iff.1 hs
    have hc : '\r' ≠ e := by
      rintro rfl
      cases he.isLineBreak
    rw [List.append_cons, escapesNext_cons hc]
    exact escapesNext_append (escapesNext_of_getLast? (by simp) hc) s

end Text

/-- A value is kept apart from the text behind it: it does not escape what is behind, and it opens
no comment there. -/
structure EndsBefore (e : Char) (v t : Text) : Prop where
  unescaped : v.escapesNext e = false
  uncommented : v.opensComment t = false

instance (e : Char) (v t : Text) : Decidable (EndsBefore e v t) :=
  decidable_of_iff (v.escapesNext e = false ∧ v.opensComment t = false)
    ⟨fun h => ⟨h.1, h.2⟩, fun h => ⟨h.1, h.2⟩⟩

theorem endsBefore_argument_iff {e c : Char} (hc : isBlank c = false) (v n n' : Text) :
    EndsBefore e v (' ' :: c :: n) ↔ EndsBefore e v (' ' :: c :: n') := by
  have h := v.opensComment_argument hc n n'
  exact ⟨fun hv => ⟨hv.1, h ▸ hv.2⟩, fun hv => ⟨hv.1, h ▸ hv.2⟩⟩

namespace Walk

variable {e : Char} {s r v t : Text}

/-- A walk keeps to the characters that are not escaped. -/
theorem escapesNext (h : Walk e false s r) (he : IsEscape e) (hs : s.escapesNext e = false) :
    r.escapesNext e = false := by
  induction h with
  | refl => exact hs
  | plain hc _ _ ih => exact ih (by rwa [Text.escapesNext_cons hc] at hs)
  | @pair c d s r hc _ _ ih =>
    obtain ⟨rfl, -⟩ | ⟨-, -, hjson⟩ := hc
    · exact ih (by rwa [Text.escapesNext_pair] at hs)
    · cases hjson
  | lone => rfl
  | @continuation s m r ts hc _ ih =>
    refine ih ?_
    obtain ⟨ls, rfl, hls | rfl | ⟨m, rfl, -⟩⟩ := continuation_shape hc
    · rwa [Text.escapesNext_append_of_line he (.inl hls)] at hs
    · rfl
    · rwa [Text.escapesNext_append_of_line he (.inr rfl)] at hs

end Walk

namespace Lexeme

variable {e : Char} {z t : Text}

theorem stuck_of_continuation {s r : Text} {ts : List Token} (h : continuation e s = .ok ts r) :
    ∃ m, filler r = .stuck m := by
  obtain ⟨_, _, _, _, -, -, -, hl⟩ := eq_of_continuation h
  exact stuck_of_many advances_filler _ _ _ hl

/-- Where a comment begins, a line is read. -/
theorem not_stuck_of_comment {s : Text} (h : (s.dropWhile isBlank).head? = some '#')
    (hstuck : ∃ m, filler s = .stuck m) : False := by
  obtain ⟨ts, r, hr⟩ := exists_filler_iff.2 (.inl h)
  obtain ⟨m, hm⟩ := hstuck
  rw [hr] at hm
  cases hm

/-- A comment breaks off at a carriage return, before a text that begins with no line end. -/
theorem head?_of_broken (h : Broken (z ++ t)) (ht : t.head?.any (!isLineBreak ·) = true) :
    z.head? = some '\r' := by
  cases z with
  | nil =>
    rcases h with rfl | ⟨r, rfl, -⟩
    · cases ht
    · cases ht
  | cons c z =>
    rcases h with hnil | ⟨r, hr, -⟩
    · cases hnil
    · obtain ⟨rfl, -⟩ := List.cons.inj hr
      rfl

/-- Where a continuation ends, no comment goes on. -/
theorem opensComment_of_continuation {u : Text} {ts : List Token}
    (hc : continuation e (u ++ (z ++ t)) = .ok ts (z ++ t))
    (ht : t.head?.any (!isLineBreak ·) = true) (hz : z.opensComment t = false) :
    (u ++ z).opensComment t = false := by
  rw [← Bool.not_eq_true, Text.opensComment_iff] at hz ⊢
  rintro ⟨p, w, hs, hw, hhead⟩
  obtain ⟨ls, hls, hshape⟩ := continuation_shape hc
  obtain rfl := List.append_cancel_right hls
  rcases List.append_eq_append_iff.1 hs with ⟨x, -, hx⟩ | ⟨x, hu, hx⟩
  · exact hz ⟨x, w, hx, hw, hhead⟩
  · cases x with
    | nil => exact hz ⟨[], w, hx.symm, hw, hhead⟩
    | cons c x =>
      obtain ⟨rfl, rfl⟩ := List.cons.inj hx
      rcases hshape with hlast | hbroken
      · -- the last line of `u` is the one of `w`, which has no line feed
        cases x with
        | nil => exact not_stuck_of_comment hhead (stuck_of_continuation hc)
        | cons d x =>
          rw [hu] at hlast
          have hmem := List.mem_of_getLast? (Text.getLast?_of_append (a := p ++ ['\n'])
            (by simpa using hlast) (List.cons_ne_nil d x))
          cases hw '\n' (List.mem_append_left z hmem)
      · obtain ⟨z, rfl⟩ := List.head?_eq_some_iff.1 (head?_of_broken hbroken ht)
        cases hw '\r' (by simp)

end Lexeme

/-- What is read up to a place is kept apart from what stands there. -/
theorem Walk.endsBefore {e : Char} {v t : Text} (h : Walk e false (v ++ t) t) (he : IsEscape e)
    (ht : t.head?.any (!isLineBreak ·) = true) : EndsBefore e v t := by
  generalize hs : v ++ t = s at h
  generalize hr : t = r at h
  induction h generalizing v with
  | refl =>
    obtain rfl : v = [] := by simpa [hr] using hs
    exact ⟨rfl, rfl⟩
  | @plain c s r hc hend h ih =>
    subst hr
    obtain ⟨v, rfl, rfl⟩ := h.exists_append (z := []) (k := [c]) hs
    obtain ⟨hescape, hcomment⟩ := ih rfl rfl
    have hne : c ≠ '\n' := by
      rintro rfl
      cases hend
    exact ⟨by rwa [List.singleton_append, Text.escapesNext_cons hc],
      by simpa [Text.opensComment, hne] using hcomment⟩
  | @pair c d s r hc hend h ih =>
    subst hr
    obtain ⟨rfl, -⟩ | ⟨-, -, hjson⟩ := hc
    · obtain ⟨v, rfl, rfl⟩ := h.exists_append (z := []) (k := [c, d]) hs
      obtain ⟨hescape, hcomment⟩ := ih rfl rfl
      have hne : d ≠ '\n' := by
        rintro rfl
        cases hend
      refine ⟨(Text.escapesNext_pair d v).trans hescape, ?_⟩
      simpa [Text.opensComment, hne, he.ne_newline] using hcomment
    · cases hjson
  | lone =>
    subst hr
    cases ht
  | @continuation s m r ts hc h ih =>
    subst hr
    obtain ⟨ls, hls, hshape⟩ := continuation_shape hc
    obtain ⟨v, rfl, rfl⟩ := h.exists_append (z := []) (hs.trans hls)
    obtain ⟨hescape, hcomment⟩ := ih rfl rfl
    rw [← hs, List.append_assoc] at hc
    refine ⟨?_, opensComment_of_continuation hc ht hcomment⟩
    rwa [Text.escapesNext_append_of_line he (hshape.imp_right fun hb => head?_of_broken hb ht)]

/-! ## Lines with another text behind -/

namespace Lexeme

variable {s t : Text} {ts : List Token}

theorem isLineBreak_of_isBlank {c : Char} (h : isBlank c = true) : isLineBreak c = false := by
  simp only [isBlank, Bool.or_eq_true, beq_iff_eq] at h
  rcases h with rfl | rfl <;> rfl

/-- A comment without a line end. -/
theorem comment_of_filler (h : filler s = .ok ts []) (hs : '\n' ∉ s) :
    (∀ c ∈ s, isLineBreak c = false) ∧ (s.dropWhile isBlank).head? = some '#' := by
  have hfeed : ∀ {p r : Text} {us : List Token}, newline r = .ok us [] → s ≠ p ++ r := by
    rintro p r us hn rfl
    obtain ⟨q, rfl, -⟩ := newline_shape hn
    simp at hs
  obtain ⟨b, hb, hblank⟩ := Text.eq_append_dropWhile isBlank s
  rcases filler_eq_ok h with hc | hline
  · obtain ⟨s', us, hs', hn⟩ := commentBody_eq_ok.1 hc
    obtain ⟨w, hw, htext⟩ := Text.eq_append_dropWhile (fun c => !isLineBreak c) s'
    rw [hs', hw] at hb
    refine ⟨?_, by rw [hs']; rfl⟩
    rcases optional_eq_ok.1 hn with hn | ⟨-, -, hrest⟩
    · exact absurd (hb.trans (List.append_cons b '#' _ |>.trans (List.append_assoc ..).symm))
        (hfeed hn)
    · rw [← hrest, List.append_nil] at hb
      subst hb
      intro c hc
      simp only [List.mem_append, List.mem_cons] at hc
      rcases hc with hc | rfl | hc
      · exact isLineBreak_of_isBlank (hblank c hc)
      · rfl
      · simpa using htext c hc
  · obtain ⟨us, hn⟩ := blankLine_eq_ok.1 hline
    exact absurd hb (hfeed hn)

section

variable {t' : Text} (ht : t.head? ≠ some '\n')
  (ht' : ¬ ∃ us m, newline (t'.dropWhile isBlank) = .ok us m)
include ht'

theorem head?_of_not_newline : t'.head? ≠ some '\n' := by
  intro hhead
  obtain ⟨t, rfl⟩ := List.head?_eq_some_iff.1 hhead
  exact ht' ⟨_, _, rfl⟩

include ht

/-- Where no line begins, none begins with another text behind. -/
theorem filler_stuck_append (h : ∃ m, filler (s ++ t) = .stuck m)
    (hs : Text.opensComment ('\n' :: s) t' = false) : ∃ m, filler (s ++ t') = .stuck m := by
  refine (filler_eq_ok_or_stuck _).resolve_left fun hok => ?_
  rw [exists_filler_iff] at hok
  by_cases hblank : s.dropWhile isBlank = []
  · obtain ⟨b, hb, hall⟩ := Text.eq_append_dropWhile isBlank s
    rw [hblank, List.append_nil] at hb
    rcases hok with hhead | hn
    · have hopen : Text.opensComment ('\n' :: s) t' = true := Text.opensComment_iff.2
        ⟨[], s, rfl, fun c hc => isLineBreak_of_isBlank (hall c (hb ▸ hc)), hhead⟩
      rw [hopen] at hs
      cases hs
    · rw [hb, List.dropWhile_append_of_pos hall] at hn
      exact ht' hn
  · obtain ⟨m, hm⟩ := h
    rw [List.dropWhile_append, if_neg (by simpa using hblank)] at hok
    have hok' : ∃ ts r, filler (s ++ t) = .ok ts r := by
      rw [exists_filler_iff, List.dropWhile_append, if_neg (by simpa using hblank)]
      refine hok.imp (fun hhead => ?_) ?_
      · obtain ⟨c, w, hw⟩ := List.exists_cons_of_ne_nil hblank
        rw [hw] at hhead ⊢
        exact hhead
      · rintro ⟨ts, r, hr⟩
        obtain ⟨z, hz, -⟩ := (newline_append_iff hblank fun _ => head?_of_not_newline ht').1 hr
        exact ⟨ts, z ++ t, (newline_append_iff hblank fun _ => ht).2 ⟨z, hz, rfl⟩⟩
    obtain ⟨ts, r, hr⟩ := hok'
    rw [hr] at hm
    cases hm

/-- Lines that end before a text are read with another text behind, if no line begins there and no
comment goes on there. -/
theorem lines_append {z : Text} (h : lines (s ++ t) = .ok ts (z ++ t))
    (hs : Text.opensComment ('\n' :: s) t' = false) : lines (s ++ t') = .ok ts (z ++ t') := by
  generalize hS : s ++ t = S at h
  generalize hR : z ++ t = R at h
  induction S, ts, R, h using advances_filler.many_induction generalizing s with
  | nil S m hm _ =>
    subst hS
    obtain rfl := List.append_cancel_right hR
    exact many_eq_ok.2 (.inr (.inr ⟨filler_stuck_append ht ht' ⟨m, hm⟩ hs, rfl, rfl⟩))
  | round S vs M ws R hfiller hm _ ih =>
    subst hS hR
    obtain ⟨ls, rfl, -⟩ := lines_shape hm
    rw [← List.append_assoc] at hfiller ih
    generalize ls ++ z = m at hfiller ih
    suffices hfirst : filler (s ++ t') = .ok vs (m ++ t') ∧
        Text.opensComment ('\n' :: m) t' = false by
      obtain ⟨hu, hopen⟩ := hfirst
      exact many_eq_ok.2 (.inl ⟨_, _, _, hu, advances_filler _ _ _ hu, ih hopen rfl rfl, rfl⟩)
    obtain ⟨l, heq, hshape⟩ := filler_shape hfiller
    rw [← List.append_assoc] at heq
    obtain rfl := List.append_cancel_right heq
    rw [List.append_assoc] at hfiller ⊢
    rcases hshape with ⟨q, rfl, -⟩ | ⟨hl, hbroken⟩
    · have hnl : HasNewline (q ++ ['\n']) := HasNewline.append_left List.mem_cons_self q
      exact ⟨(decided_filler _ hnl _).eq_ok (r := []) ((decided_filler _ hnl _).of_eq_ok hfiller),
        Text.opensComment_of_append (p := '\n' :: q) (by simpa using hs)⟩
    · cases m with
      | nil =>
        -- the comment would go on
        have hcomment := filler_of_notMem hfiller hl hbroken (.inl rfl)
        rw [List.append_nil] at hcomment hs
        obtain ⟨hbreak, hhead⟩ := comment_of_filler hcomment hl
        obtain ⟨w, hw⟩ := List.head?_eq_some_iff.1 hhead
        have hopen : Text.opensComment ('\n' :: l) t' = true :=
          Text.opensComment_iff.2 ⟨[], l, rfl, hbreak, by simp [List.dropWhile_append, hw]⟩
        rw [hopen] at hs
        cases hs
      | cons c m =>
        obtain ⟨hend, rfl⟩ : Text.atLineEnd ('\r' :: (m ++ t)) = false ∧ c = '\r' := by
          rcases hbroken with hnil | ⟨r, hr, hend⟩
          · cases hnil
          · obtain ⟨rfl, rfl⟩ := List.cons.inj hr
            exact ⟨hend, rfl⟩
        have hbroken' : Broken ('\r' :: m ++ t') := by
          refine .inr ⟨m ++ t', rfl, Text.atLineEnd_carriage ?_⟩
          cases m with
          | nil => exact head?_of_not_newline ht'
          | cons d m =>
            rintro ⟨⟩
            cases hend
        refine ⟨filler_of_notMem hfiller hl hbroken hbroken', ?_⟩
        have hrest : Text.opensComment ('\r' :: m) t' = false :=
          Text.opensComment_of_append (p := '\n' :: l) hs
        rw [Text.opensComment, hrest]
        simp [isLineBreak]

end

end Lexeme

/-! ## Readings with another text behind -/

/-- A line that begins in a text ends there whatever is behind, if that does not go on with a line
feed. -/
theorem Text.atLineEnd_eq_of_head {u t t' : Text} (ht : t.head? ≠ some '\n')
    (ht' : t'.head? ≠ some '\n') (hu : u ≠ []) : (u ++ t').atLineEnd = (u ++ t).atLineEnd := by
  obtain ⟨c, u, rfl⟩ := List.exists_cons_of_ne_nil hu
  have hiff : ∀ {s : Text}, s.head? ≠ some '\n' →
      ((∃ r, u ++ s = '\n' :: r) ↔ u.head? = some '\n') := by
    intro s hs
    rw [← List.head?_eq_some_iff]
    cases u with
    | nil => simp [hs]
    | cons d u => rfl
  rw [Bool.eq_iff_iff, List.cons_append, List.cons_append, Text.atLineEnd_cons, Text.atLineEnd_cons,
    hiff ht, hiff ht']

/-- The text `a` stands before `t'` as it stands before `t`: where it is left with `t` behind, it
is left in the same place with `t'` behind. -/
structure Precedes (e : Char) (a t t' : Text) : Prop where
  feed : t.head? ≠ some '\n'
  line' : ¬ ∃ ts r, newline (t'.dropWhile isBlank) = .ok ts r
  /-- Nothing is escaped at the end of a text. -/
  escape : t = [] → a.escapesNext e = false
  continuation : ∀ p u z ts, a = p ++ u → Lexeme.continuation e (u ++ t) = .ok ts (z ++ t) →
    Lexeme.continuation e (u ++ t') = .ok ts (z ++ t')

namespace Precedes

variable {e : Char} {a u t t' z : Text}

/-- It is enough that no comment at the end of `a` goes on. -/
theorem of_opensComment (hfeed : t.head? ≠ some '\n')
    (hline : ¬ ∃ ts r, newline (t'.dropWhile isBlank) = .ok ts r)
    (hescape : t = [] → a.escapesNext e = false) (hopen : a.opensComment t' = false) :
    Precedes e a t t' where
  feed := hfeed
  line' := hline
  escape := hescape
  continuation p u z ts ha hc := by
    obtain ⟨b, q, l, us, hu, hb, hq, hl⟩ := eq_of_continuation hc
    obtain ⟨ls, rfl, -⟩ := lines_shape hl
    obtain rfl : u = e :: (b ++ q) ++ '\n' :: (ls ++ z) :=
      List.append_cancel_right (by simpa using hu)
    have hopen' : Text.opensComment ('\n' :: (ls ++ z)) t' = false :=
      Text.opensComment_of_append (p := p ++ e :: (b ++ q)) (by simpa [ha] using hopen)
    have hc' := continuation_congr hb hq (hu ▸ hc) fun us hus =>
      lines_append hfeed hline (s := ls ++ z) (z := z) (by simpa using hus) hopen'
    simpa using hc'

theorem feed' (h : Precedes e a t t') : t'.head? ≠ some '\n' :=
  head?_of_not_newline h.line'

theorem atLineEnd_eq (h : Precedes e a t t') (hu : u ≠ []) :
    (u ++ t').atLineEnd = (u ++ t).atLineEnd :=
  Text.atLineEnd_eq_of_head h.feed h.feed' hu

/-- Where no continuation begins, none does with the other text. -/
theorem continuation_stuck (h : Precedes e a t t')
    (hstuck : ¬ ∃ ts r, Lexeme.continuation e (e :: (u ++ t)) = .ok ts r) :
    ¬ ∃ ts r, Lexeme.continuation e (e :: (u ++ t')) = .ok ts r := by
  rw [continuation_cons_eq_ok, List.dropWhile_append] at hstuck ⊢
  by_cases hblank : u.dropWhile isBlank = []
  · rw [hblank, List.isEmpty_nil, if_pos rfl]
    exact h.line'
  · rw [if_neg (by simpa using hblank)] at hstuck ⊢
    rintro ⟨ts, r, hr⟩
    obtain ⟨z, hz, -⟩ := (newline_append_iff hblank fun _ => h.feed').1 hr
    exact hstuck ⟨ts, z ++ t, (newline_append_iff hblank fun _ => h.feed).2 ⟨z, hz, rfl⟩⟩

/-- The other text can stand behind what a walk leaves. -/
theorem of_walk {p m : Text} (h : Precedes e a t t') (he : IsEscape e) (ha : p ++ m = a)
    (hw : t = [] → Walk e false (a ++ t) (m ++ t)) : Precedes e m t t' where
  feed := h.feed
  line' := h.line'
  escape ht := by
    have hwalk := hw ht
    rw [ht, List.append_nil, List.append_nil] at hwalk
    exact hwalk.escapesNext he (h.escape ht)
  continuation q u z ts hm hc :=
    h.continuation (p ++ q) u z ts (by rw [← ha, hm, List.append_assoc]) hc

/-- A walk is the same with the other text behind. -/
theorem walk (h : Precedes e a t t') (he : IsEscape e) (hw : Walk e false (a ++ t) (z ++ t)) :
    Walk e false (a ++ t') (z ++ t') := by
  generalize hS : a ++ t = S at hw
  generalize hR : z ++ t = R at hw
  induction hw generalizing a with
  | refl s =>
    obtain rfl := List.append_cancel_right (hS.trans hR.symm)
    exact .refl _
  | @plain c s r hc hend hw ih =>
    subst hR
    obtain ⟨w, rfl, rfl⟩ := hw.exists_append (k := [c]) hS
    have hend' := (h.atLineEnd_eq (List.cons_ne_nil c w)).trans hend
    have hrest : Precedes e w t t' := h.of_walk he rfl fun _ => .plain hc hend (.refl _)
    exact .plain hc hend' (ih hrest rfl rfl)
  | @pair c d s r hc hend hw ih =>
    subst hR
    obtain ⟨w, rfl, rfl⟩ := hw.exists_append (k := [c, d]) hS
    obtain ⟨rfl, hstuck⟩ := hc.resolve_right fun hc => Bool.false_ne_true hc.2.2
    have hend' := (h.atLineEnd_eq (List.cons_ne_nil d w)).trans hend
    have hrest : Precedes c w t t' :=
      h.of_walk (p := [c, d]) he rfl fun _ => .pair (.inl ⟨rfl, hstuck⟩) hend (.refl _)
    refine .pair (.inl ⟨rfl, ?_⟩) hend' (ih hrest rfl rfl)
    rw [continuation_stuck_iff] at hstuck
    exact continuation_stuck_iff.2 (h.continuation_stuck (u := d :: w) hstuck)
  | lone =>
    obtain ⟨rfl, rfl⟩ := List.append_eq_nil_iff.1 hR
    obtain rfl : a = [e] := by simpa using hS
    have hescape := h.escape rfl
    simp [Text.escapesNext] at hescape
  | @continuation s m r ts hc hw ih =>
    subst hR
    obtain ⟨w, rfl, rfl⟩ := hw.exists_append (hS.trans (lossless_continuation e _ _ _ hc).symm)
    subst hS
    have hrest : Precedes e w t t' := h.of_walk he rfl fun _ => .continuation hc (.refl _)
    exact .continuation (h.continuation [] _ w ts rfl hc) (ih hrest rfl rfl)

end Precedes

/-- The text `t` behind `a` can give way to `t'` where `a` is read up to its end. -/
structure Carries (e : Char) (a t t' : Text) : Prop extends Precedes e a t t' where
  /-- No reference goes on into `t`. -/
  head : t.head?.any Reference.isHeadChar = false
  /-- No reference goes on into `t'`. -/
  head' : t'.head?.any Reference.isHeadChar = false
  line : t = [] ∨ t.atLineEnd = false

namespace Carries

variable {e : Char} {a t t' : Text}

/-- The other text can stand behind what a walk leaves. -/
theorem of_walk {p m : Text} (h : Carries e a t t') (he : IsEscape e) (ha : p ++ m = a)
    (hw : t = [] → Walk e false (a ++ t) (m ++ t)) : Carries e m t t' where
  toPrecedes := h.toPrecedes.of_walk he ha hw
  head := h.head
  head' := h.head'
  line := h.line

end Carries

namespace Literal

section

variable {e c : Char} {u a t t' : Text} {q q' : Option Quote}

/-- An escaping character takes the same, or goes on into the text behind. -/
theorem stepEscaped_carried (hq : SameQuote q q') (h : Carries e a t t') (c : Char)
    (hu : u = [] → t ≠ []) :
    (stepEscaped q c (u ++ t)).Swapped t t' (stepEscaped q' c (u ++ t')) := by
  cases u with
  | nil =>
    obtain ⟨d, t, rfl⟩ := List.exists_cons_of_ne_nil (hu rfl)
    have hend := h.line.resolve_left (List.cons_ne_nil d t)
    rw [List.nil_append, stepEscaped, hend]
    exact .past (by simp) _
  | cons d u =>
    exact stepEscaped_swapped hq c (h.atLineEnd_eq (List.cons_ne_nil d u))

theorem stepEscape_carried (hq : SameQuote q q') (h : Carries e (e :: u) t t') :
    (stepEscape q e (u ++ t)).Swapped t t' (stepEscape q' e (u ++ t')) := by
  refine stepEscape_swapped_of hq (fun {ts z} hc => h.continuation [] (e :: u) z ts rfl hc)
    h.continuation_stuck (stepEscaped_carried hq h e ?_)
  rintro rfl rfl
  simpa [Text.escapesNext] using h.escape rfl

/-- A step does the same with another text behind. -/
theorem step_carried {style : Style} (hq : SameQuote q q') (h : Carries e a t t') (ha : a ≠ [])
    (hjson : style.jsonEscapes = true → t ≠ []) :
    (step style e q (a ++ t)).Swapped t t' (step style e q' (a ++ t')) := by
  have hend := h.atLineEnd_eq ha
  obtain ⟨c, u, rfl⟩ := List.exists_cons_of_ne_nil ha
  refine step_swapped_of hq h.head h.head' hend ?_ fun hj => stepEscaped_carried hq h c fun _ =>
    hjson hj
  rintro rfl
  exact stepEscape_carried hq h

end

/-- The last step of a quoted run takes its mark. -/
theorem eq_of_step_last {e : Char} {style : Style} {q : Option Quote} {s r : Text} {ps : List Piece}
    (h : step style e q s = .last ps r) : ∃ c, s = c :: r ∧ ps = [.token (.symbol [c])] := by
  have hj : style.jsonEscapes = true → true = true ∨ e = '\\' := fun _ => .inl rfl
  have hmoves := moves_step hj q s
  rw [h] at hmoves
  obtain ⟨c, hs, -, -, hps⟩ := hmoves
  exact ⟨c, hs, hps⟩

/-- Where the literal ends with its quote, the quote stays open up to the last step. -/
theorem quote_of_step_take {e : Char} {style : Style} {b : Quote} {q : Option Quote} {s m : Text}
    {ps : List Piece} (hrun : style.oneQuotedRun = true)
    (h : step style e (some b) s = .take ps q m) : q = some b := by
  have hescaped {c : Char} {s : Text} (h : stepEscaped (some b) c s = .take ps q m) :
      q = some b := by
    unfold stepEscaped at h
    split at h
    · cases h
      rfl
    · split at h <;> cases h <;> rfl
  unfold step at h
  split at h
  · cases h
  · split at h
    · unfold stepEscape at h
      split at h
      · cases h
        rfl
      · exact hescaped h
    · split at h
      · cases h
      · split at h
        · exact hescaped h
        · dsimp only [stepQuoted] at h
          rw [if_pos hrun] at h
          split at h
          · cases h
          · unfold stepChar stepDollar at h
            split at h
            · split at h <;> cases h <;> rfl
            · cases h
              rfl

/-- A literal that does not end with its quote goes on to be one. -/
theorem unquoted_of_step_take {e : Char} {style : Style} {q q' : Option Quote} {s m : Text}
    {ps : List Piece} (h : step style e q s = .take ps q' m)
    (hq' : style.oneQuotedRun = false ∨ q' = none) : style.oneQuotedRun = false ∨ q = none := by
  cases hrun : style.oneQuotedRun with
  | false => exact .inl rfl
  | true =>
    cases q with
    | none => exact .inr rfl
    | some b => simp [hrun, quote_of_step_take hrun h] at hq'

/-- A reading is the same with another text behind, if it ends before that text; unless it ends
with a closing quote, it must end there too. -/
theorem Scans.carry {e : Char} {style : Style} {q q' : Option Quote} {a t t' z : Text}
    {ps : List Piece} (h : Scans e style q (a ++ t) ps (z ++ t)) (he : IsEscape e)
    (hjson : style.jsonEscapes = true → t ≠ []) (hc : Carries e a t t') (hq : SameQuote q q')
    (hstop : style.oneQuotedRun = false ∨ q = none → z = [] → step style e none t' = .stop) :
    Scans e style q' (a ++ t') ps (z ++ t') := by
  have hb : Ordinary e '}' := he.ordinary (q := (· == '}')) (by decide) '}' rfl
  generalize hS : a ++ t = S at h
  generalize hR : z ++ t = R at h
  induction h generalizing q' a z with
  | @stop style S hstep =>
    subst hS
    obtain rfl := List.append_cancel_right hR
    cases q' with
    | some b => cases hq
    | none =>
      refine .stop ?_
      by_cases hz : z = []
      · subst hz
        exact hstop (.inr rfl) rfl
      · exact stop_of_swapped hstep (step_carried rfl hc hz hjson)
  | @take style quote q₁ S M R ps ws hstep hm ih =>
    subst hS hR
    obtain ⟨m, rfl⟩ : ∃ m, M = m ++ t := ⟨_, by rw [List.append_assoc, hm.sourceOf_append_eq]⟩
    have ha := ne_nil_of_length_lt (length_lt_of_step_take hstep)
    obtain ⟨htaken, q₂, hstep', hq₂⟩ :=
      exists_take_of_swapped hstep (step_carried hq hc ha hjson)
    have hcm : Carries e m t t' := hc.of_walk he htaken fun ht =>
      (takes_step (fun hj => absurd ht (hjson hj)) hstep).walk he
    exact .take hstep' (ih hjson hcm hq₂ (fun hq₁ => hstop (unquoted_of_step_take hstep hq₁))
      rfl rfl)
  | @last style quote S R ps hstep =>
    subst hS hR
    have ha : a ≠ [] := by
      obtain ⟨c, hlast, -⟩ := eq_of_step_last hstep
      exact ne_nil_of_length_lt (m := z) (by rw [hlast]; exact Nat.lt_succ_self _)
    exact .last (last_of_swapped hstep (step_carried hq hc ha hjson))
  | @reference style quote S M M' R name op ws qs hstep hw hm ihw ih =>
    subst hS hR
    obtain ⟨m', rfl⟩ : ∃ m, M' = m ++ t := ⟨_, by rw [List.append_assoc, hm.sourceOf_append_eq]⟩
    obtain ⟨m, rfl⟩ : ∃ m, M = m ++ t :=
      ⟨sourceOf ws ++ '}' :: m', by rw [List.append_assoc, List.cons_append, hw.sourceOf_append_eq]⟩
    have ha := ne_nil_of_length_lt (length_lt_of_step_reference hstep)
    obtain ⟨htaken, hstep'⟩ := reference_of_swapped hstep (step_carried hq hc ha hjson)
    have heq : sourceOf ws ++ '}' :: m' = m :=
      List.append_cancel_right (by simpa using hw.sourceOf_append_eq)
    have hcm : Carries e m t t' := hc.of_walk he htaken fun _ => walk_of_step_reference he hstep
    have hcm' : Carries e m' t t' :=
      hcm.of_walk (p := sourceOf ws ++ ['}']) he (by simpa using heq) fun _ =>
        (hw.walk he fun hj => absurd hj Bool.false_ne_true).trans
          (.plain hb.1 (Text.atLineEnd_eq_false hb.2) (.refl _))
    have hword := @ihw none m ('}' :: m') (fun hj => absurd hj Bool.false_ne_true) hcm rfl
      (fun _ hz => absurd hz (List.cons_ne_nil _ _)) rfl rfl
    exact .reference hstep' hword (ih hjson hcm' hq hstop rfl rfl)

end Literal

/-! ## Values before an argument -/

/-- A text without a line end can stand behind a value that is kept apart from it. -/
theorem EndsBefore.carries {e : Char} {v t : Text} (h : EndsBefore e v t)
    (hhead : t.head?.any Reference.isHeadChar = false)
    (hline : ¬ ∃ ts r, newline (t.dropWhile isBlank) = .ok ts r) : Carries e v [] t where
  toPrecedes := .of_opensComment nofun hline (fun _ => h.unescaped) h.uncommented
  head := rfl
  head' := hhead
  line := .inl rfl

section

variable {e c : Char} {v n : Text} (he : IsEscape e) (hblank : isBlank c = false)
  (hend : Text.atLineEnd (c :: n) = false)
include hblank hend

theorem not_newline_of_argument :
    ¬ ∃ ts r, newline (List.dropWhile isBlank (' ' :: c :: n)) = .ok ts r := by
  rintro ⟨ts, r, hr⟩
  have hline := atLineEnd_of_newline hr
  rw [List.dropWhile_cons_of_pos (by rfl), List.dropWhile_cons_of_neg (by simp [hblank]),
    hend] at hline
  cases hline

include he

/-- A literal is read up to the blank before one more argument exactly if it is read to its end
when it stands alone, and is kept apart from the argument. -/
theorem Literal.scans_before_iff {style : Style} (hstyle : style.Plain)
    (hblanks : style.blanksEnd = true) :
    (∃ us, Scans e style none (v ++ ' ' :: c :: n) us (' ' :: c :: n)) ↔
      (∃ ps, Scans e style none v ps []) ∧ EndsBefore e v (' ' :: c :: n) := by
  have hj : style.jsonEscapes = true → False := by simp [hstyle.escapes]
  constructor
  · rintro ⟨us, hus⟩
    refine ⟨?_, (hus.walk he fun hjson => (hj hjson).elim).endsBefore he rfl⟩
    have hswaps : Swaps e v (' ' :: c :: n) [] :=
      .of_gap he ⟨' ', c :: n, rfl, .inl rfl⟩ (.line rfl)
      (fun _ _ _ => filler_of_broken (.inl rfl)) (by simp)
    have halone := (Scans.swap (z := []) hus he hstyle hswaps (show SameQuote none none from rfl)).2
      ⟨[], rfl, .stop rfl⟩
    rw [List.append_nil] at halone
    exact ⟨_, halone⟩
  · rintro ⟨⟨ps, hps⟩, hends⟩
    have hps' : Scans e style none (v ++ []) ps ([] ++ []) := by simpa using hps
    exact ⟨ps, hps'.carry he (fun hjson => (hj hjson).elim)
      (hends.carries rfl (not_newline_of_argument hblank hend))
      (show SameQuote none none from rfl) fun _ _ => step_blank he hblanks rfl⟩

end

end Containerfile
