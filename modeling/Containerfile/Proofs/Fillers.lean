import Containerfile.Proofs.Arrays

/-!
# Continued line ends

An escape character before a line end continues the line for every walk that comes by, unless the
character before it is an escape as well.  The comment lines and blank lines behind it then belong
to the continuation for each of these walks.  So walks that differ in how they got there agree
from there on: none of them ends in such a place.

## Main definitions

* `FillerLine`, `Filler` — a comment line or blank line with its line end, and any number of them.
* `Continued` — a text that begins with an escape character, blanks, a line end and fillers.

## Main results

* `Walk.length_le_of_continued` — a walk that goes past a continued line end goes past the fillers.
* `exists_continued_of_separators` — separators that end with a line feed end with a continued line.
* `Walk.not_comment` — a walk does not stand in a comment.
-/

namespace Containerfile

open Lexeme Grammar

/-! ## Lines -/

theorem Text.eq_append_dropWhile (q : Char → Bool) (s : Text) :
    ∃ w, s = w ++ s.dropWhile q ∧ ∀ c ∈ w, q c = true :=
  ⟨s.takeWhile q, List.takeWhile_append_dropWhile.symm,
    fun c hc => List.all_eq_true.1 List.all_takeWhile c hc⟩

theorem Text.eq_false_of_dropWhile {q : Char → Bool} {s r : Text} {c : Char}
    (h : s.dropWhile q = c :: r) : q c = false := by
  induction s with
  | nil => cases h
  | cons d s ih =>
    by_cases hd : q d = true
    · rw [List.dropWhile_cons_of_pos hd] at h
      exact ih h
    · rw [List.dropWhile_cons_of_neg hd] at h
      cases h
      simpa using hd

theorem Text.dropWhile_dropWhile (q : Char → Bool) (s : Text) :
    (s.dropWhile q).dropWhile q = s.dropWhile q := by
  cases h : s.dropWhile q with
  | nil => rfl
  | cons c r => rw [List.dropWhile_cons_of_neg (by simp [Text.eq_false_of_dropWhile h])]

/-- Of two ways to cut a text, the one with the longer end has the shorter beginning. -/
theorem Text.exists_of_append_eq_append {p m a k : Text} (h : p ++ m = a ++ k)
    (hlen : k.length ≤ m.length) : ∃ a', a = p ++ a' ∧ m = a' ++ k := by
  obtain ⟨a', ha, hm⟩ | ⟨c, hp, hk⟩ := List.append_eq_append_iff.1 h
  · exact ⟨a', ha, hm⟩
  · obtain rfl : c = [] := by
      rw [hk, List.length_append] at hlen
      exact List.length_eq_zero_iff.1 (by omega)
    exact ⟨[], by simp_all, by simp_all⟩

/-- What does not have a character ends before the character. -/
theorem Text.exists_of_notMem {q t p z : Text} {c : Char} (h : q ++ t = p ++ c :: z) (hq : c ∉ q) :
    ∃ v, p = q ++ v ∧ t = v ++ c :: z := by
  obtain ⟨v, hp, ht⟩ | ⟨v, hp, ht⟩ := List.append_eq_append_iff.1 h
  · exact ⟨v, hp, ht⟩
  · cases v with
    | nil => exact ⟨[], by simp_all, by simp_all⟩
    | cons d v =>
      obtain ⟨rfl, -⟩ := List.cons.inj ht
      exact absurd (by rw [hp]; simp) hq

/-- What has no line feed ends before the line feed. -/
theorem Text.length_lt_of_newline {p m a l : Text} (h : p ++ m = a ++ '\n' :: l) (hp : '\n' ∉ p) :
    l.length < m.length := by
  refine Nat.lt_of_not_le fun hlen => ?_
  have h' : (a ++ ['\n']) ++ l = p ++ m := by simpa using h.symm
  obtain ⟨b, rfl, -⟩ := Text.exists_of_append_eq_append h' hlen
  simp at hp

theorem optional_run_rest {kind : LeafKind} {q : Char → Bool} {s r : Text} {ts : List Token}
    (h : optional (run kind q) s = .ok ts r) : r = s.dropWhile q := by
  obtain ⟨us, hu⟩ := optional_run_eq_ok kind q s
  rw [hu] at h
  cases h
  rfl

/-- A blank line is blanks and a line end. -/
theorem blankLine_eq_ok {s r : Text} :
    (∃ ts, blankLine s = .ok ts r) ↔ ∃ ts, newline (s.dropWhile isBlank) = .ok ts r := by
  constructor
  · rintro ⟨ts, e⟩
    obtain ⟨us, vs, m, hu, hv, -⟩ := seq_eq_ok.1 e
    rw [optional_run_rest hu] at hv
    exact ⟨vs, hv⟩
  · rintro ⟨ts, e⟩
    obtain ⟨us, hu⟩ := optional_run_eq_ok .blank isBlank s
    exact ⟨us ++ ts, seq_eq_ok.2 ⟨us, ts, _, hu, e, rfl⟩⟩

/-- A comment is blanks, a number sign, the text up to the next line break, and a line end if there
is one. -/
theorem commentBody_eq_ok {s r : Text} :
    (∃ ts, commentBody s = .ok ts r) ↔
      ∃ s' ts, s.dropWhile isBlank = '#' :: s' ∧
        optional newline (s'.dropWhile fun c => !isLineBreak c) = .ok ts r := by
  constructor
  · rintro ⟨ts, e⟩
    obtain ⟨_, vs, m, hu, hv, -⟩ := seq_eq_ok.1 e
    obtain ⟨_, _, m1, hu, hw, -⟩ := seq_eq_ok.1 hu
    obtain ⟨_, _, m2, hu, hm, -⟩ := seq_eq_ok.1 hu
    rw [optional_run_rest hw] at hv
    obtain ⟨hm, -⟩ := exactly_eq_ok.1 hm
    rw [optional_run_rest hu] at hm
    exact ⟨m1, vs, hm, hv⟩
  · rintro ⟨s', ts, hs, e⟩
    obtain ⟨us, hu⟩ := optional_run_eq_ok .blank isBlank s
    obtain ⟨ws, hw⟩ := optional_run_eq_ok .fragment (fun c => !isLineBreak c) s'
    exact ⟨_, seq_eq_ok.2 ⟨_, ts, _, seq_eq_ok.2 ⟨_, ws, _, seq_eq_ok.2
      ⟨us, _, _, hu, exactly_eq_ok.2 ⟨hs, rfl⟩, rfl⟩, hw, rfl⟩, e, rfl⟩⟩

theorem filler_eq_ok_or_stuck (s : Text) :
    (∃ ts r, filler s = .ok ts r) ∨ ∃ m, filler s = .stuck m := by
  cases h : filler s with
  | ok ts r => exact .inl ⟨ts, r, rfl⟩
  | stuck m => exact .inr ⟨m, rfl⟩
  | failed f => exact absurd h ((unfailing_commentBody.node _).either unfailing_blankLine s f)

theorem filler_eq_ok {s r : Text} {ts : List Token} (h : filler s = .ok ts r) :
    (∃ us, commentBody s = .ok us r) ∨ ∃ us, blankLine s = .ok us r := by
  obtain h | ⟨-, h⟩ := either_eq_ok.1 h
  · obtain ⟨us, hu, -⟩ := node_eq_ok.1 h
    exact .inl ⟨us, hu⟩
  · exact .inr ⟨ts, h⟩

/-- The text is at its end, or at a carriage return that ends no line. -/
def Broken (s : Text) : Prop :=
  s = [] ∨ ∃ r, s = '\r' :: r ∧ Text.atLineEnd s = false

theorem atLineEnd_of_newline {s r : Text} {ts : List Token} (h : newline s = .ok ts r) :
    Text.atLineEnd s = true := by
  obtain ⟨rfl, -⟩ | ⟨rfl, -⟩ := newline_eq_ok.1 h <;> rfl

/-- At such a place there is neither a comment nor a blank line. -/
theorem filler_of_broken {s : Text} (h : Broken s) : ∃ m, filler s = .stuck m := by
  obtain ⟨ts, r, e⟩ | hstuck := filler_eq_ok_or_stuck s
  · have hdrop : s.dropWhile isBlank = s := by
      obtain rfl | ⟨r, rfl, -⟩ := h
      · rfl
      · rfl
    exfalso
    obtain hc | hb := filler_eq_ok e
    · obtain ⟨s', -, hs, -⟩ := commentBody_eq_ok.1 hc
      rw [hdrop] at hs
      obtain rfl | ⟨r, rfl, -⟩ := h <;> cases hs
    · obtain ⟨us, hn⟩ := blankLine_eq_ok.1 hb
      rw [hdrop] at hn
      obtain rfl | ⟨r, -, hr⟩ := h
      · cases hn
      · rw [atLineEnd_of_newline hn] at hr
        cases hr
  · exact hstuck

theorem newline_shape {s r : Text} {ts : List Token} (h : newline s = .ok ts r) :
    ∃ q, s = q ++ '\n' :: r ∧ (q = [] ∨ q = ['\r']) := by
  obtain ⟨rfl, -⟩ | ⟨rfl, -⟩ := newline_eq_ok.1 h
  · exact ⟨['\r'], rfl, .inr rfl⟩
  · exact ⟨[], rfl, .inl rfl⟩

theorem newline_notMem {b q : Text} (hb : ∀ c ∈ b, isBlank c = true) (hq : q = [] ∨ q = ['\r']) :
    '\n' ∉ b ++ q := by
  rw [List.mem_append, not_or]
  refine ⟨fun hm => absurd (hb _ hm) (by decide), ?_⟩
  obtain rfl | rfl := hq <;> decide

theorem broken_of_dropWhile {s r m : Text} (h : s.dropWhile (fun c => !isLineBreak c) = r)
    (hn : newline r = .stuck m) : Broken r := by
  cases r with
  | nil => exact .inl rfl
  | cons c r =>
    have hend : Text.atLineEnd (c :: r) = false := by
      cases hend : Text.atLineEnd (c :: r) with
      | false => rfl
      | true =>
        obtain ⟨ts, r', e⟩ := newline_of_atLineEnd hend
        rw [hn] at e
        cases e
    have hc := Text.eq_false_of_dropWhile h
    simp only [isLineBreak, Bool.not_eq_false', Bool.or_eq_true, beq_iff_eq] at hc
    obtain rfl | rfl := hc
    · exact .inr ⟨r, rfl, hend⟩
    · cases hend

/-- A comment or blank line goes up to the first line feed, or to a place where no line can be
read. -/
theorem filler_shape {s r : Text} {ts : List Token} (h : filler s = .ok ts r) :
    ∃ l, s = l ++ r ∧ ((∃ q, l = q ++ ['\n'] ∧ '\n' ∉ q) ∨ '\n' ∉ l ∧ Broken r) := by
  obtain ⟨b, hb, hblank⟩ := Text.eq_append_dropWhile isBlank s
  have hbn : '\n' ∉ b := fun hm => absurd (hblank _ hm) (by decide)
  obtain hc | hl := filler_eq_ok h
  · obtain ⟨s', us, hs, hn⟩ := commentBody_eq_ok.1 hc
    obtain ⟨w, hw, htext⟩ := Text.eq_append_dropWhile (fun c => !isLineBreak c) s'
    have hwn : '\n' ∉ w := fun hm => absurd (htext _ hm) (by decide)
    have hq : '\n' ∉ b ++ '#' :: w := by simp [hbn, hwn]
    rw [hs, hw] at hb
    obtain hn | ⟨⟨m, hstuck⟩, -, rfl⟩ := optional_eq_ok.1 hn
    · obtain ⟨n, hd, hn'⟩ := newline_shape hn
      have hnn : '\n' ∉ n := newline_notMem (b := []) (by simp) hn'
      refine ⟨(b ++ '#' :: w ++ n) ++ ['\n'], ?_, .inl ⟨_, rfl, ?_⟩⟩
      · rw [hb, hd]
        simp
      · simpa [not_or] using ⟨hbn, hwn, hnn⟩
    · exact ⟨b ++ '#' :: w, by simpa using hb, .inr ⟨hq, broken_of_dropWhile rfl hstuck⟩⟩
  · obtain ⟨us, hn⟩ := blankLine_eq_ok.1 hl
    obtain ⟨n, hd, hn'⟩ := newline_shape hn
    refine ⟨(b ++ n) ++ ['\n'], ?_, .inl ⟨_, rfl, newline_notMem hblank hn'⟩⟩
    rw [hb, hd]
    simp

/-! ## Fillers -/

/-- A comment line or blank line with its line end. -/
structure FillerLine (l : Text) : Prop where
  shape : ∃ q, l = q ++ ['\n'] ∧ '\n' ∉ q
  read : ∃ ts, filler l = .ok ts []

/-- Any number of comment lines and blank lines. -/
inductive Filler : Text → Prop where
  | nil : Filler []
  | cons {l cs : Text} (hl : FillerLine l) (h : Filler cs) : Filler (l ++ cs)

theorem FillerLine.hasNewline {l : Text} (h : FillerLine l) : HasNewline l := by
  obtain ⟨q, rfl, -⟩ := h.shape
  exact HasNewline.append_left List.mem_cons_self q

theorem FillerLine.append {l : Text} (h : FillerLine l) (t : Text) :
    ∃ ts, filler (l ++ t) = .ok ts t := by
  obtain ⟨ts, e⟩ := h.read
  exact ⟨ts, (decided_filler l h.hasNewline t).eq_ok e⟩

theorem fillerLine_of_read {q r : Text} {ts : List Token} (hq : '\n' ∉ q)
    (h : filler (q ++ ['\n'] ++ r) = .ok ts r) : FillerLine (q ++ ['\n']) where
  shape := ⟨q, rfl, hq⟩
  read := by
    have hnl : HasNewline (q ++ ['\n']) := HasNewline.append_left List.mem_cons_self q
    exact ⟨ts, (decided_filler _ hnl r).of_eq_ok h⟩

/-- The lines that a continuation takes include the fillers that come first. -/
theorem Filler.lines {cs t r : Text} {ts : List Token} (h : Filler cs)
    (e : lines (cs ++ t) = .ok ts r) : ∃ us, Lexeme.lines t = .ok us r := by
  induction h generalizing ts with
  | nil => exact ⟨ts, e⟩
  | @cons l cs hl _ ih =>
    obtain ⟨us, hu⟩ := hl.append (cs ++ t)
    rw [List.append_assoc] at e
    obtain ⟨us', m, vs, hu', -, hm, -⟩ | ⟨hu', hlt⟩ | ⟨⟨m, hs⟩, -⟩ := many_eq_ok.1 e
    · rw [hu] at hu'
      cases hu'
      exact ih hm
    · exact absurd (advances_filler _ _ _ hu') hlt
    · rw [hu] at hs
      cases hs

theorem length_le_of_lines {s r : Text} {ts : List Token} (h : lines s = .ok ts r) :
    r.length ≤ s.length :=
  compositional_shrinks.many advances_filler.shrinks s ts r h

/-- Where no line can be read, none is. -/
theorem eq_of_lines_of_broken {s r : Text} {ts : List Token} (hs : Broken s)
    (h : lines s = .ok ts r) : r = s := by
  obtain ⟨k, hk⟩ := filler_of_broken hs
  obtain ⟨us, m, vs, hu, -⟩ | ⟨hu, -⟩ | ⟨-, -, hr⟩ := many_eq_ok.1 h
  · rw [hk] at hu
    cases hu
  · rw [hk] at hu
    cases hu
  · exact hr

/-- What lines take ends with a line feed, unless they stop where no line can be read. -/
theorem lines_shape {s r : Text} {ts : List Token} (h : lines s = .ok ts r) :
    ∃ ls, s = ls ++ r ∧ (ls = [] ∨ ls.getLast? = some '\n' ∨ Broken r) := by
  induction s, ts, r, h using advances_filler.many_induction with
  | nil s m _ _ => exact ⟨[], rfl, .inl rfl⟩
  | round s us m vs r hu hm _ ih =>
    obtain ⟨l, rfl, ⟨q, rfl, -⟩ | ⟨-, hr⟩⟩ := filler_shape hu
    · obtain ⟨ls, rfl, rfl | hls | hr⟩ := ih
      · exact ⟨q ++ ['\n'], rfl, .inr (.inl (by simp))⟩
      · refine ⟨q ++ ['\n'] ++ ls, by simp, .inr (.inl ?_)⟩
        rw [List.getLast?_append, hls]
        rfl
      · exact ⟨q ++ ['\n'] ++ ls, by simp, .inr (.inr hr)⟩
    · obtain rfl := eq_of_lines_of_broken hr hm
      exact ⟨l, rfl, .inr (.inr hr)⟩

theorem Text.getLast?_of_append {a b : Text} {c : Char} (h : (a ++ b).getLast? = some c)
    (hb : b ≠ []) : b.getLast? = some c := by
  rw [List.getLast?_append] at h
  cases hlast : b.getLast? with
  | none => exact absurd (List.getLast?_eq_none_iff.1 hlast) hb
  | some d =>
    rw [hlast] at h
    exact h

/-- Lines that take a whole text with a line feed at its end are fillers. -/
theorem filler_of_lines {s : Text} {ts : List Token} (h : lines s = .ok ts [])
    (hs : s = [] ∨ s.getLast? = some '\n') : Filler s := by
  generalize hr : ([] : Text) = r at h
  induction s, ts, r, h using advances_filler.many_induction with
  | nil s m _ _ =>
    subst hr
    exact .nil
  | round s us m vs r hu hm _ ih =>
    subst hr
    obtain ⟨l, rfl, ⟨q, rfl, hq⟩ | ⟨hl, hbroken⟩⟩ := filler_shape hu
    · refine .cons (fillerLine_of_read hq hu) (ih ?_ rfl)
      by_cases hm : m = []
      · exact .inl hm
      · obtain hs | hs := hs
        · exact absurd (List.append_eq_nil_iff.1 hs).2 hm
        · exact .inr (Text.getLast?_of_append hs hm)
    · obtain rfl := eq_of_lines_of_broken hbroken hm
      rw [List.append_nil] at hs
      obtain rfl | hs := hs
      · exact .nil
      · exact absurd (List.mem_of_getLast? hs) hl

/-- Lines that go past a line feed could also begin behind it. -/
theorem lines_of_newline {s a l r : Text} {ts : List Token} (h : lines s = .ok ts r)
    (hs : s = a ++ '\n' :: l) (hr : r.length ≤ l.length) : ∃ us, lines l = .ok us r := by
  induction s, ts, r, h using advances_filler.many_induction generalizing a with
  | nil s m _ _ =>
    rw [hs, List.length_append, List.length_cons] at hr
    omega
  | round s us m vs r hu hm _ ih =>
    obtain ⟨k, hk, hshape⟩ := filler_shape hu
    by_cases hlen : l.length < m.length
    · obtain ⟨a', rfl, hm'⟩ := Text.exists_of_append_eq_append (hk.symm.trans hs) hlen
      exact ih hm' hr
    · obtain ⟨q, rfl, hq⟩ | ⟨hkn, -⟩ := hshape
      · have hlt := Text.length_lt_of_newline (m := '\n' :: m) (by simpa [hk] using hs) hq
        rw [List.length_cons] at hlt
        obtain ⟨-, hml⟩ := List.append_inj' (by simpa [hk] using hs : q ++ '\n' :: m = _)
          (by simp only [List.length_cons]; omega)
        obtain ⟨-, rfl⟩ := List.cons.inj hml
        exact ⟨vs, hm⟩
      · exact absurd (Text.length_lt_of_newline (hk.symm.trans hs) hkn) hlen

theorem eq_of_continuation {e : Char} {s r : Text} {ts : List Token}
    (h : continuation e s = .ok ts r) :
    ∃ b q l us, s = e :: (b ++ q) ++ '\n' :: l ∧ (∀ c ∈ b, isBlank c = true) ∧
      (q = [] ∨ q = ['\r']) ∧ lines l = .ok us r := by
  obtain ⟨s', rfl⟩ := eq_cons_of_continuation h
  obtain ⟨us, vs, m, hu, hv, -⟩ := seq_eq_ok.1 h
  obtain ⟨ws, hw, -⟩ := node_eq_ok.1 hu
  obtain ⟨_, ns, m1, hw, hn, -⟩ := seq_eq_ok.1 hw
  obtain ⟨_, _, m2, hw, hb, -⟩ := seq_eq_ok.1 hw
  obtain rfl : s' = m2 := by simpa using (exactly_eq_ok.1 hw).1
  obtain ⟨b, hb', hblank⟩ := Text.eq_append_dropWhile isBlank s'
  rw [← optional_run_rest hb] at hb'
  obtain ⟨q, rfl, hq⟩ := newline_shape hn
  exact ⟨b, q, m, vs, by simp [hb'], hblank, hq, hv⟩

/-- What a continuation takes ends with a line feed, unless it stops where no line can be read. -/
theorem continuation_shape {e : Char} {s r : Text} {ts : List Token}
    (h : continuation e s = .ok ts r) :
    ∃ ls, s = ls ++ r ∧ (ls.getLast? = some '\n' ∨ Broken r) := by
  obtain ⟨b, q, l, us, rfl, -, -, hl⟩ := eq_of_continuation h
  obtain ⟨ls, rfl, hls⟩ := lines_shape hl
  refine ⟨e :: (b ++ q) ++ '\n' :: ls, by simp, ?_⟩
  obtain rfl | hls | hr := hls
  · left
    rw [List.getLast?_append]
    rfl
  · left
    rw [List.getLast?_append, List.getLast?_cons, hls]
    rfl
  · exact .inr hr

/-- A continuation that goes past a line feed takes the lines behind it. -/
theorem continuation_of_newline {e : Char} (he : IsEscape e) {s a l r : Text} {ts : List Token}
    (h : continuation e s = .ok ts r) (hs : s = a ++ '\n' :: l) (hr : r.length ≤ l.length) :
    ∃ us, lines l = .ok us r := by
  obtain ⟨b, q, l', us, rfl, hb, hq, hl⟩ := eq_of_continuation h
  have hpn : '\n' ∉ e :: (b ++ q) := by
    rw [List.mem_cons, not_or]
    exact ⟨he.ne_newline.symm, newline_notMem hb hq⟩
  have hle := Text.length_lt_of_newline hs hpn
  rw [List.length_cons] at hle
  by_cases hlen : l.length < l'.length
  · have hs' : (e :: (b ++ q) ++ ['\n']) ++ l' = a ++ '\n' :: l := by simpa using hs
    obtain ⟨a', -, hl'⟩ := Text.exists_of_append_eq_append hs' hlen
    exact lines_of_newline hl hl' hr
  · obtain ⟨-, hll⟩ := List.append_inj' hs (by simp only [List.length_cons]; omega)
    obtain ⟨-, rfl⟩ := List.cons.inj hll
    exact ⟨us, hl⟩

/-! ## Continued line ends -/

/-- What is behind an escape character that continues its line: blanks, the line end and fillers. -/
inductive Continued : Text → Prop where
  | mk {b q cs : Text} (hb : ∀ c ∈ b, isBlank c = true) (hq : q = [] ∨ q = ['\r'])
      (h : Filler cs) : Continued (b ++ q ++ '\n' :: cs)

namespace Continued

variable {e : Char} {w : Text}

theorem continuation (hw : Continued w) (t : Text) :
    ∃ ts r, Lexeme.continuation e (e :: (w ++ t)) = .ok ts r := by
  obtain @⟨b, q, cs, hb, hq, -⟩ := hw
  rw [continuation_cons_eq_ok, List.append_assoc, List.append_assoc,
    List.dropWhile_append_of_pos hb]
  obtain rfl | rfl := hq
  · exact ⟨_, _, newline_eq_ok.2 (.inr ⟨rfl, rfl⟩)⟩
  · exact ⟨_, _, newline_eq_ok.2 (.inl ⟨rfl, rfl⟩)⟩

/-- Between the escape character and the line feed no line begins, and lines can be read. -/
theorem not_broken {b q k k' : Text} (hb : ∀ c ∈ b, isBlank c = true)
    (hq : q = [] ∨ q = ['\r']) (h : b ++ q = k ++ k') (l : Text) : ¬ Broken (k' ++ '\n' :: l) := by
  by_cases hlen : q.length ≤ k'.length
  · obtain ⟨b', rfl, rfl⟩ := Text.exists_of_append_eq_append h.symm hlen
    cases b' with
    | nil =>
      obtain rfl | rfl := hq
      · rintro (h | ⟨r, h, -⟩) <;> cases h
      · rintro (h | ⟨r, -, h⟩) <;> cases h
    | cons c b' =>
      rintro (h | ⟨r, h, -⟩)
      · cases h
      · obtain ⟨rfl, -⟩ := List.cons.inj h
        exact absurd (hb '\r' (by simp)) (by decide)
  · obtain rfl : k' = [] := by
      obtain rfl | rfl := hq
      · exact absurd (Nat.zero_le _) hlen
      · rw [List.length_singleton] at hlen
        exact List.length_eq_zero_iff.1 (by omega)
    rintro (h | ⟨r, h, -⟩) <;> cases h

/-- A continuation that goes past a continued line end goes past the fillers. -/
theorem length_le (hw : Continued w) (he : IsEscape e) {s a t r : Text} {ts : List Token}
    (h : Lexeme.continuation e s = .ok ts r) (hs : s = a ++ e :: (w ++ t))
    (hr : r.length ≤ (w ++ t).length) : r.length ≤ t.length := by
  obtain @⟨b, q, cs, hb, hq, hcs⟩ := hw
  have hs' : s = (a ++ [e] ++ (b ++ q)) ++ '\n' :: (cs ++ t) := by simp [hs]
  by_cases hlen : r.length ≤ (cs ++ t).length
  · obtain ⟨us, hl⟩ := continuation_of_newline he h hs' hlen
    obtain ⟨vs, hv⟩ := hcs.lines hl
    exact length_le_of_lines hv
  · -- the continuation ends behind the escape character and before the line feed
    exfalso
    obtain ⟨ls, hls, hend⟩ := continuation_shape h
    obtain ⟨k', hk, hr'⟩ := Text.exists_of_append_eq_append (hls.symm.trans hs')
      (Nat.lt_of_not_le hlen)
    have hk' : k'.length ≤ (b ++ q).length := by
      simp only [hr', List.length_append, List.length_cons] at hr ⊢
      omega
    obtain ⟨k, rfl, hbq⟩ := Text.exists_of_append_eq_append hk hk'
    obtain hend | hend := hend
    · have hmem : '\n' ∈ [e] ++ k :=
        List.mem_of_getLast? (Text.getLast?_of_append (by rwa [List.append_assoc] at hend)
          (by simp))
      refine absurd ?_ (newline_notMem hb hq)
      rw [hbq]
      exact List.mem_append_left _ (by simpa [he.ne_newline.symm] using hmem)
    · rw [hr'] at hend
      exact not_broken hb hq hbq _ hend

end Continued

/-- A walk that goes past a continued line end goes past the fillers. -/
theorem Walk.length_le_of_continued {e : Char} {json : Bool} (he : IsEscape e) {s r a w t : Text}
    (hw : Continued w) (h : Walk e json s r) (hs : s = a ++ e :: (w ++ t))
    (ha : ∀ c, a.getLast? = some c → c ≠ e ∧ c ≠ '\\') (hr : r.length ≤ (w ++ t).length) :
    r.length ≤ t.length := by
  have hlast : ∀ {c : Char} {a' : Text}, (∀ d, (c :: a').getLast? = some d → d ≠ e ∧ d ≠ '\\') →
      ∀ d, a'.getLast? = some d → d ≠ e ∧ d ≠ '\\' := by
    intro c a' h d hd
    refine h d ?_
    rw [List.getLast?_cons, hd]
    rfl
  induction h generalizing a with
  | refl s =>
    rw [hs, List.length_append, List.length_cons] at hr
    omega
  | plain hc _ _ ih =>
    cases a with
    | nil =>
      obtain ⟨rfl, -⟩ := List.cons.inj hs
      exact absurd rfl hc
    | cons d a =>
      obtain ⟨-, hs⟩ := List.cons.inj hs
      exact ih hs (hlast ha) hr
  | @pair c d s r hc _ _ ih =>
    match a, hs with
    | [], hs =>
      obtain ⟨rfl, htail⟩ := List.cons.inj hs
      obtain ⟨-, m, hm⟩ | ⟨hc, -⟩ := hc
      · obtain ⟨ts, r', e'⟩ := hw.continuation (e := c) t
        rw [htail, e'] at hm
        cases hm
      · exact absurd rfl hc
    | [c'], hs =>
      obtain ⟨rfl, -⟩ := List.cons.inj hs
      obtain ⟨hne, hne'⟩ := ha c rfl
      obtain ⟨hc, -⟩ | ⟨-, hc, -⟩ := hc
      · exact absurd hc hne
      · exact absurd hc hne'
    | c' :: d' :: a, hs =>
      obtain ⟨-, hs⟩ := List.cons.inj hs
      obtain ⟨-, hs⟩ := List.cons.inj hs
      exact ih hs (hlast (hlast ha)) hr
  | lone =>
    exact Nat.zero_le _
  | @continuation s m r ts hc h ih =>
    obtain ⟨k, rfl⟩ := h.suffix
    by_cases hm : (k ++ r).length ≤ (w ++ t).length
    · have := hw.length_le he hc hs hm
      rw [List.length_append] at this
      omega
    · obtain ⟨ls, hls, -⟩ := continuation_shape hc
      obtain ⟨a', rfl, hm'⟩ := Text.exists_of_append_eq_append (hls.symm.trans hs)
        (Nat.lt_of_not_le hm)
      refine ih hm' (fun d hd => ha d ?_) hr
      rw [List.getLast?_append, hd]
      rfl

theorem not_broken_of_separators {e : Char} (he : IsEscape e) {s : Text} {ts : List Token}
    (h : many (gap e) s = .ok ts []) (hs : s ≠ []) : ¬ Broken s := by
  rintro (rfl | ⟨r, rfl, -⟩)
  · exact hs rfl
  · have hstuck : ∃ m, gap e ('\r' :: r) = .stuck m := by
      obtain rfl | rfl := he <;> exact ⟨_, rfl⟩
    obtain ⟨m, hm⟩ := hstuck
    obtain ⟨us, _, vs, hu, -⟩ | ⟨hu, -⟩ | ⟨-, -, hr⟩ := many_eq_ok.1 h
    · rw [hm] at hu
      cases hu
    · rw [hm] at hu
      cases hu
    · cases hr

/-- Separators that take a whole text with a line feed at its end end with a continued line end,
which stands on a line of its own or on the first line. -/
theorem exists_continued_of_separators {e : Char} (he : IsEscape e) {s : Text} {ts : List Token}
    (h : many (gap e) s = .ok ts []) (hs : s.getLast? = some '\n') :
    ∃ a b w, s = a ++ b ++ e :: w ∧ (a = [] ∨ a.getLast? = some '\n') ∧
      (∀ c ∈ b, isBlank c = true) ∧ Continued w := by
  generalize hr : ([] : Text) = r at h
  induction s, ts, r, h using (advances_gap e).many_induction with
  | nil s m _ _ =>
    subst hr
    cases hs
  | round s us m vs r hu hm _ ih =>
    subst hr
    obtain hb | ⟨-, hc⟩ := either_eq_ok.1 hu
    · obtain ⟨-, -, rfl⟩ := run_eq_ok.1 hb
      obtain ⟨b0, hb0, hblank⟩ := Text.eq_append_dropWhile isBlank s
      rw [hb0] at hs
      obtain ⟨a, b, w, hw, ha, hb, hcont⟩ := ih (Text.getLast?_of_append hs (by
        rintro hnil
        rw [hnil, List.append_nil] at hs
        exact absurd (hblank _ (List.mem_of_getLast? hs)) (by decide))) rfl
      rw [hw] at hb0
      obtain rfl | ha := ha
      · refine ⟨[], b0 ++ b, w, by simp [hb0], .inl rfl, ?_, hcont⟩
        intro c hc
        exact (List.mem_append.1 hc).elim (hblank c) (hb c)
      · refine ⟨b0 ++ a, b, w, by simp [hb0], .inr ?_, hb, hcont⟩
        rw [List.getLast?_append, ha]
        rfl
    · obtain ⟨b0, q, l, us, rfl, hb0, hq, hl⟩ := eq_of_continuation hc
      by_cases hnil : m = []
      · subst hnil
        refine ⟨[], [], b0 ++ q ++ '\n' :: l, by simp, .inl rfl, by simp, .mk hb0 hq ?_⟩
        refine filler_of_lines hl ?_
        by_cases hlnil : l = []
        · exact .inl hlnil
        · exact .inr (Text.getLast?_of_append (a := e :: (b0 ++ q) ++ ['\n']) (by simpa using hs)
            hlnil)
      · obtain ⟨ls, hls, hend⟩ := continuation_shape hc
        obtain ⟨a, b, w, rfl, ha, hb, hcont⟩ := ih (Text.getLast?_of_append (hls ▸ hs) hnil) rfl
        have hend : ls.getLast? = some '\n' :=
          hend.resolve_right (not_broken_of_separators he hm hnil)
        refine ⟨ls ++ a, b, w, by simp [hls], .inr ?_, hb, hcont⟩
        obtain rfl | ha := ha
        · rwa [List.append_nil]
        · rw [List.getLast?_append, ha]
          rfl

/-- Separators behind a bracket that take the text to its end, which is a line feed, end with a
continued line end.  There are only blanks between it and the bracket, or it stands on a line of its
own. -/
theorem exists_continued_of_bracket {e : Char} (he : IsEscape e) {p m : Text} {ts : List Token}
    (h : many (gap e) m = .ok ts []) (hlast : (p ++ ']' :: m).getLast? = some '\n') :
    ∃ l c b w, p ++ ']' :: m = l ++ c :: b ++ e :: w ∧ (∀ d ∈ b, isBlank d = true) ∧ Continued w ∧
      (l = p ∧ c = ']' ∨ c = '\n') := by
  have hm : m.getLast? = some '\n' := by
    by_cases hnil : m = []
    · simp [hnil] at hlast
    · exact Text.getLast?_of_append (a := p ++ [']']) (by simpa using hlast) hnil
  obtain ⟨a, b, w, rfl, ha, hb, hw⟩ := exists_continued_of_separators he h hm
  obtain rfl | ha := ha
  · exact ⟨p, ']', b, w, by simp, hb, hw, .inl ⟨rfl, rfl⟩⟩
  · obtain ⟨a', rfl⟩ : ∃ a', a = a' ++ ['\n'] := List.getLast?_eq_some_iff.1 ha
    exact ⟨p ++ ']' :: a', '\n', b, w, by simp, hb, hw, .inr rfl⟩

/-- The character before such a line end is no escape character. -/
theorem last_ne_escape {e : Char} (he : IsEscape e) {l b : Text} {c : Char}
    (hb : ∀ d ∈ b, isBlank d = true) (hc : c = ']' ∨ c = '\n') :
    ∀ d, (l ++ c :: b).getLast? = some d → d ≠ e ∧ d ≠ '\\' := by
  intro d hd
  obtain rfl | hd := List.mem_cons.1 (List.mem_of_getLast? (Text.getLast?_of_append hd (by simp)))
  · obtain rfl | rfl := he <;> obtain rfl | rfl := hc <;> decide
  · refine ⟨(he.ordinary (by decide) d (hb d hd)).1, ?_⟩
    rintro rfl
    exact absurd (hb _ hd) (by decide)

/-- The text behind a number sign, up to the next line break, belongs to the comment. -/
theorem length_le_of_comment {b w m r : Text} {ts : List Token} (hb : ∀ c ∈ b, isBlank c = true)
    (hw : ∀ c ∈ w, isLineBreak c = false) (h : lines (b ++ '#' :: (w ++ m)) = .ok ts r) :
    r.length ≤ m.length := by
  obtain ⟨us, k, hk⟩ := unfailing_newline.optional_eq_ok (m.dropWhile fun c => !isLineBreak c)
  have hdrop : (b ++ '#' :: (w ++ m)).dropWhile isBlank = '#' :: (w ++ m) := by
    rw [List.dropWhile_append_of_pos hb, List.dropWhile_cons_of_neg (by decide)]
  have htext : (w ++ m).dropWhile (fun c => !isLineBreak c) = m.dropWhile fun c => !isLineBreak c :=
    List.dropWhile_append_of_pos fun c hc => by simp [hw c hc]
  obtain ⟨vs, hv⟩ := commentBody_eq_ok.2 ⟨_, us, hdrop, htext ▸ hk⟩
  have hfiller : filler (b ++ '#' :: (w ++ m)) = .ok [.node .comment vs] k :=
    either_eq_ok.2 (.inl (node_eq_ok.2 ⟨vs, hv, rfl⟩))
  have hlen : k.length ≤ m.length := by
    have := advances_newline.shrinks.optional _ _ _ hk
    have := (List.dropWhile_sublist (l := m) fun c => !isLineBreak c).length_le
    omega
  obtain ⟨_, _, _, hu, -, hm, -⟩ | ⟨hu, hlt⟩ | ⟨⟨_, hu⟩, -⟩ := many_eq_ok.1 h
  · rw [hfiller] at hu
    cases hu
    exact Nat.le_trans (length_le_of_lines hm) hlen
  · exact absurd (advances_filler _ _ _ hu) hlt
  · rw [hfiller] at hu
    cases hu

/-- A walk that comes to a bracket does not come to it in a comment. -/
theorem Walk.not_comment {e : Char} (he : IsEscape e) {s a b w m : Text}
    (h : Walk e true s (']' :: m)) (hs : s = a ++ '\n' :: (b ++ '#' :: (w ++ ']' :: m)))
    (hb : ∀ c ∈ b, isBlank c = true) (hw : ∀ c ∈ w, isLineBreak c = false) : False := by
  generalize hr : ']' :: m = r at h
  induction h generalizing a with
  | refl s =>
    have := congrArg List.length (hr.trans hs)
    simp only [List.length_append, List.length_cons] at this
    omega
  | plain _ hend _ ih =>
    cases a with
    | nil =>
      obtain ⟨rfl, -⟩ := List.cons.inj hs
      cases hend
    | cons d a =>
      obtain ⟨-, hs⟩ := List.cons.inj hs
      exact ih hs hr
  | @pair c d s r hc hend _ ih =>
    match a, hs with
    | [], hs =>
      obtain ⟨rfl, -⟩ := List.cons.inj hs
      obtain ⟨hc, -⟩ | ⟨-, hc, -⟩ := hc
      · exact absurd hc.symm he.ne_newline
      · cases hc
    | [c'], hs =>
      obtain ⟨-, hs⟩ := List.cons.inj hs
      obtain ⟨rfl, -⟩ := List.cons.inj hs
      cases hend
    | c' :: d' :: a, hs =>
      obtain ⟨-, hs⟩ := List.cons.inj hs
      obtain ⟨-, hs⟩ := List.cons.inj hs
      exact ih hs hr
  | lone => cases hr
  | @continuation s k r ts hc h ih =>
    obtain ⟨ls, hls, -⟩ := continuation_shape hc
    by_cases hk : k.length ≤ (b ++ '#' :: (w ++ ']' :: m)).length
    · -- the continuation goes past the line feed, and then past the comment
      obtain ⟨us, hl⟩ := continuation_of_newline he hc hs hk
      obtain ⟨k', rfl⟩ := h.suffix
      have hw' : ∀ c ∈ w ++ [']'], isLineBreak c = false := by
        intro c hc
        obtain hc | hc := List.mem_append.1 hc
        · exact hw c hc
        · rw [List.mem_singleton.1 hc]
          rfl
      have hlen := length_le_of_comment (m := m) hb hw' (by simpa using hl)
      rw [← hr, List.length_append, List.length_cons] at hlen
      omega
    · obtain ⟨a', -, hk'⟩ := Text.exists_of_append_eq_append (hls.symm.trans hs)
        (Nat.lt_of_not_le hk)
      exact ih hk' hr

end Containerfile
