import Containerfile.Proofs.Fillers
import Containerfile.Proofs.Steps

/-!
# Another text behind a literal

An edit cuts an argument out, and what was behind it comes to stand behind what was before it.
Here a text `a` with `t` behind it is read again with `t'` behind it.  `Swaps e a t t'` says when
`a` itself is read as before: no name or reference goes on into `t'`, and `t'` does not go on with
a line end at the end of `a`.  The last part of a literal may still go on into `t'`; what it takes
from there is left to the caller of `Literal.Scans.swap`.

What ends before the text behind it is made of the same tokens as before.  A continuation takes the
lines behind it too, so it is here that `t'` must not begin with a line where `t` did not.

## Main definitions

* `Edge` — where no name or reference goes on.
* `Swaps` — another text can stand behind a text.
* `Style.Plain` — the literals that are no elements of an array.
* `OnlyTrivia` — a reader that reads nothing but separators and line ends.
* `Literal.valueOfPieces` — the value of a literal, from the pieces of its scan.

## Main results

* `Swaps.continuation`, `Swaps.continuation_stuck` — continuations begin and end in the same places.
* `Literal.step_swapped` — one step of a scan does the same.
* `Literal.Scans.swap` — a whole scan does, and goes on with what is behind.
-/

namespace Containerfile

open Lexeme Grammar

/-! ## Edges -/

/-- Where no name or reference goes on: at a blank, at the escape character, at a line end or at a
carriage return. -/
inductive Edge (e : Char) : Text → Prop where
  | gap {c : Char} {r : Text} (hc : isBlank c = true ∨ c = e) : Edge e (c :: r)
  | line {t : Text} (ht : t.atLineEnd = true) : Edge e t
  | carriage (r : Text) : Edge e ('\r' :: r)

/-- An edge begins with no character of a class without blanks, escapes and line ends. -/
theorem Edge.head?_any {e : Char} {t : Text} (h : Edge e t) (he : IsEscape e) {p : Char → Bool}
    (hp : (p ' ' || p '\t' || p '\\' || p '`' || p '\r' || p '\n') = false) :
    t.head?.any p = false := by
  simp only [Bool.or_eq_false_iff] at hp
  obtain ⟨⟨⟨⟨⟨hspace, htab⟩, hslash⟩, htick⟩, hreturn⟩, hfeed⟩ := hp
  cases h with
  | @gap c r hc =>
    rcases hc with hc | rfl
    · simp only [isBlank, Bool.or_eq_true, beq_iff_eq] at hc
      rcases hc with rfl | rfl <;> simpa
    · rcases he with rfl | rfl <;> simpa
  | line ht =>
    cases t with
    | nil => rfl
    | cons c t =>
      rcases Text.atLineEnd_cons.1 ht with rfl | ⟨rfl, -⟩ <;> simpa
  | carriage r => simpa

theorem Edge.head?_ne_equals {e : Char} {t : Text} (h : Edge e t) (he : IsEscape e) :
    t.head? ≠ some '=' := by
  have hany := h.head?_any he (p := (· == '=')) rfl
  intro heq
  rw [heq] at hany
  cases hany

/-- A line end does not begin with a gap, and no comment breaks off before one. -/
theorem not_broken_of_gap {e c : Char} (he : IsEscape e) (hc : isBlank c = true ∨ c = e)
    (r : Text) :
    ¬ Broken (c :: r) ∧ (c :: r).head? ≠ some '\n' := by
  constructor
  · rintro (hnil | ⟨r, hr, -⟩)
    · cases hnil
    · obtain ⟨rfl, -⟩ := List.cons.inj hr
      rcases hc with hc | rfl
      · cases hc
      · rcases he with he | he <;> cases he
  · rintro ⟨⟩
    rcases hc with hc | hc
    · cases hc
    · exact he.ne_newline hc.symm

/-- The text `t` behind `a` can give way to `t'`: `t` begins with a gap or a line end, no name
goes on with `t'`, and where `a` ends within a line end that could go on, neither `t` nor `t'`
goes on with it. -/
structure Swaps (e : Char) (a t t' : Text) : Prop where
  gap : (∃ c r, t = c :: r ∧ (isBlank c = true ∨ c = e)) ∨ t ≠ [] ∧ t.atLineEnd = true
  edge : Edge e t'
  line : ∀ c, a.getLast? = some c → isBlank c = true ∨ c = '\n' → ∃ m, filler t' = .stuck m
  feed : a.getLast? = some '\r' → t.head? ≠ some '\n'
  feed' : a.getLast? = some '\r' → t'.head? ≠ some '\n'

namespace Swaps

variable {e : Char} {a u t t' z : Text}

theorem of_append {k : Text} (h : Swaps e (k ++ u) t t') : Swaps e u t t' where
  gap := h.gap
  edge := h.edge
  line c hc := by
    refine h.line c ?_
    rw [List.getLast?_append, hc]
    rfl
  feed hc := by
    refine h.feed ?_
    rw [List.getLast?_append, hc]
    rfl
  feed' hc := by
    refine h.feed' ?_
    rw [List.getLast?_append, hc]
    rfl

/-- Any text may give way that begins with a gap. -/
theorem of_gap (he : IsEscape e) (ht : ∃ c r, t = c :: r ∧ (isBlank c = true ∨ c = e))
    (hedge : Edge e t')
    (hline : ∀ c, a.getLast? = some c → isBlank c = true ∨ c = '\n' → ∃ m, filler t' = .stuck m)
    (hfeed : a.getLast? = some '\r' → t'.head? ≠ some '\n') : Swaps e a t t' where
  gap := .inl ht
  edge := hedge
  line := hline
  feed _ := by
    obtain ⟨c, r, rfl, hc⟩ := ht
    exact (not_broken_of_gap he hc r).2
  feed' := hfeed

theorem edge_left (h : Swaps e u t t') : Edge e t := by
  rcases h.gap with ⟨c, r, rfl, hc⟩ | ⟨-, hend⟩
  · exact .gap hc
  · exact .line hend

theorem ne_nil (h : Swaps e u t t') : t ≠ [] := by
  rcases h.gap with ⟨c, r, rfl, -⟩ | ⟨hne, -⟩
  · exact List.cons_ne_nil _ _
  · exact hne

end Swaps

/-! ## Line ends and fillers -/

namespace Lexeme

/-- A line end that begins in a text is decided by it, but for a carriage return at its end. -/
theorem newline_append_iff {w t r : Text} {ts : List Token} (hw : w ≠ [])
    (hfeed : w = ['\r'] → t.head? ≠ some '\n') :
    newline (w ++ t) = .ok ts r ↔ ∃ z, newline w = .ok ts z ∧ r = z ++ t := by
  simp only [newline_eq_ok]
  obtain ⟨c, w, rfl⟩ := List.exists_cons_of_ne_nil hw
  cases w with
  | nil =>
    by_cases hc : c = '\r'
    · subst hc
      cases t with
      | nil => simp
      | cons d t =>
        have hd : d ≠ '\n' := by simpa using hfeed rfl
        simp [hd]
    · simp only [List.cons_append, List.nil_append, List.cons.injEq, hc, false_and, false_or]
      constructor
      · rintro ⟨⟨rfl, rfl⟩, rfl⟩
        exact ⟨[], ⟨⟨rfl, rfl⟩, rfl⟩, rfl⟩
      · rintro ⟨z, ⟨⟨rfl, rfl⟩, rfl⟩, rfl⟩
        exact ⟨⟨rfl, rfl⟩, rfl⟩
  | cons d w =>
    simp only [List.cons_append, List.cons.injEq]
    constructor
    · rintro (⟨⟨rfl, rfl, rfl⟩, rfl⟩ | ⟨⟨rfl, rfl⟩, rfl⟩)
      · exact ⟨w, .inl ⟨⟨rfl, rfl, rfl⟩, rfl⟩, rfl⟩
      · exact ⟨d :: w, .inr ⟨⟨rfl, rfl⟩, rfl⟩, rfl⟩
    · rintro ⟨z, ⟨⟨rfl, rfl, rfl⟩, rfl⟩ | ⟨⟨rfl, rfl⟩, rfl⟩, rfl⟩
      · exact .inl ⟨⟨rfl, rfl, rfl⟩, rfl⟩
      · exact .inr ⟨⟨rfl, rfl⟩, rfl⟩

/-- Where a comment or a blank line begins. -/
theorem exists_filler_iff {s : Text} :
    (∃ ts r, filler s = .ok ts r) ↔
      (s.dropWhile isBlank).head? = some '#' ∨
        ∃ ts r, newline (s.dropWhile isBlank) = .ok ts r := by
  constructor
  · rintro ⟨ts, r, h⟩
    rcases filler_eq_ok h with hc | hb
    · obtain ⟨s', -, hs, -⟩ := commentBody_eq_ok.1 hc
      exact .inl (by rw [hs]; rfl)
    · obtain ⟨us, hn⟩ := blankLine_eq_ok.1 hb
      exact .inr ⟨us, r, hn⟩
  · intro h
    refine (filler_eq_ok_or_stuck s).resolve_right ?_
    rintro ⟨m, hm⟩
    obtain ⟨⟨k, hk⟩, l, hl⟩ := either_eq_stuck.1 ⟨m, hm⟩
    rcases h with hs | ⟨us, r, hn⟩
    · obtain ⟨s', hs⟩ := List.head?_eq_some_iff.1 hs
      obtain ⟨ts, r, hn⟩ := unfailing_newline.optional_eq_ok (s'.dropWhile fun c => !isLineBreak c)
      obtain ⟨us, hu⟩ := commentBody_eq_ok.2 ⟨s', ts, hs, hn⟩
      rw [commentLine, node_eq_ok.2 ⟨us, hu, rfl⟩] at hk
      cases hk
    · obtain ⟨ts, hb⟩ := blankLine_eq_ok.2 ⟨us, hn⟩
      rw [hb] at hl
      cases hl

/-- A run that is read up to a place is the token of its text. -/
theorem optional_run_append {kind : LeafKind} {p : Char → Bool} {b x : Text}
    (hb : ∀ c ∈ b, p c = true) (hx : x.head?.any p = false) :
    optional (run kind p) (b ++ x) = .ok (if b = [] then [] else [.leaf kind b]) x := by
  obtain ⟨htake, hdrop⟩ := Text.span_append hx b
  have htake' : b.takeWhile p = b := by simpa using @List.takeWhile_append_of_pos _ p b [] hb
  have hdrop' : b.dropWhile p = [] := by simpa using @List.dropWhile_append_of_pos _ p b [] hb
  rw [htake'] at htake
  rw [hdrop', List.nil_append] at hdrop
  unfold Grammar.optional run
  rw [htake, hdrop]
  cases b <;> rfl

/-- The escape character, blanks and a line end are the same tokens whatever is behind them. -/
theorem exists_lineContinuation (e : Char) {b q : Text} (hb : ∀ c ∈ b, isBlank c = true)
    (hq : q = [] ∨ q = ['\r']) :
    ∃ ts, ∀ l, lineContinuation e (e :: (b ++ q) ++ '\n' :: l) = .ok ts l := by
  refine ⟨[.node .continuation ([.symbol [e]] ++ (if b = [] then [] else [.blank b]) ++
    [.newline (q ++ ['\n'])])], fun l => ?_⟩
  have hhead : (q ++ '\n' :: l).head?.any isBlank = false := by rcases hq with rfl | rfl <;> rfl
  have hnewline : newline (q ++ '\n' :: l) = .ok [.newline (q ++ ['\n'])] l := by
    rcases hq with rfl | rfl <;> rfl
  rw [List.cons_append, List.append_assoc]
  exact node_eq_ok.2 ⟨_, seq_eq_ok.2 ⟨_, _, _, seq_eq_ok.2 ⟨_, _, _, exactly_eq_ok.2 ⟨rfl, rfl⟩,
    optional_run_append hb hhead, rfl⟩, hnewline, rfl⟩, rfl⟩

/-- A continuation is the same with other lines behind it, if these are made of the same tokens. -/
theorem continuation_congr {e : Char} {b q l l' r r' : Text} {ts : List Token}
    (hb : ∀ c ∈ b, isBlank c = true) (hq : q = [] ∨ q = ['\r'])
    (h : continuation e (e :: (b ++ q) ++ '\n' :: l) = .ok ts r)
    (hl : ∀ us, lines l = .ok us r → lines l' = .ok us r') :
    continuation e (e :: (b ++ q) ++ '\n' :: l') = .ok ts r' := by
  obtain ⟨ws, hws⟩ := exists_lineContinuation e hb hq
  obtain ⟨_, us, m, hu, hv, rfl⟩ := seq_eq_ok.1 h
  cases (hws l).symm.trans hu
  exact seq_eq_ok.2 ⟨ws, us, l', hws l', hl us hv, rfl⟩

theorem newline_stuck_of_broken {s : Text} (h : Broken s) : ∃ m, newline s = .stuck m := by
  cases hn : newline s with
  | ok ts r =>
    rcases h with rfl | ⟨r, -, hr⟩
    · cases hn
    · rw [atLineEnd_of_newline hn] at hr
      cases hr
  | stuck m => exact ⟨m, rfl⟩
  | failed f => exact absurd hn (unfailing_newline s f)

/-- A comment without a line end is the tokens of its text, at any place where no line can be
read. -/
theorem exists_commentBody {b w : Text} (hb : ∀ c ∈ b, isBlank c = true)
    (hw : ∀ c ∈ w, (!isLineBreak c) = true) :
    ∃ ts, ∀ m, Broken m → commentBody (b ++ '#' :: (w ++ m)) = .ok ts m := by
  refine ⟨(if b = [] then [] else [.blank b]) ++ [.leaf .commentMark ['#']] ++
    (if w = [] then [] else [.fragment w]) ++ [], fun m hm => ?_⟩
  have hline : m.head?.any (fun c => !isLineBreak c) = false := by
    rcases hm with rfl | ⟨r, rfl, -⟩ <;> rfl
  exact seq_eq_ok.2 ⟨_, _, m, seq_eq_ok.2 ⟨_, _, w ++ m, seq_eq_ok.2 ⟨_, _, '#' :: (w ++ m),
    optional_run_append hb rfl, exactly_eq_ok.2 ⟨rfl, rfl⟩, rfl⟩,
    optional_run_append hw hline, rfl⟩,
    optional_eq_ok.2 (.inr ⟨newline_stuck_of_broken hm, rfl, rfl⟩), rfl⟩

/-- A comment that ends without a line end ends at any place where no line can be read. -/
theorem filler_of_notMem {l m m' : Text} {ts : List Token} (h : filler (l ++ m) = .ok ts m)
    (hl : '\n' ∉ l) (hm : Broken m) (hm' : Broken m') : filler (l ++ m') = .ok ts m' := by
  have hfeed : ∀ {b q : Text}, l ++ m ≠ b ++ (q ++ '\n' :: m) := by
    intro b q heq
    have heq' : l ++ m = (b ++ q ++ ['\n']) ++ m := by simpa using heq
    have hl' := List.append_cancel_right heq'
    exact hl (by rw [hl']; simp)
  obtain ⟨b, hb, hblank⟩ := Text.eq_append_dropWhile isBlank (l ++ m)
  rcases filler_eq_ok h with hc | hline
  · obtain ⟨s, us, hs, hn⟩ := commentBody_eq_ok.1 hc
    obtain ⟨w, hw, htext⟩ := Text.eq_append_dropWhile (fun c => !isLineBreak c) s
    rcases optional_eq_ok.1 hn with hn | ⟨-, -, hrest⟩
    · obtain ⟨q, hq, -⟩ := newline_shape hn
      rw [hs, hw, hq] at hb
      exact absurd (hb.trans (by simp)) (hfeed (b := b ++ '#' :: w) (q := q))
    · obtain rfl : l = b ++ '#' :: w := by
        rw [hs, hw, ← hrest] at hb
        have hb' : l ++ m = (b ++ '#' :: w) ++ m := by simpa using hb
        exact List.append_cancel_right hb'
      obtain ⟨us, hus⟩ := exists_commentBody hblank htext
      have hfiller : ∀ {m}, Broken m → filler (b ++ '#' :: w ++ m) = .ok [.node .comment us] m :=
        fun hm => either_eq_ok.2 (.inl (node_eq_ok.2 ⟨us, by simpa using hus _ hm, rfl⟩))
      cases (hfiller hm).symm.trans h
      exact hfiller hm'
  · obtain ⟨us, hn⟩ := blankLine_eq_ok.1 hline
    obtain ⟨q, hq, -⟩ := newline_shape hn
    rw [hq] at hb
    exact absurd hb hfeed

/-- The lines before a place are the same with another text from that place on, if no line begins
there, and a comment that ended at the place without a line end still does. -/
theorem lines_swap {u s s' : Text} {ts : List Token} (h : lines (u ++ s) = .ok ts s)
    (hstuck : ∃ m, filler s' = .stuck m) (hbroken : Broken s → Broken s') :
    lines (u ++ s') = .ok ts s' := by
  generalize hu : u ++ s = k at h
  generalize hs : s = r at h
  induction k, ts, r, h using advances_filler.many_induction generalizing u with
  | nil k m _ _ =>
    obtain rfl : u = [] := by simpa [hs] using hu
    exact many_eq_ok.2 (.inr (.inr ⟨hstuck, rfl, rfl⟩))
  | round k vs m ws r hfiller hm _ ih =>
    subst hu hs
    obtain ⟨ls, rfl, -⟩ := lines_shape hm
    obtain ⟨l, hl, hshape⟩ := filler_shape hfiller
    rw [← List.append_assoc] at hl
    obtain rfl := List.append_cancel_right hl
    have hw := ih rfl rfl
    rw [List.append_assoc] at hfiller ⊢
    suffices hfirst : filler (l ++ (ls ++ s')) = .ok vs (ls ++ s') from
      many_eq_ok.2 (.inl ⟨_, _, _, hfirst, advances_filler _ _ _ hfirst, hw, rfl⟩)
    rcases hshape with ⟨q, rfl, -⟩ | ⟨hnotMem, hend⟩
    · have hnl : HasNewline (q ++ ['\n']) := HasNewline.append_left List.mem_cons_self q
      exact (decided_filler _ hnl _).eq_ok (r := []) ((decided_filler _ hnl _).of_eq_ok hfiller)
    · obtain rfl : ls = [] := by simpa using eq_of_lines_of_broken hend hm
      exact filler_of_notMem hfiller hnotMem hend (hbroken hend)

/-! ### Before a word -/

/-- Whether a character belongs to a line and cannot make a blank line or a comment of it. -/
def isSolid (c : Char) : Bool :=
  !isBlank c && !isLineBreak c && c != '#'

theorem isSolid_iff {c : Char} :
    isSolid c = true ↔ isBlank c = false ∧ isLineBreak c = false ∧ c ≠ '#' := by
  simp [isSolid, and_assoc]

section Solid

variable {e c c' : Char} {u z n n' : Text} (hc : isSolid c = true) (hc' : isSolid c' = true)
include hc

theorem head?_of_isSolid : (c :: n).head? ≠ some '\n' := by
  rintro ⟨⟩
  cases hc

theorem not_newline_of_isSolid :
    ¬ ∃ ts r, newline (List.dropWhile isBlank (c :: n)) = .ok ts r := by
  obtain ⟨hblank, hbreak, -⟩ := isSolid_iff.1 hc
  rintro ⟨ts, r, hr⟩
  have hline := atLineEnd_of_newline hr
  rw [List.dropWhile_cons_of_neg (by simp [hblank]), Text.atLineEnd_eq_false hbreak] at hline
  cases hline

/-- Blanks and a word are neither a blank line nor a comment. -/
theorem filler_stuck_of_dropWhile {s : Text} (hs : s.dropWhile isBlank = c :: n) :
    ∃ m, filler s = .stuck m := by
  obtain ⟨hblank, -, hhash⟩ := isSolid_iff.1 hc
  have hnone := not_newline_of_isSolid (n := n) hc
  rw [List.dropWhile_cons_of_neg (by simp [hblank])] at hnone
  refine (filler_eq_ok_or_stuck _).resolve_left fun hok => ?_
  rw [exists_filler_iff, hs] at hok
  rcases hok with hhead | hn
  · exact hhash (Option.some.inj hhead)
  · exact hnone hn

include hc'

/-- Where no line begins before a word, none begins before another. -/
theorem filler_stuck_solid (h : ∃ m, filler (z ++ c :: n) = .stuck m) :
    ∃ m, filler (z ++ c' :: n') = .stuck m := by
  by_cases hblank : z.dropWhile isBlank = []
  · refine filler_stuck_of_dropWhile (n := n') hc' ?_
    rw [List.dropWhile_append, hblank, List.isEmpty_nil, if_pos rfl,
      List.dropWhile_cons_of_neg (by simp [(isSolid_iff.1 hc').1])]
  · refine (filler_eq_ok_or_stuck _).resolve_left fun hok => ?_
    suffices hok : ∃ ts r, filler (z ++ c :: n) = .ok ts r by
      obtain ⟨ts, r, hr⟩ := hok
      obtain ⟨m, hm⟩ := h
      cases hr.symm.trans hm
    rw [exists_filler_iff, List.dropWhile_append, if_neg (by simpa using hblank)] at hok ⊢
    refine hok.imp (fun hhead => ?_) ?_
    · obtain ⟨d, w, hw⟩ := List.exists_cons_of_ne_nil hblank
      rw [hw] at hhead ⊢
      exact hhead
    · rintro ⟨ts, r, hr⟩
      obtain ⟨y, hy, -⟩ := (newline_append_iff hblank fun _ => head?_of_isSolid hc').1 hr
      exact ⟨ts, y ++ c :: n,
        (newline_append_iff hblank fun _ => head?_of_isSolid hc).2 ⟨y, hy, rfl⟩⟩

/-- A continuation before a word is the same before another. -/
theorem continuation_solid {ts : List Token}
    (h : continuation e (u ++ c :: n) = .ok ts (z ++ c :: n)) :
    continuation e (u ++ c' :: n') = .ok ts (z ++ c' :: n') := by
  obtain ⟨b, q, l, us, hs, hb, hq, hl⟩ := eq_of_continuation h
  obtain ⟨ls, rfl, -⟩ := lines_shape hl
  obtain rfl : u = e :: (b ++ q) ++ '\n' :: (ls ++ z) :=
    List.append_cancel_right (by simpa using hs)
  have hstuck := stuck_of_many advances_filler _ _ _ hl
  have hbroken : Broken (z ++ c :: n) → Broken (z ++ c' :: n') := by
    rintro (hnil | ⟨r, hr, hend⟩)
    · simp at hnil
    · cases z with
      | nil =>
        obtain ⟨rfl, -⟩ := List.cons.inj hr
        cases hc
      | cons d z =>
        obtain ⟨rfl, -⟩ := List.cons.inj hr
        refine .inr ⟨z ++ c' :: n', rfl, Text.atLineEnd_carriage ?_⟩
        cases z with
        | nil => exact head?_of_isSolid hc'
        | cons d z =>
          rintro ⟨⟩
          cases hend
  rw [hs] at h
  have h' := continuation_congr hb hq h fun us hus =>
    lines_swap hus (filler_stuck_solid hc hc' hstuck) hbroken
  simpa using h'

end Solid

end Lexeme

namespace Swaps

variable {e : Char} {u t t' z : Text}

/-- Behind a word, a text that begins with a separator can stand for another. -/
theorem of_word {c : Char} (he : IsEscape e) (hlast : u.getLast? = some c) (hc : isSolid c = true)
    (ht : ∃ d r, t = d :: r ∧ (isBlank d = true ∨ d = e)) (hedge : Edge e t') : Swaps e u t t' := by
  obtain ⟨hblank, hbreak, -⟩ := isSolid_iff.1 hc
  refine .of_gap he ht hedge (fun d hd hline => ?_) fun hreturn => ?_
  · obtain rfl := Option.some.inj (hlast.symm.trans hd)
    rcases hline with hline | rfl
    · rw [hblank] at hline
      cases hline
    · cases hbreak
  · obtain rfl := Option.some.inj (hlast.symm.trans hreturn)
    cases hbreak

theorem newline_iff (h : Swaps e u t t') (hu : u ≠ []) :
    (∃ ts r, newline (u ++ t') = .ok ts r) ↔ ∃ ts r, newline (u ++ t) = .ok ts r := by
  have hlast : u = ['\r'] → u.getLast? = some '\r' := fun hu => by rw [hu]; rfl
  simp only [newline_append_iff hu fun hu => h.feed' (hlast hu),
    newline_append_iff hu fun hu => h.feed (hlast hu)]
  constructor
  · rintro ⟨ts, -, r, hr, -⟩
    exact ⟨ts, r ++ t, r, hr, rfl⟩
  · rintro ⟨ts, -, r, hr, -⟩
    exact ⟨ts, r ++ t', r, hr, rfl⟩

/-- No comment or blank line begins within blanks that are followed by `t'`. -/
theorem filler_stuck_of_blank (h : Swaps e u t t') (hu : u ≠ [])
    (hblank : u.dropWhile isBlank = []) :
    ∃ m, filler t' = .stuck m := by
  have hc := List.getLast?_eq_some_getLast hu
  refine h.line _ hc (.inl ?_)
  obtain ⟨b, hb, hall⟩ := Text.eq_append_dropWhile isBlank u
  rw [hblank, List.append_nil] at hb
  exact hall _ (hb ▸ List.mem_of_getLast? hc)

/-- Where no comment or blank line begins, none does with the other text. -/
theorem filler_stuck (h : Swaps e u t t')
    (hu : u = [] → ∃ m, filler t' = .stuck m) (hstuck : ∃ m, filler (u ++ t) = .stuck m) :
    ∃ m, filler (u ++ t') = .stuck m := by
  refine (filler_eq_ok_or_stuck (u ++ t')).resolve_left fun hok => ?_
  rw [exists_filler_iff, List.dropWhile_append] at hok
  by_cases hblank : u.dropWhile isBlank = []
  · have hquiet : ∃ m, filler t' = .stuck m := by
      by_cases hnil : u = []
      · exact hu hnil
      · exact h.filler_stuck_of_blank hnil hblank
    obtain ⟨m, hm⟩ := hquiet
    rw [hblank, List.isEmpty_nil, if_pos rfl] at hok
    obtain ⟨ts, r, hr⟩ := exists_filler_iff.2 hok
    rw [hr] at hm
    cases hm
  · obtain ⟨b, hb, -⟩ := Text.eq_append_dropWhile isBlank u
    have hsuffix : Swaps e (u.dropWhile isBlank) t t' := of_append (hb ▸ h)
    rw [if_neg (by simpa using hblank), hsuffix.newline_iff hblank] at hok
    have hok' : ∃ ts r, filler (u ++ t) = .ok ts r := by
      rw [exists_filler_iff, List.dropWhile_append, if_neg (by simpa using hblank)]
      refine hok.imp_left fun hhead => ?_
      obtain ⟨c, w, hw⟩ := List.exists_cons_of_ne_nil hblank
      rw [hw] at hhead ⊢
      exact hhead
    obtain ⟨ts, r, hr⟩ := hok'
    obtain ⟨m, hm⟩ := hstuck
    rw [hr] at hm
    cases hm

theorem atLineEnd_eq (h : Swaps e u t t') (hu : u ≠ []) :
    (u ++ t').atLineEnd = (u ++ t).atLineEnd := by
  have hiff := h.newline_iff hu
  obtain ⟨c, u, rfl⟩ := List.exists_cons_of_ne_nil hu
  rw [Bool.eq_iff_iff]
  constructor
  · intro hend
    obtain ⟨ts, r, hr⟩ := hiff.1 (newline_of_atLineEnd hend)
    exact atLineEnd_of_newline hr
  · intro hend
    obtain ⟨ts, r, hr⟩ := hiff.2 (newline_of_atLineEnd hend)
    exact atLineEnd_of_newline hr

theorem not_broken (h : Swaps e u t t') (he : IsEscape e) : ¬ Broken t := by
  rcases h.gap with ⟨c, r, rfl, hc⟩ | ⟨hne, hend⟩
  · exact (not_broken_of_gap he hc r).1
  · rintro (hnil | ⟨r, -, hbroken⟩)
    · exact hne hnil
    · cases hend.symm.trans hbroken

/-- Where no line can be read, none can with the other text. -/
theorem broken (h : Swaps e u t t') (he : IsEscape e) (hb : Broken (u ++ t)) :
    Broken (u ++ t') := by
  cases u with
  | nil => exact absurd hb (h.not_broken he)
  | cons c u =>
    rcases hb with hnil | ⟨r, hr, hend⟩
    · cases hnil
    · obtain ⟨rfl, -⟩ := List.cons.inj hr
      exact .inr ⟨u ++ t', rfl, (h.atLineEnd_eq (List.cons_ne_nil _ _)).trans hend⟩

/-- A continuation is the same with the other text. -/
theorem continuation (h : Swaps e u t t') (he : IsEscape e) {ts : List Token}
    (hc : continuation e (u ++ t) = .ok ts (z ++ t)) :
    Lexeme.continuation e (u ++ t') = .ok ts (z ++ t') := by
  obtain ⟨b, q, l, us, hs, hb, hq, hl⟩ := eq_of_continuation hc
  obtain ⟨ls, rfl, hshape⟩ := lines_shape hl
  obtain rfl : u = e :: (b ++ q) ++ '\n' :: (ls ++ z) :=
    List.append_cancel_right (hs.trans (by simp))
  have hrest : Swaps e z t t' := of_append (k := e :: (b ++ q) ++ '\n' :: ls) (by simpa using h)
  -- a line end is what `t'` would go on with
  have hquiet : z = [] → ∃ m, filler t' = .stuck m := by
    rintro rfl
    refine h.line '\n' ?_ (.inr rfl)
    rcases hshape with rfl | hlast | hbroken
    · rw [List.getLast?_append]
      rfl
    · rw [List.append_nil, List.append_cons, List.getLast?_append, hlast]
      rfl
    · exact absurd hbroken (h.not_broken he)
  have hstuck := stuck_of_many advances_filler _ _ _ hl
  rw [hs] at hc
  have hc' := continuation_congr hb hq hc fun us hus =>
    lines_swap hus (hrest.filler_stuck hquiet hstuck) (hrest.broken he)
  simpa using hc'

/-- Where no continuation begins, none does with the other text. -/
theorem continuation_stuck (h : Swaps e u t t') (hu : u ≠ [])
    (hstuck : ¬ ∃ ts r, Lexeme.continuation e (e :: (u ++ t)) = .ok ts r) :
    ¬ ∃ ts r, Lexeme.continuation e (e :: (u ++ t')) = .ok ts r := by
  rw [continuation_cons_eq_ok, List.dropWhile_append] at hstuck ⊢
  by_cases hblank : u.dropWhile isBlank = []
  · rw [hblank, List.isEmpty_nil, if_pos rfl]
    intro hok
    obtain ⟨ts, r, hr⟩ := exists_filler_iff.2 (.inr hok)
    obtain ⟨m, hm⟩ := h.filler_stuck_of_blank hu hblank
    rw [hr] at hm
    cases hm
  · obtain ⟨b, hb, -⟩ := Text.eq_append_dropWhile isBlank u
    have hsuffix : Swaps e (u.dropWhile isBlank) t t' := of_append (hb ▸ h)
    rw [if_neg (by simpa using hblank)] at hstuck ⊢
    rwa [hsuffix.newline_iff hblank]

end Swaps

/-! ## Tokens that say nothing -/

/-- All that a reader reads are separators and line ends. -/
def OnlyTrivia : Grammar → Prop :=
  Yields fun t => t.isTrivia = true

namespace Lexeme

theorem onlyTrivia_newline : OnlyTrivia newline :=
  yields_newline fun _ => rfl

theorem onlyTrivia_continuation (e : Char) : OnlyTrivia (continuation e) := by
  have h := Yields.sequential fun t => t.isTrivia = true
  have hline : OnlyTrivia (lineContinuation e) := .node (.trivial _) fun _ _ => rfl
  have hcomment : OnlyTrivia commentLine := .node (.trivial _) fun _ _ => rfl
  exact h.seq hline (h.many (h.either hcomment (yields_blankLine (fun _ => rfl) fun _ => rfl)))

theorem onlyTrivia_gaps (e : Char) : OnlyTrivia (many (gap e)) := by
  have h := Yields.sequential fun t => t.isTrivia = true
  exact h.many (h.either (.run (fun _ => rfl) _) (onlyTrivia_continuation e))

end Lexeme

theorem Literal.partValue_of_isTrivia {t : Token} (h : t.isTrivia = true) :
    Literal.partValue t = [] := by
  cases t with
  | leaf kind s => cases kind <;> first | rfl | cases h
  | node kind ts => cases kind <;> first | rfl | cases h

/-! ## References -/

/-- An operator that begins in a text is read from it, whatever is behind that goes on with no
reference. -/
theorem Modifier.exists_of_read? {u t r : Text} {op : Modifier}
    (ht : t.head?.any Reference.isHeadChar = false) (h : read? (u ++ t) = some (op, r)) :
    ∃ z, u = op.operator ++ z ∧ r = z ++ t := by
  have heq := eq_of_read? h
  rcases List.append_eq_append_iff.1 heq with ⟨z, hop, ht'⟩ | ⟨z, hu, hr⟩
  · cases z with
    | nil => exact ⟨[], by simpa using hop.symm, by simpa using ht'.symm⟩
    | cons c z =>
      -- the rest of the operator would begin the text behind
      have hc := Reference.isHeadChar_operator op c (by simp [hop])
      rw [ht', List.cons_append, List.head?_cons, Option.any_some, hc] at ht
      cases ht
  · exact ⟨z, hu, hr⟩

namespace Reference

/-- What a text that may start a reference starts with, and the same with another text behind. -/
inductive Head.Swapped (t t' : Text) : Head → Head → Prop where
  | absent (r r' : Text) : Swapped t t' (.absent r) (.absent r')
  | whole (parts : List Token) (z : Text) :
      Swapped t t' (.whole parts (z ++ t)) (.whole parts (z ++ t'))
  | modified (name : Text) (op : Modifier) (z : Text) :
      Swapped t t' (.modified name op (z ++ t)) (.modified name op (z ++ t'))
  | malformed (problem : Problem) (h : Head) : Swapped t t' (.malformed problem) h

variable {t t' : Text}

theorem headBraced_of_read? {name s r : Text} {op : Modifier}
    (h : Modifier.read? s = some (op, r)) :
    headBraced name s = .modified name op r := by
  unfold headBraced
  split
  · cases h
  · rw [h]

theorem headBraced_of_none {name s : Text} (hs : s.head? ≠ some '}') (h : Modifier.read? s = none) :
    ∃ problem, headBraced name s = .malformed problem := by
  rw [headBraced_of_head? name hs, h]
  dsimp only
  split <;> exact ⟨_, rfl⟩

theorem headBraced_swapped (ht : t.head?.any isHeadChar = false) (name u : Text) :
    (headBraced name (u ++ t)).Swapped t t' (headBraced name (u ++ t')) := by
  cases hop : Modifier.read? (u ++ t) with
  | some r =>
    obtain ⟨op, r⟩ := r
    obtain ⟨z, rfl, rfl⟩ := Modifier.exists_of_read? ht hop
    rw [headBraced_of_read? hop, List.append_assoc,
      headBraced_of_read? (Modifier.read?_operator op _)]
    exact .modified _ _ _
  | none =>
    by_cases hbrace : u.head? = some '}'
    · obtain ⟨u, rfl⟩ := List.head?_eq_some_iff.1 hbrace
      exact .whole _ u
    · have hhead : (u ++ t).head? ≠ some '}' := by
        cases u with
        | nil =>
          intro hhead
          rw [List.nil_append] at hhead
          rw [hhead] at ht
          cases ht
        | cons c u => exact hbrace
      obtain ⟨problem, hproblem⟩ := @headBraced_of_none name _ hhead hop
      rw [hproblem]
      exact .malformed _ _

/-- What a text starts with is decided before a character that goes on with no reference, unless
it is malformed. -/
theorem head_swapped (ht : t.head?.any isHeadChar = false) (ht' : t'.head?.any isHeadChar = false)
    (u : Text) : (head ('$' :: (u ++ t))).Swapped t t' (head ('$' :: (u ++ t'))) := by
  have hname : ∀ {s : Text}, s.head?.any isHeadChar = false → s.head?.any isNameChar = false := by
    intro s hs
    cases s with
    | nil => rfl
    | cons c s => exact (Bool.or_eq_false_iff.1 hs).1
  have hspan : ∀ {s : Text}, s.head?.any isHeadChar = false → ∀ w : Text,
      (w ++ s).takeWhile isNameChar = w.takeWhile isNameChar ∧
        (w ++ s).dropWhile isNameChar = w.dropWhile isNameChar ++ s := fun hs w =>
    Text.span_append (hname hs) w
  have habsent : ∀ {s : Text}, s.head?.any isHeadChar = false →
      ∃ r, head ('$' :: s) = .absent r := by
    intro s hs
    cases s with
    | nil => exact ⟨[], rfl⟩
    | cons c s =>
      have hc : isNameChar c = false := hname hs
      have hbrace : c ≠ '{' := by
        rintro rfl
        cases hs
      rw [head_bare hbrace, List.takeWhile_cons_of_neg (by simp [hc])]
      exact ⟨_, rfl⟩
  cases u with
  | nil =>
    obtain ⟨r, hr⟩ := habsent ht
    obtain ⟨r', hr'⟩ := habsent ht'
    rw [List.nil_append, List.nil_append, hr, hr']
    exact .absent _ _
  | cons c u =>
    by_cases hc : c = '{'
    · subst hc
      rw [List.cons_append, List.cons_append, head.eq_1, head.eq_1, (hspan ht u).1, (hspan ht u).2,
        (hspan ht' u).1, (hspan ht' u).2]
      cases u.takeWhile isNameChar with
      | nil => exact .malformed _ _
      | cons d name => exact headBraced_swapped ht _ _
    · rw [List.cons_append, List.cons_append, head_bare hc, head_bare hc, ← List.cons_append,
        ← List.cons_append, (hspan ht (c :: u)).1, (hspan ht (c :: u)).2, (hspan ht' (c :: u)).1,
        (hspan ht' (c :: u)).2]
      cases (c :: u).takeWhile isNameChar with
      | nil => exact .absent _ _
      | cons d name =>
        dsimp only
        cases d.isDigit with
        | true => exact .absent _ _
        | false => exact .whole _ _

end Reference

/-! ## Steps -/

/-- A style of literals that are not elements of an array: no quoted run ends them, and only the
escape character escapes. -/
structure Style.Plain (style : Style) : Prop where
  runs : style.oneQuotedRun = false
  escapes : style.jsonEscapes = false

namespace Literal

/-- What a piece adds to the value of a literal. -/
def Piece.value : Piece → Text
  | .text s => s
  | .blank c => [c]
  | .token t => partValue t

/-- What pieces say. -/
def valueOfPieces (ps : List Piece) : Text :=
  ps.flatMap Piece.value

@[simp] theorem valueOfPieces_append (ps qs : List Piece) :
    valueOfPieces (ps ++ qs) = valueOfPieces ps ++ valueOfPieces qs :=
  List.flatMap_append

theorem valueOf_prependText (s : Text) (ts : List Token) :
    valueOf (prependText s ts) = s ++ valueOf ts := by
  unfold prependText
  split <;> simp [valueOf, partValue, Token.fragment]

theorem valueOf_assemble (ps : List Piece) : valueOf (assemble ps) = valueOfPieces ps := by
  induction ps with
  | nil => rfl
  | cons p ps ih =>
    cases p with
    | text s => simp [assemble, valueOf_prependText, ih, valueOfPieces, Piece.value]
    | blank c => simp [assemble, valueOf_prependText, ih, valueOfPieces, Piece.value]
    | token t => exact congrArg (partValue t ++ ·) ih

/-- A continuation says nothing. -/
theorem valueOfPieces_continuation {e : Char} {s r : Text} {ts : List Token}
    (h : continuation e s = .ok ts r) : valueOfPieces (ts.map .token) = [] := by
  have hvalue : valueOfPieces (ts.map .token) = ts.flatMap partValue := List.flatMap_map ..
  rw [hvalue, List.flatMap_eq_nil_iff]
  exact fun t ht => partValue_of_isTrivia (onlyTrivia_continuation e _ _ _ h t ht)

/-- What a step does, and what it does with another text behind.  A step that goes on into the text
behind is left out of account. -/
inductive Step.Swapped (t t' : Text) : Step → Step → Prop where
  | stop : Swapped t t' .stop .stop
  | take (ps : List Piece) {q q' : Option Quote} (hq : SameQuote q q') (z : Text) :
      Swapped t t' (.take ps q (z ++ t)) (.take ps q' (z ++ t'))
  | last (ps : List Piece) (z : Text) : Swapped t t' (.last ps (z ++ t)) (.last ps (z ++ t'))
  | reference (name : Text) (op : Modifier) (z : Text) :
      Swapped t t' (.reference name op (z ++ t)) (.reference name op (z ++ t'))
  | malformed (problem : Problem) (st : Step) : Swapped t t' (.malformed problem) st
  | past {ps : List Piece} {q : Option Quote} {r : Text} (hr : r.length < t.length) (st : Step) :
      Swapped t t' (.take ps q r) st

/-- The escape character at the end of a text goes on into the text behind. -/
theorem stepEscape_past {e : Char} {u t t' : Text} (he : IsEscape e) (h : Swaps e u t t')
    (q : Option Quote) : ∃ ps r, stepEscape q e t = .take ps q r ∧ r.length < t.length := by
  unfold stepEscape
  rcases continuation_eq_ok_or_stuck e (e :: t) with ⟨ts, r, hc⟩ | ⟨m, hm⟩
  · rw [hc]
    refine ⟨_, r, rfl, ?_⟩
    obtain ⟨b, q, l, us, heq, -, -, hl⟩ := eq_of_continuation hc
    have hle := length_le_of_lines hl
    have hlen := congrArg List.length heq
    simp only [List.cons_append, List.length_cons, List.length_append] at hlen
    omega
  · rw [hm]
    rcases h.gap with ⟨d, r, rfl, hd⟩ | ⟨hne, hend⟩
    · have hend : Text.atLineEnd (d :: r) = false := by
        refine Text.atLineEnd_eq_false ?_
        rcases hd with hd | rfl
        · simp only [isBlank, Bool.or_eq_true, beq_iff_eq] at hd
          rcases hd with rfl | rfl <;> rfl
        · exact he.isLineBreak
      exact ⟨[.text [e, d]], r, by simp [stepEscaped, hend], by simp⟩
    · obtain ⟨d, t, rfl⟩ := List.exists_cons_of_ne_nil hne
      obtain ⟨ts, r, hc⟩ := @continuation_of_atLineEnd e d t hend
      rw [hc] at hm
      cases hm

section

variable {e c : Char} {u t t' : Text} {q q' : Option Quote} (hq : SameQuote q q')
include hq

theorem stepEscaped_swapped (c : Char) {d : Char}
    (hend : Text.atLineEnd (d :: (u ++ t')) = Text.atLineEnd (d :: (u ++ t))) :
    (stepEscaped q c (d :: (u ++ t))).Swapped t t' (stepEscaped q' c (d :: (u ++ t'))) := by
  rw [stepEscaped, stepEscaped, hend]
  cases Text.atLineEnd (d :: (u ++ t)) with
  | true => exact .take _ hq (d :: u)
  | false => exact .take _ hq u

/-- An escape does the same with another text behind, if the same continuations are there and it
escapes the same. -/
theorem stepEscape_swapped_of
    (hok : ∀ {ts z}, continuation e (e :: (u ++ t)) = .ok ts (z ++ t) →
      continuation e (e :: (u ++ t')) = .ok ts (z ++ t'))
    (hstuck : (¬ ∃ ts r, continuation e (e :: (u ++ t)) = .ok ts r) →
      ¬ ∃ ts r, continuation e (e :: (u ++ t')) = .ok ts r)
    (hescaped : (stepEscaped q e (u ++ t)).Swapped t t' (stepEscaped q' e (u ++ t'))) :
    (stepEscape q e (u ++ t)).Swapped t t' (stepEscape q' e (u ++ t')) := by
  unfold stepEscape
  rcases continuation_eq_ok_or_stuck e (e :: (u ++ t)) with ⟨ts, r, hc⟩ | ⟨m, hm⟩
  · rw [hc]
    by_cases hr : r.length < t.length
    · exact .past hr _
    · have htext := lossless_continuation e _ _ _ hc
      obtain ⟨z, -, rfl⟩ :=
        Text.exists_of_append_eq_append (a := e :: u) htext (Nat.le_of_not_lt hr)
      rw [hok hc]
      exact .take _ hq z
  · have hnone : ¬ ∃ ts r, continuation e (e :: (u ++ t)) = .ok ts r := by
      rintro ⟨ts, r, hc⟩
      rw [hc] at hm
      cases hm
    obtain ⟨m', hm'⟩ := (continuation_eq_ok_or_stuck e (e :: (u ++ t'))).resolve_left (hstuck hnone)
    rw [hm, hm']
    exact hescaped

theorem stepEscape_swapped (he : IsEscape e) (h : Swaps e (e :: u) t t') :
    (stepEscape q e (u ++ t)).Swapped t t' (stepEscape q' e (u ++ t')) := by
  by_cases hu : u = []
  · subst hu
    obtain ⟨ps, r, hstep, hr⟩ := stepEscape_past he h q
    rw [List.nil_append, hstep]
    exact .past hr _
  · have hsuffix : Swaps e u t t' := h.of_append (k := [e])
    refine stepEscape_swapped_of hq (fun hc => h.continuation he hc)
      (hsuffix.continuation_stuck hu) ?_
    have hend := hsuffix.atLineEnd_eq hu
    obtain ⟨d, u, rfl⟩ := List.exists_cons_of_ne_nil hu
    exact stepEscaped_swapped hq e hend

section

variable (ht : t.head?.any Reference.isHeadChar = false)
  (ht' : t'.head?.any Reference.isHeadChar = false)
include ht ht'

theorem stepChar_swapped (style : Style) :
    (stepChar style q c (u ++ t)).Swapped t t' (stepChar style q' c (u ++ t')) := by
  unfold stepChar
  rw [hq.any_eq]
  split
  · unfold stepDollar
    have hhead := Reference.head_swapped ht ht' u
    generalize Reference.head ('$' :: (u ++ t)) = o at hhead
    generalize Reference.head ('$' :: (u ++ t')) = o' at hhead
    cases hhead with
    | absent r r' => exact .take _ hq u
    | whole parts z => exact .take _ hq z
    | modified name op z => exact .reference _ _ _
    | malformed problem o' => exact .malformed _ _
  · exact .take _ hq u

/-- A step does the same with another text behind, if the line ends in the same places and an
escaping character does the same. -/
theorem step_swapped_of {style : Style}
    (hend : Text.atLineEnd (c :: (u ++ t')) = Text.atLineEnd (c :: (u ++ t)))
    (hescape : c = e → (stepEscape q e (u ++ t)).Swapped t t' (stepEscape q' e (u ++ t')))
    (hjson : style.jsonEscapes = true →
      (stepEscaped q c (u ++ t)).Swapped t t' (stepEscaped q' c (u ++ t'))) :
    (step style e q (c :: (u ++ t))).Swapped t t' (step style e q' (c :: (u ++ t'))) :=
  step_related hq hend hescape (fun _ => hjson) (fun _ _ _ hq => stepChar_swapped hq ht ht' style)
    .stop
    (fun ps _ _ hq => .take ps hq u) fun ps => .last ps u

end

/-- A step does the same with another text behind, as long as it does not go on into it. -/
theorem step_swapped (he : IsEscape e) (h : Swaps e u t t') (hu : u ≠ []) {style : Style}
    (hstyle : style.Plain) :
    (step style e q (u ++ t)).Swapped t t' (step style e q' (u ++ t')) := by
  have hend := h.atLineEnd_eq hu
  obtain ⟨c, u, rfl⟩ := List.exists_cons_of_ne_nil hu
  refine step_swapped_of hq (h.edge_left.head?_any he rfl) (h.edge.head?_any he rfl) hend ?_ ?_
  · rintro rfl
    exact stepEscape_swapped hq he h
  · intro hjson
    rw [hstyle.escapes] at hjson
    cases hjson

end

theorem step_ne_last {style : Style} (hstyle : style.oneQuotedRun = false) {e : Char}
    {q : Option Quote} {s r : Text} {ps : List Piece} : step style e q s ≠ .last ps r := by
  intro h
  have hpossible := possible_step style e q s
  rw [h] at hpossible
  cases hpossible with
  | lastQuote _ _ _ hrun =>
    rw [hstyle] at hrun
    cases hrun

theorem Scans.unique {e : Char} {style : Style} {q : Option Quote} {s r r' : Text}
    {ps ps' : List Piece} (h : Scans e style q s ps r) (h' : Scans e style q s ps' r') :
    ps = ps' ∧ r = r' :=
  Prod.mk.inj (Except.ok.inj (h.scan_eq.symm.trans h'.scan_eq))

/-- What a reading does once the first step has taken pieces. -/
theorem scans_iff_of_take {e : Char} {style : Style} {q q' : Option Quote} {s m r : Text}
    {ps ws : List Piece} (hstep : step style e q s = .take ps q' m) :
    Scans e style q s ws r ↔ ∃ qs, ws = ps ++ qs ∧ Scans e style q' m qs r := by
  constructor
  · intro h
    cases h with
    | stop hstep' => cases hstep.symm.trans hstep'
    | take hstep' hm =>
      cases hstep.symm.trans hstep'
      exact ⟨_, rfl, hm⟩
    | last hstep' => cases hstep.symm.trans hstep'
    | reference hstep' => cases hstep.symm.trans hstep'
  · rintro ⟨qs, rfl, hm⟩
    exact .take hstep hm

/-- What a reading does once the first step has met a reference, and its word is read. -/
theorem scans_iff_of_reference {e : Char} {style : Style} {q : Option Quote} {s m m' r name : Text}
    {op : Modifier} {us ws : List Piece} (hstep : step style e q s = .reference name op m)
    (hw : Scans e .modifierWord none m us ('}' :: m')) :
    Scans e style q s ws r ↔
      ∃ qs, ws = [referencePiece name op us] ++ qs ∧ Scans e style q m' qs r := by
  constructor
  · intro h
    cases h with
    | stop hstep' => cases hstep.symm.trans hstep'
    | take hstep' => cases hstep.symm.trans hstep'
    | last hstep' => cases hstep.symm.trans hstep'
    | reference hstep' hw' hm =>
      cases hstep.symm.trans hstep'
      obtain ⟨rfl, hm'⟩ := hw.unique hw'
      obtain ⟨-, rfl⟩ := List.cons.inj hm'
      exact ⟨_, rfl, hm⟩
  · rintro ⟨qs, rfl, hm⟩
    exact .reference hstep hw hm

section

variable {e : Char} {style : Style} {q q' q₁ : Option Quote} {a m t t' : Text} {ps : List Piece}

/-- A step that takes pieces before the text that is behind takes them with another text behind. -/
theorem exists_take_of_swapped (h : step style e q (a ++ t) = .take ps q₁ (m ++ t))
    (hs : (step style e q (a ++ t)).Swapped t t' (step style e q' (a ++ t'))) :
    sourceOf ps ++ m = a ∧
      ∃ q₂, step style e q' (a ++ t') = .take ps q₂ (m ++ t') ∧ SameQuote q₁ q₂ := by
  have hsource := accounts_step style e q (a ++ t)
  rw [h] at hsource hs
  generalize step style e q' (a ++ t') = st at hs ⊢
  generalize hm : m ++ t = mt at hs
  cases hs with
  | past hr =>
    subst hm
    simp only [List.length_append] at hr
    omega
  | @take _ _ q₂ hq₂ z =>
    obtain rfl := List.append_cancel_right hm
    exact ⟨List.append_cancel_right (by simpa [Step.Accounts] using hsource), q₂, rfl, hq₂⟩

/-- A step that meets a reference meets it with another text behind. -/
theorem reference_of_swapped {name : Text} {op : Modifier}
    (h : step style e q (a ++ t) = .reference name op (m ++ t))
    (hs : (step style e q (a ++ t)).Swapped t t' (step style e q' (a ++ t'))) :
    '$' :: '{' :: name ++ op.operator ++ m = a ∧
      step style e q' (a ++ t') = .reference name op (m ++ t') := by
  have hsource := accounts_step style e q (a ++ t)
  rw [h] at hsource hs
  generalize step style e q' (a ++ t') = st at hs ⊢
  generalize hm : m ++ t = mt at hs
  cases hs with
  | reference _ _ z =>
    obtain rfl := List.append_cancel_right hm
    have hsource : '$' :: '{' :: name ++ op.operator ++ (m ++ t) = a ++ t := hsource
    rw [← List.append_assoc] at hsource
    exact ⟨List.append_cancel_right hsource, rfl⟩

/-- A step that ends a literal ends it with another text behind. -/
theorem stop_of_swapped (h : step style e q (a ++ t) = .stop)
    (hs : (step style e q (a ++ t)).Swapped t t' (step style e q' (a ++ t'))) :
    step style e q' (a ++ t') = .stop := by
  rw [h] at hs
  generalize step style e q' (a ++ t') = st at hs ⊢
  cases hs
  rfl

/-- A step that closes a quoted run closes it with another text behind. -/
theorem last_of_swapped (h : step style e q (a ++ t) = .last ps (m ++ t))
    (hs : (step style e q (a ++ t)).Swapped t t' (step style e q' (a ++ t'))) :
    step style e q' (a ++ t') = .last ps (m ++ t') := by
  rw [h] at hs
  generalize step style e q' (a ++ t') = st at hs ⊢
  generalize hm : m ++ t = mt at hs
  cases hs with
  | last _ z =>
    obtain rfl := List.append_cancel_right hm
    rfl

theorem ne_nil_of_length_lt (h : (m ++ t).length < (a ++ t).length) : a ≠ [] := by
  rintro rfl
  simp only [List.nil_append, List.length_append] at h
  omega

end

theorem exists_append_assoc_iff {us vs ws : List Piece} {P : List Piece → Prop} :
    (∃ qs, ws = us ++ qs ∧ ∃ qs', qs = vs ++ qs' ∧ P qs') ↔ ∃ qs, ws = us ++ vs ++ qs ∧ P qs := by
  constructor
  · rintro ⟨-, rfl, qs, rfl, hqs⟩
    exact ⟨qs, (List.append_assoc ..).symm, hqs⟩
  · rintro ⟨qs, rfl, hqs⟩
    exact ⟨vs ++ qs, List.append_assoc .., qs, rfl, hqs⟩

/-- A reading that ends before a text that is behind is the same reading with another text behind,
up to where it ended, and then goes on with that text. -/
theorem Scans.swap {e : Char} {style : Style} {q q' : Option Quote} {a t t' z r : Text}
    {ps ws : List Piece} (h : Scans e style q (a ++ t) ps (z ++ t)) (he : IsEscape e)
    (hstyle : style.Plain) (hs : Swaps e a t t') (hq : SameQuote q q') :
    Scans e style q' (a ++ t') ws r ↔ ∃ qs, ws = ps ++ qs ∧ Scans e style none (z ++ t') qs r := by
  generalize hS : a ++ t = S at h
  generalize hR : z ++ t = R at h
  induction h generalizing q' a z ws r with
  | stop hstep =>
    obtain rfl := List.append_cancel_right (hS.trans hR.symm)
    cases q' with
    | some b => cases hq
    | none => simp
  | @take style quote q₁ S M R ps qs hstep hm ih =>
    subst hS hR
    obtain ⟨m, rfl⟩ : ∃ m, M = m ++ t := ⟨_, by rw [List.append_assoc, hm.sourceOf_append_eq]⟩
    have ha := ne_nil_of_length_lt (length_lt_of_step_take hstep)
    obtain ⟨htaken, q₂, hstep', hq₂⟩ :=
      exists_take_of_swapped hstep (step_swapped hq he hs ha hstyle)
    have hsm : Swaps e m t t' := Swaps.of_append (htaken ▸ hs)
    simp only [scans_iff_of_take hstep', ih hstyle hsm hq₂ rfl rfl, exists_append_assoc_iff]
  | last hstep => exact absurd hstep (step_ne_last hstyle.runs)
  | @reference style quote S M M' R name op us qs hstep hw hm ihw ih =>
    subst hS hR
    obtain ⟨m', rfl⟩ : ∃ m, M' = m ++ t := ⟨_, by rw [List.append_assoc, hm.sourceOf_append_eq]⟩
    obtain ⟨m, rfl⟩ : ∃ m, M = m ++ t :=
      ⟨sourceOf us ++ '}' :: m', by rw [List.append_assoc, List.cons_append, hw.sourceOf_append_eq]⟩
    have ha := ne_nil_of_length_lt (length_lt_of_step_reference hstep)
    obtain ⟨htaken, hstep'⟩ := reference_of_swapped hstep (step_swapped hq he hs ha hstyle)
    have hsm : Swaps e m t t' := Swaps.of_append (htaken ▸ hs)
    have heq : sourceOf us ++ '}' :: m' = m :=
      List.append_cancel_right (by simpa using hw.sourceOf_append_eq)
    have hsm' : Swaps e m' t t' :=
      Swaps.of_append (k := sourceOf us ++ ['}']) (by simpa [heq] using hsm)
    have hus : Scans e .modifierWord none (m ++ t') us ('}' :: (m' ++ t')) :=
      (@ihw none m ('}' :: m') _ us ⟨rfl, rfl⟩ hsm rfl rfl rfl).2
        ⟨[], (List.append_nil _).symm, .stop (step_closingBrace he _)⟩
    simp only [scans_iff_of_reference hstep' hus, ih hstyle hsm' hq rfl rfl,
      exists_append_assoc_iff]
    rfl

end Literal

end Containerfile
