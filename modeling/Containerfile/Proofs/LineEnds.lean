import Containerfile.Proofs.Fillers

/-!
# The line end of an instruction

An instruction ends with a line end of its own, or with the text.  Only the first kind settles what
the instruction is: where the text ends, more text could go on with the same line.  Which of the two
it was can be seen from the tokens.  The last of them is a line end in both cases if a line
continuation comes before it, since a blank line behind a continuation belongs to the continuation.

## Main definitions

* `Token.lineState` — where a line stands behind a token.
* `Instruction.endsLine` — whether the instruction has a line end of its own.
* `Settled` — a reader behind which the line has neither ended nor been continued.
* `LineCut` — a text cut behind the end of its line.

## Main results

* `Lexeme.finish_cases` — the two ends that an instruction can have.
-/

namespace Containerfile

/-! ## Where a line stands -/

/-- Where a line stands. -/
inductive LineState where
  /-- Within the line. -/
  | within
  /-- Behind its end. -/
  | ended
  /-- Behind a line continuation and the lines that belong to it. -/
  | continued
deriving DecidableEq, Repr

/-- Where a line stands behind a line end.  A line end behind a continuation is that of a blank
line, which belongs to the continuation. -/
def LineState.behindNewline : LineState → LineState
  | continued => continued
  | _ => ended

namespace Token

mutual

/-- Where a line stands behind a token, given where it stood before. -/
def lineState : Token → LineState → LineState
  | leaf .newline _, state => state.behindNewline
  | leaf .blank _, state => state
  | leaf _ _, _ => .within
  | node .continuation _, _ => .continued
  | node .comment _, state => state
  | node (.instruction _ _) ts, _ => lineStateAll ts .within
  | node _ _, _ => .within

/-- Where a line stands behind some tokens. -/
def lineStateAll : List Token → LineState → LineState
  | [], state => state
  | t :: ts, state => lineStateAll ts (lineState t state)

end

@[simp] theorem lineStateAll_nil (state : LineState) : lineStateAll [] state = state := by
  rw [lineStateAll]

@[simp] theorem lineStateAll_singleton (t : Token) (state : LineState) :
    lineStateAll [t] state = t.lineState state := by
  rw [lineStateAll, lineStateAll]

@[simp] theorem lineStateAll_append (ts us : List Token) (state : LineState) :
    lineStateAll (ts ++ us) state = lineStateAll us (lineStateAll ts state) := by
  induction ts generalizing state with
  | nil => simp
  | cons t ts ih =>
    rw [List.cons_append, lineStateAll, lineStateAll, ih]

end Token

/-- Whether the instruction ends with a line end of its own, and not with one that belongs to a line
continuation.  The line end of a deferred instruction is the one of the whole. -/
def Instruction.endsLine (i : Instruction) : Bool :=
  Token.lineStateAll i.parts .within == .ended

/-! ## Readers of content -/

open Lexeme Grammar

/-- Behind what the reader reads, the line has neither ended nor been continued. -/
def Settled (g : Grammar) : Prop :=
  ∀ s ts r, g s = .ok ts r → ∀ state, Token.lineStateAll ts state = .within

/-- The reader leaves the line as it is, if it has neither ended nor been continued. -/
def Unended (g : Grammar) : Prop :=
  ∀ s ts r, g s = .ok ts r → Token.lineStateAll ts .within = .within

namespace Settled

variable {g h : Grammar}

theorem of_kind {kind : LeafKind} (hk : kind ≠ .newline ∧ kind ≠ .blank) (text : Text)
    (state : LineState) : Token.lineStateAll [.leaf kind text] state = .within := by
  rw [Token.lineStateAll_singleton]
  cases kind with
  | newline => exact absurd rfl hk.1
  | blank => exact absurd rfl hk.2
  | _ => rfl

theorem run {kind : LeafKind} (hk : kind ≠ .newline ∧ kind ≠ .blank) (q : Char → Bool) :
    Settled (.run kind q) := by
  intro s ts r e state
  obtain ⟨-, rfl, -⟩ := run_eq_ok.1 e
  exact of_kind hk _ _

theorem node {kind : NodeKind} (hk : ∀ ts state, Token.lineState (.node kind ts) state = .within)
    (g : Grammar) : Settled (.node kind g) := by
  intro s ts r e state
  obtain ⟨us, -, rfl⟩ := node_eq_ok.1 e
  rw [Token.lineStateAll_singleton]
  exact hk us state

theorem unended (hg : Settled g) : Unended g :=
  fun s ts r e => hg s ts r e .within

theorem seq (hh : Settled h) : Settled (g ++ h) := by
  intro s ts r e state
  obtain ⟨us, vs, m, -, hv, rfl⟩ := seq_eq_ok.1 e
  rw [Token.lineStateAll_append]
  exact hh _ _ _ hv _

theorem seq_unended (hg : Settled g) (hh : Unended h) : Settled (g ++ h) := by
  intro s ts r e state
  obtain ⟨us, vs, m, hu, hv, rfl⟩ := seq_eq_ok.1 e
  rw [Token.lineStateAll_append, hg _ _ _ hu]
  exact hh _ _ _ hv

theorem either (hg : Settled g) (hh : Settled h) : Settled (.either g h) := by
  intro s ts r e
  obtain e | ⟨-, e⟩ := either_eq_ok.1 e
  · exact hg _ _ _ e
  · exact hh _ _ _ e

theorem argument (escape : Char) (hg : Settled g) : Settled (argument escape g) :=
  fun s ts r e => hg.seq s ts r (attempt_eq_ok.1 e)

theorem required (escape : Char) (what : String) (hg : Settled g) :
    Settled (required escape what g) :=
  Settled.seq fun s ts r e => hg s ts r (commit_eq_ok.1 e)

theorem optional (hg : Settled g) : Unended (.optional g) := by
  intro s ts r e
  obtain e | ⟨-, rfl, -⟩ := optional_eq_ok.1 e
  · exact hg.unended _ _ _ e
  · rw [Token.lineStateAll_nil]

theorem many (hg : Settled g) : Unended (.many g) := by
  refine many_induction (fun s => ?_) fun s us m vs r hu hv => ?_
  · rw [Token.lineStateAll_nil]
  · rw [Token.lineStateAll_append, hg _ _ _ hu, hv]

end Settled

/-! ## Separators -/

namespace Lexeme

variable {e : Char}

theorem lineState_newline {s r : Text} {ts : List Token} (h : newline s = .ok ts r)
    (state : LineState) : Token.lineStateAll ts state = state.behindNewline := by
  obtain ⟨-, rfl⟩ | ⟨-, rfl⟩ := newline_eq_ok.1 h <;> exact Token.lineStateAll_singleton _ _

theorem lineState_blanks {s r : Text} {ts : List Token} (h : optional blanks s = .ok ts r)
    (state : LineState) : Token.lineStateAll ts state = state := by
  obtain h | ⟨-, rfl, -⟩ := optional_eq_ok.1 h
  · obtain ⟨-, rfl, -⟩ := run_eq_ok.1 h
    exact Token.lineStateAll_singleton _ _
  · exact Token.lineStateAll_nil _

theorem lineState_lines {s r : Text} {ts : List Token} (h : lines s = .ok ts r) :
    Token.lineStateAll ts .continued = .continued := by
  refine many_induction (motive := fun _ ts _ => Token.lineStateAll ts .continued = .continued)
    (fun s => Token.lineStateAll_nil _) (fun s us m vs r hu hv => ?_) s ts r h
  rw [Token.lineStateAll_append]
  obtain hc | ⟨-, hl⟩ := either_eq_ok.1 hu
  · obtain ⟨ws, -, rfl⟩ := node_eq_ok.1 hc
    rw [Token.lineStateAll_singleton]
    exact hv
  · obtain ⟨bs, ns, k, hb, hn, rfl⟩ := seq_eq_ok.1 hl
    rw [Token.lineStateAll_append, lineState_blanks hb, lineState_newline hn]
    exact hv

theorem lineState_continuation {s r : Text} {ts : List Token} (h : continuation e s = .ok ts r)
    (state : LineState) : Token.lineStateAll ts state = .continued := by
  obtain ⟨us, vs, m, hu, hv, rfl⟩ := seq_eq_ok.1 h
  obtain ⟨ws, -, rfl⟩ := node_eq_ok.1 hu
  rw [Token.lineStateAll_append, Token.lineStateAll_singleton]
  exact lineState_lines hv

theorem newline_stuck_of_continuation {s r : Text} {ts : List Token}
    (h : continuation e s = .ok ts r) : ¬ ∃ us k, newline (r.dropWhile isBlank) = .ok us k := by
  rintro ⟨us, k, hn⟩
  obtain ⟨_, _, m, -, hl, -⟩ := seq_eq_ok.1 h
  obtain ⟨q, hq⟩ := stuck_of_many advances_filler _ _ _ hl
  obtain ⟨-, q', hb⟩ := either_eq_stuck.1 ⟨q, hq⟩
  obtain ⟨ws, hw⟩ := blankLine_eq_ok.2 ⟨us, hn⟩
  rw [hw] at hb
  cases hb

/-- Separators are blanks, or else they end with a continuation and blanks, and then no line end is
behind them. -/
theorem separators_cases {s r : Text} {ts : List Token} (h : many (gap e) s = .ok ts r) :
    (r = s.dropWhile isBlank ∧ ∀ state, Token.lineStateAll ts state = state) ∨
      (∀ us k, newline r ≠ .ok us k) ∧ ∀ state, Token.lineStateAll ts state = .continued := by
  induction s, ts, r, h using (advances_gap e).many_induction with
  | nil s m hs _ =>
    obtain ⟨hb, -⟩ := either_eq_stuck.1 ⟨m, hs⟩
    have hdrop : s = s.dropWhile isBlank :=
      optional_run_rest (optional_eq_ok.2 (.inr ⟨hb, rfl, rfl⟩))
    exact .inl ⟨hdrop, Token.lineStateAll_nil⟩
  | round s us m vs r hu hm _ ih =>
    simp only [Token.lineStateAll_append]
    obtain hb | ⟨-, hc⟩ := either_eq_ok.1 hu
    · have hb' : optional blanks s = .ok us m := optional_eq_ok.2 (.inl hb)
      simp only [lineState_blanks hb']
      refine ih.imp_left (And.imp_left fun hr => ?_)
      rw [hr, optional_run_rest hb', Text.dropWhile_dropWhile]
    · simp only [lineState_continuation hc]
      right
      obtain ⟨rfl, hstate⟩ | ⟨hn, hstate⟩ := ih
      · refine ⟨fun ws k hn => newline_stuck_of_continuation hc ⟨ws, k, hn⟩, fun _ => hstate _⟩
      · exact ⟨hn, fun _ => hstate _⟩

end Lexeme

/-! ## The two ends -/

/-- The end of a line is not a continued one. -/
theorem Walk.not_continued {e : Char} {json : Bool} {s m x : Text} {ns : List Token}
    (hwalk : Walk e json s m) (he : IsEscape e) (hn : newline m = .ok ns x) {a w t : Text}
    (hs : s = a ++ e :: (w ++ t)) (ha : ∀ c, a.getLast? = some c → c ≠ e ∧ c ≠ '\\')
    (hw : Continued w) (ht : t.length ≤ x.length) (hx : x.length ≤ (w ++ t).length) : False := by
  obtain ⟨q, rfl, hq⟩ := newline_shape hn
  -- the walk goes past the escape character, which is not part of the line end
  have hlen : (q ++ '\n' :: x).length ≤ (w ++ t).length := by
    refine Nat.le_of_not_lt fun hlt => ?_
    obtain ⟨k, hk⟩ := hwalk.suffix
    obtain ⟨b, -, hb⟩ := Text.exists_of_append_eq_append (hk.symm.trans hs) hlt
    have heq : (b ++ [e]) ++ (w ++ t) = (q ++ ['\n']) ++ x := by simpa using hb.symm
    obtain ⟨b', hb', -⟩ := Text.exists_of_append_eq_append heq hx
    have hmem : e ∈ q ++ ['\n'] := by rw [hb']; simp
    have hbreak := he.isLineBreak
    obtain rfl | rfl := hq
    · obtain rfl : e = '\n' := by simpa using hmem
      cases hbreak
    · obtain rfl | rfl : e = '\r' ∨ e = '\n' := by simpa using hmem
      · cases hbreak
      · cases hbreak
  have hle := hwalk.length_le_of_continued he hw hs ha hlen
  simp only [List.length_append, List.length_cons] at hle
  omega

/-- The text `s` is `p` with `x` behind it, and `p` ends with the line end that `s` begins in. -/
structure LineCut (e : Char) (s p x : Text) : Prop where
  eq : s = p ++ x
  closed : Closed e p
  walk : ∃ m ns, Walk e true s m ∧ newline m = .ok ns x

namespace LineCut

variable {e : Char} {s m p x : Text}

/-- A line can be cut where the rest of it can be cut. -/
theorem of_walk (he : IsEscape e) (h : LineCut e m p x) (hw : Walk e false s m)
    (hw' : Walk e true s m) : ∃ w, s = w ++ m ∧ LineCut e s (w ++ p) x := by
  obtain ⟨w, rfl⟩ := hw.suffix
  obtain ⟨k, ns, hk, hn⟩ := h.walk
  obtain rfl := h.eq
  refine ⟨w, rfl, by rw [List.append_assoc], ?_, k, ns, hw'.trans hk, hn⟩
  rw [← List.append_assoc] at hw
  exact Closed.of_walk (hw.cut he h.closed.hasNewline) h.closed

/-- The rest of the line may be behind the bracket of an array. -/
theorem of_bracket (he : IsEscape e) (h : LineCut e m p x) (hw : Walk e true s (']' :: m)) :
    ∃ w, s = w ++ ']' :: m ∧ LineCut e s (w ++ ']' :: p) x := by
  obtain ⟨w, rfl⟩ := hw.suffix
  obtain ⟨k, ns, hk, hn⟩ := h.walk
  obtain rfl := h.eq
  have hb : Ordinary e ']' := he.ordinary (q := (· == ']')) (by decide) ']' rfl
  have hbracket : Walk e true (']' :: (p ++ x)) (p ++ x) :=
    .plain hb.1 (Text.atLineEnd_eq_false hb.2) (.refl _)
  refine ⟨w, rfl, by simp, ?_, k, ns, (hw.trans hbracket).trans hk, hn⟩
  have hw' : Walk e true ((w ++ ']' :: p) ++ x) ((']' :: p) ++ x) := by simpa using hw
  have hcut := hw'.cut he (h.closed.hasNewline.cons ']')
  exact (hcut.closed_of_bracket he h.closed).1

theorem getLast? (h : LineCut e s p x) : p.getLast? = some '\n' := by
  obtain ⟨m, ns, hw, hn⟩ := h.walk
  obtain ⟨w, hs⟩ := hw.suffix
  obtain ⟨q, rfl, -⟩ := newline_shape hn
  have heq : p ++ x = (w ++ q ++ ['\n']) ++ x := by rw [← h.eq, hs]; simp
  rw [List.append_cancel_right heq]
  simp

theorem not_continued (he : IsEscape e) (h : LineCut e s p x) {a w t : Text}
    (hs : s = a ++ e :: (w ++ t)) (ha : ∀ c, a.getLast? = some c → c ≠ e ∧ c ≠ '\\')
    (hw : Continued w) (ht : t.length ≤ x.length) (hx : x.length ≤ (w ++ t).length) : False := by
  obtain ⟨m, ns, hwalk, hn⟩ := h.walk
  exact hwalk.not_continued he hn hs ha hw ht hx

end LineCut

namespace Lexeme

variable {e : Char}

theorem finish_eq_ok {s r : Text} {ts : List Token} :
    finish e s = .ok ts r ↔
      ∃ us m, many (gap e) s = .ok us m ∧
        (m = [] ∧ r = [] ∧ ts = us ∨ ∃ ns, newline m = .ok ns r ∧ ts = us ++ ns) := by
  unfold finish lineEnd
  rw [optional_separator_eq, seq_eq_ok]
  constructor
  · rintro ⟨us, vs, m, hu, hv, rfl⟩
    refine ⟨us, m, hu, ?_⟩
    obtain hw | ⟨-, hn⟩ := either_eq_ok.1 (commit_eq_ok.1 hv)
    · obtain ⟨hm, rfl, rfl⟩ := when_eq_ok.1 hw
      have hm := List.isEmpty_iff.1 hm
      exact .inl ⟨hm, hm, List.append_nil _⟩
    · exact .inr ⟨vs, hn, rfl⟩
  · rintro ⟨us, m, hu, ⟨rfl, rfl, rfl⟩ | ⟨ns, hn, rfl⟩⟩
    · exact ⟨_, [], [], hu, rfl, List.append_nil _⟩
    · refine ⟨us, ns, m, hu, commit_eq_ok.2 (either_eq_ok.2 (.inr ⟨?_, hn⟩)), rfl⟩
      obtain ⟨rfl, -⟩ | ⟨rfl, -⟩ := newline_eq_ok.1 hn <;> exact ⟨_, rfl⟩

/-- Separators and a line end. -/
theorem lineCut_of_newline (he : IsEscape e) {s m r : Text} {us ns : List Token}
    (hu : many (gap e) s = .ok us m) (hn : newline m = .ok ns r) :
    Token.lineStateAll (us ++ ns) .within = .ended ∧ ∃ p, LineCut e s p r := by
  constructor
  · obtain ⟨-, hstate⟩ | ⟨hm, -⟩ := separators_cases hu
    · rw [Token.lineStateAll_append, hstate, lineState_newline hn]
      rfl
    · exact absurd hn (hm _ _)
  · have hwalks : ∀ json, Walk e json s m := fun json =>
      have hw := argumentReaders_walks he json
      hw.many (hw.either hw.blanks hw.continuation) _ _ _ hu
    obtain ⟨q, rfl, hq⟩ := newline_shape hn
    have hcut : LineCut e (q ++ '\n' :: r) (q ++ ['\n']) r := by
      refine ⟨by simp, ?_, _, ns, .refl _, hn⟩
      obtain rfl | rfl := hq <;> exact .lineEnd rfl
    obtain ⟨w, -, hcut⟩ := hcut.of_walk he (hwalks false) (hwalks true)
    exact ⟨_, hcut⟩

/-- An instruction ends with a line end of its own, or it ends the text and has no such line end. -/
theorem finish_cases (he : IsEscape e) {s r : Text} {ts : List Token}
    (h : finish e s = .ok ts r) :
    (Token.lineStateAll ts .within = .ended ∧ ∃ p, LineCut e s p r) ∨
      Token.lineStateAll ts .within ≠ .ended ∧ r = [] := by
  obtain ⟨us, m, hu, ⟨rfl, rfl, rfl⟩ | ⟨ns, hn, rfl⟩⟩ := finish_eq_ok.1 h
  · refine .inr ⟨?_, rfl⟩
    obtain ⟨-, hstate⟩ | ⟨-, hstate⟩ := separators_cases hu <;> rw [hstate] <;> decide
  · exact .inl (lineCut_of_newline he hu hn)

/-- Where only separators are left of a line, a line end is behind them, or they take the text to
its end. -/
theorem atFinish_cases (he : IsEscape e) {s : Text} (h : atFinish e s = true) :
    (∃ ts r, finish e s = .ok ts r ∧ Token.lineStateAll ts .within = .ended) ∨
      ∃ ts, many (gap e) s = .ok ts [] := by
  unfold atFinish at h
  rw [optional_separator_eq] at h
  split at h
  · rename_i us r hu
    cases r with
    | nil => exact .inr ⟨us, hu⟩
    | cons c r =>
      obtain ⟨ns, r', hn⟩ := newline_of_atLineEnd h
      exact .inl ⟨_, r', finish_eq_ok.2 ⟨us, _, hu, .inr ⟨ns, hn, rfl⟩⟩,
        (lineCut_of_newline he hu hn).1⟩
  · cases h

end Lexeme

end Containerfile
