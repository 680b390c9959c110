import Containerfile.Proofs.Continuations

/-!
# Walks through a line

Whatever a reader of arguments makes of the text, it goes through it in moves of few kinds: past one
ordinary character, past an escape character and the one behind it, or past a continuation with the
lines that belong to it.  No move goes past the end of a line in another way.  So a reader that
stands behind a line feed has met a continuation there.

In the strings of an array a backslash takes the next character with it whichever the escape
character is.  There are two kinds of walks for this reason: where `json` holds, a walk may also
make such a move.  With the backtick for the escape character the two kinds can part, and meet
again at another place.

## Main definitions

* `IsEscape` — the two characters that a file can select.
* `Walk` — the places that can be reached from a place by moves.
* `Walks` — a reader that leaves a place which can be reached.

## Main results

* `argumentReaders_walks`, `arrayReaders_walks` — all readers of arguments walk.
-/

namespace Containerfile

open Lexeme

/-! ## Line ends -/

/-- The characters that a file can select for its escape character. -/
def IsEscape (c : Char) : Prop :=
  c = '\\' ∨ c = '`'

/-- A character that neither escapes nor ends a line. -/
def Ordinary (escape c : Char) : Prop :=
  c ≠ escape ∧ isLineBreak c = false

theorem IsEscape.ne_newline {e : Char} (he : IsEscape e) : e ≠ '\n' := by
  rintro rfl
  obtain h | h := he <;> cases h

theorem IsEscape.isLineBreak {e : Char} (he : IsEscape e) : isLineBreak e = false := by
  obtain rfl | rfl := he <;> rfl

/-- A class of characters without escapes and line ends. -/
theorem IsEscape.ordinary {e : Char} (he : IsEscape e) {q : Char → Bool}
    (hq : (q '\\' || q '`' || q '\r' || q '\n') = false) : ∀ c, q c = true → Ordinary e c := by
  simp only [Bool.or_eq_false_iff] at hq
  obtain ⟨⟨⟨h1, h2⟩, h3⟩, h4⟩ := hq
  intro c hc
  constructor
  · rintro rfl
    obtain rfl | rfl := he
    · rw [h1] at hc
      cases hc
    · rw [h2] at hc
      cases hc
  · cases hb : Containerfile.isLineBreak c with
    | false => rfl
    | true =>
      simp only [Containerfile.isLineBreak, Bool.or_eq_true, beq_iff_eq] at hb
      obtain rfl | rfl := hb
      · rw [h3] at hc
        cases hc
      · rw [h4] at hc
        cases hc

namespace Text

/-- A line ends at a line feed, alone or with a carriage return before it. -/
theorem atLineEnd_cons {c : Char} {s : Text} :
    atLineEnd (c :: s) = true ↔ c = '\n' ∨ c = '\r' ∧ ∃ r, s = '\n' :: r := by
  unfold atLineEnd
  split
  · rename_i h
    cases h
  · rename_i h
    cases h
    simp
  · rename_i h
    cases h
    simp
  · rename_i h1 h2 h3
    simp only [Bool.false_eq_true, false_iff]
    rintro (rfl | ⟨rfl, r, rfl⟩)
    · exact h2 _ rfl
    · exact h3 _ rfl

theorem atLineEnd_eq_false {c : Char} {s : Text} (hc : isLineBreak c = false) :
    atLineEnd (c :: s) = false := by
  rw [Bool.eq_false_iff, ne_eq, atLineEnd_cons]
  rintro (rfl | ⟨rfl, -⟩) <;> cases hc

theorem atLineEnd_carriage {s : Text} (hs : s.head? ≠ some '\n') :
    atLineEnd ('\r' :: s) = false := by
  rw [Bool.eq_false_iff, ne_eq, atLineEnd_cons]
  rintro (hfeed | ⟨-, r, rfl⟩)
  · cases hfeed
  · exact hs rfl

theorem atLineEnd_append {p : Text} (hp : HasNewline p) (x : Text) :
    (p ++ x).atLineEnd = p.atLineEnd := by
  cases p with
  | nil => cases hp
  | cons c p =>
    rw [Bool.eq_iff_iff, List.cons_append, atLineEnd_cons, atLineEnd_cons]
    refine or_congr_right (and_congr_right ?_)
    rintro rfl
    cases p with
    | nil => simp [HasNewline] at hp
    | cons d p => simp

/-- A run of characters ends at the latest where another text begins with none of them. -/
theorem span_append {p : Char → Bool} {t : Text} (ht : t.head?.any p = false) (u : Text) :
    (u ++ t).takeWhile p = u.takeWhile p ∧ (u ++ t).dropWhile p = u.dropWhile p ++ t := by
  induction u with
  | nil =>
    cases t with
    | nil => simp
    | cons c t =>
      have hc : p c = false := by simpa using ht
      simp [hc]
  | cons c u ih => by_cases hc : p c = true <;> simp [hc, ih]

end Text

namespace Lexeme

open Grammar

theorem newline_eq_ok {s r : Text} {ts : List Token} :
    newline s = .ok ts r ↔
      s = '\r' :: '\n' :: r ∧ ts = [.newline ['\r', '\n']] ∨
        s = '\n' :: r ∧ ts = [.newline ['\n']] := by
  unfold newline
  rw [either_eq_ok, exactly_eq_ok, exactly_eq_ok]
  refine or_congr Iff.rfl (and_iff_right_of_imp ?_)
  rintro ⟨rfl, -⟩
  exact ⟨_, rfl⟩

/-- A line end that is there can be read. -/
theorem newline_of_atLineEnd {c : Char} {s : Text} (h : Text.atLineEnd (c :: s) = true) :
    ∃ ts r, newline (c :: s) = .ok ts r := by
  obtain rfl | ⟨rfl, r, rfl⟩ := Text.atLineEnd_cons.1 h
  · exact ⟨_, _, newline_eq_ok.2 (.inr ⟨rfl, rfl⟩)⟩
  · exact ⟨_, _, newline_eq_ok.2 (.inl ⟨rfl, rfl⟩)⟩

theorem optional_run_eq_ok (kind : LeafKind) (q : Char → Bool) (s : Text) :
    ∃ ts, optional (run kind q) s = .ok ts (s.dropWhile q) := by
  by_cases h : s.takeWhile q = []
  · have hs : s.dropWhile q = s := by
      have := List.takeWhile_append_dropWhile (p := q) (l := s)
      rwa [h] at this
    refine ⟨[], optional_eq_ok.2 (.inr ⟨⟨s, ?_⟩, rfl, hs⟩)⟩
    rw [run, h]
  · exact ⟨_, optional_eq_ok.2 (.inl (run_eq_ok.2 ⟨h, rfl, rfl⟩))⟩

/-- An escape character continues its line exactly if only blanks stand between it and the line
end. -/
theorem continuation_cons_eq_ok {escape : Char} {s : Text} :
    (∃ ts r, continuation escape (escape :: s) = .ok ts r) ↔
      ∃ ts r, newline (s.dropWhile isBlank) = .ok ts r := by
  obtain ⟨bs, hb⟩ := optional_run_eq_ok .blank isBlank s
  constructor
  · rintro ⟨ts, r, e⟩
    obtain ⟨us, vs, m, hu, -, -⟩ := seq_eq_ok.1 e
    obtain ⟨ws, hw, -⟩ := node_eq_ok.1 hu
    obtain ⟨_, ns, m1, hw, hn, -⟩ := seq_eq_ok.1 hw
    obtain ⟨_, _, m2, hw, hb', -⟩ := seq_eq_ok.1 hw
    have hm2 : m2 = s := by simpa using (exactly_eq_ok.1 hw).1.symm
    rw [hm2, blanks, hb] at hb'
    cases hb'
    exact ⟨_, _, hn⟩
  · rintro ⟨ns, m, hn⟩
    have hc : lineContinuation escape (escape :: s) =
        .ok [.node .continuation ([.leaf .symbol [escape]] ++ bs ++ ns)] m :=
      node_eq_ok.2 ⟨_, seq_eq_ok.2 ⟨_, _, _, seq_eq_ok.2
        ⟨_, _, _, exactly_eq_ok.2 ⟨rfl, rfl⟩, hb, rfl⟩, hn, rfl⟩, rfl⟩
    obtain ⟨vs, r, hr⟩ := lines_eq_ok m
    exact ⟨_, r, seq_eq_ok.2 ⟨_, vs, m, hc, hr, rfl⟩⟩

/-- An escape character right before a line end continues the line. -/
theorem continuation_of_atLineEnd {escape d : Char} {s : Text}
    (h : Text.atLineEnd (d :: s) = true) :
    ∃ ts r, continuation escape (escape :: d :: s) = .ok ts r := by
  have hd : isBlank d = false := by
    obtain rfl | ⟨rfl, -⟩ := Text.atLineEnd_cons.1 h <;> rfl
  rw [continuation_cons_eq_ok, List.dropWhile_cons_of_neg (by simp [hd])]
  exact newline_of_atLineEnd h

/-- A continuation is read, or there is none. -/
theorem continuation_eq_ok_or_stuck (escape : Char) (s : Text) :
    (∃ ts r, continuation escape s = .ok ts r) ∨ ∃ m, continuation escape s = .stuck m := by
  cases h : continuation escape s with
  | ok ts r => exact .inl ⟨ts, r, rfl⟩
  | stuck m => exact .inr ⟨m, rfl⟩
  | failed f => exact absurd h (unfailing_continuation escape s f)

/-- A continuation begins with the escape character. -/
theorem eq_cons_of_continuation {escape : Char} {s r : Text} {ts : List Token}
    (h : continuation escape s = .ok ts r) : ∃ s', s = escape :: s' := by
  obtain ⟨us, vs, m, hu, -, -⟩ := seq_eq_ok.1 h
  obtain ⟨ws, hw, -⟩ := node_eq_ok.1 hu
  obtain ⟨_, _, _, hw, -, -⟩ := seq_eq_ok.1 hw
  obtain ⟨_, _, _, hw, -, -⟩ := seq_eq_ok.1 hw
  obtain ⟨rfl, -⟩ := exactly_eq_ok.1 hw
  exact ⟨_, rfl⟩

end Lexeme

/-! ## Walks -/

/-- The places that can be reached from a place, as the texts from there on. -/
inductive Walk (escape : Char) (json : Bool) : Text → Text → Prop where
  | refl (s : Text) : Walk escape json s s
  /-- Past an ordinary character. -/
  | plain {c : Char} {s r : Text} (hc : c ≠ escape) (hs : Text.atLineEnd (c :: s) = false)
      (h : Walk escape json s r) : Walk escape json (c :: s) r
  /-- Past an escape character that continues no line, and the character behind it; or past a
  backslash and the character behind it, in the strings of an array. -/
  | pair {c d : Char} {s r : Text}
      (hc : c = escape ∧ (∃ m, continuation escape (c :: d :: s) = .stuck m) ∨
        c ≠ escape ∧ c = '\\' ∧ json = true)
      (hs : Text.atLineEnd (d :: s) = false) (h : Walk escape json s r) :
      Walk escape json (c :: d :: s) r
  /-- Past an escape character at the end of the text. -/
  | lone : Walk escape json [escape] []
  /-- Past a continuation. -/
  | continuation {s m r : Text} {ts : List Token} (hc : continuation escape s = .ok ts m)
      (h : Walk escape json m r) : Walk escape json s r

namespace Walk

variable {escape : Char} {json : Bool} {s m r : Text}

theorem trans (h : Walk escape json s m) (h' : Walk escape json m r) : Walk escape json s r := by
  induction h with
  | refl s => exact h'
  | plain hc hs _ ih => exact .plain hc hs (ih h')
  | pair hc hs _ ih => exact .pair hc hs (ih h')
  | lone =>
    cases h' with
    | refl => exact .lone
    | continuation hc _ =>
      obtain ⟨s', hs⟩ := eq_cons_of_continuation hc
      cases hs
  | continuation hc _ ih => exact .continuation hc (ih h')

/-- The place that is reached is the end of the text. -/
theorem suffix (h : Walk escape json s r) : ∃ w, s = w ++ r := by
  induction h with
  | refl s => exact ⟨[], rfl⟩
  | @plain c s r _ _ _ ih =>
    obtain ⟨w, rfl⟩ := ih
    exact ⟨c :: w, rfl⟩
  | @pair c d s r _ _ _ ih =>
    obtain ⟨w, rfl⟩ := ih
    exact ⟨c :: d :: w, rfl⟩
  | lone => exact ⟨[escape], rfl⟩
  | continuation hc _ ih =>
    obtain ⟨w, rfl⟩ := ih
    exact ⟨_, (lossless_continuation escape).eq_append hc rfl⟩

/-- A walk that ends before a text that is behind begins before it. -/
theorem exists_append {a k t z : Text} (h : Walk escape json s (z ++ t)) (hs : a ++ t = k ++ s) :
    ∃ w, s = w ++ t ∧ a = k ++ w := by
  obtain ⟨w, rfl⟩ := h.suffix
  rw [← List.append_assoc, ← List.append_assoc] at hs
  exact ⟨w ++ z, (List.append_assoc ..).symm, by simpa using List.append_cancel_right hs⟩

theorem of_ordinary {w : Text} (hw : ∀ c ∈ w, Ordinary escape c) (r : Text) :
    Walk escape json (w ++ r) r := by
  induction w with
  | nil => exact .refl r
  | cons c w ih =>
    have hc := hw c List.mem_cons_self
    exact .plain hc.1 (Text.atLineEnd_eq_false hc.2) (ih fun d hd =>
      hw d (List.mem_cons_of_mem _ hd))

end Walk

/-! ## References -/

namespace Reference

/-- The characters that the head of a reference is made of. -/
def isHeadChar (c : Char) : Bool :=
  isNameChar c || ['$', '{', '}', ':', '-', '+', '?'].contains c

theorem isHeadChar_of_takeWhile (s : Text) : ∀ c ∈ s.takeWhile isNameChar, isHeadChar c = true := by
  intro c hc
  have h := List.all_eq_true.1 (List.all_takeWhile (p := isNameChar) (l := s)) c hc
  simp [isHeadChar, h]

theorem isHeadChar_operator (m : Modifier) : ∀ c ∈ m.operator, isHeadChar c = true := by
  exact List.all_eq_true.1 (by cases m <;> decide)

theorem isHeadChar_of_headBraced {name s r : Text} {parts : List Token}
    (hn : ∀ c ∈ name, isHeadChar c = true) (h : headBraced name s = .whole parts r) :
    ∀ c ∈ Token.textAll parts, isHeadChar c = true := by
  unfold headBraced at h
  split at h
  · cases h
    intro c hc
    simp only [bracedParts, Token.textAll, Token.text, Token.symbol, Token.identifier,
      List.mem_append, List.mem_singleton, List.append_nil] at hc
    obtain rfl | rfl | hc | rfl := hc
    · rfl
    · rfl
    · exact hn c hc
    · rfl
  · split at h
    · cases h
    · split at h <;> cases h

theorem isHeadChar_of_head_whole {s r : Text} {parts : List Token} (h : head s = .whole parts r) :
    ∀ c ∈ Token.textAll parts, isHeadChar c = true := by
  unfold head at h
  split at h
  · rename_i s
    split at h
    · cases h
    · rename_i d name hn
      exact isHeadChar_of_headBraced (hn ▸ isHeadChar_of_takeWhile s) h
  · rename_i s _
    split at h
    · cases h
    · rename_i d name hn
      split at h
      · cases h
      · cases h
        intro c hc
        simp only [bareParts, Token.textAll, Token.text, Token.identifier, List.mem_append,
          List.mem_singleton, List.append_nil] at hc
        obtain rfl | hc := hc
        · rfl
        · exact isHeadChar_of_takeWhile s c (hn ▸ hc)
  · cases h

theorem isHeadChar_of_head_modified {s r name : Text} {m : Modifier}
    (h : head s = .modified name m r) :
    ∀ c ∈ '$' :: '{' :: name ++ m.operator, isHeadChar c = true := by
  have hn : ∀ c ∈ name, isHeadChar c = true := by
    unfold head at h
    split at h
    · rename_i s
      split at h
      · cases h
      · rename_i d n hn
        obtain ⟨rfl, -⟩ := eq_of_headBraced.2 _ _ _ h
        exact hn ▸ isHeadChar_of_takeWhile s
    · split at h
      · cases h
      · split at h <;> cases h
    · cases h
  intro c hc
  simp only [List.cons_append, List.mem_cons, List.mem_append] at hc
  obtain rfl | rfl | hc | hc := hc
  · rfl
  · rfl
  · exact hn c hc
  · exact isHeadChar_operator m c hc

end Reference

/-! ## Literals -/

namespace Literal

variable {escape : Char} {json : Bool} {style : Style} {quote q : Option Quote} {s m r : Text}
  {ps : List Piece}

/-- What a step that goes on takes from the front of a text. -/
inductive Takes (escape : Char) (json : Bool) : Text → List Piece → Text → Prop where
  | continuation {s r : Text} {ts : List Token} (h : Lexeme.continuation escape s = .ok ts r) :
      Takes escape json s (ts.map .token) r
  | pair {c d : Char} {s : Text}
      (hc : c = escape ∧ (∃ m, Lexeme.continuation escape (c :: d :: s) = .stuck m) ∨
        c ≠ escape ∧ c = '\\' ∧ json = true)
      (hs : Text.atLineEnd (d :: s) = false) : Takes escape json (c :: d :: s) [.text [c, d]] s
  | lone : Takes escape json [escape] [.text [escape]] []
  | char {c : Char} {s : Text} {p : Piece} (hp : p.source = [c]) (hc : c ≠ escape)
      (hs : Text.atLineEnd (c :: s) = false) : Takes escape json (c :: s) [p] s
  | reference {s r : Text} {parts : List Token} (h : Reference.head s = .whole parts r) :
      Takes escape json s [.token (.node .reference parts)] r

/-- What a step can do at the front of a text. -/
def Step.Moves (escape : Char) (json : Bool) (s : Text) : Step → Prop
  | .take ps _ r => Takes escape json s ps r
  | .last ps r =>
    ∃ c, s = c :: r ∧ c ≠ escape ∧ Text.atLineEnd (c :: r) = false ∧ ps = [.token (.symbol [c])]
  | .reference name m r => Reference.head s = .modified name m r
  | .stop => True
  | .malformed _ => True

theorem Step.Possible.moves {st : Step} (h : Possible style escape quote s st)
    (hj : style.jsonEscapes = true → json = true ∨ escape = '\\') : st.Moves escape json s := by
  cases h with
  | stop | malformed => trivial
  | continuation _ h => exact .continuation h
  | @pair _ c d s hc hs =>
    refine .pair ?_ hs
    obtain ⟨rfl, hnone⟩ | ⟨hne, rfl, hjson⟩ := hc
    · obtain ⟨ts, m, hok⟩ | hstuck := continuation_eq_ok_or_stuck c (c :: d :: s)
      · exact absurd hok (hnone ts m)
      · exact .inl ⟨rfl, hstuck⟩
    · obtain hjson | rfl := hj hjson
      · exact .inr ⟨hne, rfl, hjson⟩
      · exact absurd rfl hne
  | @lone _ s hnone hs =>
    cases s with
    | nil => exact .lone
    | cons d s =>
      -- A line end behind the escape character makes a continuation.
      obtain ⟨ts, r, hok⟩ := @continuation_of_atLineEnd escape _ _ hs
      exact absurd hok (hnone ts r)
  | char _ hc hs | blank hc hs | openingQuote hc hs | closingQuote _ hc hs => exact .char rfl hc hs
  | lastQuote _ hc hs => exact ⟨_, rfl, hc, hs, rfl⟩
  | reference _ _ h => exact .reference h
  | modified _ _ h => exact h

/-- A step takes a continuation, one character or two, or a reference without a word, or it meets
the head of a reference. -/
theorem moves_step (hj : style.jsonEscapes = true → json = true ∨ escape = '\\')
    (quote : Option Quote) (s : Text) : (step style escape quote s).Moves escape json s :=
  (possible_step style escape quote s).moves hj

theorem takes_step (hj : style.jsonEscapes = true → json = true ∨ escape = '\\')
    (h : step style escape quote s = .take ps q r) : Takes escape json s ps r := by
  have := moves_step hj quote s
  rwa [h] at this

theorem head_of_step_reference {name : Text} {op : Modifier}
    (h : step style escape quote s = .reference name op r) :
    Reference.head s = .modified name op r := by
  have hj : style.jsonEscapes = true → true = true ∨ escape = '\\' := fun _ => .inl rfl
  have := moves_step hj quote s
  rwa [h] at this

section Walking

variable (he : IsEscape escape)
include he

theorem Takes.walk (h : Takes escape json s ps r) : Walk escape json s r := by
  cases h with
  | continuation h => exact .continuation h (.refl _)
  | pair hc hs => exact .pair hc hs (.refl _)
  | lone => exact .lone
  | char _ hc hs => exact .plain hc hs (.refl _)
  | reference h =>
    rw [← Reference.eq_of_head_whole h]
    refine .of_ordinary (fun c hc => ?_) _
    exact he.ordinary (by decide) c (Reference.isHeadChar_of_head_whole h c hc)

theorem walk_of_step_reference {name : Text} {op : Modifier}
    (h : step style escape quote s = .reference name op r) : Walk escape json s r := by
  have hd := head_of_step_reference h
  rw [← Reference.eq_of_head_modified hd]
  refine .of_ordinary (fun c hc => ?_) _
  exact he.ordinary (by decide) c (Reference.isHeadChar_of_head_modified hd c hc)

/-- A reference is passed with its word and the closing brace. -/
theorem walk_of_reference {name : Text} {op : Modifier}
    (hstep : step style escape quote s = .reference name op m)
    (hw : Walk escape json m ('}' :: r)) :
    Walk escape json s r := by
  have hb : Ordinary escape '}' := he.ordinary (q := (· == '}')) (by decide) '}' rfl
  refine (walk_of_step_reference he hstep).trans (hw.trans ?_)
  exact .plain hb.1 (Text.atLineEnd_eq_false hb.2) (.refl _)

theorem Scans.walk (hj : style.jsonEscapes = true → json = true ∨ escape = '\\')
    (h : Scans escape style quote s ps r) : Walk escape json s r := by
  induction h with
  | stop => exact .refl _
  | take hstep _ ih => exact ((takes_step hj hstep).walk he).trans (ih hj)
  | @last style quote s r ps hstep =>
    have hm := moves_step hj quote s
    rw [hstep] at hm
    obtain ⟨c, rfl, hc, hs, -⟩ := hm
    exact .plain hc hs (.refl _)
  | reference hstep _ _ ihw ih => exact (walk_of_reference he hstep (ihw nofun)).trans (ih hj)

end Walking

/-! ## Blanks at the end of a literal -/

theorem trimEnd_text_cons (t : Text) (ps : List Piece) :
    trimEnd (.text t :: ps) = (.text t :: (trimEnd ps).1, (trimEnd ps).2) :=
  rfl

theorem trimEnd_token_cons (t : Token) (ps : List Piece) :
    trimEnd (.token t :: ps) = (.token t :: (trimEnd ps).1, (trimEnd ps).2) :=
  rfl

theorem trimEnd_blank_cons (c : Char) (ps : List Piece) :
    trimEnd (.blank c :: ps) =
      if (trimEnd ps).1 = [] then ([], c :: (trimEnd ps).2)
      else (.blank c :: (trimEnd ps).1, (trimEnd ps).2) := by
  rw [trimEnd.eq_def]
  dsimp only
  cases trimEnd ps with
  | mk kept blanks => cases kept <;> rfl

theorem blank_mem_of_mem_trimEnd {ps : List Piece} {c : Char} (h : c ∈ (trimEnd ps).2) :
    Piece.blank c ∈ ps := by
  induction ps with
  | nil => cases h
  | cons p ps ih =>
    cases p with
    | text t => exact List.mem_cons_of_mem _ (ih h)
    | token t => exact List.mem_cons_of_mem _ (ih h)
    | blank d =>
      rw [trimEnd_blank_cons] at h
      split at h
      · obtain rfl | h := List.mem_cons.1 h
        · exact List.mem_cons_self
        · exact List.mem_cons_of_mem _ (ih h)
      · exact List.mem_cons_of_mem _ (ih h)

theorem trimEnd_tokens_append (ts : List Token) (ps : List Piece) :
    trimEnd (ts.map .token ++ ps) = (ts.map .token ++ (trimEnd ps).1, (trimEnd ps).2) := by
  induction ts with
  | nil => rfl
  | cons t ts ih =>
    rw [List.map_cons, List.cons_append, trimEnd_token_cons, ih]
    rfl

/-- What a step takes is a blank, or does not end with one. -/
theorem Takes.trimEnd_append (h : Takes escape json s ps r) :
    (∃ c, ps = [.blank c]) ∨
      ∀ qs, trimEnd (ps ++ qs) = (ps ++ (trimEnd qs).1, (trimEnd qs).2) := by
  cases h with
  | continuation h => exact .inr (trimEnd_tokens_append _)
  | pair hc hs => exact .inr (trimEnd_text_cons _)
  | lone => exact .inr (trimEnd_text_cons _)
  | @char c s p hp hc hs =>
    cases p with
    | blank d => exact .inl ⟨d, rfl⟩
    | text t => exact .inr (trimEnd_text_cons t)
    | token t => exact .inr (trimEnd_token_cons t)
  | reference h => exact .inr (trimEnd_token_cons _)

/-- If nothing but blanks is read, then all of it goes back to the rest. -/
theorem Scans.eq_of_trimEnd (h : Scans escape style quote s ps r) (hk : (trimEnd ps).1 = []) :
    (trimEnd ps).2 ++ r = s := by
  have ht := sourceOf_trimEnd ps
  rw [hk] at ht
  rw [← h.sourceOf_append_eq, ← ht]
  rfl

theorem Scans.walk_trimEnd (he : IsEscape escape)
    (hj : style.jsonEscapes = true → json = true ∨ escape = '\\')
    (h : Scans escape style quote s ps r) : Walk escape json s ((trimEnd ps).2 ++ r) := by
  induction h with
  | stop => exact .refl _
  | @take style quote q s m r ps qs hstep hm ih =>
    have ht := takes_step hj hstep
    obtain ⟨c, rfl⟩ | htrim := ht.trimEnd_append
    · by_cases hk : (trimEnd qs).1 = []
      · have hall : (trimEnd ([.blank c] ++ qs)).1 = [] := by
          rw [List.singleton_append, trimEnd_blank_cons, if_pos hk]
        rw [(Scans.take hstep hm).eq_of_trimEnd hall]
        exact .refl _
      · rw [List.singleton_append, trimEnd_blank_cons, if_neg hk]
        exact (ht.walk he).trans (ih hj)
    · rw [htrim]
      exact (ht.walk he).trans (ih hj)
  | @last style quote s r ps hstep =>
    have hm := moves_step hj quote s
    rw [hstep] at hm
    obtain ⟨c, rfl, hc, hs, rfl⟩ := hm
    exact .plain hc hs (.refl _)
  | @reference style quote s m m' r name op ws qs hstep hw hm ihw ih =>
    rw [referencePiece, trimEnd_token_cons]
    exact (walk_of_reference he hstep (hw.walk he (absurd · (by decide)))).trans (ih hj)

end Literal

/-! ## Readers -/

/-- What the reader leaves can be reached. -/
def Walks (escape : Char) (json : Bool) (g : Grammar) : Prop :=
  ∀ s ts r, g s = .ok ts r → Walk escape json s r

section Readers

variable {escape : Char} {json : Bool}

theorem compositional_walks (escape : Char) (json : Bool) : Compositional (Walks escape json) :=
  .ofRelation (R := fun s _ r => Walk escape json s r) .refl (fun hm hr => hm.trans hr)
    (fun _ _ hr => hr)

theorem walks_when (p : Text → Bool) : Walks escape json (.when p) := by
  intro s ts r e
  obtain ⟨-, -, rfl⟩ := Grammar.when_eq_ok.1 e
  exact .refl _

variable (he : IsEscape escape)
include he

theorem walks_run (kind : LeafKind) {q : Char → Bool}
    (hq : (q '\\' || q '`' || q '\r' || q '\n') = false) : Walks escape json (.run kind q) := by
  intro s ts r e
  obtain ⟨-, -, rfl⟩ := Grammar.run_eq_ok.1 e
  have hw : ∀ c ∈ s.takeWhile q, Ordinary escape c := fun c hc =>
    he.ordinary hq c (List.all_eq_true.1 List.all_takeWhile c hc)
  have : Walk escape json _ _ := .of_ordinary hw (s.dropWhile q)
  rwa [List.takeWhile_append_dropWhile] at this

theorem walks_exactly (kind : LeafKind) {start : Text}
    (hs : (start.contains '\\' || start.contains '`' || start.contains '\r'
      || start.contains '\n') = false) :
    Walks escape json (.exactly kind start) := by
  intro s ts r e
  obtain ⟨rfl, -⟩ := Grammar.exactly_eq_ok.1 e
  refine .of_ordinary (fun c hc => ?_) r
  exact he.ordinary (q := start.contains) hs c (by simpa using hc)

theorem walks_keyword {name : Text} (hn : ∀ c ∈ name, isNameChar c = true) :
    Walks escape json (keyword name) := by
  intro s ts r e
  obtain ⟨word, rfl, hw, -, -⟩ := Grammar.keyword_eq_ok.1 e
  exact .of_ordinary (fun c hc => he.ordinary (by decide) c (isNameChar_of_sameLetters hw hn c hc))
    r

theorem walks_literal {style : Style}
    (hj : style.jsonEscapes = true → json = true ∨ escape = '\\') :
    Walks escape json (Literal.grammar style escape) := by
  intro s ts r e
  obtain ⟨us, hu, -⟩ := Grammar.node_eq_ok.1 e
  obtain ⟨ps, m, hs, -, rfl, -⟩ := Literal.body_eq_ok.1 hu
  unfold Literal.cut
  split
  · exact hs.walk_trimEnd he hj
  · exact hs.walk he hj

theorem argumentReaders_walks (json : Bool) : ArgumentReaders (Walks escape json) escape where
  toSequential := (compositional_walks escape json).toSequential
  keyValue := (compositional_walks escape json).node _ rfl
  blanks := walks_run he _ (by decide)
  continuation _ _ _ e := .continuation e (.refl _)
  keyword k := walks_keyword he k.isNameChar_of_mem_name
  stageKeyword := walks_keyword he (List.all_eq_true.1 (by decide))
  stageName := walks_run he _ (by decide)
  flagName := walks_run he _ (by decide)
  labelName := walks_run he _ (by decide)
  dashes := walks_exactly he _ (by decide)
  equals := walks_exactly he _ (by decide)
  literal style hs := walks_literal he (by rw [hs]; nofun)

/-- The readers of arrays walk too, if a backslash can take the next character with it. -/
theorem arrayReaders_walks (hj : json = true ∨ escape = '\\') :
    ArrayReaders (Walks escape json) escape where
  toArgumentReaders := argumentReaders_walks he json
  execForm := (compositional_walks escape json).node _ rfl
  openingBracket := walks_exactly he _ (by decide)
  comma := walks_exactly he _ (by decide)
  closingBracket := walks_exactly he _ (by decide)
  quoteAhead := walks_when _
  element references := walks_literal he fun _ => hj
  finishAhead := walks_when _

end Readers

end Containerfile
