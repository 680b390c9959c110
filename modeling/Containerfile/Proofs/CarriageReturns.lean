import Containerfile.Proofs.Locations
import Mathlib.Data.List.Induction

/-!
# Carriage returns

A file can be kept with a line feed at the end of each line, or with a carriage return and a line
feed.  A line end is looked for in many places, and each must know both of its spellings.  So the
readers are shown to be *portable* one by one: from the text with carriage returns each of them
reads what it reads without them, up to the spelling of line ends, and it stops at the same place.

That the lengths of texts are compared does no harm: a text that remains is an end of the text, and
stays the shorter one with carriage returns in both.

## Main definitions

* `Text.crlf`, `Token.crlf` — the same with carriage returns.
* `Portable` — the reader does the same with carriage returns.

## Main results

* `Position.behind_crlf` — carriage returns change no line and no column.
* `Grammar.sequential_portable` — portable readers are put together to portable readers.
* `Literal.step_crlf`, `Literal.portable_body` — literals are portable.
-/

namespace Containerfile

/-! ## Text -/

namespace Text

/-- The text with a carriage return before each line feed. -/
def crlf (s : Text) : Text :=
  s.flatMap fun c => if c = '\n' then ['\r', '\n'] else [c]

@[simp] theorem crlf_nil : crlf [] = [] :=
  rfl

@[simp] theorem crlf_newline (s : Text) : crlf ('\n' :: s) = '\r' :: '\n' :: crlf s :=
  rfl

theorem crlf_cons {c : Char} (hc : c ≠ '\n') (s : Text) : crlf (c :: s) = c :: crlf s := by
  simp [crlf, hc]

theorem crlf_append (s t : Text) : crlf (s ++ t) = crlf s ++ crlf t := by
  simp [crlf]

theorem crlf_of_notMem {s : Text} (hs : '\n' ∉ s) : crlf s = s := by
  induction s with
  | nil => rfl
  | cons c s ih =>
    rw [List.mem_cons, not_or] at hs
    rw [crlf_cons (Ne.symm hs.1), ih hs.2]

@[simp] theorem crlf_eq_nil {s : Text} : crlf s = [] ↔ s = [] := by
  cases s with
  | nil => simp
  | cons c s => by_cases hc : c = '\n' <;> simp [hc, crlf_cons]

theorem isEmpty_crlf (s : Text) : (crlf s).isEmpty = s.isEmpty := by
  rw [Bool.eq_iff_iff, List.isEmpty_iff, List.isEmpty_iff, crlf_eq_nil]

/-- A character that is not in a text is not in what remains of it. -/
theorem notMem_of_append {w r s : Text} {c : Char} (h : w ++ r = s) (hs : c ∉ s) : c ∉ r := by
  subst h
  exact fun hr => hs (List.mem_append_right w hr)

/-- What remains of a text is shorter with carriage returns exactly if it is shorter without. -/
theorem length_crlf_lt_iff {w r s : Text} (h : w ++ r = s) :
    (crlf r).length < (crlf s).length ↔ r.length < s.length := by
  have hw : 0 < (crlf w).length ↔ 0 < w.length := by
    rw [List.length_pos_iff, List.length_pos_iff, Ne, crlf_eq_nil]
  rw [← h, crlf_append, List.length_append, List.length_append]
  omega

section Classes

variable {p : Char → Bool} (hr : p '\r' = false) (hn : p '\n' = false)
include hr hn

theorem takeWhile_crlf (s : Text) : (crlf s).takeWhile p = s.takeWhile p := by
  induction s with
  | nil => rfl
  | cons c s ih =>
    by_cases hc : c = '\n'
    · subst hc
      simp [hr, hn]
    · rw [crlf_cons hc, List.takeWhile_cons, List.takeWhile_cons, ih]

theorem dropWhile_crlf (s : Text) : (crlf s).dropWhile p = crlf (s.dropWhile p) := by
  induction s with
  | nil => rfl
  | cons c s ih =>
    by_cases hc : c = '\n'
    · subst hc
      simp [hr, hn]
    · rw [crlf_cons hc, List.dropWhile_cons, List.dropWhile_cons, ih]
      split
      · rfl
      · rw [crlf_cons hc]

theorem head?_crlf_any (s : Text) : (crlf s).head?.any p = s.head?.any p := by
  cases s with
  | nil => rfl
  | cons c s =>
    by_cases hc : c = '\n'
    · subst hc
      simp [hr, hn]
    · simp [crlf_cons hc]

end Classes

theorem head?_crlf_eq_some {d : Char} (hr : d ≠ '\r') (hn : d ≠ '\n') {s : Text} :
    (crlf s).head? = some d ↔ s.head? = some d := by
  cases s with
  | nil => simp
  | cons c s =>
    by_cases hc : c = '\n'
    · subst hc
      simp [Ne.symm hr, Ne.symm hn]
    · simp [crlf_cons hc]

theorem atLineEnd_crlf {s : Text} (hs : '\r' ∉ s) : atLineEnd (crlf s) = atLineEnd s := by
  cases s with
  | nil => rfl
  | cons c s =>
    by_cases hc : c = '\n'
    · subst hc
      rfl
    · have hr : c ≠ '\r' := fun h => hs (h ▸ List.mem_cons_self)
      rw [crlf_cons hc]
      unfold atLineEnd
      split <;> simp_all

theorem after?_crlf {start : Text} (hr : '\r' ∉ start) (hn : '\n' ∉ start) (s : Text) :
    after? start (crlf s) = (after? start s).map crlf := by
  induction start generalizing s with
  | nil => simp [after?]
  | cons d start ih =>
    rw [List.mem_cons, not_or] at hr hn
    cases s with
    | nil => rfl
    | cons c s =>
      by_cases hc : c = '\n'
      · subst hc
        simp [after?, Ne.symm hr.1, Ne.symm hn.1]
      · rw [crlf_cons hc, after?, after?, ih hr.2 hn.2]
        split <;> rfl

/-- A text without carriage returns at the front of `crlf s` is at the front of `s`. -/
theorem exists_of_crlf_eq_append {w r s : Text} (hw : '\r' ∉ w) (h : crlf s = w ++ r) :
    ∃ m, s = w ++ m ∧ r = crlf m := by
  induction w generalizing s with
  | nil => exact ⟨s, rfl, h.symm⟩
  | cons d w ih =>
    rw [List.mem_cons, not_or] at hw
    cases s with
    | nil => cases h
    | cons c s =>
      by_cases hc : c = '\n'
      · subst hc
        rw [crlf_newline, List.cons_append, List.cons.injEq] at h
        exact absurd h.1 hw.1
      · rw [crlf_cons hc, List.cons_append, List.cons.injEq] at h
        obtain ⟨rfl, h⟩ := h
        obtain ⟨m, rfl, rfl⟩ := ih hw.2 h
        exact ⟨m, rfl, rfl⟩

theorem count_newline_crlf (s : Text) : (crlf s).count '\n' = s.count '\n' := by
  induction s with
  | nil => rfl
  | cons c s ih =>
    by_cases hc : c = '\n'
    · subst hc
      simp [ih]
    · simp [crlf_cons hc, List.count_cons, ih]

/-- The last line is the same with carriage returns before it. -/
theorem takeWhile_reverse_crlf (s : Text) :
    (crlf s).reverse.takeWhile (· != '\n') = s.reverse.takeWhile (· != '\n') := by
  induction s using List.reverseRecOn with
  | nil => rfl
  | append_singleton s c ih =>
    rw [crlf_append]
    by_cases hc : c = '\n'
    · subst hc
      simp
    · simp [crlf_cons hc, List.takeWhile_cons, ih]

end Text

/-- Carriage returns before line feeds change no line and no column. -/
theorem Position.behind_crlf (s : Text) : behind (Text.crlf s) = behind s := by
  rw [behind, behind, Text.count_newline_crlf, Text.takeWhile_reverse_crlf]

/-! ## Tokens -/

namespace Token

mutual

/-- The token with carriage returns in its line ends. -/
def crlf : Token → Token
  | leaf .newline s => leaf .newline (Text.crlf s)
  | leaf kind s => leaf kind s
  | node kind ts => node kind (crlfAll ts)

/-- The tokens with carriage returns in their line ends. -/
def crlfAll : List Token → List Token
  | [] => []
  | t :: ts => crlf t :: crlfAll ts

end

theorem crlfAll_eq_map (ts : List Token) : crlfAll ts = ts.map crlf := by
  induction ts with
  | nil => rfl
  | cons t ts ih => rw [crlfAll, ih, List.map_cons]

theorem crlfAll_append (ts us : List Token) : crlfAll (ts ++ us) = crlfAll ts ++ crlfAll us := by
  simp [crlfAll_eq_map]

theorem crlf_leaf {kind : LeafKind} (hkind : kind ≠ .newline) (s : Text) :
    (leaf kind s).crlf = leaf kind s := by
  cases kind <;> first | rfl | exact absurd rfl hkind

theorem leafText?_crlf {kind : LeafKind} (hkind : kind ≠ .newline) (t : Token) :
    t.crlf.leafText? kind = t.leafText? kind := by
  cases t with
  | node => rfl
  | leaf kind' s =>
    by_cases h : kind' = .newline
    · subst h
      simp [crlf, leafText?, Ne.symm hkind]
    · rw [crlf_leaf h]

end Token

theorem findSome?_map_of_forall {α β : Type} {f : α → Option β} {g : α → α} {l : List α}
    (h : ∀ a ∈ l, f (g a) = f a) : (l.map g).findSome? f = l.findSome? f := by
  induction l with
  | nil => rfl
  | cons a l ih =>
    rw [List.forall_mem_cons] at h
    rw [List.map_cons, List.findSome?_cons, List.findSome?_cons, h.1, ih h.2]

theorem Children.firstLeaf?_crlfAll {kind : LeafKind} (hkind : kind ≠ .newline) (ts : List Token) :
    firstLeaf? kind (Token.crlfAll ts) = firstLeaf? kind ts := by
  rw [firstLeaf?, Token.crlfAll_eq_map]
  exact findSome?_map_of_forall fun t _ => Token.leafText?_crlf hkind t

/-! ## Readers -/

/-- The fault with carriage returns behind it. -/
def Fault.crlf (e : Fault) : Fault :=
  ⟨e.complaint, Text.crlf e.rest⟩

/-- The outcome with carriage returns in what was read and in what is left. -/
def Outcome.crlf {α : Type} (f : α → α) : Outcome α → Outcome α
  | ok a r => ok (f a) (Text.crlf r)
  | stuck r => stuck (Text.crlf r)
  | failed e => failed e.crlf

@[simp] theorem Outcome.crlf_ok {α : Type} (f : α → α) (a : α) (r : Text) :
    (ok a r).crlf f = ok (f a) (Text.crlf r) :=
  rfl

@[simp] theorem Outcome.crlf_stuck {α : Type} (f : α → α) (r : Text) :
    (stuck r : Outcome α).crlf f = stuck (Text.crlf r) :=
  rfl

@[simp] theorem Outcome.crlf_failed {α : Type} (f : α → α) (e : Fault) :
    (failed e : Outcome α).crlf f = failed e.crlf :=
  rfl

theorem Outcome.map_crlf {α β : Type} {f : α → α} {g : β → β} {k k' : α → β}
    (h : ∀ a, k' (f a) = g (k a)) (o : Outcome α) : (o.crlf f).map k' = (o.map k).crlf g := by
  cases o with
  | ok a r => simp [crlf, map, h]
  | stuck | failed => rfl

/-- The reader reads from a text without carriage returns what it reads with a carriage return
before each line feed, up to the spelling of line ends. -/
structure Portable (g : Grammar) : Prop where
  lossless : Lossless g
  eq : ∀ s, '\r' ∉ s → g (Text.crlf s) = (g s).crlf Token.crlfAll

theorem Lossless.notMem {g : Grammar} (hg : Lossless g) {s r : Text} {ts : List Token} {c : Char}
    (h : g s = .ok ts r) (hs : c ∉ s) : c ∉ r :=
  Text.notMem_of_append (hg s ts r h) hs

namespace Grammar

variable {g h : Grammar}

/-- The second of two readers in a row need only be portable where the first one leaves off. -/
theorem crlf_seq {s : Text} (hg : g (Text.crlf s) = (g s).crlf Token.crlfAll)
    (hh : ∀ ts m, g s = .ok ts m → h (Text.crlf m) = (h m).crlf Token.crlfAll) :
    (g ++ h) (Text.crlf s) = ((g ++ h) s).crlf Token.crlfAll := by
  change seq g h (Text.crlf s) = (seq g h s).crlf _
  unfold seq
  rw [hg]
  cases hs : g s with
  | ok ts m =>
    simp only [Outcome.crlf_ok, hh ts m hs]
    cases h m <;> simp [Token.crlfAll_append]
  | stuck m => rfl
  | failed e => rfl

theorem crlf_many (hg : Portable g) (s : Text) (hs : '\r' ∉ s) :
    many g (Text.crlf s) = (many g s).crlf Token.crlfAll := by
  rw [many.eq_def g (Text.crlf s), hg.eq s hs]
  fun_induction Grammar.many g s with
  | case1 s ts r hok hlt us r' hm ih
  | case2 s ts r hok hlt r' hm ih
  | case3 s ts r hok hlt e hm ih =>
    have hlt' := (Text.length_crlf_lt_iff (hg.lossless s ts r hok)).2 hlt
    have hr := hg.lossless.notMem hok hs
    have hih := ih hr
    rw [← hg.eq r hr, ← many.eq_def, hm] at hih
    simp [hok, hlt', hih, Token.crlfAll_append]
  | case4 s ts r hok hlt =>
    have hlt' := (Text.length_crlf_lt_iff (hg.lossless s ts r hok)).not.2 hlt
    simp [hok, hlt']
  | case5 s r hok => simp [hok, Token.crlfAll]
  | case6 s e hok => simp [hok]

theorem sequential_portable : Sequential Portable where
  seq hg hh := ⟨compositional_lossless.seq hg.lossless hh.lossless, fun s hs =>
    crlf_seq (hg.eq s hs) fun _ m hm => hh.eq m (hg.lossless.notMem hm hs)⟩
  many hg := ⟨compositional_lossless.many hg.lossless, crlf_many hg⟩
  optional {g} hg := ⟨compositional_lossless.optional hg.lossless, fun s hs => by
    unfold optional
    rw [hg.eq s hs]
    cases g s <;> rfl⟩
  either {g h} hg hh := ⟨compositional_lossless.either hg.lossless hh.lossless, fun s hs => by
    unfold either
    rw [hg.eq s hs]
    cases g s with
    | stuck => exact hh.eq s hs
    | ok | failed => rfl⟩
  attempt {g} hg := ⟨compositional_lossless.attempt hg.lossless, fun s hs => by
    unfold attempt
    rw [hg.eq s hs]
    cases g s <;> rfl⟩
  tentative {g} hg := ⟨compositional_lossless.tentative hg.lossless, fun s hs => by
    unfold tentative
    rw [hg.eq s hs]
    cases g s <;> rfl⟩
  nonempty {g} hg := ⟨compositional_lossless.nonempty hg.lossless, fun s hs => by
    unfold nonempty
    rw [hg.eq s hs]
    cases g s with
    | ok ts r => cases ts <;> rfl
    | stuck | failed => rfl⟩
  commit {g} what hg := ⟨compositional_lossless.commit what hg.lossless, fun s hs => by
    unfold commit
    rw [hg.eq s hs]
    cases g s <;> rfl⟩

theorem portable_node {kind : NodeKind} (hkind : kind.isInstruction = false) (hg : Portable g) :
    Portable (node kind g) := by
  refine ⟨compositional_lossless.node kind hkind hg.lossless, fun s hs => ?_⟩
  unfold node
  rw [hg.eq s hs]
  exact Outcome.map_crlf (fun _ => by rfl) (g s)

theorem portable_run {kind : LeafKind} (hkind : kind ≠ .newline) {p : Char → Bool}
    (hr : p '\r' = false) (hn : p '\n' = false) : Portable (run kind p) := by
  refine ⟨lossless_run kind p, fun s _ => ?_⟩
  unfold run
  rw [Text.takeWhile_crlf hr hn, Text.dropWhile_crlf hr hn]
  cases s.takeWhile p with
  | nil => rfl
  | cons c cs => simp [Token.crlfAll, Token.crlf_leaf hkind]

theorem portable_exactly {kind : LeafKind} (hkind : kind ≠ .newline) {start : Text}
    (hr : '\r' ∉ start) (hn : '\n' ∉ start) : Portable (exactly kind start) := by
  refine ⟨lossless_exactly kind start, fun s _ => ?_⟩
  unfold exactly
  rw [Text.after?_crlf hr hn]
  cases Text.after? start s with
  | none => rfl
  | some r => simp [Token.crlfAll, Token.crlf_leaf hkind]

theorem portable_when {p : Text → Bool} (hp : ∀ s, '\r' ∉ s → p (Text.crlf s) = p s) :
    Portable (when p) := by
  refine ⟨lossless_when p, fun s hs => ?_⟩
  unfold when
  rw [hp s hs]
  split <;> rfl

theorem portable_keyword {name : Text} (hname : ∀ c ∈ name, isNameChar c = true) :
    Portable (Lexeme.keyword name) := by
  refine ⟨lossless_keyword name, fun s hs => ?_⟩
  have hbreak {word : Text} (h : Text.sameLetters word name = true) (c : Char)
      (hc : isNameChar c = false) : c ∉ word := fun hmem =>
    absurd (isNameChar_of_sameLetters h hname c hmem) (by simp [hc])
  obtain ⟨ts, r, hok⟩ | hstuck := Lexeme.keyword_eq_ok_or_stuck name s
  · obtain ⟨word, rfl, hword, hr, rfl⟩ := keyword_eq_ok.1 hok
    rw [hok]
    refine keyword_eq_ok.2 ⟨word, ?_, hword, ?_, ?_⟩
    · rw [Text.crlf_append, Text.crlf_of_notMem (hbreak hword '\n' (by decide))]
    · rwa [Text.head?_crlf_any (by decide) (by decide)]
    · simp [Token.crlfAll, Token.crlf_leaf]
  · rw [hstuck]
    obtain ⟨ts, r, hok⟩ | hstuck' := Lexeme.keyword_eq_ok_or_stuck name (Text.crlf s)
    · exfalso
      obtain ⟨word, hs', hword, hr, -⟩ := keyword_eq_ok.1 hok
      obtain ⟨m, rfl, rfl⟩ := Text.exists_of_crlf_eq_append (hbreak hword '\r' (by decide)) hs'
      rw [Text.head?_crlf_any (by decide) (by decide)] at hr
      rw [keyword_eq_ok.2 ⟨word, rfl, hword, hr, rfl⟩] at hstuck
      cases hstuck
    · exact hstuck'

end Grammar

namespace Lexeme

open Grammar

theorem portable_blanks : Portable blanks :=
  portable_run (by decide) (by decide) (by decide)

/-- The line end is where the two spellings differ. -/
theorem portable_newline : Portable newline := by
  refine ⟨lossless_newline, fun s hs => ?_⟩
  cases s with
  | nil => rfl
  | cons c s =>
    by_cases hc : c = '\n'
    · subst hc
      rfl
    · have hr : c ≠ '\r' := fun h => hs (h ▸ List.mem_cons_self)
      rw [Text.crlf_cons hc]
      simp [newline, either, exactly, Text.after?, Ne.symm hc, Ne.symm hr, Text.crlf_cons hc]

theorem lineReaders_portable : LineReaders Portable where
  toSequential := sequential_portable
  blanks := portable_blanks
  newline := portable_newline
  commentMark := portable_exactly (by decide) (by decide) (by decide)
  commentText := portable_run (by decide) (by decide) (by decide)
  directiveName := portable_run (by decide) (by decide) (by decide)
  equals := portable_exactly (by decide) (by decide) (by decide)
  endAhead := portable_when fun s _ => Text.isEmpty_crlf s

theorem portable_continuation {escape : Char} (he : IsEscape escape) :
    Portable (continuation escape) := by
  refine lineReaders_portable.continuation (portable_exactly (by decide) ?_ ?_) portable_node
  · obtain rfl | rfl := he <;> decide
  · obtain rfl | rfl := he <;> decide

end Lexeme

/-! ## References -/

/-- The operator is the same, and what is behind it has carriage returns. -/
theorem Modifier.read?_crlf (s : Text) :
    read? (Text.crlf s) = (read? s).map fun p => (p.1, Text.crlf p.2) := by
  have hbreak (op : Modifier) : '\r' ∉ op.operator ∧ '\n' ∉ op.operator := by
    cases op <;> decide
  cases h : read? s with
  | some p =>
    rw [eq_of_read? h, Text.crlf_append, Text.crlf_of_notMem (hbreak p.1).2, read?_operator]
    rfl
  | none =>
    cases h' : read? (Text.crlf s) with
    | none => rfl
    | some p =>
      obtain ⟨m, rfl, -⟩ := Text.exists_of_crlf_eq_append (hbreak p.1).1 (eq_of_read? h')
      rw [read?_operator] at h
      cases h

namespace Reference

/-- The head with carriage returns behind it. -/
def Head.crlf : Head → Head
  | .absent r => .absent (Text.crlf r)
  | .whole parts r => .whole (Token.crlfAll parts) (Text.crlf r)
  | .modified name m r => .modified name m (Text.crlf r)
  | .malformed problem => .malformed problem

theorem headBraced_crlf (name : Text) {s : Text} (hs : '\r' ∉ s) :
    headBraced name (Text.crlf s) = (headBraced name s).crlf := by
  by_cases hbrace : s.head? = some '}'
  · obtain ⟨r, rfl⟩ := List.head?_eq_some_iff.1 hbrace
    rfl
  · have hbrace' : (Text.crlf s).head? ≠ some '}' :=
      (Text.head?_crlf_eq_some (by decide) (by decide)).not.2 hbrace
    rw [headBraced_of_head? name hbrace, headBraced_of_head? name hbrace', Modifier.read?_crlf,
      Text.atLineEnd_crlf hs]
    cases Modifier.read? s with
    | some p => rfl
    | none => dsimp only [Option.map]; split <;> rfl

theorem head_crlf {s : Text} (hs : '\r' ∉ s) : head (Text.crlf s) = (head s).crlf := by
  have htake (s : Text) := Text.takeWhile_crlf (p := isNameChar) (by decide) (by decide) s
  have hdrop (s : Text) := Text.dropWhile_crlf (p := isNameChar) (by decide) (by decide) s
  cases s with
  | nil => rfl
  | cons c s =>
    by_cases hc : c = '$'
    · subst hc
      rw [Text.crlf_cons (by decide)]
      by_cases hbrace : s.head? = some '{'
      · obtain ⟨s, rfl⟩ := List.head?_eq_some_iff.1 hbrace
        rw [Text.crlf_cons (by decide), head, head, htake, hdrop]
        cases s.takeWhile isNameChar with
        | nil => rfl
        | cons d name =>
          have hmem : '\r' ∉ s.dropWhile isNameChar := fun h =>
            hs (by simp [(List.dropWhile_sublist isNameChar).subset h])
          exact headBraced_crlf (d :: name) hmem
      · have hbrace' : (Text.crlf s).head? ≠ some '{' :=
          (Text.head?_crlf_eq_some (by decide) (by decide)).not.2 hbrace
        rw [head_of_head? hbrace, head_of_head? hbrace', htake, hdrop]
        cases s.takeWhile isNameChar with
        | nil => rfl
        | cons d name => dsimp only; split <;> rfl
    · by_cases hn : c = '\n'
      · subst hn
        rfl
      · rw [Text.crlf_cons hn, head_of_ne_dollar hc, head_of_ne_dollar hc, Head.crlf,
          Text.crlf_cons hn]

end Reference

/-! ## Literals -/

namespace Literal

/-- The quote with carriage returns behind it. -/
def Quote.crlf (q : Quote) : Quote :=
  ⟨q.mark, Text.crlf q.rest⟩

/-- The piece with carriage returns in its line ends. -/
def Piece.crlf : Piece → Piece
  | .text s => .text s
  | .blank c => .blank c
  | .token t => .token t.crlf

/-- The step with carriage returns in what it takes and in what it leaves. -/
def Step.crlf : Step → Step
  | .stop => .stop
  | .take ps q r => .take (ps.map Piece.crlf) (q.map Quote.crlf) (Text.crlf r)
  | .last ps r => .last (ps.map Piece.crlf) (Text.crlf r)
  | .reference name m r => .reference name m (Text.crlf r)
  | .malformed problem => .malformed problem

variable {style : Style} {escape c : Char} {quote : Option Quote} {s : Text}

theorem stepEscaped_crlf (quote : Option Quote) (c : Char) (hs : '\r' ∉ s) :
    stepEscaped (quote.map Quote.crlf) c (Text.crlf s) = (stepEscaped quote c s).crlf := by
  cases s with
  | nil => rfl
  | cons d s =>
    by_cases hd : d = '\n'
    · subst hd
      rfl
    · have hend := Text.atLineEnd_crlf hs
      rw [Text.crlf_cons hd] at hend ⊢
      unfold stepEscaped
      simp only [hend]
      split
      · simp [Step.crlf, Piece.crlf, Text.crlf_cons hd]
      · rfl

theorem stepEscape_crlf (he : IsEscape escape) (quote : Option Quote) (hs : '\r' ∉ s) :
    stepEscape (quote.map Quote.crlf) escape (Text.crlf s) = (stepEscape quote escape s).crlf := by
  have hmem : '\r' ∉ escape :: s := by
    obtain rfl | rfl := he <;> simpa using hs
  have hcontinuation := (Lexeme.portable_continuation he).eq _ hmem
  rw [Text.crlf_cons he.ne_newline] at hcontinuation
  unfold stepEscape
  rw [hcontinuation]
  cases Lexeme.continuation escape (escape :: s) with
  | ok ts r => simp [Step.crlf, Token.crlfAll_eq_map, Piece.crlf]
  | stuck | failed => exact stepEscaped_crlf quote escape hs

theorem stepDollar_crlf (quote : Option Quote) (hs : '\r' ∉ s) :
    stepDollar (quote.map Quote.crlf) (Text.crlf s) = (stepDollar quote s).crlf := by
  have hhead := Reference.head_crlf (s := '$' :: s) (by simpa using hs)
  rw [Text.crlf_cons (by decide)] at hhead
  unfold stepDollar
  rw [hhead]
  cases Reference.head ('$' :: s) <;> rfl

theorem stepChar_crlf (style : Style) (quote : Option Quote) (c : Char) (hs : '\r' ∉ s) :
    stepChar style (quote.map Quote.crlf) c (Text.crlf s) = (stepChar style quote c s).crlf := by
  have hmark : (quote.map Quote.crlf).any (·.mark = '\'') = quote.any (·.mark = '\'') := by
    cases quote <;> rfl
  unfold stepChar
  rw [hmark]
  split
  · exact stepDollar_crlf quote hs
  · rfl

theorem stepQuoted_crlf (style : Style) (q : Quote) (c : Char) (hs : '\r' ∉ s) :
    stepQuoted style q.crlf c (Text.crlf s) = (stepQuoted style q c s).crlf := by
  have hmark : q.crlf.mark = q.mark := rfl
  unfold stepQuoted
  rw [hmark]
  split
  · split <;> rfl
  · exact stepChar_crlf style (some q) c hs

theorem stepUnquoted_crlf (style : Style) (hc : c ≠ '\n') (hs : '\r' ∉ s) :
    stepUnquoted style c (Text.crlf s) = (stepUnquoted style c s).crlf := by
  unfold stepUnquoted
  split
  · simp [Step.crlf, Piece.crlf, Token.symbol, Token.crlf_leaf, Quote.crlf, Text.crlf_cons hc]
  · split
    · rfl
    · split
      · split <;> rfl
      · exact stepChar_crlf style none c hs

/-- A step does the same with carriage returns behind. -/
theorem step_crlf (style : Style) (he : IsEscape escape) (quote : Option Quote) (hs : '\r' ∉ s) :
    step style escape (quote.map Quote.crlf) (Text.crlf s) = (step style escape quote s).crlf := by
  cases s with
  | nil => rfl
  | cons c s =>
    have hend := Text.atLineEnd_crlf hs
    rw [List.mem_cons, not_or] at hs
    by_cases hc : c = '\n'
    · subst hc
      obtain rfl | rfl := he <;> rfl
    · rw [Text.crlf_cons hc] at hend ⊢
      rw [step.eq_def, step.eq_def]
      dsimp only
      rw [hend]
      split
      · exact stepEscape_crlf he quote hs.2
      · split
        · rfl
        · split
          · exact stepEscaped_crlf quote c hs.2
          · cases quote with
            | some q => exact stepQuoted_crlf style q c hs.2
            | none => exact stepUnquoted_crlf style hc hs.2

theorem prependText_crlf (s : Text) (ts : List Token) :
    prependText s (Token.crlfAll ts) = Token.crlfAll (prependText s ts) := by
  cases ts with
  | nil => rfl
  | cons t ts =>
    cases t with
    | node => rfl
    | leaf kind t => cases kind <;> rfl

theorem assemble_crlf (ps : List Piece) :
    assemble (ps.map Piece.crlf) = Token.crlfAll (assemble ps) := by
  induction ps with
  | nil => rfl
  | cons p ps ih =>
    cases p with
    | text s => simp [Piece.crlf, assemble, ih, prependText_crlf]
    | blank c => simp [Piece.crlf, assemble, ih, prependText_crlf]
    | token t => simp [Piece.crlf, assemble, ih, Token.crlfAll]

theorem trimEnd_crlf (ps : List Piece) :
    trimEnd (ps.map Piece.crlf) = ((trimEnd ps).1.map Piece.crlf, (trimEnd ps).2) := by
  induction ps with
  | nil => rfl
  | cons p ps ih =>
    cases p with
    | text s => simp [Piece.crlf, trimEnd_text_cons, ih]
    | token t => simp [Piece.crlf, trimEnd_token_cons, ih]
    | blank c =>
      rw [List.map_cons, Piece.crlf, trimEnd_blank_cons, trimEnd_blank_cons, ih]
      by_cases hnil : (trimEnd ps).1 = [] <;> simp [hnil, Piece.crlf]

theorem cut_crlf (style : Style) (ps : List Piece) :
    cut style (ps.map Piece.crlf) = ((cut style ps).1.map Piece.crlf, (cut style ps).2) := by
  unfold cut
  split
  · exact trimEnd_crlf ps
  · rfl

/-- The scan with carriage returns in what was read and in what is left. -/
def Scanned.crlf : Scanned → Scanned
  | .ok (ps, r) => .ok (ps.map Piece.crlf, Text.crlf r)
  | .error e => .error e.crlf

theorem Scanned.prepend_crlf (ps : List Piece) (scanned : Scanned) :
    scanned.crlf.prepend (ps.map Piece.crlf) = (scanned.prepend ps).crlf := by
  cases scanned with
  | error e => rfl
  | ok scanned => simp [Scanned.crlf, Scanned.prepend]

theorem closeReference_crlf (start name : Text) (m : Modifier) (scanned : Scanned) :
    closeReference (Text.crlf start) name m scanned.crlf =
      match closeReference start name m scanned with
      | .ok (parts, r) => .ok (Token.crlfAll parts, Text.crlf r)
      | .error e => .error e.crlf := by
  cases scanned with
  | error e => rfl
  | ok scanned =>
    obtain ⟨ps, r⟩ := scanned
    cases r with
    | nil => rfl
    | cons c r =>
      by_cases hn : c = '\n'
      · subst hn
        rfl
      · rw [Scanned.crlf, Text.crlf_cons hn]
        by_cases hc : c = '}'
        · subst hc
          simp only [closeReference, assemble_crlf]
          rfl
        · rw [closeReference_eq_error hc, closeReference_eq_error hc]
          rfl

/-- A scan reads the same with carriage returns. -/
theorem scan_crlf (style : Style) (he : IsEscape escape) (quote : Option Quote) (hs : '\r' ∉ s) :
    scan style escape (quote.map Quote.crlf) (Text.crlf s) = (scan style escape quote s).crlf := by
  induction hn : s.length using Nat.strongRecOn generalizing style quote s with
  | ind n ih =>
    have haccounts := accounts_step style escape quote s
    rw [scan_eq, scan_eq style escape quote s, step_crlf style he quote hs]
    cases hstep : step style escape quote s with
    | stop =>
      cases quote with
      | some q => rfl
      | none => rfl
    | take ps q r =>
      rw [hstep] at haccounts
      have hr : '\r' ∉ r := Text.notMem_of_append haccounts hs
      simp only [Step.crlf]
      rw [ih _ (hn ▸ length_lt_of_step_take hstep) style q hr rfl, Scanned.prepend_crlf]
    | last ps r => rfl
    | reference name m r =>
      rw [hstep] at haccounts
      have hr : '\r' ∉ r := Text.notMem_of_append haccounts hs
      have hword := ih _ (hn ▸ length_lt_of_step_reference hstep) .modifierWord none hr rfl
      simp only [Step.crlf]
      rw [Option.map_none] at hword
      rw [hword, closeReference_crlf]
      cases hclose : closeReference s name m (scan .modifierWord escape none r) with
      | error e => rfl
      | ok closed =>
        obtain ⟨parts, r'⟩ := closed
        obtain ⟨ws, hw, -⟩ := closeReference_eq_ok.1 hclose
        have hscans := scan_eq_ok.1 hw
        have hr' : '\r' ∉ r' := fun h =>
          Text.notMem_of_append hscans.sourceOf_append_eq hr (List.mem_cons_of_mem _ h)
        dsimp only
        rw [ih _ (hn ▸ Scans.length_lt_of_reference hstep hscans) style quote hr' rfl]
        exact Scanned.prepend_crlf [.token (.node .reference parts)] _
    | malformed problem => rfl

/-- No line feed is among the blanks that a step takes. -/
theorem Step.Possible.blank_ne_newline {st : Step} (h : Possible style escape quote s st) :
    match st with
    | .take ps _ _ | .last ps _ => ∀ c, Piece.blank c ∈ ps → c ≠ '\n'
    | _ => True := by
  cases h with
  | stop | malformed | modified => trivial
  | continuation | pair | lone | char | openingQuote | closingQuote | lastQuote | reference => simp
  | blank _ hs =>
    rintro c hmem rfl
    obtain rfl : '\n' = _ := by simpa using hmem
    cases hs

theorem Scans.blank_ne_newline {ps : List Piece} {r : Text} (h : Scans escape style quote s ps r) :
    ∀ c, Piece.blank c ∈ ps → c ≠ '\n' := by
  induction h with
  | stop => simp
  | @take style quote _ s _ _ _ _ hstep _ ih =>
    have hpossible := possible_step style escape quote s
    rw [hstep] at hpossible
    intro c hmem
    exact (List.mem_append.1 hmem).elim (hpossible.blank_ne_newline c) (ih c)
  | @last style quote s _ _ hstep =>
    have hpossible := possible_step style escape quote s
    rw [hstep] at hpossible
    exact hpossible.blank_ne_newline
  | reference _ _ _ _ ih => simpa [referencePiece] using ih

/-- The blanks that a style leaves out hold no line feed. -/
theorem Scans.notMem_cut {ps : List Piece} {r : Text} (h : Scans escape style quote s ps r) :
    '\n' ∉ (Literal.cut style ps).2 := by
  unfold Literal.cut
  split
  · exact fun hmem => h.blank_ne_newline _ (blank_mem_of_mem_trimEnd hmem) rfl
  · simp

theorem portable_body (style : Style) (he : IsEscape escape) : Portable (body style escape) := by
  refine ⟨lossless_body style escape, fun s hs => ?_⟩
  have hscan := scan_crlf style he none hs
  unfold body
  rw [Option.map_none] at hscan
  rw [hscan]
  cases h : scan style escape none s with
  | error e => rfl
  | ok scanned =>
    obtain ⟨ps, m⟩ := scanned
    have hcut := (scan_eq_ok.1 h).notMem_cut
    have hnil : Token.crlfAll (assemble (cut style ps).1) = [] ↔
        assemble (cut style ps).1 = [] := by
      rw [Token.crlfAll_eq_map, List.map_eq_nil_iff]
    simp only [Scanned.crlf, ofScanned_ok, cut_crlf, assemble_crlf, hnil]
    split <;> simp [Text.crlf_append, Text.crlf_of_notMem hcut]

theorem portable_grammar (style : Style) (he : IsEscape escape) : Portable (grammar style escape) :=
  Grammar.portable_node rfl (portable_body style he)

end Literal

end Containerfile
