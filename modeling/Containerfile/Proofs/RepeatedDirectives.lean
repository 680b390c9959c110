import Containerfile.Proofs.Diagnostics
import Containerfile.Proofs.Rereading
import Containerfile.Proofs.Shape

/-!
# Directives that are repeated

With a directive whose name was there before the directives end, and the line is a comment.  The
line is read as a directive first, though, and a value that no `escape` directive can have is
refused before the name is looked at.  So a second `escape` is a comment only if it could have been
the first one.

## Main definitions

* `Directive.line` — the line of a directive with a name and a value.

## Main results

* `directivesEnd_line_iff` — when the directives end at the line of a name that was there before.
* `Document.parse_repeated_iff` — when such a line is read as a comment.
-/

namespace Containerfile

open Lexeme Grammar

namespace DirectiveName

theorem ofWord?_congr {w w' : Text} (h : Text.sameLetters w w' = true) :
    ofWord? w = ofWord? w' := by
  unfold ofWord? Text.sameLetters
  rw [eq_of_beq h]

theorem sameLetters_of_ofWord? {w : Text} {name : DirectiveName} (h : ofWord? w = some name) :
    Text.sameLetters w name.toString.toList = true := by
  rw [Text.sameLetters_comm]
  exact @List.find?_some DirectiveName (fun n => Text.sameLetters n.toString.toList w) name all h

theorem isNameChar_of_ofWord? {w : Text} {name : DirectiveName} (h : ofWord? w = some name) :
    ∀ c ∈ w, isNameChar c = true :=
  isNameChar_of_sameLetters (sameLetters_of_ofWord? h)
    (List.all_eq_true.1 (by cases name <;> decide))

theorem ne_nil_of_ofWord? {w : Text} {name : DirectiveName} (h : ofWord? w = some name) :
    w ≠ [] := by
  rintro rfl
  cases h

/-- A name in any case is `escape` exactly if it has the letters of it. -/
theorem eq_escape_iff {w : Text} {name : DirectiveName} (h : ofWord? w = some name) :
    name = .escape ↔ Text.sameLetters w "escape".toList = true := by
  constructor
  · rintro rfl
    exact sameLetters_of_ofWord? h
  · intro hw
    have hescape : ofWord? w = some .escape := ofWord?_congr hw
    exact Option.some.inj (h.symm.trans hescape)

end DirectiveName

/-! ## The line of a directive -/

namespace Directive

/-- The line of a directive with a name and a value. -/
def line (name value : Text) : Text :=
  ['#', ' '] ++ name ++ ['='] ++ value ++ ['\n']

/-- What the line says behind the equals sign, without the blanks at either end. -/
def assigned (value : Text) : Text :=
  lineValue (value.dropWhile isBlank)

variable {w v : Text} {name : DirectiveName}

/-- The line up to its name. -/
theorem opening_line (hw : DirectiveName.ofWord? w = some name) :
    (optional blanks ++ exactly .commentMark ['#'] ++ optional blanks) (line w v) =
      .ok [.leaf .commentMark ['#'], .blank [' ']] (w ++ '=' :: (v ++ ['\n'])) := by
  have hline : line w v = '#' :: ' ' :: (w ++ '=' :: (v ++ ['\n'])) := by simp [line]
  have hblank : blanks (' ' :: (w ++ '=' :: (v ++ ['\n']))) =
      .ok [.blank [' ']] (w ++ '=' :: (v ++ ['\n'])) := by
    refine run_shape.2 ⟨[' '], rfl, by simp, by simp [isBlank], ?_, rfl⟩
    obtain ⟨c, w, rfl⟩ := List.exists_cons_of_ne_nil (DirectiveName.ne_nil_of_ofWord? hw)
    have hc := DirectiveName.isNameChar_of_ofWord? hw c List.mem_cons_self
    cases hb : isBlank c with
    | false => simpa using hb
    | true =>
      simp only [isBlank, Bool.or_eq_true, beq_iff_eq] at hb
      obtain rfl | rfl := hb <;> cases hc
  rw [hline]
  exact seq_eq_ok.2 ⟨[.leaf .commentMark ['#']], [.blank [' ']], _,
    seq_eq_ok.2 ⟨[], _, _, optional_eq_ok.2 (.inr ⟨⟨_, rfl⟩, rfl, rfl⟩),
      exactly_eq_ok.2 ⟨rfl, rfl⟩, rfl⟩,
    optional_eq_ok.2 (.inl hblank), rfl⟩

/-- The line from its name on is read as its value is. -/
theorem assignment_line (hw : DirectiveName.ofWord? w = some name) :
    ∃ us, assignment (w ++ '=' :: (v ++ ['\n'])) =
      (valueBody name (v.dropWhile isBlank ++ ['\n'])).map (.leaf .identifier w :: us ++ ·) := by
  have hall := DirectiveName.isNameChar_of_ofWord? hw
  have hword : (w ++ '=' :: (v ++ ['\n'])).takeWhile isNameChar = w := by
    rw [List.takeWhile_append_of_pos hall, List.takeWhile_cons_of_neg (by decide), List.append_nil]
  have hname : identifier isNameChar (w ++ '=' :: (v ++ ['\n'])) =
      .ok [.leaf .identifier w] ('=' :: (v ++ ['\n'])) :=
    run_shape.2 ⟨w, rfl, DirectiveName.ne_nil_of_ofWord? hw, hall, rfl, rfl⟩
  obtain ⟨bs, hbs⟩ := optional_run_eq_ok .blank isBlank (v ++ ['\n'])
  rw [(Text.span_append (t := ['\n']) rfl v).2] at hbs
  have hleft : (identifier isNameChar ++ optional blanks ++ symbol "=" ++ optional blanks)
      (w ++ '=' :: (v ++ ['\n'])) =
        .ok (.leaf .identifier w :: .symbol ['='] :: bs) (v.dropWhile isBlank ++ ['\n']) :=
    seq_eq_ok.2 ⟨[.leaf .identifier w, .symbol ['=']], bs, _,
      seq_eq_ok.2 ⟨_, _, '=' :: (v ++ ['\n']),
        seq_eq_ok.2 ⟨_, [], _, hname, optional_eq_ok.2 (.inr ⟨⟨_, rfl⟩, rfl, rfl⟩), rfl⟩,
      exactly_eq_ok.2 ⟨rfl, rfl⟩, rfl⟩, hbs, rfl⟩
  refine ⟨.symbol ['='] :: bs, ?_⟩
  unfold assignment
  rw [hword, hw]
  change seq _ _ _ = _
  unfold seq
  rw [hleft]
  dsimp only
  cases valueBody name (v.dropWhile isBlank ++ ['\n']) <;> rfl

/-- A value is what there is between the blanks, and it is refused if no directive of the name can
have it. -/
theorem valueBody_line (name : DirectiveName) (hne : assigned v ≠ [])
    (hv : ∀ c ∈ v, isLineBreak c = false) :
    if accepts name (assigned v) = true then
      ∃ ts, valueBody name (v.dropWhile isBlank ++ ['\n']) = .ok ts ['\n']
    else ∃ f, valueBody name (v.dropWhile isBlank ++ ['\n']) = .failed f := by
  have hline : ∀ c ∈ v.dropWhile isBlank, (!isLineBreak c) = true := fun c hc => by
    simp [hv c ((List.dropWhile_suffix _).subset hc)]
  have htake : (v.dropWhile isBlank ++ ['\n']).takeWhile (fun c => !isLineBreak c) =
      v.dropWhile isBlank := by
    rw [List.takeWhile_append_of_pos hline, List.takeWhile_cons_of_neg (by decide), List.append_nil]
  have hdrop : (v.dropWhile isBlank ++ ['\n']).dropWhile (fun c => !isLineBreak c) = ['\n'] := by
    rw [List.dropWhile_append_of_pos hline, List.dropWhile_cons_of_neg (by decide)]
  have hvalue : valueBody name (v.dropWhile isBlank ++ ['\n']) =
      if accepts name (assigned v) = true then
        .ok (.node (.literal false) [.fragment (assigned v)] :: lineBlanks (v.dropWhile isBlank))
          ['\n']
      else .failed ⟨.malformed .escapeValue, v.dropWhile isBlank ++ ['\n']⟩ := by
    obtain ⟨c, cs, hcs⟩ := List.exists_cons_of_ne_nil hne
    rw [hcs]
    unfold valueBody
    rw [htake, hdrop]
    unfold assigned at hcs
    dsimp only
    rw [hcs]
  rw [hvalue]
  split <;> exact ⟨_, rfl⟩

/-- A line with a value that is accepted is a directive with its name. -/
theorem body_line (hw : DirectiveName.ofWord? w = some name) (hne : assigned v ≠ [])
    (hv : ∀ c ∈ v, isLineBreak c = false) :
    if accepts name (assigned v) = true then
      ∃ ts, body (line w v) = .ok ts [] ∧ Directive.name ⟨ts⟩ = w
    else ∃ f, body (line w v) = .failed f := by
  have hvalue := valueBody_line name hne hv
  obtain ⟨us, hus⟩ := assignment_line (v := v) hw
  split
  · rename_i hacc
    rw [if_pos hacc] at hvalue
    obtain ⟨vs, hvs⟩ := hvalue
    rw [hvs] at hus
    exact ⟨_, attempt_eq_ok.2 (seq_eq_ok.2 ⟨_, [.newline ['\n']], ['\n'],
      seq_eq_ok.2 ⟨_, _, _, opening_line hw, hus, rfl⟩,
      optional_eq_ok.2 (.inl (newline_eq_ok.2 (.inr ⟨rfl, rfl⟩))), rfl⟩), rfl⟩
  · rename_i hacc
    rw [if_neg hacc] at hvalue
    obtain ⟨f, hf⟩ := hvalue
    rw [hf] at hus
    refine ⟨f, ?_⟩
    unfold body attempt
    rw [seq_eq_failed.2 (.inl (seq_eq_failed.2 (.inr ⟨_, _, opening_line hw, hus⟩)))]

end Directive

/-! ## Where directives end -/

/-- The directives end at the line of a name that was there before, unless the line is refused. -/
theorem directivesEnd_line_iff {seen : List Text} {w v : Text} {name : DirectiveName}
    (hw : DirectiveName.ofWord? w = some name) (hseen : seen.any (Text.sameLetters w) = true)
    (hne : Directive.assigned v ≠ []) (hv : ∀ c ∈ v, isLineBreak c = false) :
    DirectivesEnd seen (Directive.line w v) ↔
      Directive.accepts name (Directive.assigned v) = true := by
  have hbody := Directive.body_line hw hne hv
  split at hbody
  · rename_i hacc
    obtain ⟨ts, hts, hname⟩ := hbody
    exact iff_of_true (.inr ⟨ts, [], hts, by rw [Directive.isSeen, hname]; exact hseen⟩) hacc
  · rename_i hacc
    obtain ⟨f, hf⟩ := hbody
    refine iff_of_false ?_ hacc
    rintro (⟨m, hm⟩ | ⟨ts, m, hm, -⟩) <;> rw [hf] at hm <;> cases hm

namespace ReadsDirectives

open Document

variable {seen seen' : List Text} {s r : Text} {ds : List Directive}

/-- The names that were there afterwards are those of before and those of the directives. -/
theorem mem_seen_iff (h : ReadsDirectives seen s ds seen' r) {n : Text} :
    n ∈ seen' ↔ n ∈ seen ∨ ∃ d ∈ ds, d.name = n := by
  induction h with
  | nil => simp
  | cons _ _ _ ih =>
    rw [ih]
    simp only [List.mem_cons, exists_eq_or_imp]
    tauto

/-- The name of a directive that is read is a known one. -/
theorem exists_ofWord? (h : ReadsDirectives seen s ds seen' r) {d : Directive} (hd : d ∈ ds) :
    ∃ name, DirectiveName.ofWord? d.name = some name := by
  induction h with
  | nil => cases hd
  | cons h _ _ ih =>
    obtain rfl | hd := List.mem_cons.1 hd
    · obtain ⟨name, word, v, hname, -, hword, -⟩ := Directive.tokens_of_body h
      exact ⟨name, hword ▸ hname⟩
    · exact ih hd

/-- Directives that are the whole text and end their lines are read again with any text behind
them. -/
theorem append_of_getLast? (h : ReadsDirectives seen s ds seen' r) (hr : r = [])
    (hs : s = [] ∨ s.getLast? = some '\n') (x : Text) :
    ReadsDirectives seen (s ++ x) ds seen' x := by
  induction h with
  | nil seen s => rw [hr]; exact .nil seen x
  | @cons seen seen' s m r ts ds h hn _ ih =>
    have hlt : m.length < s.length := Directive.advances_body _ _ _ h
    have heq : Token.textAll ts ++ m = s := Directive.lossless_body _ _ _ h
    obtain rfl | hs := hs
    · exact absurd hlt (by simp)
    · have hbody := (Directive.decided_body s (.of_getLast? hs) x).eq_ok h
      refine .cons hbody hn (ih hr ?_)
      by_cases hm : m = []
      · exact .inl hm
      · rw [← heq] at hs
        exact .inr (Text.getLast?_of_append hs hm)

end ReadsDirectives

namespace Directive

theorem assigned_ne_nil {v : Text} (hv : ∃ c ∈ v, isBlank c = false) : assigned v ≠ [] := by
  intro hnil
  obtain ⟨b, hb, hblank⟩ := Text.eq_append_dropWhile isBlank v
  obtain ⟨b', hb', hblank'⟩ := Text.eq_append_dropWhile isBlank (v.dropWhile isBlank).reverse
  have hdrop : (v.dropWhile isBlank).reverse.dropWhile isBlank = [] :=
    List.reverse_eq_nil_iff.1 hnil
  rw [hdrop, List.append_nil] at hb'
  obtain ⟨c, hc, hfalse⟩ := hv
  have hmem : c ∈ b ∨ c ∈ (v.dropWhile isBlank).reverse := by
    rwa [List.mem_reverse, ← List.mem_append, ← hb]
  rw [hb'] at hmem
  have htrue := hmem.elim (hblank c) (hblank' c)
  rw [hfalse] at htrue
  cases htrue

/-- The line of a directive is a comment. -/
theorem commentBody_line {w v : Text} {name : DirectiveName}
    (hw : DirectiveName.ofWord? w = some name) (hv : ∀ c ∈ v, isLineBreak c = false) :
    ∃ ts, commentBody (line w v) = .ok ts [] := by
  have hbreak : ∀ c ∈ ' ' :: (w ++ '=' :: v), (!isLineBreak c) = true := by
    intro c hc
    simp only [List.mem_cons, List.mem_append] at hc
    obtain rfl | hc | rfl | hc := hc
    · rfl
    · cases hb : isLineBreak c with
      | false => rfl
      | true =>
        have hname := DirectiveName.isNameChar_of_ofWord? hw c hc
        simp only [isLineBreak, Bool.or_eq_true, beq_iff_eq] at hb
        obtain rfl | rfl := hb <;> cases hname
    · rfl
    · simp [hv c hc]
  have hline : line w v = '#' :: (' ' :: (w ++ '=' :: v) ++ ['\n']) := by simp [line]
  refine commentBody_eq_ok.2 ⟨' ' :: (w ++ '=' :: v) ++ ['\n'], [.newline ['\n']],
    by rw [hline]; rfl, ?_⟩
  rw [List.dropWhile_append_of_pos hbreak, List.dropWhile_cons_of_neg (by decide)]
  exact optional_eq_ok.2 (.inl (newline_eq_ok.2 (.inr ⟨rfl, rfl⟩)))

theorem accepts_iff {w v : Text} {name : DirectiveName} (hw : DirectiveName.ofWord? w = some name) :
    accepts name v = true ↔
      (Text.sameLetters w "escape".toList = true → v = ['\\'] ∨ v = ['`']) := by
  rw [← DirectiveName.eq_escape_iff hw]
  unfold accepts
  cases name <;> simp

end Directive

/-! ## Files -/

namespace Document

/-- In a file with nothing but directives, another line for a name that is there is a comment,
unless it is the `escape` directive with a value that the directive cannot have. -/
theorem parse_repeated_iff {s n v : Text} {d : Document} (hd : parse s = .ok d)
    (honly : d.items = d.directives.map .directive) (hs : s.getLast? = some '\n')
    (hn : ∃ x ∈ d.directives, Text.sameLetters x.name n = true)
    (hv : ∃ c ∈ v, isBlank c = false) (hbreak : ∀ c ∈ v, isLineBreak c = false) :
    (∃ d' c, parse (s ++ Directive.line n v) = .ok d' ∧ d'.items = d.items ++ [.comment c] ∧
        d'.escape = d.escape) ↔
      (Text.sameLetters n "escape".toList = true →
        Directive.assigned v = ['\\'] ∨ Directive.assigned v = ['`']) := by
  obtain ⟨ds, seen, r, items, rfl, h⟩ := parse_iff.1 hd
  have hdirectives : Document.directives ⟨ds.map .directive ++ items⟩ = ds :=
    leadingDirectives_append ds h.items.not_directive
  rw [hdirectives] at honly hn
  obtain rfl : items = [] := List.append_right_eq_self.1 honly
  obtain rfl : [] = r := h.text_eq
  obtain ⟨x, hx, hname⟩ := hn
  obtain ⟨name, hword⟩ := h.directives.exists_ofWord? hx
  rw [DirectiveName.ofWord?_congr hname] at hword
  -- wherever the directives of `s` have been read, the name has been there
  have hseen : ∀ {s seen r}, ReadsDirectives [] s ds seen r →
      seen.any (Text.sameLetters n) = true := fun hread =>
    List.any_eq_true.2 ⟨x.name, hread.mem_seen_iff.2 (.inr ⟨x, hx, rfl⟩), by
      rwa [Text.sameLetters_comm]⟩
  have hne := Directive.assigned_ne_nil hv
  rw [← Directive.accepts_iff hword]
  constructor
  · rintro ⟨d', c, hd', hitems, -⟩
    obtain ⟨ds', seen', r', items, rfl, h'⟩ := parse_iff.1 hd'
    have hds : ds' = ds := by
      have hlead := congrArg leadingDirectives hitems
      rw [List.append_nil, leadingDirectives_append ds' h'.items.not_directive,
        leadingDirectives_append ds (by simp)] at hlead
      exact hlead
    subst hds
    have hrest : r' = Directive.line n v := by
      have htext := h'.directives.text_append
      have htext' := h.directives.text_append
      rw [List.append_nil] at htext'
      rw [htext'] at htext
      exact List.append_cancel_left htext
    rw [← directivesEnd_line_iff hword (hseen h'.directives) hne hbreak, ← hrest]
    exact h'.ended
  · intro hacc
    have hread := h.directives.append_of_getLast? rfl (.inr hs) (Directive.line n v)
    have hend := (directivesEnd_line_iff hword (hseen hread) hne hbreak).2 hacc
    obtain ⟨ts, hts⟩ := Directive.commentBody_line hword hbreak
    have hlayout : Layout (s ++ Directive.line n v) ds seen (Directive.line n v) [.comment ⟨ts⟩] :=
      ⟨hread, hend, .cons (readItem_of_comment hts) (.nil [])⟩
    refine ⟨_, ⟨ts⟩, parse_iff.2 ⟨ds, seen, _, _, rfl, hlayout⟩, by simp, ?_⟩
    rw [hlayout.escape_eq, h.escape_eq]

/-- A second `escape`, in other letters and with a value that it could have, is a comment: the
backtick stays the escape character. -/
theorem parse_repeated_iff_escape :
    ∃ d d' c, parse "# syntax=x\n# escape=`\n".toList = .ok d ∧
      parse ("# syntax=x\n# escape=`\n".toList ++ Directive.line "Escape".toList " \\ ".toList) =
        .ok d' ∧
      d'.items = d.items ++ [.comment c] ∧ d'.escape = d.escape := by
  obtain ⟨d, hd, honly, hn⟩ : ∃ d ∈ (parse "# syntax=x\n# escape=`\n".toList).toOption,
      d.items = d.directives.map .directive ∧
        ∃ x ∈ d.directives, Text.sameLetters x.name "Escape".toList = true := by
    decide +kernel
  rw [mem_toOption] at hd
  obtain ⟨d', c, h⟩ := (parse_repeated_iff (n := "Escape".toList) (v := " \\ ".toList) hd honly
    (by decide) hn ⟨'\\', by simp, rfl⟩ (by simp [isLineBreak])).2 (by decide)
  exact ⟨d, d', c, hd, h⟩

/-- A second `escape` with a value that the first one cannot have is refused, though it would be a
comment. -/
theorem parse_repeated_refused :
    (∃ d, parse "# escape=`\n".toList = .ok d ∧ d.items = d.directives.map .directive ∧
      ∃ x ∈ d.directives, Text.sameLetters x.name "escape".toList = true) ∧
    ∀ d', parse ("# escape=`\n".toList ++ Directive.line "escape".toList ['x']) ≠ .ok d' := by
  simp only [← mem_toOption, ne_eq]
  decide +kernel

end Document

end Containerfile
