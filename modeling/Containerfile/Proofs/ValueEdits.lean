import Containerfile.Proofs.ValueEnds
import Containerfile.Proofs.WholeLines

/-!
# Edits of values

Four edits give a value of an instruction another text: that of the image of a stage, of the
default of an argument, of a label and of a command.  The text is read alone first, and an edit is
refused if it is no value.  What comes of it then depends on its two ends.

* It must begin where the old value began.  A default and a label are behind an equals sign, and
  do so in any case.  An image and a command are behind separators, and may begin with more of
  these: they must not go on with a comment line there, and what is left of them must not look like
  a flag.
* It must stay apart from what is behind it, be that the end of the line or another argument.

Under these conditions the edit stays in its instruction, whatever the layout.  At the end of a
line the second one is needed, too.

## Main definitions

* `ValueEdit` — the four edits, with the texts before and behind the value.
* `Text.core`, `BeginsApart`, `ValueEdit.Begins` — the condition on the beginning of the value.
* `ValueEdit.Placed` — an instruction with the value in its place.
* `ValueEdit.PairEdit` — what the edits of defaults and labels have in common.

## Main results

* `ValueEdit.accepts_and_text_of_apply` — what an edit accepts, and the text that it makes.
* `ValueEdit.exists_read_of_staysApart`, `ValueEdit.staysApart_of_closed` — the edited instruction
  alone.
* `Document.keepsOthers_of_edit` — the edited document.
* `Document.not_keepsOthers_of_escape` — values that are accepted and do not stay in their places.
-/

namespace Containerfile

open Grammar Lexeme

/-! ## Declarations behind a value -/

namespace Literal

variable {e : Char} {s r t : Text} {ts : List Token}

/-- A value takes the names of declarations that stand right behind it. -/
theorem exists_scans_of_name (he : IsEscape e) {k x : Text} (hk : ∀ c ∈ k, isStageChar c = true)
    (h : ∃ qs, Scans e .value none x qs r) : ∃ qs, Scans e .value none (k ++ x) qs r := by
  induction k with
  | nil => exact h
  | cons c k ih =>
    obtain ⟨hc, hk⟩ := List.forall_mem_cons.1 hk
    obtain ⟨qs, hqs⟩ := ih hk
    exact ⟨_, .take (step_stageChar he hc) hqs⟩

theorem step_equals (he : IsEscape e) :
    step .value e none ('=' :: s) = .take [.text ['=']] none s := by
  rcases he with rfl | rfl <;>
    simp [step, stepUnquoted, stepChar, Style.value, isQuote, isBlank, Text.atLineEnd]

/-- The declarations behind a value are read behind it, or those that stand right behind it are a
part of it and the others are read. -/
theorem exists_scans_of_declarations (he : IsEscape e)
    (h : (many (argument e (KeyValue.reader e isStageChar true)) ++ finish e) t = .ok ts []) :
    ∃ qs m us, Scans e .value none t qs m ∧
      (many (argument e (KeyValue.reader e isStageChar true)) ++ finish e) m = .ok us [] := by
  induction hlen : t.length using Nat.strongRecOn generalizing t ts with
  | ind n ih =>
    subst hlen
    by_cases hstop : step .value e none t = .stop
    · exact ⟨[], t, ts, .stop hstop, h⟩
    have hadvances : Advances (KeyValue.reader e isStageChar true) :=
      (KeyValue.localReader_reader he rfl rfl).advances
    obtain ⟨us, fin, r, hus, hfin, rfl⟩ := seq_eq_ok.1 h
    obtain ⟨hlisted, hstuck⟩ := (Listed.many_eq_ok hadvances).1 hus
    -- the text begins with a continuation, which the value takes
    obtain ⟨gs, k, hgaps, hgs⟩ : ∃ gs k, many (gap e) t = .ok gs k ∧ gs ≠ [] := by
      cases hlisted with
      | cons hsep _ _ => exact ⟨_, _, separator_eq_ok.1 hsep⟩
      | nil =>
        obtain ⟨gs, k, hgaps, hend⟩ := finish_eq_ok.1 hfin
        refine ⟨gs, k, hgaps, ?_⟩
        rintro rfl
        obtain rfl := eq_of_gaps_nil hgaps
        refine hstop (step_atLineEnd he ?_)
        rcases hend with ⟨rfl, -⟩ | ⟨ns, hn, -⟩
        · rfl
        · exact atLineEnd_of_newline hn
    have hhead : t.head?.any isBlank = false := by
      cases t with
      | nil => rfl
      | cons c t =>
        exact Bool.eq_false_iff.2 fun hc => hstop (step_blank he rfl (by simpa using hc))
    obtain ⟨hs, m₁, gs', hc, hgaps', rfl⟩ := exists_continuation_of_gaps hgaps hgs hhead
    have hlt := advances_continuation e _ _ _ hc
    suffices hrest : ∃ qs m us, Scans e .value none m₁ qs m ∧
        (many (argument e (KeyValue.reader e isStageChar true)) ++ finish e) m = .ok us [] by
      obtain ⟨qs, m, us, hqs, hm⟩ := hrest
      exact ⟨_, m, us, .take (step_of_continuation hc) hqs, hm⟩
    have hmany {m : Text} {ys : List Token}
        (hys : Listed e (KeyValue.reader e isStageChar true) m ys r) :
        (many (argument e (KeyValue.reader e isStageChar true)) ++ finish e) m =
          .ok (ys ++ fin) [] :=
      seq_eq_ok.2 ⟨ys, fin, r, (Listed.many_eq_ok hadvances).2 ⟨hys, hstuck⟩, hfin, rfl⟩
    cases hlisted with
    | nil =>
      -- no declaration is behind, and none comes to be
      have hnone := (argument_stuck_iff (separator_eq_ok.2 ⟨hgaps, hgs⟩)).1 hstuck
      obtain ⟨us, k', hus', hend⟩ := finish_eq_ok.1 hfin
      cases hus'.symm.trans hgaps
      have hfin' : ∃ fin', finish e m₁ = .ok fin' [] := by
        rcases hend with ⟨hk, hr, -⟩ | ⟨ns, hn, -⟩
        · exact ⟨_, finish_eq_ok.2 ⟨gs', k, hgaps', .inl ⟨hk, hr, rfl⟩⟩⟩
        · exact ⟨_, finish_eq_ok.2 ⟨gs', k, hgaps', .inr ⟨ns, hn, rfl⟩⟩⟩
      obtain ⟨fin', hfin'⟩ := hfin'
      have hnil := (Listed.many_eq_ok hadvances).2 ⟨.nil m₁, argument_stuck_of_gaps hgaps' hnone⟩
      exact ih _ hlt (seq_eq_ok.2 ⟨[], fin', m₁, hnil, hfin', rfl⟩) rfl
    | @cons _ k' n _ ss ws ys hsep harg hys =>
      cases (separator_eq_ok.1 hsep).1.symm.trans hgaps
      by_cases hgs' : gs' = []
      · subst hgs'
        obtain rfl := eq_of_gaps_nil hgaps'
        have hshort := hadvances _ _ _ harg
        obtain ⟨q, -, hnamed⟩ := KeyValue.reader_eq_ok harg
        obtain ⟨name, x, rfl, -, hall, -, ⟨-, rfl, -⟩ | ⟨w, ls, rfl, hbody, -⟩⟩ :=
          KeyValue.named_eq_ok.1 hnamed
        · obtain ⟨qs, m, us, hqs, hm⟩ := ih _ (hshort.trans hlt) (hmany hys) rfl
          obtain ⟨qs', hqs'⟩ := exists_scans_of_name he hall ⟨qs, hqs⟩
          exact ⟨qs', m, us, hqs', hm⟩
        · obtain ⟨ps, hps, -⟩ := (body_of_trimsEnd rfl).1 hbody
          obtain ⟨qs', hqs'⟩ := exists_scans_of_name he hall ⟨_, .take (step_equals he) hps⟩
          exact ⟨qs', n, _, hqs', hmany hys⟩
      · exact ih _ hlt (hmany (.cons (separator_eq_ok.2 ⟨hgaps', hgs'⟩) harg hys)) rfl

end Literal

/-! ## What an argument is read up to -/

theorem Lexeme.head_of_finish {e : Char} {t r : Text} {fin : List Token}
    (h : finish e t = .ok fin r) :
    t.head?.any isBlank = true ∨ t.atLineEnd = true ∨ ∃ w, t = e :: w := by
  obtain ⟨us, m, hus, hend⟩ := finish_eq_ok.1 h
  by_cases hne : us = []
  · subst hne
    obtain rfl := eq_of_gaps_nil hus
    rcases hend with ⟨rfl, -⟩ | ⟨ns, hn, -⟩
    · exact .inr (.inl rfl)
    · exact .inr (.inl (atLineEnd_of_newline hn))
  · obtain ⟨c, w, rfl, hc | rfl⟩ := exists_cons_of_separator (separator_eq_ok.2 ⟨hus, hne⟩)
    · exact .inl hc
    · exact .inr (.inr ⟨w, rfl⟩)

theorem Lexeme.head_of_arguments {e : Char} {g : Grammar} {t r : Text} {ts : List Token}
    (hg : Advances g) (h : (many (argument e g) ++ finish e) t = .ok ts r) :
    t.head?.any isBlank = true ∨ t.atLineEnd = true ∨ ∃ w, t = e :: w := by
  obtain ⟨us, fin, m, hus, hfin, rfl⟩ := seq_eq_ok.1 h
  cases ((Listed.many_eq_ok hg).1 hus).1 with
  | nil => exact head_of_finish hfin
  | cons hsep =>
    obtain ⟨c, w, rfl, hc | rfl⟩ := exists_cons_of_separator hsep
    · exact .inl hc
    · exact .inr (.inr ⟨w, rfl⟩)

theorem Edge.of_head {e : Char} {t : Text}
    (h : t.head?.any isBlank = true ∨ t.atLineEnd = true ∨ ∃ w, t = e :: w) : Edge e t := by
  rcases h with hblank | hend | ⟨w, rfl⟩
  · exact .of_blank_or_atLineEnd (.inl hblank)
  · exact .line hend
  · exact .gap (.inr rfl)

/-! ## Edits -/

/-- The edits that give a value of an instruction another text. -/
inductive ValueEdit where
  /-- The image of a stage. -/
  | image
  /-- The default of a declared argument. -/
  | default (name : Text)
  /-- The value of a label that is there. -/
  | label (key : Text)
  /-- The command, which becomes a line for a shell. -/
  | command

namespace ValueEdit

/-- The instruction has the value that the edit is about. -/
def Applies : ValueEdit → Instruction → Prop
  | image, i => i.form = .stage
  | default name, i => i.form = .arg ∧ name ∈ i.declaredNames
  | label key, i => i.form = .label ∧ key ∈ i.declaredNames
  | command, i => i.form = .command

instance : ∀ (edit : ValueEdit) (i : Instruction), Decidable (edit.Applies i)
  | image, i => inferInstanceAs (Decidable (i.form = .stage))
  | default name, i => inferInstanceAs (Decidable (i.form = .arg ∧ name ∈ i.declaredNames))
  | label key, i => inferInstanceAs (Decidable (i.form = .label ∧ key ∈ i.declaredNames))
  | command, i => inferInstanceAs (Decidable (i.form = .command))

/-- The instruction with `v` for the value. -/
def apply : ValueEdit → Instruction → Text → Except Error Instruction
  | image, i, v => i.setImage v
  | default name, i, v => i.setDefault name (some v)
  | label key, i, v => i.setLabel key v
  | command, i, v => i.setShellCommand v

/-- The edit replaces the first part of this kind. -/
def replaces : ValueEdit → Token → Bool
  | image, t => t.isLiteral
  | default key, t | label key, t => t.keyValue?.any fun p => p.key == key
  | command, t => t.isLiteral || t.isExecForm

/-- The text that comes in the place of that part. -/
def written : ValueEdit → Text → Text
  | image, v | command, v => v
  | default key, v | label key, v => key ++ '=' :: v

/-- The text before that part. -/
def ahead (edit : ValueEdit) (i : Instruction) : Text :=
  Token.textAll (i.parts.takeWhile (!edit.replaces ·))

/-- The text behind that part. -/
def behind (edit : ValueEdit) (i : Instruction) : Text :=
  Token.textAll ((i.parts.dropWhile (!edit.replaces ·)).drop 1)

end ValueEdit

/-- What is left of a value behind the separators that it begins with. -/
def Text.core (e : Char) (v : Text) : Text :=
  match many (gap e) v with
  | .ok _ r => r
  | _ => v

/-- A value begins as an argument of its own behind the text `a`: it does not go on with a comment
there, and there is something behind its separators. -/
structure BeginsApart (e : Char) (a v : Text) : Prop where
  comment : a.opensComment v = false
  content : (v.core e).head?.any (!isLineBreak ·) = true

instance (e : Char) (a v : Text) : Decidable (BeginsApart e a v) :=
  decidable_of_iff (a.opensComment v = false ∧ (v.core e).head?.any (!isLineBreak ·) = true)
    ⟨fun h => ⟨h.1, h.2⟩, fun h => ⟨h.1, h.2⟩⟩

namespace ValueEdit

/-- The value begins where the other one began.  Behind its key a value does so in any case; an
image and a command must not be taken for a flag, where there can be one. -/
def Begins : ValueEdit → Instruction → Text → Prop
  | image, i, v =>
    BeginsApart i.escape (image.ahead i) v ∧
      (i.flags = [] → beginsFlag (v.core i.escape) = false)
  | command, i, v =>
    BeginsApart i.escape (command.ahead i) v ∧ beginsFlag (v.core i.escape) = false
  | default _, _, _ | label _, _, _ => True

instance : ∀ (edit : ValueEdit) (i : Instruction) (v : Text), Decidable (edit.Begins i v)
  | image, _, _ | command, _, _ => inferInstanceAs (Decidable (_ ∧ _))
  | default _, _, _ | label _, _, _ => inferInstanceAs (Decidable True)

/-! ## The place of a value -/

/-- Reads the arguments before the part that is replaced. -/
def others (e : Char) : ValueEdit → Grammar
  | image | command => KeyValue.flag e
  | default _ => KeyValue.reader e isStageChar true
  | label _ => KeyValue.reader e isKeyChar false

/-- Reads what is behind the part that is replaced. -/
def rest (e : Char) : ValueEdit → Grammar
  | image => optional (Instruction.naming e) ++ finish e
  | default _ => many (argument e (KeyValue.reader e isStageChar true)) ++ finish e
  | label _ => many (argument e (KeyValue.reader e isKeyChar false)) ++ finish e
  | command => finish e

/-- An instruction with the part `x` that the edit replaces, in its place. -/
structure Placed (edit : ValueEdit) (e : Char) (i : Instruction) (k : Keyword)
    (st us ss : List Token) (x : Token) (vs : List Token) : Prop where
  escape : i.escape = e
  form : i.form = k.form
  parts : i.parts = st ++ us ++ ss ++ x :: vs
  before : ∀ u ∈ st ++ us ++ ss, edit.replaces u = false
  here : edit.replaces x = true
  front : Front e k (edit.others e) i.text st us ss (x.text ++ Token.textAll vs)
  begins : (x.text ++ Token.textAll vs).atLineEnd = false
  rest : edit.rest e (Token.textAll vs) = .ok vs []
  line : ∃ nl, Walk e false (Token.textAll vs) nl ∧
    (nl = [] ∧ i.endsLine = false ∨ ∃ ns, newline nl = .ok ns [])

namespace Placed

variable {edit : ValueEdit} {e : Char} {i i' : Instruction} {k : Keyword} {st us ss vs : List Token}
  {x : Token} {v : Text}

theorem ahead_eq (h : Placed edit e i k st us ss x vs) :
    edit.ahead i = Token.textAll (st ++ us ++ ss) := by
  unfold ahead
  rw [h.parts, List.takeWhile_append_of_pos (by simpa using h.before),
    List.takeWhile_cons_of_neg (by simp [h.here]), List.append_nil]

theorem behind_eq (h : Placed edit e i k st us ss x vs) : edit.behind i = Token.textAll vs := by
  unfold behind
  rw [h.parts, List.dropWhile_append_of_pos (by simpa using h.before),
    List.dropWhile_cons_of_neg (by simp [h.here])]
  rfl

theorem text_eq (h : Placed edit e i k st us ss x vs) :
    i.text = edit.ahead i ++ (x.text ++ edit.behind i) := by
  rw [h.ahead_eq, h.behind_eq]
  unfold Instruction.text
  rw [h.parts, Token.textAll_append]
  rfl

/-- What comes in the place of the part is between the same texts. -/
theorem text_withParts (h : Placed edit e i k st us ss x vs) {t : Token}
    (hi' : i' = i.withParts (st ++ us ++ ss ++ t :: vs)) :
    i'.text = edit.ahead i ++ (t.text ++ edit.behind i) := by
  subst hi'
  rw [h.ahead_eq, h.behind_eq]
  unfold Instruction.text
  rw [Instruction.withParts, Token.textAll_append]
  rfl

theorem text_setPart (h : Placed edit e i k st us ss x vs) (t : Token)
    (add : Token → List Token → List Token) (remove : Nat → List Token → List Token) :
    (i.setPart (i.parts.findIdx? edit.replaces) (some t) add remove).text =
      edit.ahead i ++ (t.text ++ edit.behind i) := by
  refine h.text_withParts (congrArg i.withParts ?_)
  rw [h.parts]
  exact Children.set_first add remove h.before h.here

end Placed

end ValueEdit

/-! ## Instructions with a value -/

theorem Literal.atLineEnd_of_body {style : Style} {e : Char} {s r : Text} {ls : List Token}
    (he : IsEscape e) (hempty : style.allowsEmpty = false) (h : body style e s = .ok ls r) :
    s.atLineEnd = false := by
  refine Bool.eq_false_iff.2 fun hend => ?_
  obtain ⟨ps, m, hps, rfl, -, hne⟩ := body_eq_ok.1 h
  have hstop : step style e none s = .stop := step_atLineEnd he hend
  obtain ⟨rfl, -⟩ : ps = [] ∧ m = s := by
    cases hps with
    | stop => exact ⟨rfl, rfl⟩
    | take hstep | last hstep | reference hstep => cases hstop.symm.trans hstep
  rw [hempty] at hne
  rcases hne with hne | hne
  · exact hne (by unfold cut; split <;> rfl)
  · cases hne

namespace Instruction

variable {e : Char} {i : Instruction} {t m : Text} {fin : List Token}

/-- Behind a value there is a line end, unless the instruction has none. -/
theorem exists_lineEnd (he : IsEscape e) (hw : Walk e false t m) (hfin : finish e m = .ok fin [])
    (hend : i.endsLine = true → Token.lineStateAll fin .within = .ended) :
    ∃ nl, Walk e false t nl ∧ (nl = [] ∧ i.endsLine = false ∨ ∃ ns, newline nl = .ok ns []) := by
  obtain ⟨us, nl, hus, ⟨rfl, -, rfl⟩ | ⟨ns, hn, -⟩⟩ := finish_eq_ok.1 hfin
  · refine ⟨[], hw.trans (walk_of_gaps he hus false), .inl ⟨rfl, Bool.eq_false_iff.2 fun hi => ?_⟩⟩
    rcases finish_cases he hfin with ⟨-, p, hcut⟩ | ⟨hno, -⟩
    · have hclosed := hcut.closed.append he []
      rw [← hcut.eq] at hclosed
      exact (hclosed.walk he (walk_of_gaps he hus false)).ne_nil rfl
    · exact hno (hend hi)
  · exact ⟨nl, hw.trans (walk_of_gaps he hus false), .inr ⟨ns, hn⟩⟩

end Instruction

/-- Arguments in a row are pairs and separators. -/
theorem Listed.mem_cases {e : Char} {g : Grammar} {s r : Text} {ts : List Token}
    (h : Listed e g s ts r) (hg : ∀ {s ts r}, g s = .ok ts r → ∃ q : KeyValue, ts = [q.token]) :
    ∀ t ∈ ts, t.isTrivia = true ∨ ∃ q : KeyValue, t = q.token := by
  induction h with
  | nil => exact nofun
  | cons hsep harg _ ih =>
    obtain ⟨q, rfl⟩ := hg harg
    intro t ht
    simp only [List.mem_append, List.mem_singleton] at ht
    rcases ht with (ht | rfl) | ht
    · exact .inl (isTrivia_of_separator hsep t ht)
    · exact .inr ⟨q, rfl⟩
    · exact ih t ht

namespace Front

variable {e : Char} {k : Keyword} {g : Grammar} {s r : Text} {st us ss : List Token}

/-- Before an argument there are separators, a keyword and pairs. -/
theorem mem_cases (h : Front e k g s st us ss r)
    (hg : ∀ {s ts r}, g s = .ok ts r → ∃ q : KeyValue, ts = [q.token]) :
    ∀ t ∈ st ++ us ++ ss, t.isTrivia = true ∨ (∃ w, t = .leaf .keyword w) ∨
      ∃ q : KeyValue, t = q.token := by
  obtain ⟨m, n, hst, hus, hss⟩ := h.read
  intro t ht
  simp only [List.mem_append] at ht
  rcases ht with (ht | ht) | ht
  · obtain ⟨b, word, -, -, -, -, rfl⟩ := start_shape.1 hst
    rcases List.mem_append.1 ht with ht | ht
    · split at ht
      · cases ht
      · obtain rfl := List.mem_singleton.1 ht
        exact .inl rfl
    · exact .inr (.inl ⟨word, List.mem_singleton.1 ht⟩)
  · exact (hus.mem_cases hg t ht).imp_right .inr
  · exact .inl (isTrivia_of_separator hss t ht)

/-- Before an argument there is neither a literal nor an array. -/
theorem isLiteral_or_isExecForm (h : Front e k g s st us ss r)
    (hg : ∀ {s ts r}, g s = .ok ts r → ∃ q : KeyValue, ts = [q.token]) :
    ∀ t ∈ st ++ us ++ ss, (t.isLiteral || t.isExecForm) = false := by
  intro t ht
  rcases h.mem_cases hg t ht with htrivia | ⟨w, rfl⟩ | ⟨q, rfl⟩
  · cases t with
    | leaf => rfl
    | node kind ts => cases kind <;> first | rfl | cases htrivia
  · rfl
  · rfl

end Front

namespace ValueEdit

variable {e : Char} {i : Instruction}

/-- A stage has an image. -/
theorem exists_placed_image (he : IsEscape e) (hi : Instruction.read e i.text = .ok i [])
    (hform : i.form = .stage) : ∃ st us ss x vs, Placed .image e i .FROM st us ss x vs ∧
      KeyValue.AtMostOne us ∧ i.flags = us.filterMap Token.keyValue? ∧
      ((Token.textAll vs).head?.any isBlank = true ∨ (Token.textAll vs).atLineEnd = true) := by
  obtain ⟨st, m, us, ss, ls, ns, fin, n, T, t, r, hst, h, heq⟩ :=
    Instruction.stageReading_iff.1 ⟨hi, hform⟩
  have hcontent := Instruction.stageContent_eq_ok.2
    ⟨st, m, us, n, ss, T, ls, t, ns, hst, h.flag, h.separator, h.image, h.naming, rfl⟩
  obtain ⟨hlisted, hone⟩ := KeyValue.listed_of_oneFlag h.flag
  have hfront : Front e .FROM (KeyValue.flag e) i.text st us ss T :=
    ⟨m, n, hst, hlisted, h.separator⟩
  have hbehind : Token.textAll (ns ++ fin) = t := by
    have hl := arrayReaders_lossless e
    rw [Token.textAll_append, text_of_finish h.finish]
    exact hl.optional (hl.seq (hl.argument hl.stageKeyword) (hl.required _ hl.stageName)) _ _ _
      h.naming
  have htext : (Token.node (.literal true) ls).text ++ Token.textAll (ns ++ fin) = T := by
    rw [hbehind]
    exact Literal.lossless_body _ _ _ _ _ h.image
  refine ⟨st, us, ss, .node (.literal true) ls, ns ++ fin, ⟨?_, ?_, ?_, ?_, rfl, ?_, ?_, ?_, ?_⟩,
    hone, (h.views hst heq).2.2, ?_⟩
  · rw [heq]
  · rw [heq]
    rfl
  · rw [heq]
  · exact fun u hu => (Bool.or_eq_false_iff.1
      (hfront.isLiteral_or_isExecForm KeyValue.exists_token_of_flag u hu)).1
  · rw [htext]
    exact hfront
  · rw [htext]
    exact Literal.atLineEnd_of_body he rfl h.image
  · rw [hbehind]
    exact seq_eq_ok.2 ⟨ns, fin, r, h.naming, h.finish, rfl⟩
  · rw [hbehind]
    have hw := argumentReaders_walks he false
    have hwalk := hw.optional (hw.seq (hw.argument hw.stageKeyword) (hw.required _ hw.stageName))
      _ _ _ h.naming
    refine Instruction.exists_lineEnd he hwalk h.finish fun hend => ?_
    have hparts : i = ⟨.stage, e, st ++ us ++ ss ++ .node (.literal true) ls :: ns ++ fin⟩ := by
      simpa using heq
    rw [hparts] at hend
    exact (Instruction.endsLine_append_iff (Instruction.settled_stageContent e) hcontent _).1 hend
  · rw [hbehind]
    obtain ⟨ps, hps, -⟩ := (Literal.body_of_trimsEnd rfl).1 h.image
    exact Literal.blank_or_atLineEnd_of_stop ⟨rfl, rfl⟩ rfl (hps.step_rest rfl)

/-- The instructions of a keyword that hold pairs, all read alike, and an edit of one of them. -/
structure PairEdit (edit : ValueEdit) (e : Char) (key : Text) (k : Keyword) (what : String)
    (p : Char → Bool) (bare : Bool) : Prop where
  replaces : ∀ t, edit.replaces t = t.keyValue?.any fun q => q.key == key
  others : edit.others e = KeyValue.reader e p bare
  rest : edit.rest e = many (argument e (KeyValue.reader e p bare)) ++ finish e
  word : (p ' ' || p '\t' || p '\\' || p '`' || p '\r' || p '\n') = false
  equals : p '=' = false
  walks : IsEscape e → Walks e false (KeyValue.reader e p bare)
  body : ∀ f, Instruction.body e f k = start k.name ++ required e what (KeyValue.reader e p bare) ++
    many (argument e (KeyValue.reader e p bare)) ++ finish e
  only : ∀ k' : Keyword, k'.form = k.form → k' = k
  settled : Settled (start k.name ++ required e what (KeyValue.reader e p bare) ++
    many (argument e (KeyValue.reader e p bare)))

theorem pairEdit_default (e : Char) (name : Text) :
    PairEdit (.default name) e name .ARG "argument name" isStageChar true where
  replaces _ := rfl
  others := rfl
  rest := rfl
  word := rfl
  equals := rfl
  walks he := (argumentReaders_walks he false).declaration
  body _ := rfl
  only k h := by cases k <;> first | rfl | cases h
  settled := Instruction.settled_argContent e

theorem pairEdit_label (e : Char) (key : Text) :
    PairEdit (.label key) e key .LABEL "label" isKeyChar false where
  replaces _ := rfl
  others := rfl
  rest := rfl
  word := rfl
  equals := rfl
  walks he := (argumentReaders_walks he false).labelPair
  body _ := rfl
  only k h := by cases k <;> first | rfl | cases h
  settled := Instruction.settled_labelContent e

namespace PairEdit

variable {edit : ValueEdit} {key : Text} {k : Keyword} {what : String} {p : Char → Bool}
  {bare : Bool}

theorem localReader (h : PairEdit edit e key k what p bare) (he : IsEscape e) :
    LocalReader e (KeyValue.reader e p bare) := by
  obtain ⟨⟨-, hreturn⟩, hfeed⟩ := by simpa only [Bool.or_eq_false_iff] using h.word
  exact KeyValue.localReader_reader he hreturn hfeed

/-- A declared name, or a label, has a pair. -/
theorem exists_placed (h : PairEdit edit e key k what p bare) (he : IsEscape e)
    (hi : Instruction.read e i.text = .ok i []) (hform : i.form = k.form)
    (hkey : key ∈ i.declaredNames) :
    ∃ st us ss vs, ∃ q : KeyValue, Placed edit e i k st us ss q.token vs ∧ q.key = key ∧
      KeyValue.reader e p bare (q.token.text ++ Token.textAll vs) =
        .ok [q.token] (Token.textAll vs) := by
  obtain ⟨ts, fin, m, -, hts, hfin, heq⟩ := (Instruction.read_form_iff h.body h.only).1 ⟨hi, hform⟩
  have hend : i.endsLine = true → Token.lineStateAll fin .within = .ended := fun hend => by
    rw [heq] at hend
    exact (Instruction.endsLine_append_iff h.settled hts _).1 hend
  have hg := h.localReader he
  rw [seq_assoc] at hts
  obtain ⟨st, ls, m₀, hst, hls, rfl⟩ := seq_eq_ok.1 hts
  obtain ⟨hlisted, -, hstuck⟩ := (Listed.required_eq_ok hg.advances).1 hls
  have hparts : i.parts = st ++ ls ++ fin := by rw [heq]
  obtain ⟨xs, x, ys, rfl, hxs, hx⟩ := (Children.absent_or_first edit.replaces ls).resolve_left
    fun hnone => by
      obtain ⟨q, hq, rfl⟩ := List.mem_map.1 hkey
      obtain ⟨t, ht, htq⟩ := List.mem_filterMap.1 hq
      rw [hparts, List.mem_append, List.mem_append] at ht
      rcases ht with (ht | ht) | ht
      · cases ((frame_of_start hst).keyValue? t ht).symm.trans htq
      · have hno := hnone t ht
        rw [h.replaces, htq] at hno
        simp at hno
      · cases ((frame_of_finish hfin).keyValue? t ht).symm.trans htq
  obtain ⟨q, hq, hqkey⟩ : ∃ q : KeyValue, x = q.token ∧ q.key = key := by
    rw [h.replaces] at hx
    obtain ⟨q, hq, hkey⟩ := (Option.any_eq_true _ _).1 hx
    exact ⟨q, Token.keyValue?_eq_some.1 hq, beq_iff_eq.1 hkey⟩
  subst hq
  obtain ⟨us, ss, m₁, T, n, rfl, hus, hss, harg, hys⟩ :=
    hlisted.exists_of_token KeyValue.exists_token_of_reader
  have hbehind : Token.textAll (ys ++ fin) = n := by
    rw [Token.textAll_append, text_of_finish hfin, hys.text_append hg.lossless]
  have htext : q.token.text ++ Token.textAll (ys ++ fin) = T := by
    rw [hbehind]
    simpa [Token.textAll] using hg.lossless _ _ _ harg
  refine ⟨st, us, ss, ys ++ fin, q, ⟨?_, hform, ?_, ?_, hx, ?_, ?_, ?_, ?_⟩, hqkey, ?_⟩
  · rw [heq]
  · rw [hparts]
    simp
  · intro u hu
    rw [List.append_assoc, List.mem_append] at hu
    rcases hu with hu | hu
    · rw [h.replaces, (frame_of_start hst).keyValue? u hu]
      rfl
    · exact hxs u hu
  · rw [htext, h.others]
    exact ⟨m₀, m₁, hst, hus, hss⟩
  · rw [htext]
    exact hg.atLineEnd harg
  · rw [hbehind, h.rest]
    exact seq_eq_ok.2 ⟨ys, fin, m, (Listed.many_eq_ok hg.advances).2 ⟨hys, hstuck⟩, hfin, rfl⟩
  · rw [hbehind]
    exact Instruction.exists_lineEnd he (hys.walk (h.walks he) he) hfin hend
  · rw [htext, hbehind]
    exact harg

end PairEdit

/-- A command is a line or an array. -/
theorem exists_placed_command (he : IsEscape e) (hi : Instruction.read e i.text = .ok i [])
    (hform : i.form = .command) : ∃ k st us ss x vs, Placed .command e i k st us ss x vs ∧
      k.form = .command := by
  obtain ⟨k, ts, -, hbody, heq⟩ := Instruction.read_eq_ok.1 hi
  have hk : k.form = .command := by
    rw [heq] at hform
    exact hform
  have hbody' : Instruction.commandBody e k i.text = .ok ts [] := by
    simpa only [Instruction.body, hk] using hbody
  rw [Instruction.commandBody_eq] at hbody'
  obtain ⟨cs, fin, t, hcs, hfin, rfl⟩ := seq_eq_ok.1 hbody'
  obtain ⟨os, ws, n, hos, hws, rfl⟩ := seq_eq_ok.1 hcs
  obtain ⟨st, us, m, hst, hus, rfl⟩ := seq_eq_ok.1 hos
  obtain ⟨hlisted, -⟩ := (Listed.many_eq_ok (KeyValue.localReader_flag he).advances).1 hus
  obtain ⟨ss, x, T, hss, hbegins, hx, hplace, rfl⟩ : ∃ ss x T, separator e n = .ok ss T ∧
      T.atLineEnd = false ∧ x.text ++ t = T ∧ (x.isLiteral || x.isExecForm) = true ∧
      ws = ss ++ [x] := by
    rcases either_eq_ok.1 hws with harray | ⟨-, hline⟩
    · obtain ⟨ss, as, T, hss, has, rfl⟩ := seq_eq_ok.1 (Instruction.wholeArray_eq_ok.1 harray).1
      have htext := (arrayReaders_lossless e).array false _ _ _ has
      obtain ⟨ls, hls, rfl⟩ := node_eq_ok.1 has
      refine ⟨ss, .node .execForm ls, T, hss, ?_, by simpa [Token.textAll] using htext, rfl, rfl⟩
      rw [ExecForm.body, tentative_eq_ok, seq_assoc] at hls
      obtain ⟨_, _, _, hbracket, -, -⟩ := seq_eq_ok.1 hls
      obtain ⟨rfl, -⟩ := exactly_eq_ok.1 hbracket
      rfl
    · obtain ⟨ss, as, T, hss, has, rfl⟩ := seq_eq_ok.1 (Instruction.required_eq_ok.1 hline)
      obtain ⟨ls, hls, rfl⟩ := node_eq_ok.1 has
      exact ⟨ss, .node (.literal false) ls, T, hss, Literal.atLineEnd_of_body he rfl hls,
        Literal.lossless_body _ _ _ _ _ hls, rfl, rfl⟩
  have hfront : Front e k (KeyValue.flag e) i.text st us ss T := ⟨m, n, hst, hlisted, hss⟩
  have ht := text_of_finish hfin
  refine ⟨k, st, us, ss, x, fin, ⟨?_, ?_, ?_, ?_, hplace, ?_, ?_, ?_, ?_⟩, hk⟩
  · rw [heq]
  · rw [heq]
  · rw [heq]
    simp
  · exact hfront.isLiteral_or_isExecForm KeyValue.exists_token_of_flag
  · rw [ht, hx]
    exact hfront
  · rw [ht, hx]
    exact hbegins
  · rw [ht]
    exact hfin
  · rw [ht]
    refine Instruction.exists_lineEnd he (.refl _) hfin fun hend => ?_
    have hsettled : Settled (Instruction.opening e k ++ Instruction.commandArguments e) :=
      (Settled.either (Instruction.settled_wholeArray e false)
        (Instruction.settled_lineArgument e _)).seq
    rw [heq] at hend
    exact (Instruction.endsLine_append_iff hsettled hcs _).1 hend

end ValueEdit

/-! ## The edited instruction -/

theorem Instruction.firstWord_of_start {k : Keyword} {s r : Text} {st : List Token}
    (h : start k.name s = .ok st r) : firstWord (Token.textAll st) ≠ [] := by
  obtain ⟨b, word, -, hb, hword, -, rfl⟩ := start_shape.1 h
  have htext : Token.textAll ((if b = [] then [] else [.blank b]) ++ [.leaf .keyword word]) =
      b ++ (word ++ []) := by
    by_cases hnil : b = [] <;> simp [hnil, Token.textAll, Token.text, Token.blank]
  intro hnone
  have hstart := Keyword.ofWord?_eq_some.2
    (matchesWord_of_start (start_shape.2 ⟨b, word, htext, hb, hword, rfl, rfl⟩))
  rw [hnone] at hstart
  cases hstart

/-! ### The separators of a value -/

/-- A value is the separators `p` and its core `k`. -/
structure Led (e : Char) (p k : Text) : Prop where
  gaps : ∃ ss, many (gap e) (p ++ k) = .ok ss k
  head : ∃ c n, k = c :: n ∧ isLineBreak c = false ∧ isBlank c = false

theorem BeginsApart.exists_led {e : Char} {a v : Text} (h : BeginsApart e a v) :
    ∃ p k, v = p ++ k ∧ v.core e = k ∧ Led e p k ∧ a.opensComment (p ++ k) = false := by
  obtain ⟨ss, k, hss⟩ := (unfailing_gap e).many_eq_ok v
  have hcore : v.core e = k := by rw [Text.core, hss]
  have hcontent := h.content
  have htext := compositional_lossless.many (lossless_gap e) _ _ _ hss
  obtain ⟨hblank, -⟩ := gap_stuck_iff.1 (stuck_of_many (advances_gap e) _ _ _ hss)
  refine ⟨Token.textAll ss, k, htext.symm, hcore, ⟨⟨ss, htext.symm ▸ hss⟩, ?_⟩,
    htext.symm ▸ h.comment⟩
  rw [hcore] at hcontent
  cases k with
  | nil => cases hcontent
  | cons c n => exact ⟨c, n, rfl, by simpa using hcontent, by simpa using hblank⟩

namespace Led

variable {e : Char} {a p k t : Text} (h : Led e p k)
include h

theorem ne_nil : k ≠ [] := by
  obtain ⟨c, n, rfl, -⟩ := h.head
  exact List.cons_ne_nil c n

theorem atLineEnd_append (t : Text) : (k ++ t).atLineEnd = false := by
  obtain ⟨c, n, rfl, hbreak, -⟩ := h.head
  exact Text.atLineEnd_eq_false hbreak

theorem dropWhile_append (t : Text) : (k ++ t).dropWhile isBlank = k ++ t := by
  obtain ⟨c, n, rfl, -, hblank⟩ := h.head
  exact List.dropWhile_cons_of_neg (by simp [hblank])

variable (he : IsEscape e)
include he

theorem endsBefore : EndsBefore e p k := by
  obtain ⟨ss, hss⟩ := h.gaps
  refine (walk_of_gaps he hss false).endsBefore he ?_
  obtain ⟨c, n, rfl, hbreak, -⟩ := h.head
  simp [hbreak]

/-- Blanks aside, the value begins in the middle of a line. -/
theorem exists_dropWhile : ∃ c n, isLineBreak c = false ∧
    ∀ t, (p ++ (k ++ t)).dropWhile isBlank = c :: (n ++ t) := by
  obtain ⟨ss, hss⟩ := h.gaps
  obtain ⟨c, n, hcn, hbreak⟩ : ∃ c n, (p ++ k).dropWhile isBlank = c :: n ∧
      isLineBreak c = false := by
    rcases dropWhile_of_gaps he hss with ⟨w, hw⟩ | hk
    · exact ⟨e, w, hw, he.isLineBreak⟩
    · obtain ⟨c, n, rfl, hbreak, -⟩ := h.head
      exact ⟨c, n, hk, hbreak⟩
  refine ⟨c, n, hbreak, fun t => ?_⟩
  rw [← List.append_assoc, List.dropWhile_append, hcn]
  rfl

theorem not_newline (t : Text) :
    ¬ ∃ ts r, newline ((p ++ (k ++ t)).dropWhile isBlank) = .ok ts r := by
  obtain ⟨c, n, hbreak, hdrop⟩ := h.exists_dropWhile he
  rintro ⟨ts, r, hr⟩
  rw [hdrop] at hr
  cases (atLineEnd_of_newline hr).symm.trans (Text.atLineEnd_eq_false hbreak)

theorem opensComment_append (a t : Text) :
    a.opensComment (p ++ (k ++ t)) = a.opensComment (p ++ k) := by
  obtain ⟨c, n, -, hdrop⟩ := h.exists_dropWhile he
  have hnil := hdrop []
  rw [List.append_nil] at hnil
  exact Text.opensComment_congr (by rw [hdrop, hnil]; exact Iff.rfl)

theorem staysApart (ht : StaysApart e (p ++ k) t) : StaysApart e k t := by
  refine ht.of_append (h.endsBefore he).unescaped fun hnil => ?_
  obtain ⟨c, n, rfl, -, hblank⟩ := h.head
  rw [List.rdropWhile_eq_nil_iff] at hnil
  cases hblank.symm.trans (hnil c List.mem_cons_self)

/-- The core stays behind the separators with another text behind it. -/
theorem gaps_append (ht : StaysApart e k t) :
    ∃ ss, many (gap e) (p ++ (k ++ t)) = .ok ss (k ++ t) := by
  obtain ⟨ss, hss⟩ := h.gaps
  obtain ⟨hblank, hcontinues⟩ := gap_stuck_iff.1 (stuck_of_many (advances_gap e) _ _ _ hss)
  rw [← continues_eq_false_iff] at hcontinues
  have hdrop := h.dropWhile_append
  have hhead : (k ++ t).head? = k.head? := List.head?_append_of_ne_nil _ h.ne_nil
  have hprecedes : Precedes e p k (k ++ t) := by
    refine .of_opensComment ?_ ?_ (fun hnil => absurd hnil h.ne_nil) ?_
    · obtain ⟨c, n, rfl, hbreak, -⟩ := h.head
      rintro ⟨⟩
      cases hbreak
    · rintro ⟨ts, r, hr⟩
      rw [hdrop] at hr
      cases (atLineEnd_of_newline hr).symm.trans (h.atLineEnd_append t)
    · rw [← (h.endsBefore he).uncommented]
      refine Text.opensComment_congr ?_
      have hself := hdrop []
      rw [List.append_nil] at hself
      rw [hdrop, hself, hhead]
  exact ⟨ss, hprecedes.gaps (z := []) he (fun _ => gap_stuck_iff.2 ⟨hhead ▸ hblank,
    continues_eq_false_iff.1 (ht.continues_append he h.ne_nil hcontinues)⟩) hss⟩

/-- Where the value is a word, so is its core. -/
theorem exists_scans (hv : ∃ ps, Literal.Scans e .word none (p ++ k) ps []) :
    ∃ ps, Literal.Scans e .word none k ps [] := by
  obtain ⟨ss, hss⟩ := h.gaps
  clear h
  generalize p ++ k = s at hss hv
  induction s, ss, k, hss using gaps_induction with
  | nil => exact hv
  | blanks c b m vs k hall =>
    obtain ⟨ps, hps⟩ := hv
    cases (hps.unique (.stop (Literal.step_blank he rfl (hall c List.mem_cons_self)))).2
  | continuation s us m vs k hc _ _ ih =>
    obtain ⟨ps, hps⟩ := hv
    obtain ⟨qs, -, hqs⟩ := (Literal.scans_iff_of_take (Literal.step_of_continuation hc)).1 hps
    exact ih ⟨qs, hqs⟩

end Led

/-- A pair before others is read with them. -/
theorem Front.exists_pairs {e : Char} {k : Keyword} {g : Grammar} {s T m r : Text}
    {st us ss ws vs : List Token} (h : Front e k g s st us ss T) (hg : Advances g) (what : String)
    (hT : g T = .ok ws m) (hm : (many (argument e g) ++ finish e) m = .ok vs r) :
    ∃ ts, (start k.name ++ required e what g ++ many (argument e g) ++ finish e) s = .ok ts r := by
  obtain ⟨m₀, n, hst, hus, hss⟩ := h.read
  obtain ⟨ys, fin, m₁, hys, hfin, -⟩ := seq_eq_ok.1 hm
  obtain ⟨hlisted, hstuck⟩ := (Listed.many_eq_ok hg).1 hys
  have hall := hus.append (.cons hss hT hlisted)
  have hne : us ++ (ss ++ ws ++ ys) ≠ [] := by simp [(separator_eq_ok.1 hss).2]
  have hcontent : (required e what g ++ many (argument e g)) m₀ =
      .ok (us ++ (ss ++ ws ++ ys)) m₁ := (Listed.required_eq_ok hg).2 ⟨hall, hne, hstuck⟩
  have hpairs : (start k.name ++ required e what g ++ many (argument e g)) s =
      .ok (st ++ (us ++ (ss ++ ws ++ ys))) m₁ := by
    rw [seq_assoc]
    exact seq_eq_ok.2 ⟨st, _, m₀, hst, hcontent, rfl⟩
  exact ⟨_, seq_eq_ok.2 ⟨_, fin, m₁, hpairs, hfin, rfl⟩⟩

namespace ValueEdit

theorem localReader_others {e : Char} (he : IsEscape e) (edit : ValueEdit) :
    LocalReader e (edit.others e) := by
  cases edit with
  | image | command => exact KeyValue.localReader_flag he
  | default | label => exact KeyValue.localReader_reader he rfl rfl

theorem walks_others {e : Char} (he : IsEscape e) (edit : ValueEdit) :
    Walks e false (edit.others e) := by
  have hw := argumentReaders_walks he false
  cases edit with
  | image | command => exact hw.flag
  | default => exact hw.declaration
  | label => exact hw.labelPair

namespace Placed

variable {edit : ValueEdit} {e : Char} {i : Instruction} {k : Keyword} {st us ss vs : List Token}
  {x : Token} {u v : Text}

/-- What is before the part stands before another text, unless a comment there goes on. -/
theorem precedes (h : Placed edit e i k st us ss x vs)
    (hline : ¬ ∃ ts r, newline (u.dropWhile isBlank) = .ok ts r)
    (hopen : (edit.ahead i).opensComment u = false) :
    Precedes e (edit.ahead i) (x.text ++ edit.behind i) u := by
  have hbegins := h.begins
  rw [← h.behind_eq] at hbegins
  refine .of_opensComment (fun hfeed => ?_) hline (fun hnil => ?_) hopen
  · obtain ⟨r, hr⟩ := List.head?_eq_some_iff.1 hfeed
    rw [hr] at hbegins
    cases hbegins
  · rw [hnil] at hbegins
    cases hbegins

theorem walk (h : Placed edit e i k st us ss x vs) (he : IsEscape e)
    (hs : Precedes e (edit.ahead i) (x.text ++ edit.behind i) u) :
    Walk e false (edit.ahead i ++ u) u := by
  refine hs.walk (z := []) he ?_
  rw [← h.text_eq, h.behind_eq]
  exact h.front.walk (edit.walks_others he) he

theorem exists_front {r : Text} {ls : List Token} (h : Placed edit e i k st us ss x vs)
    (he : IsEscape e) (hs : Precedes e (edit.ahead i) (x.text ++ edit.behind i) u)
    (hu : many (gap e) u = .ok ls r) :
    ∃ ss', Front e k (edit.others e) (edit.ahead i ++ u) st us ss' r := by
  have hfront := h.front
  have hbegins := h.begins
  rw [h.text_eq, ← h.behind_eq] at hfront
  rw [← h.behind_eq] at hbegins
  exact hfront.carry (edit.localReader_others he) he hs hbegins hu

/-! ### Values behind separators -/

theorem precedes_value {p c : Text} (h : Placed edit e i k st us ss x vs) (he : IsEscape e)
    (hled : Led e p c) (hopen : (edit.ahead i).opensComment (p ++ c) = false) :
    Precedes e (edit.ahead i) (x.text ++ edit.behind i) (p ++ (c ++ edit.behind i)) := by
  refine h.precedes (hled.not_newline he _) ?_
  rw [hled.opensComment_append he, hopen]

/-- A value that begins apart and stays apart is read where the other one was. -/
theorem exists_front_value {p c : Text} (h : Placed edit e i k st us ss x vs) (he : IsEscape e)
    (hled : Led e p c) (hopen : (edit.ahead i).opensComment (p ++ c) = false)
    (hstays : StaysApart e c (edit.behind i)) :
    ∃ ss', Front e k (edit.others e) (edit.ahead i ++ (p ++ (c ++ edit.behind i))) st us ss'
      (c ++ edit.behind i) := by
  obtain ⟨ls, hls⟩ := hled.gaps_append he hstays
  exact h.exists_front he (h.precedes_value he hled hopen) hls

end Placed

/-- A stage is read with the other image. -/
theorem exists_read_image {e : Char} {i : Instruction} {v : Text} (he : IsEscape e)
    (hi : Instruction.read e i.text = .ok i []) (hform : i.form = .stage)
    (hv : ∃ ps, Literal.Scans e .word none v ps []) (hbegins : image.Begins i v)
    (hstays : StaysApart e v (image.behind i)) :
    ∃ j, Instruction.read e (image.ahead i ++ (v ++ image.behind i)) = .ok j [] ∧
      j.form = .stage := by
  obtain ⟨st, us, ss, x, vs, h, hone, hflags, hedge⟩ := exists_placed_image he hi hform
  obtain ⟨hapart, hflag⟩ := hbegins
  rw [h.escape] at hapart hflag
  obtain ⟨p, c, rfl, hcore, hled, hopen⟩ := hapart.exists_led
  rw [hcore] at hflag
  have hstays := hled.staysApart he hstays
  rw [List.append_assoc]
  obtain ⟨ss', hfront⟩ := h.exists_front_value he hled hopen hstays
  obtain ⟨m, n, hst, hus, hss⟩ := hfront.read
  have hrest := h.rest
  rw [← h.behind_eq] at hedge hrest
  obtain ⟨ns, fin, r, hns, hfin, -⟩ := seq_eq_ok.1 hrest
  obtain ⟨ps, hps⟩ :=
    Literal.scans_of_staysApart he ⟨rfl, rfl⟩ rfl (hled.exists_scans he hv) hstays hedge
  have hbody : Literal.body .word e (c ++ image.behind i) =
      .ok (Literal.assemble ps) (image.behind i) := by
    refine (Literal.body_of_trimsEnd rfl).2 ⟨ps, hps, rfl, .inl fun hnil => hled.ne_nil ?_⟩
    have hsource := hps.sourceOf_append_eq
    rw [← Literal.textAll_assemble, hnil] at hsource
    exact (List.append_cancel_right hsource).symm
  have honeFlag := KeyValue.oneFlag_of_listed hus hone fun hnil => by
    refine (argument_stuck_iff hss).2 (KeyValue.flag_stuck_iff.2 ?_)
    rw [← beginsFlag_iff, Bool.not_eq_true, beginsFlag_append, hflag]
    · rw [hflags, hnil]
      rfl
    · exact (Edge.of_blank_or_atLineEnd hedge).head?_any he rfl
  exact ⟨_, (Instruction.stageReading_iff.2 ⟨st, m, us, ss', _, ns, fin, n, _, _, r, hst,
    ⟨honeFlag, hss, hbody, hns, hfin⟩, rfl⟩)⟩

/-- A command is read with the other line. -/
theorem exists_read_command {e : Char} {i : Instruction} {v : Text} (he : IsEscape e)
    (hi : Instruction.read e i.text = .ok i []) (hform : i.form = .command)
    (hbegins : command.Begins i v) (hstays : StaysApart e v (command.behind i)) :
    ∃ j r, Instruction.read e (command.ahead i ++ (v ++ command.behind i)) = .ok j r ∧
      j.form = .command := by
  obtain ⟨k, st, us, ss, x, vs, h, hk⟩ := exists_placed_command he hi hform
  obtain ⟨hapart, hflag⟩ := hbegins
  rw [h.escape] at hapart hflag
  obtain ⟨p, c, rfl, hcore, hled, hopen⟩ := hapart.exists_led
  rw [hcore] at hflag
  rw [List.append_assoc]
  obtain ⟨ss', hfront⟩ := h.exists_front_value he hled hopen (hled.staysApart he hstays)
  obtain ⟨m, n, hst, hus, hss⟩ := hfront.read
  have hhead : (command.behind i).head?.any isFlagChar = false := by
    have hfin := h.rest
    rw [← h.behind_eq] at hfin
    exact (Edge.of_head (head_of_finish hfin)).head?_any he rfl
  have hflags := (Listed.many_eq_ok (KeyValue.localReader_flag he).advances).2 ⟨hus,
    (argument_stuck_iff hss).2 (KeyValue.flag_stuck_iff.2 (by
      rw [← beginsFlag_iff, Bool.not_eq_true, beginsFlag_append hhead, hflag]))⟩
  obtain ⟨ts, r, hts⟩ := Instruction.exists_command he hss (hled.atLineEnd_append _)
  have hbody : Instruction.body e (Instruction.read e) k
      (command.ahead i ++ (p ++ (c ++ command.behind i))) = .ok (st ++ us ++ ts) r := by
    simp only [Instruction.body, hk]
    rw [Instruction.commandBody_eq, seq_assoc]
    exact seq_eq_ok.2 ⟨st ++ us, ts, n, seq_eq_ok.2 ⟨st, us, m, hst, hflags, rfl⟩, hts, rfl⟩
  exact ⟨_, r, Instruction.read_eq_ok.2
    ⟨k, _, Keyword.ofWord?_eq_some.2 (matchesWord_of_start hst), hbody, rfl⟩, hk⟩

/-! ### Values behind a key -/

/-- The key that a pair is read with, and the value. -/
theorem key_of_reader {e : Char} {p : Char → Bool} {bare : Bool} {s r : Text} {q : KeyValue}
    (h : KeyValue.reader e p bare s = .ok [q.token] r) :
    ∃ m, s = q.key ++ m ∧ q.key ≠ [] ∧ (∀ c ∈ q.key, p c = true) ∧
      (r = m ∧ bare = true ∧ q.parts = [.identifier q.key] ∨
        ∃ m' ls, m = '=' :: m' ∧ Literal.body .value e m' = .ok ls r ∧
          q.parts = [.identifier q.key, .symbol ['='], .node (.literal true) ls]) := by
  obtain ⟨q', hq, hnamed, hbare⟩ := KeyValue.reader_iff.1 h
  obtain rfl : q = q' := by
    cases q
    cases q'
    simpa [KeyValue.token] using hq
  obtain ⟨k, m, rfl, hne, hall, -, hvalue⟩ := KeyValue.named_eq_ok.1 hnamed
  have hkey : q.key = k := by
    unfold KeyValue.key
    rcases hvalue with ⟨-, -, hparts⟩ | ⟨m', ls, -, -, hparts⟩ <;> rw [hparts] <;> rfl
  subst hkey
  refine ⟨m, rfl, hne, hall, ?_⟩
  rcases hvalue with ⟨-, hr, hparts⟩ | hvalue
  · refine .inl ⟨hr, hbare.resolve_right fun hliteral => ?_, hparts⟩
    rw [hparts] at hliteral
    cases hliteral
  · exact .inr hvalue

namespace PairEdit

variable {edit : ValueEdit} {e : Char} {key : Text} {k : Keyword} {what : String} {p : Char → Bool}
  {bare : Bool} {i : Instruction} {st us ss vs : List Token} {q : KeyValue} {u : Text}

theorem ordinary (h : PairEdit edit e key k what p bare) (he : IsEscape e) {c : Char}
    (hc : p c = true) :
    Ordinary e c ∧ isBlank c = false := by
  have hword := h.word
  simp only [Bool.or_eq_false_iff] at hword
  obtain ⟨⟨⟨⟨⟨hspace, htab⟩, hslash⟩, htick⟩, hreturn⟩, hfeed⟩ := hword
  refine ⟨he.ordinary (q := p) (by simp [*]) c hc, ?_⟩
  refine Bool.eq_false_iff.2 fun hblank => ?_
  simp only [isBlank, Bool.or_eq_true, beq_iff_eq] at hblank
  rcases hblank with rfl | rfl
  · exact Bool.false_ne_true (hspace.symm.trans hc)
  · exact Bool.false_ne_true (htab.symm.trans hc)

variable (hpair : PairEdit edit e key k what p bare) (h : Placed edit e i k st us ss q.token vs)
  (hread : KeyValue.reader e p bare (q.token.text ++ Token.textAll vs) =
    .ok [q.token] (Token.textAll vs)) (he : IsEscape e)
include hpair h hread he

/-- Before a pair, nothing tells whether it is this one or another one with the same key. -/
theorem precedes : Precedes e (edit.ahead i) (q.token.text ++ edit.behind i) (q.key ++ u) := by
  obtain ⟨m, htext, hne, hall, -⟩ := key_of_reader hread
  obtain ⟨c, w, hkey⟩ := List.exists_cons_of_ne_nil hne
  obtain ⟨hc, hblank⟩ := hpair.ordinary he (hall c (hkey ▸ List.mem_cons_self))
  have hdrop (t : Text) : (c :: t).dropWhile isBlank = c :: t :=
    List.dropWhile_cons_of_neg (by simp [hblank])
  have hbefore : EndsBefore e (edit.ahead i) (q.token.text ++ edit.behind i) := by
    have hwalk := h.front.walk (edit.walks_others he) he
    rw [h.text_eq, ← h.behind_eq] at hwalk
    refine hwalk.endsBefore he ?_
    rw [h.behind_eq, htext, hkey]
    simp [hc.2]
  rw [hkey, List.cons_append]
  refine h.precedes ?_ ?_
  · rintro ⟨ts, r, hr⟩
    rw [hdrop] at hr
    cases (atLineEnd_of_newline hr).symm.trans (Text.atLineEnd_eq_false hc.2)
  · rw [← hbefore.uncommented]
    refine Text.opensComment_congr ?_
    rw [h.behind_eq, htext, hkey, List.cons_append, hdrop, hdrop]
    exact Iff.rfl

/-- The pair and those behind it are read with the other value. -/
theorem exists_read {v m : Text} {ls ws : List Token}
    (hvalue : Literal.body .value e (v ++ edit.behind i) = .ok ls m)
    (hrest : (many (argument e (KeyValue.reader e p bare)) ++ finish e) m = .ok ws []) :
    ∃ j, Instruction.read e (edit.ahead i ++ (q.key ++ '=' :: (v ++ edit.behind i))) = .ok j [] ∧
      j.form = k.form := by
  obtain ⟨-, -, hne, hall, -⟩ := key_of_reader hread
  have hnamed : KeyValue.reader e p bare (q.key ++ '=' :: (v ++ edit.behind i)) =
      .ok [KeyValue.token ⟨[.identifier q.key, .symbol ['='], .node (.literal true) ls]⟩] m :=
    KeyValue.reader_iff.2 ⟨_, rfl, KeyValue.named_eq_ok.2 ⟨q.key, _, rfl, hne, hall,
      by simpa using hpair.equals, .inr ⟨_, ls, rfl, hvalue, rfl⟩⟩, .inr rfl⟩
  have hstuck : ∃ m, gap e (q.key ++ '=' :: (v ++ edit.behind i)) = .stuck m := by
    obtain ⟨c, w, hkey⟩ := List.exists_cons_of_ne_nil hne
    obtain ⟨hc, hblank⟩ := hpair.ordinary he (hall c (hkey ▸ List.mem_cons_self))
    rw [hkey]
    exact gap_stuck hblank hc.1 _
  obtain ⟨ss', hfront⟩ := h.exists_front he (hpair.precedes h hread he)
    (many_eq_ok.2 (.inr (.inr ⟨hstuck, rfl, rfl⟩)))
  rw [hpair.others] at hfront
  obtain ⟨ts, hts⟩ := hfront.exists_pairs (hpair.localReader he).advances what hnamed hrest
  obtain ⟨m₀, n, hst, -, -⟩ := hfront.read
  refine ⟨_, Instruction.read_eq_ok.2
    ⟨k, ts, Keyword.ofWord?_eq_some.2 (matchesWord_of_start hst), ?_, rfl⟩, rfl⟩
  rw [hpair.body]
  exact hts

end PairEdit

/-! ### The value and what is behind it -/

section Values

variable {e : Char} {v t : Text} {ts : List Token} (he : IsEscape e)
  (hv : ∃ ps, Literal.Scans e .value none v ps []) (hstays : StaysApart e v t)
include he hv hstays

/-- The value is read up to a blank or a line end behind it. -/
theorem exists_value (ht : t.head?.any isBlank = true ∨ t.atLineEnd = true) :
    ∃ ls, Literal.body .value e (v ++ t) = .ok ls t := by
  obtain ⟨ps, hps⟩ := Literal.scans_of_staysApart he ⟨rfl, rfl⟩ rfl hv hstays ht
  exact ⟨_, (Literal.body_of_trimsEnd rfl).2 ⟨ps, hps, rfl, .inr rfl⟩⟩

/-- Where a name without a value was, the value may take some of the declarations behind it, and the
others are read. -/
theorem exists_value_of_declarations
    (ht : (many (argument e (KeyValue.reader e isStageChar true)) ++ finish e) t = .ok ts []) :
    ∃ ls m us, Literal.body .value e (v ++ t) = .ok ls m ∧
      (many (argument e (KeyValue.reader e isStageChar true)) ++ finish e) m = .ok us [] := by
  rcases head_of_arguments (KeyValue.localReader_reader he rfl rfl).advances ht with
    hblank | hend | ⟨w, rfl⟩
  · obtain ⟨ls, hls⟩ := exists_value he hv hstays (.inl hblank)
    exact ⟨ls, t, ts, hls, ht⟩
  · obtain ⟨ls, hls⟩ := exists_value he hv hstays (.inr hend)
    exact ⟨ls, t, ts, hls, ht⟩
  · have hdrop : (e :: w).dropWhile isBlank = e :: w := by rcases he with rfl | rfl <;> rfl
    have hsolid : isSolid e = true := by rcases he with rfl | rfl <;> rfl
    have hsharp : e ≠ '#' := (isSolid_iff.1 hsolid).2.2
    have hends : EndsBefore e v [' ', 'x'] := by
      cases hstays with
      | last h => cases h
      | line hline =>
        rw [hdrop, Text.atLineEnd_eq_false he.isLineBreak] at hline
        cases hline
      | argument _ hends =>
        refine ⟨hends.unescaped, ?_⟩
        rw [← hends.uncommented]
        refine Text.opensComment_congr ?_
        rw [hdrop]
        simp [hsharp, isBlank]
    obtain ⟨us, hscans⟩ := Literal.exists_scans_append_iff (t := e :: w) he ⟨rfl, rfl⟩ rfl hv hends
      (.gap (.inr rfl)) (fun _ _ _ => filler_stuck_of_dropWhile hsolid hdrop) hstays.feed
    obtain ⟨qs, m, us', hqs, hm⟩ := Literal.exists_scans_of_declarations he ht
    exact ⟨_, m, us', (Literal.body_of_trimsEnd rfl).2
      ⟨us ++ qs, hscans.2 ⟨qs, rfl, hqs⟩, rfl, .inr rfl⟩, hm⟩

end Values

/-- A declaration is read with the other default. -/
theorem exists_read_default {e : Char} {i : Instruction} {name v : Text} (he : IsEscape e)
    (hi : Instruction.read e i.text = .ok i []) (hform : i.form = .arg)
    (hname : name ∈ i.declaredNames) (hv : ∃ ps, Literal.Scans e .value none v ps [])
    (hstays : StaysApart e v ((default name).behind i)) :
    ∃ j, Instruction.read e
      ((default name).ahead i ++ (name ++ '=' :: (v ++ (default name).behind i))) =
      .ok j [] ∧ j.form = .arg := by
  obtain ⟨st, us, ss, vs, q, h, rfl, hread⟩ :=
    (pairEdit_default e name).exists_placed he hi hform hname
  have hrest := h.rest
  rw [← h.behind_eq] at hrest
  obtain ⟨ls, m, ws, hls, hm⟩ := exists_value_of_declarations he hv hstays hrest
  exact (pairEdit_default e q.key).exists_read h hread he hls hm

/-- A label is read with the other value. -/
theorem exists_read_label {e : Char} {i : Instruction} {key v : Text} (he : IsEscape e)
    (hi : Instruction.read e i.text = .ok i []) (hform : i.form = .label)
    (hkey : key ∈ i.declaredNames) (hv : ∃ ps, Literal.Scans e .value none v ps [])
    (hstays : StaysApart e v ((label key).behind i)) :
    ∃ j, Instruction.read e ((label key).ahead i ++ (key ++ '=' :: (v ++ (label key).behind i))) =
      .ok j [] ∧ j.form = .label := by
  obtain ⟨st, us, ss, vs, q, h, rfl, hread⟩ := (pairEdit_label e key).exists_placed he hi hform hkey
  obtain ⟨m, -, -, -, ⟨-, hbare, -⟩ | ⟨m', ls, -, hls, -⟩⟩ := key_of_reader hread
  · cases hbare
  · have hrest := h.rest
    obtain ⟨ps, hps, -⟩ := (Literal.body_of_trimsEnd rfl).1 hls
    have hedge := Literal.blank_or_atLineEnd_of_stop ⟨rfl, rfl⟩ rfl (hps.step_rest rfl)
    rw [← h.behind_eq] at hrest hedge
    obtain ⟨ls', hls'⟩ := exists_value he hv hstays hedge
    exact (pairEdit_label e q.key).exists_read h hread he hls' hrest

/-! ## What an edit writes -/

/-- The values that the edit accepts. -/
def Accepts (e : Char) : ValueEdit → Text → Prop
  | image, v => v ≠ [] ∧ ∃ ps, Literal.Scans e .word none v ps []
  | default _, v | label _, v => ∃ ps, Literal.Scans e .value none v ps []
  | command, v => v ≠ [] ∧ Walk e false v []

theorem Accepts.walk {e : Char} {edit : ValueEdit} {v : Text} (h : edit.Accepts e v)
    (he : IsEscape e) :
    Walk e false v [] := by
  cases edit with
  | image =>
    obtain ⟨-, ps, hps⟩ := h
    exact hps.walk he (by simp [Style.word])
  | default | label =>
    obtain ⟨ps, hps⟩ := h
    exact hps.walk he (by simp [Style.value])
  | command => exact h.2

/-- The value of a pair comes behind its key and the equals sign, which is added if it is not
there. -/
theorem text_setLiteral {e : Char} {p : Char → Bool} {bare : Bool} {s r : Text} {q : KeyValue}
    (h : KeyValue.reader e p bare s = .ok [q.token] r) (l : Literal) :
    (q.setLiteral (some l)).token.text = q.key ++ '=' :: l.text := by
  have hmade : (q.setLiteral (some l)).parts = [.identifier q.key, .symbol ['='], l.token] := by
    unfold KeyValue.setLiteral
    obtain ⟨-, -, -, -, ⟨-, -, hparts⟩ | ⟨-, ls, -, -, hparts⟩⟩ := key_of_reader h
    · rw [hparts]
      rfl
    · rw [hparts]
      rfl
  have hvalue : l.token.text = l.text := rfl
  have htext : (q.setLiteral (some l)).token.text = Token.textAll (q.setLiteral (some l)).parts :=
    rfl
  rw [htext, hmade]
  simp [Token.textAll, Token.text, Token.identifier, Token.symbol, hvalue]

section

variable {edit : ValueEdit} {e : Char} {i i' : Instruction} {v : Text} (he : IsEscape e)
  (hi : Instruction.read e i.text = .ok i []) (happlies : edit.Applies i)
include he hi happlies

/-- What an edit is about has its place. -/
theorem exists_placed : ∃ k st us ss x vs, Placed edit e i k st us ss x vs := by
  cases edit with
  | image =>
    obtain ⟨st, us, ss, x, vs, h, -⟩ := exists_placed_image he hi happlies
    exact ⟨_, st, us, ss, x, vs, h⟩
  | default name =>
    obtain ⟨st, us, ss, vs, q, h, -⟩ :=
      (pairEdit_default e name).exists_placed he hi happlies.1 happlies.2
    exact ⟨_, st, us, ss, _, vs, h⟩
  | label key =>
    obtain ⟨st, us, ss, vs, q, h, -⟩ :=
      (pairEdit_label e key).exists_placed he hi happlies.1 happlies.2
    exact ⟨_, st, us, ss, _, vs, h⟩
  | command =>
    obtain ⟨k, st, us, ss, x, vs, h, -⟩ := exists_placed_command he hi happlies
    exact ⟨k, st, us, ss, x, vs, h⟩

theorem exists_line : ∃ nl, Walk e false (edit.behind i) nl ∧
    (nl = [] ∧ i.endsLine = false ∨ ∃ ns, newline nl = .ok ns []) := by
  obtain ⟨k, st, us, ss, x, vs, h⟩ := exists_placed he hi happlies
  rw [h.behind_eq]
  exact h.line

theorem firstWord_ahead : Instruction.firstWord (edit.ahead i) ≠ [] := by
  obtain ⟨k, st, us, ss, x, vs, h⟩ := exists_placed he hi happlies
  obtain ⟨m, n, hst, -, -⟩ := h.front.read
  rw [h.ahead_eq, List.append_assoc, Token.textAll_append]
  exact Instruction.firstWord_append_ne_nil (Instruction.firstWord_of_start hst) _

/-- The edit accepts the value, and writes it in its place. -/
theorem accepts_and_text_of_apply (hedit : edit.apply i v = .ok i') :
    edit.Accepts e v ∧ i'.text = edit.ahead i ++ (edit.written v ++ edit.behind i) := by
  cases edit with
  | image =>
    obtain ⟨st, us, ss, x, vs, h, -⟩ := exists_placed_image he hi happlies
    obtain ⟨l, hl, hi'⟩ := bind_eq_ok.1 hedit
    cases hi'
    rw [h.escape] at hl
    obtain ⟨ps, hps, htext⟩ := Literal.scans_of_create rfl hl
    refine ⟨⟨(Literal.body_of_create hl).2.resolve_right nofun, ps, hps⟩, ?_⟩
    rw [← htext]
    exact h.text_setPart l.token Children.append Children.erase
  | default name =>
    obtain ⟨st, us, ss, vs, q, h, rfl, hread⟩ :=
      (pairEdit_default e name).exists_placed he hi happlies.1 happlies.2
    obtain ⟨q', hq', hi'⟩ := (Instruction.setDefault_append_eq_ok h.parts h.before h.here).1 hedit
    obtain ⟨l, hl, hq'⟩ := bind_eq_ok.1 hq'
    cases hq'
    rw [h.escape] at hl
    obtain ⟨ps, hps, htext⟩ := Literal.scans_of_create rfl hl
    refine ⟨⟨ps, hps⟩, ?_⟩
    rw [h.text_withParts hi', text_setLiteral hread l, htext]
    rfl
  | label key =>
    obtain ⟨st, us, ss, vs, q, h, -⟩ :=
      (pairEdit_label e key).exists_placed he hi happlies.1 happlies.2
    obtain ⟨p, hp, hi'⟩ := bind_eq_ok.1 hedit
    cases hi'
    rw [h.escape] at hp
    obtain ⟨haccepted, htext⟩ := accepted_of_build hp
    refine ⟨haccepted.value v rfl, ?_⟩
    have hpair : p.token.text = (label key).written v := htext
    rw [← hpair]
    exact h.text_setPart p.token Children.appendArgument Children.erase
  | command =>
    obtain ⟨k, st, us, ss, x, vs, h, -⟩ := exists_placed_command he hi happlies
    obtain ⟨l, hl, hi'⟩ := bind_eq_ok.1 hedit
    cases hi'
    rw [h.escape] at hl
    obtain ⟨hbody, hne⟩ := Literal.body_of_create hl
    have hwalk : Walk e false v [] :=
      walks_literal he (by nofun) v _ _ (node_eq_ok.2 ⟨l.parts, hbody, rfl⟩)
    refine ⟨⟨hne.resolve_right nofun, hwalk⟩, ?_⟩
    have htext : l.text = v := by
      simpa [Literal.text] using Literal.lossless_body _ _ _ _ _ hbody
    rw [← htext]
    exact h.text_setPart l.token Children.appendArgument Children.erase

end

/-- Behind a value there are more arguments, or a line end and nothing else. -/
theorem cases_of_line {e : Char} {t nl : Text} (he : IsEscape e) (hw : Walk e false t nl)
    (hnl : nl = [] ∨ ∃ ns, newline nl = .ok ns []) :
    t.dropWhile isBlank = [] ∨ Text.atLineEnd (t.dropWhile isBlank) = false ∨
      ∃ ns, newline (t.dropWhile isBlank) = .ok ns [] := by
  by_cases hnil : t.dropWhile isBlank = []
  · exact .inl hnil
  refine .inr (Bool.eq_false_or_eq_true _ |>.symm.imp_right fun hend => ?_)
  obtain ⟨c, w, hcw⟩ := List.exists_cons_of_ne_nil hnil
  rw [hcw] at hend ⊢
  obtain ⟨ns, r, hn⟩ := newline_of_atLineEnd hend
  refine ⟨ns, ?_⟩
  suffices hr : r = [] by rwa [hr] at hn
  obtain ⟨b, hb, hblank⟩ := Text.eq_append_dropWhile isBlank t
  obtain ⟨q, hq, hreturn⟩ := newline_shape hn
  have hclosed : Closed e (b ++ (q ++ ['\n'])) := by
    refine .of_dropWhile he ?_
    rw [List.dropWhile_append_of_pos hblank]
    rcases hreturn with rfl | rfl <;> exact .lineEnd rfl
  have heq : t = b ++ (q ++ ['\n']) ++ r := by
    rw [hb, hcw, hq]
    simp
  rcases hnl with rfl | ⟨ns', hn'⟩
  · rw [heq] at hw
    exact absurd rfl ((hclosed.append he r).walk he hw).ne_nil
  · exact hclosed.eq_nil_of_walk he (heq ▸ hw) hn'

section

variable {edit : ValueEdit} {e : Char} {i i' : Instruction} {v : Text} (he : IsEscape e)
  (hi : Instruction.read e i.text = .ok i []) (happlies : edit.Applies i) (hv : edit.Accepts e v)
  (hbegins : edit.Begins i v)
include he hi happlies hv hbegins

omit hv in
/-- Reading comes to the value where it is written. -/
theorem walk_written :
    Walk e false (edit.ahead i ++ (edit.written v ++ edit.behind i)) (v ++ edit.behind i) := by
  have hkey {key : Text} {k : Keyword} {what : String} {p : Char → Bool} {bare : Bool}
      (hpair : PairEdit edit e key k what p bare) (hform : i.form = k.form)
      (hmem : key ∈ i.declaredNames) : Walk e false
        (edit.ahead i ++ (key ++ '=' :: v ++ edit.behind i)) (v ++ edit.behind i) := by
    obtain ⟨st, us, ss, vs, q, h, rfl, hread⟩ := hpair.exists_placed he hi hform hmem
    obtain ⟨-, -, -, hall, -⟩ := key_of_reader hread
    rw [List.append_assoc]
    refine (h.walk he (hpair.precedes h hread he)).trans (.trans
      (.of_ordinary (fun c hc => (hpair.ordinary he (hall c hc)).1) _) ?_)
    exact .of_ordinary (w := ['='])
      (fun c hc => he.ordinary (q := (· == '=')) rfl c (by simpa using hc)) _
  have hsep {k : Keyword} {st us ss vs : List Token} {x : Token}
      (h : Placed edit e i k st us ss x vs) (hapart : BeginsApart i.escape (edit.ahead i) v) :
      Walk e false (edit.ahead i ++ (v ++ edit.behind i)) (v ++ edit.behind i) := by
    rw [h.escape] at hapart
    obtain ⟨p, c, rfl, -, hled, hopen⟩ := hapart.exists_led
    rw [List.append_assoc]
    exact h.walk he (h.precedes_value he hled hopen)
  cases edit with
  | image =>
    obtain ⟨st, us, ss, x, vs, h, -⟩ := exists_placed_image he hi happlies
    exact hsep h hbegins.1
  | command =>
    obtain ⟨k, st, us, ss, x, vs, h, -⟩ := exists_placed_command he hi happlies
    exact hsep h hbegins.1
  | default name => exact hkey (pairEdit_default e name) happlies.1 happlies.2
  | label key => exact hkey (pairEdit_label e key) happlies.1 happlies.2

/-- A value that stays apart is read in its place. -/
theorem exists_read_written (hstays : StaysApart e v (edit.behind i)) :
    ∃ j r, Instruction.read e (edit.ahead i ++ (edit.written v ++ edit.behind i)) = .ok j r ∧
      j.form ≠ .onBuild := by
  cases edit with
  | image =>
    obtain ⟨j, hj, hstage⟩ := exists_read_image he hi happlies hv.2 hbegins hstays
    exact ⟨j, [], hj, by simp [hstage]⟩
  | default name =>
    obtain ⟨j, hj, harg⟩ := exists_read_default he hi happlies.1 happlies.2 hv hstays
    exact ⟨j, [], by simpa [written] using hj, by simp [harg]⟩
  | label key =>
    obtain ⟨j, hj, hlabel⟩ := exists_read_label he hi happlies.1 happlies.2 hv hstays
    exact ⟨j, [], by simpa [written] using hj, by simp [hlabel]⟩
  | command =>
    obtain ⟨j, r, hj, hcommand⟩ := exists_read_command he hi happlies hbegins hstays
    exact ⟨j, r, hj, by simp [hcommand]⟩

/-- So is the whole instruction, with its line end. -/
theorem exists_read_of_staysApart (hstays : StaysApart e v (edit.behind i)) :
    ∃ j, Instruction.read e (edit.ahead i ++ (edit.written v ++ edit.behind i)) = .ok j [] ∧
      (i.endsLine = true → j.endsLine = true) := by
  obtain ⟨j, r, hj, hform⟩ := exists_read_written he hi happlies hv hbegins hstays
  obtain ⟨nl, hnl, hline⟩ := exists_line he hi happlies
  have hcases := cases_of_line he hnl (hline.imp_left (·.1))
  have hwalk := ((walk_written he hi happlies hbegins).trans
    (hstays.walk he (hv.walk he) hcases)).trans hnl
  rcases hline with ⟨rfl, hend⟩ | ⟨ns, hn⟩
  · obtain rfl := Instruction.read_of_walk_nil he hj hwalk
    refine ⟨j, hj, fun hi => ?_⟩
    rw [hend] at hi
    cases hi
  · obtain ⟨rfl, hend⟩ := Instruction.read_of_walk he hj hform hwalk hn
    exact ⟨j, hj, fun _ => hend⟩

/-- Where the line ends behind the value, the instruction ends with it only if the value does not
go on in the next line. -/
theorem staysApart_of_closed
    (hclosed : Closed e (edit.ahead i ++ (edit.written v ++ edit.behind i)))
    (hend : i.endsLine = true) (hline : Text.atLineEnd ((edit.behind i).dropWhile isBlank) = true)
    (hfeed : v.getLast? = some '\r' → (edit.behind i).head? ≠ some '\n') :
    StaysApart e v (edit.behind i) := by
  obtain ⟨nl, hnl, ⟨-, hnone⟩ | ⟨ns', hn'⟩⟩ := exists_line he hi happlies
  · rw [hend] at hnone
    cases hnone
  rcases cases_of_line he hnl (.inr ⟨ns', hn'⟩) with hnil | hfalse | ⟨ns, hn⟩
  · obtain ⟨w, hw⟩ := hnl.suffix
    obtain ⟨q, rfl, -⟩ := newline_shape hn'
    have hmem : '\n' ∈ edit.behind i := by simp [hw]
    cases List.dropWhile_eq_nil_iff.1 hnil '\n' hmem
  · rw [hline] at hfalse
    cases hfalse
  · refine .line hline (Bool.eq_false_iff.2 fun hruns => ?_) hfeed
    have hwalk := (walk_written he hi happlies hbegins).trans
      ((hv.walk he).before_line he hn hfeed)
    rw [if_pos hruns] at hwalk
    exact (hclosed.walk he hwalk).ne_nil rfl

end

end ValueEdit

namespace Document

open Instruction

/-- No array arises of the instruction `i` or of one before it, whatever they take of the text
behind them. -/
def NoArrayArises (d : Document) (before : List Item) (i : Instruction)
    (after : List Item) : Prop :=
  ¬ BecomesArray d.escape i.text (textOf after) ∧
    ∀ first j mid, before = first ++ .instruction j :: mid →
      ¬ BecomesArray d.escape j.text (textOf mid ++ (i.text ++ textOf after))

section

variable {s v : Text} {d : Document} {before after : List Item} {i i' : Instruction}
  {edit : ValueEdit} (hd : parse s = .ok d) (hitems : d.items = before ++ .instruction i :: after)
include hd hitems

/-- An instruction that takes the place of another one, and ends its line as that one does, keeps
the others unless an array arises. -/
theorem keepsOthers_iff_of_read {j : Instruction}
    (hj : Instruction.read d.escape i'.text = .ok j [])
    (hend : i.endsLine = true → j.endsLine = true) :
    (d.KeepsOthers before.length i' ↔ d.NoArrayArises before i' after) ∧
      (d.escape = '\\' → d.KeepsOthers before.length i') := by
  obtain ⟨-, -, hline⟩ := read_of_parse hd hitems
  have hends : j.endsLine = true ∨ after = [] :=
    (Classical.em (after = [])).symm.imp_left fun hafter => hend (hline hafter)
  have hbefore := fun hescape => @not_becomesArray_before s d before after i hd hitems hescape
  have hiff : d.KeepsOthers before.length i' ↔ d.NoArrayArises before i' after := by
    unfold NoArrayArises
    rw [keepsOthers_iff hitems]
    obtain ⟨ds, seen, r, items, rfl, h⟩ := parse_iff.1 hd
    obtain ⟨first, rfl, rfl⟩ := Layout.exists_of_eq hitems
    rw [h.escape_eq] at hj ⊢
    have hreplaced := h.exists_parse_replaced_iff (firstWord_of_read hj)
    simp only [List.append_assoc] at hreplaced ⊢
    rw [hreplaced]
    refine and_congr_left fun _ => ⟨fun ⟨_, _, _, harray⟩ => harray, fun harray => ?_⟩
    exact ⟨j, Instruction.parse_eq_ok.2 hj, hends, harray⟩
  refine ⟨hiff, fun hescape => hiff.2 ⟨?_, fun first k mid hk => hbefore hescape hk _⟩⟩
  rw [hescape] at hj ⊢
  exact not_becomesArray_of_read hj (hends.imp_right (congrArg textOf))

/-- An instruction that takes the place of another one, before others, and keeps these, ends its
line. -/
theorem KeepsOthers.closed (hword : firstWord i'.text ≠ []) (hafter : after ≠ [])
    (h : d.KeepsOthers before.length i') : Closed d.escape i'.text := by
  obtain ⟨he, -, -⟩ := read_of_parse hd hitems
  rw [keepsOthers_iff hitems] at h
  obtain ⟨ds, seen, r, items, rfl, hlayout⟩ := parse_iff.1 hd
  obtain ⟨first, rfl, rfl⟩ := Layout.exists_of_eq hitems
  rw [hlayout.escape_eq] at he ⊢
  have hreplaced := hlayout.exists_parse_replaced_iff hword
  simp only [List.append_assoc] at h hreplaced
  obtain ⟨⟨j, hj, hend, -⟩, -⟩ := hreplaced.1 h
  have hread := Instruction.parse_eq_ok.1 hj
  have htext : j.text = i'.text := by simpa using Instruction.lossless_read _ _ _ _ hread
  rw [← htext]
  exact (delimited_of_endsLine he hread (hend.resolve_right hafter)).closed

end

/-- **A value that is edited stays in its instruction.**  Let an edit give a value another text
`v`, which begins where the old one began.  If `v` stays apart from the text behind it, the
document is read again with as many items, and with the same ones in all other places, unless an
array arises; with the backslash for the escape character none does.  Where nothing but a line end
is behind the value, and another item behind that, nothing else will do: the others are kept only
if `v` does not go on in the next line.  (Before further arguments of its own instruction a value
may take some of these, and stay in its line.) -/
theorem keepsOthers_of_edit {s v : Text} {d : Document} {before after : List Item}
    {i i' : Instruction} {edit : ValueEdit} (hd : parse s = .ok d)
    (hitems : d.items = before ++ .instruction i :: after) (happlies : edit.Applies i)
    (hedit : edit.apply i v = .ok i') (hbegins : edit.Begins i v) :
    (StaysApart d.escape v (edit.behind i) →
      (d.KeepsOthers before.length i' ↔ d.NoArrayArises before i' after) ∧
        (d.escape = '\\' → d.KeepsOthers before.length i')) ∧
    (after ≠ [] → Text.atLineEnd ((edit.behind i).dropWhile isBlank) = true →
      (v.getLast? = some '\r' → (edit.behind i).head? ≠ some '\n') →
        d.KeepsOthers before.length i' → StaysApart d.escape v (edit.behind i)) := by
  obtain ⟨he, hi, hend⟩ := read_of_parse hd hitems
  obtain ⟨hv, htext⟩ := ValueEdit.accepts_and_text_of_apply he hi happlies hedit
  constructor
  · intro hstays
    obtain ⟨j, hj, hline⟩ := ValueEdit.exists_read_of_staysApart he hi happlies hv hbegins hstays
    rw [← htext] at hj
    exact keepsOthers_iff_of_read hd hitems hj hline
  · intro hafter hline hfeed hkeeps
    have hword : firstWord i'.text ≠ [] := by
      rw [htext]
      exact firstWord_append_ne_nil (ValueEdit.firstWord_ahead he hi happlies) _
    have hclosed := hkeeps.closed hd hitems hword hafter
    rw [htext] at hclosed
    exact ValueEdit.staysApart_of_closed he hi happlies hv hbegins hclosed (hend hafter) hline hfeed

/-- The edit, of the first instruction, keeps the other items: the value begins and ends apart. -/
def Settles (edit : ValueEdit) (s v : Text) : Prop :=
  ∃ d i i', parse s = .ok d ∧ d.items[0]? = some (.instruction i) ∧ edit.Applies i ∧
    edit.apply i v = .ok i' ∧ edit.Begins i v ∧ StaysApart d.escape v (edit.behind i) ∧
    d.KeepsOthers 0 i'

/-- Values before a name, a continuation, another label and a comment line stay in their places. -/
theorem keepsOthers_of_edit_settles :
    Settles .image "FROM --platform=p \\\n# c\n a AS n\nRUN y\n".toList "b:$\x7bt\x7d".toList ∧
    Settles (.default ['A']) "ARG A\\\n B=1\nRUN y\n".toList "'x y'".toList ∧
    Settles (.label ['k']) "LABEL k=1 l=2\nRUN y\n".toList "x\\ y".toList ∧
    Settles .command "RUN [\"x\"] \\\n# c\n\nRUN y\n".toList " \\\n x \\\n && y".toList := by
  have hsettles {edit : ValueEdit} {s v : Text}
      (h : ∃ d ∈ (parse s).toOption, ∃ i ∈ d.items[0]?.bind Item.instruction?,
        ∃ i' ∈ (edit.apply i v).toOption, edit.Applies i ∧ edit.Begins i v ∧
          StaysApart d.escape v (edit.behind i) ∧ d.escape = '\\') : Settles edit s v := by
    obtain ⟨d, hd, i, hi, i', hedit, happlies, hbegins, hstays, hescape⟩ := h
    rw [mem_toOption] at hd hedit
    rw [mem_instruction?] at hi
    have hkeeps := keepsOthers_of_edit hd (eq_cons_of_first hi) happlies hedit hbegins
    exact ⟨d, i, i', hd, hi, happlies, hedit, hbegins, hstays, (hkeeps.1 hstays).2 hescape⟩
  refine ⟨hsettles ?_, hsettles ?_, hsettles ?_, hsettles ?_⟩ <;> decide +kernel

/-- The edit, of the first instruction, does not keep the other items. -/
def Spills (edit : ValueEdit) (s v : Text) : Prop :=
  ∃ d i i', parse s = .ok d ∧ d.items[0]? = some (.instruction i) ∧ edit.Applies i ∧
    edit.apply i v = .ok i' ∧ ¬ d.KeepsOthers 0 i'

/-- That an item is lost is found by reading. -/
theorem spills_of_parse {edit : ValueEdit} {s v : Text}
    (h : ∃ d ∈ (parse s).toOption, ∃ i ∈ d.items[0]?.bind Item.instruction?,
      ∃ i' ∈ (edit.apply i v).toOption, edit.Applies i ∧
        ∀ d' ∈ (parse (Document.mk (d.items.set 0 (.instruction i'))).text).toOption,
          d'.items.length ≠ d.items.length) : Spills edit s v := by
  obtain ⟨d, hd, i, hi, i', hedit, happlies, hlost⟩ := h
  rw [mem_toOption] at hd hedit
  rw [mem_instruction?] at hi
  exact ⟨d, i, i', hd, hi, happlies, hedit, fun ⟨d', hd', hlen, _⟩ =>
    hlost d' (mem_toOption.2 hd') hlen⟩

/-- A value that ends with the escape character is accepted by every edit, and then takes the line
end behind it, and the next instruction with it.  An image may also be taken for a flag, or go on
with a comment. -/
theorem not_keepsOthers_of_escape :
    Spills .image "FROM x\nRUN y\n".toList "a\\".toList ∧
    Spills (.default ['A']) "ARG A\nRUN y\n".toList "a\\".toList ∧
    Spills (.label ['k']) "LABEL k=1\nRUN y\n".toList "a\\".toList ∧
    Spills .command "RUN x\nRUN y\n".toList "a\\".toList ∧
    Spills .image "FROM x\nRUN y\n".toList "--a=b".toList ∧
    Spills .image "FROM \\\nx\nRUN y\n".toList "#a".toList := by
  refine ⟨spills_of_parse ?_, spills_of_parse ?_, spills_of_parse ?_, spills_of_parse ?_,
    spills_of_parse ?_, spills_of_parse ?_⟩ <;> decide +kernel

end Document

end Containerfile
