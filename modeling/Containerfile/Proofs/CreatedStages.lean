import Containerfile.Proofs.CreatedPairs

/-!
# Stages from a caller

A `FROM` is made from an image, perhaps a platform and perhaps a name.  They are written into one
line without a check, and the line is read.  What is read is what was given exactly if each
argument passes the check that its own edit makes, and none is taken for another: the image does
not begin with a continued line or, where no platform is given, with a flag, and the platform and
the image are kept apart from what is written behind them.

## Main definitions

* `Literal.accepts` — whether a text alone is a literal of a style.
* `StageApart` — the arguments of a stage are taken for what they are.

## Main results

* `Instruction.stage_of_create` — a stage is read as it was given.
-/

namespace Containerfile

open Lexeme Grammar

/-! ## Arguments alone -/

namespace Literal

/-- Whether a text alone is a literal of a style. -/
def accepts (style : Style) (e : Char) (s : Text) : Bool :=
  (parseAs style e s).isOk

variable {style : Style} {e : Char} {s : Text}

theorem accepts_iff (htrim : style.trimsEnd = false) (hs : s ≠ [] ∨ style.allowsEmpty = true) :
    accepts style e s = true ↔ ∃ ps, Scans e style none s ps [] := by
  have hok : accepts style e s = true ↔ ∃ ts, body style e s = .ok ts [] := by
    unfold accepts parseAs
    constructor
    · intro h
      cases hc : (body style e s).complete s with
      | ok ts => exact ⟨ts, Outcome.complete_eq_ok.1 hc⟩
      | error f =>
        rw [hc] at h
        cases h
    · rintro ⟨ts, hts⟩
      rw [Outcome.complete_eq_ok.2 hts]
      rfl
  rw [hok]
  constructor
  · rintro ⟨ts, hts⟩
    obtain ⟨ps, hps, -⟩ := (body_of_trimsEnd htrim).1 hts
    exact ⟨ps, hps⟩
  · rintro ⟨ps, hps⟩
    refine ⟨assemble ps, (body_of_trimsEnd htrim).2 ⟨ps, hps, rfl, hs.imp_left fun hne hnil =>
      hne ?_⟩⟩
    have hsource := hps.sourceOf_append_eq
    rw [← textAll_assemble, hnil] at hsource
    exact hsource.symm

/-- A literal that takes some text begins with neither a blank nor a line end. -/
theorem Scans.head (he : IsEscape e) (hblanks : style.blanksEnd = true) {ps : List Piece} {r : Text}
    (h : Scans e style none s ps r) (hr : r ≠ s) :
    s.head?.any isBlank = false ∧ s.atLineEnd = false := by
  have hstep : step style e none s ≠ .stop := by
    intro hstop
    cases h with
    | stop => exact hr rfl
    | take hstep _ => cases hstop.symm.trans hstep
    | last hstep => cases hstop.symm.trans hstep
    | reference hstep _ _ => cases hstop.symm.trans hstep
  constructor
  · cases s with
    | nil => rfl
    | cons c s =>
      refine Bool.eq_false_iff.2 fun hc => hstep (step_blank he hblanks ?_)
      exact hc
  · exact Bool.eq_false_iff.2 fun hend => hstep (step_atLineEnd he hend)

end Literal

/-- Whether a text begins with a continuation. -/
def continues (e : Char) (s : Text) : Bool :=
  match continuation e s with
  | .ok _ _ => true
  | _ => false

theorem continues_eq_false_iff {e : Char} {s : Text} :
    continues e s = false ↔ ∃ m, continuation e s = .stuck m := by
  unfold continues
  rcases continuation_eq_ok_or_stuck e s with ⟨ts, r, h⟩ | ⟨m, h⟩ <;> simp [h]

/-- A continuation is settled by the text that it begins with, before a text without a line end. -/
theorem continues_append {e : Char} {s x : Text} (hs : s ≠ [])
    (hx : ¬ ∃ ts r, newline (x.dropWhile isBlank) = .ok ts r) :
    continues e (s ++ x) = continues e s := by
  have hiff : ∀ s, continues e s = true ↔ ∃ ts r, continuation e s = .ok ts r := by
    intro s
    rw [← Bool.not_eq_false, continues_eq_false_iff, continuation_stuck_iff, not_not]
  rw [Bool.eq_iff_iff, hiff, hiff]
  obtain ⟨c, s, rfl⟩ := List.exists_cons_of_ne_nil hs
  by_cases hc : c = e
  · subst hc
    rw [List.cons_append, continuation_cons_eq_ok, continuation_cons_eq_ok, List.dropWhile_append]
    split
    · rename_i hnil
      rw [List.isEmpty_iff.1 hnil]
      refine ⟨fun h => absurd h hx, ?_⟩
      rintro ⟨ts, r, h⟩
      cases h
    · rename_i hne
      have hne : s.dropWhile isBlank ≠ [] := fun hnil => hne (List.isEmpty_iff.2 hnil)
      simp only [newline_append_iff hne fun _ => head?_of_not_newline hx]
      exact ⟨fun ⟨ts, _, z, hz, _⟩ => ⟨ts, z, hz⟩, fun ⟨ts, z, hz⟩ => ⟨ts, z ++ x, z, hz, rfl⟩⟩
  · have hnone : ∀ s', ¬ ∃ ts r, continuation e (c :: s') = .ok ts r := by
      rintro s' ⟨ts, r, h⟩
      obtain ⟨_, heq⟩ := eq_cons_of_continuation h
      exact hc (List.cons.inj heq).1
    exact iff_of_false (hnone _) (hnone _)

/-- Whether a text begins with a flag. -/
def beginsFlag : Text → Bool
  | '-' :: '-' :: c :: _ => isFlagChar c
  | _ => false

theorem beginsFlag_iff {s : Text} :
    beginsFlag s = true ↔ ∃ c r, s = '-' :: '-' :: c :: r ∧ isFlagChar c = true := by
  unfold beginsFlag
  split
  · rename_i c r
    constructor
    · intro hc
      exact ⟨c, r, rfl, hc⟩
    · rintro ⟨c', r', heq, hc⟩
      cases heq
      exact hc
  · rename_i hne
    constructor
    · intro h
      cases h
    · rintro ⟨c, r, heq, -⟩
      exact absurd heq (hne c r)

/-- A flag is settled by its dashes and the first character of its name. -/
theorem beginsFlag_append {s x : Text} (hx : x.head?.any isFlagChar = false) :
    beginsFlag (s ++ x) = beginsFlag s := by
  rw [Bool.eq_iff_iff, beginsFlag_iff, beginsFlag_iff]
  constructor
  · rintro ⟨c, r, heq, hc⟩
    match s with
    | [] =>
      obtain rfl : x = '-' :: '-' :: c :: r := heq
      cases hx
    | [a] =>
      obtain ⟨-, rfl⟩ : a = '-' ∧ x = '-' :: c :: r := by simpa using heq
      cases hx
    | [a, b] =>
      obtain ⟨-, -, rfl⟩ : a = '-' ∧ b = '-' ∧ x = c :: r := by simpa using heq
      rw [List.head?_cons, Option.any_some, hc] at hx
      cases hx
    | a :: b :: d :: s =>
      obtain ⟨rfl, rfl, rfl, -⟩ : a = '-' ∧ b = '-' ∧ d = c ∧ s ++ x = r := by simpa using heq
      exact ⟨d, s, rfl, hc⟩
  · rintro ⟨c, r, rfl, hc⟩
    exact ⟨c, r ++ x, rfl, hc⟩

/-- The arguments of a stage are taken for what they are. -/
structure StageApart (e : Char) (image : Text) (stage platform : Option Text) : Prop where
  /-- The image is one word. -/
  word : Literal.accepts .word e image = true
  begins : continues e image = false
  /-- Where no platform is given, the image is not taken for a flag. -/
  noFlag : platform = none → beginsFlag image = false
  value : ∀ p ∈ platform, Literal.accepts .value e p = true ∧ EndsBefore e p (' ' :: image)
  name : ∀ n ∈ stage, Instruction.isStageName n = true ∧ EndsBefore e image " AS".toList

instance (e : Char) (image : Text) (stage platform : Option Text) :
    Decidable (StageApart e image stage platform) :=
  decidable_of_iff
    (Literal.accepts .word e image = true ∧ continues e image = false ∧
      (platform = none → beginsFlag image = false) ∧
      (∀ p ∈ platform, Literal.accepts .value e p = true ∧ EndsBefore e p (' ' :: image)) ∧
      ∀ n ∈ stage, Instruction.isStageName n = true ∧ EndsBefore e image " AS".toList)
    ⟨fun ⟨h₁, h₂, h₃, h₄, h₅⟩ => ⟨h₁, h₂, h₃, h₄, h₅⟩,
      fun ⟨h₁, h₂, h₃, h₄, h₅⟩ => ⟨h₁, h₂, h₃, h₄, h₅⟩⟩

/-! ## The line of a stage -/

/-- The text of the platform before the image. -/
def flagText : Option Text → Text
  | none => []
  | some p => ' ' :: ("--platform=".toList ++ p)

/-- The text of the name behind the image. -/
def nameText : Option Text → Text
  | none => []
  | some n => " AS ".toList ++ n

theorem renderStage_eq (image : Text) (stage platform : Option Text) :
    Instruction.renderStage image stage platform =
      Keyword.FROM.name ++ (flagText platform ++ ' ' :: (image ++ nameText stage)) := by
  have hkeyword : "FROM ".toList = Keyword.FROM.name ++ [' '] := rfl
  unfold Instruction.renderStage
  rw [hkeyword]
  cases platform <;> cases stage <;>
    simp only [flagText, nameText, Option.map_some, Option.map_none, Option.getD_some,
      Option.getD_none, List.append_assoc, List.cons_append, List.nil_append, List.append_nil]

namespace Instruction

variable {e : Char} {image m₁ m₂ t r : Text} {stage platform : Option Text}
  {fs ss ls ns fin : List Token}

/-- What is read of the line of a stage, behind the keyword. -/
structure StageReading (e : Char) (m : Text) (fs ss ls ns fin : List Token)
    (m₁ m₂ t r : Text) : Prop where
  flag : KeyValue.oneFlag e m = .ok fs m₁
  separator : separator e m₁ = .ok ss m₂
  image : Literal.body .word e m₂ = .ok ls t
  naming : optional (naming e) t = .ok ns r
  finish : finish e r = .ok fin []

theorem exists_stageReading {i : Instruction} (h : createStage image stage platform e = .ok i) :
    image ≠ [] ∧ ∃ st fs ss ls ns fin m₁ m₂ t r,
      start Keyword.FROM.name (renderStage image stage platform) =
        .ok st (flagText platform ++ ' ' :: (image ++ nameText stage)) ∧
      StageReading e (flagText platform ++ ' ' :: (image ++ nameText stage)) fs ss ls ns fin m₁
        m₂ t r ∧
      i = ⟨.stage, e, st ++ fs ++ ss ++ .node (.literal true) ls :: (ns ++ fin)⟩ := by
  unfold createStage at h
  split at h
  · cases h
  · rename_i hne
    unfold compose at h
    split at h
    · rename_i i' hparse
      cases h
      obtain ⟨ts, hts, rfl⟩ := Outcome.map_eq_ok.1 (Outcome.complete_eq_ok.1 hparse)
      have hbody : (stageContent e ++ Lexeme.finish e) (renderStage image stage platform) =
          .ok ts [] := hts
      obtain ⟨cs, fin, r, hcontent, hfin, rfl⟩ := seq_eq_ok.1 hbody
      obtain ⟨st, m, fs, m₁, ss, m₂, ls, t, ns, hst, hfs, hss, hls, hns, rfl⟩ :=
        stageContent_eq_ok.1 hcontent
      have hstart : start Keyword.FROM.name (renderStage image stage platform) =
          .ok [.leaf .keyword Keyword.FROM.name]
              (flagText platform ++ ' ' :: (image ++ nameText stage)) := by
        rw [renderStage_eq]
        refine start_name .FROM ?_
        cases platform <;> rfl
      cases hstart.symm.trans hst
      exact ⟨by simpa using hne, _, fs, ss, ls, ns, fin, m₁, m₂, t, r, hstart,
        ⟨hfs, hss, hls, hns, hfin⟩, by simp⟩
    · cases h

/-- The text of the platform that is given by a flag before the image. -/
def platformOf (fs : List Token) : Option (Option Text) :=
  ((fs.filterMap Token.keyValue?).find? fun p => Text.sameLetters p.key platformFlag).map fun p =>
    p.literal?.map Literal.text

/-- No key with a value is read with the name of a stage. -/
theorem keyValue?_of_naming (h : optional (naming e) t = .ok ns r) :
    ∀ u ∈ ns, u.keyValue? = none := by
  rcases optional_eq_ok.1 h with h | ⟨-, rfl, -⟩
  · obtain ⟨cs, name, rfl, hcs⟩ := naming_eq_ok h
    exact List.forall_mem_append.2 ⟨hcs.keyValue?, List.forall_mem_singleton.2 rfl⟩
  · simp

/-- A stage is read as its keyword and what is behind it. -/
theorem stageReading_iff {s : Text} {i : Instruction} :
    read e s = .ok i [] ∧ i.form = .stage ↔ ∃ st m fs ss ls ns fin m₁ m₂ t r,
      start Keyword.FROM.name s = .ok st m ∧ StageReading e m fs ss ls ns fin m₁ m₂ t r ∧
      i = ⟨.stage, e, st ++ fs ++ ss ++ .node (.literal true) ls :: (ns ++ fin)⟩ := by
  rw [read_stage_iff]
  constructor
  · rintro ⟨_, fin, r, -, hts, hfin, rfl⟩
    obtain ⟨st, m, fs, m₁, ss, m₂, ls, t, ns, hst, hfs, hss, hls, hns, rfl⟩ :=
      stageContent_eq_ok.1 hts
    exact ⟨st, m, fs, ss, ls, ns, fin, m₁, m₂, t, r, hst, ⟨hfs, hss, hls, hns, hfin⟩, by simp⟩
  · rintro ⟨st, m, fs, ss, ls, ns, fin, m₁, m₂, t, r, hst, h, rfl⟩
    have hts := stageContent_eq_ok.2
      ⟨st, m, fs, m₁, ss, m₂, ls, t, ns, hst, h.flag, h.separator, h.image, h.naming, rfl⟩
    exact ⟨_, fin, r, Keyword.ofWord?_eq_some.2 (matchesWord_of_start hst), hts, h.finish, by simp⟩

/-- The arguments of a stage, from what is read. -/
theorem StageReading.views {s m : Text} {st : List Token} {i : Instruction}
    (h : StageReading e m fs ss ls ns fin m₁ m₂ t r) (hst : start Keyword.FROM.name s = .ok st m)
    (hi : i = ⟨.stage, e, st ++ fs ++ ss ++ .node (.literal true) ls :: (ns ++ fin)⟩) :
    i.image? = some ⟨true, ls⟩ ∧ i.stageName? = Children.firstLeaf? .identifier ns ∧
      i.flags = fs.filterMap Token.keyValue? := by
  have hbefore := isLiteral_of_mem hst h.flag h.separator
  have hfin := frame_of_finish h.finish
  subst hi
  refine ⟨?_, ?_, ?_⟩
  · exact Children.firstLiteral?_append_cons (fun u hu => (hbefore u hu).1) true ls (ns ++ fin)
  · have hnone : Children.firstLeaf? .identifier (st ++ fs ++ ss) = none :=
      Children.firstLeaf?_eq_none fun u hu => (hbefore u hu).2
    have hnone' : Children.firstLeaf? .identifier fin = none :=
      Children.firstLeaf?_eq_none hfin.isLeaf
    unfold stageName?
    unfold Children.firstLeaf? at *
    rw [List.findSome?_append, hnone, Option.none_or, List.findSome?_cons_of_isNone rfl,
      List.findSome?_append, hnone', Option.or_none]
  · have hall : ∀ u ∈ ns ++ fin, u.keyValue? = none :=
      List.forall_mem_append.2 ⟨keyValue?_of_naming h.naming, hfin.keyValue?⟩
    unfold flags
    rw [keyValues_of_stage hst h.separator hall,
      List.filter_eq_self.2 (KeyValue.isFlag_of_oneFlag h.flag)]

/-- The texts of the arguments of a stage, from what is read. -/
theorem StageReading.fields {s m : Text} {st : List Token} {i : Instruction}
    (h : StageReading e m fs ss ls ns fin m₁ m₂ t r) (hst : start Keyword.FROM.name s = .ok st m)
    (hi : i = ⟨.stage, e, st ++ fs ++ ss ++ .node (.literal true) ls :: (ns ++ fin)⟩) :
    i.image?.map Literal.text = some (Token.textAll ls) ∧
      i.stageName? = Children.firstLeaf? .identifier ns ∧
      i.platformFlag?.map (fun p => p.literal?.map Literal.text) = platformOf fs := by
  obtain ⟨himage, hname, hflags⟩ := h.views hst hi
  refine ⟨by rw [himage]; rfl, hname, ?_⟩
  unfold platformFlag? flag?
  rw [hflags]
  rfl

/-! ## What is read is what was given -/

theorem eq_length_of_sameLetters {a b : Text} (h : Text.sameLetters a b = true) :
    a.length = b.length := by
  have heq := congrArg List.length (beq_iff_eq.1 h)
  simpa using heq

/-- The keyword before a name has two letters. -/
theorem exists_of_as {word : Text} (h : Text.sameLetters word "AS".toList = true) :
    ∃ x y, word = [x, y] ∧ isNameChar x = true ∧ isNameChar y = true := by
  have hname := isNameChar_of_sameLetters h (List.all_eq_true.1 (by decide))
  obtain ⟨x, y, rfl⟩ := List.length_eq_two.1 (eq_length_of_sameLetters h)
  exact ⟨x, y, rfl, hname x (by simp), hname y (by simp)⟩

/-- A flag that gives the platform, and the value that is read of it. -/
theorem flag_of_platformOf {m p : Text} (hfs : KeyValue.oneFlag e m = .ok fs m₁)
    (h : platformOf fs = some (some p)) :
    (flagText (some p)).length + m₁.length ≤ m.length ∧
      ∃ ps, Literal.Scans e .value none (p ++ m₁) ps m₁ := by
  rcases KeyValue.oneFlag_eq_ok.1 hfs with ⟨-, rfl, -⟩ | ⟨ss, k, us, hsep, hus, rfl⟩
  · cases h
  · have hfilter : (ss ++ [KeyValue.token ⟨.symbol ['-', '-'] :: us⟩]).filterMap Token.keyValue? =
        [⟨.symbol ['-', '-'] :: us⟩] := by
      rw [List.filterMap_append, (frame_of_separator hsep).filterMap_keyValue?]
      rfl
    unfold platformOf at h
    rw [hfilter] at h
    obtain ⟨q, hq, hp⟩ := Option.map_eq_some_iff.1 h
    obtain ⟨hmem, hkey⟩ := List.mem_singleton.1 (List.mem_of_find?_eq_some hq), List.find?_some hq
    subst hmem
    have hvalue : (KeyValue.mk us).written.2 = some p := hp
    refine ⟨?_, KeyValue.scans_of_named hus hvalue⟩
    have htext := congrArg List.length (KeyValue.text_of_named (q := ⟨us⟩) hus)
    have hlt := length_lt_of_separator hsep
    have hlength : (KeyValue.mk us).written.1.length = 8 := eq_length_of_sameLetters hkey
    rw [hvalue] at htext
    simp only [List.length_append, valueText, List.length_cons] at htext hlt
    simp only [flagText, List.length_cons, List.length_append]
    have hdashes : "--platform=".toList.length = 11 := rfl
    omega

/-- The name behind the image. -/
theorem name_of_naming {n : Text} (h : optional (naming e) t = .ok ns r)
    (hn : Children.firstLeaf? .identifier ns = some n) :
    isStageName n = true ∧ (nameText (some n)).length + r.length ≤ t.length := by
  rcases optional_eq_ok.1 h with h | ⟨-, rfl, -⟩
  · obtain ⟨_, _, k, has, hname, rfl⟩ := seq_eq_ok.1 h
    obtain ⟨ss, _, k', hss, hkeyword, rfl⟩ := seq_eq_ok.1 (argument_eq_ok.1 has)
    obtain ⟨word, rfl, hword, -, rfl⟩ := keyword_eq_ok.1 hkeyword
    obtain ⟨ss', _, k'', hss', hrun, rfl⟩ := seq_eq_ok.1 (required_eq_ok.1 hname)
    obtain ⟨name, rfl, hne, hall, -, rfl⟩ := run_shape.1 hrun
    have hframe : Frame (ss ++ [.leaf .keyword word] ++ ss') :=
      ((frame_of_separator hss).append (.keyword word)).append (frame_of_separator hss')
    have hnone : Children.firstLeaf? .identifier (ss ++ [.leaf .keyword word] ++ ss') = none :=
      Children.firstLeaf?_eq_none hframe.isLeaf
    obtain rfl : name = n := by
      unfold Children.firstLeaf? at hn hnone
      rw [← List.append_assoc, List.findSome?_append, hnone, Option.none_or] at hn
      exact Option.some.inj hn
    have hlt := length_lt_of_separator hss
    have hlt' := length_lt_of_separator hss'
    have hlength := eq_length_of_sameLetters hword
    refine ⟨by simpa [isStageName] using ⟨hne, hall⟩, ?_⟩
    simp only [nameText, List.length_append] at hlt hlt' ⊢
    have has : " AS ".toList.length = 4 := rfl
    have has' : "AS".toList.length = 2 := rfl
    omega
  · cases hn

/-- The arguments are read from the places where they are written: no reader leaves a text that is
longer than the arguments behind it, and the line is no longer than all of them. -/
theorem StageReading.places
    (h : StageReading e (flagText platform ++ ' ' :: (image ++ nameText stage)) fs ss ls ns fin
      m₁ m₂ t r)
    (himage : Token.textAll ls = image) (hstage : Children.firstLeaf? .identifier ns = stage)
    (hplatform : platformOf fs = platform.map some) :
    m₁ = ' ' :: (image ++ nameText stage) ∧ m₂ = image ++ nameText stage ∧ t = nameText stage := by
  have hreaders := arrayReaders_lossless e
  have hflag := hreaders.optional (hreaders.argument hreaders.flag) _ _ _ h.flag
  have hseparator := hreaders.separator _ _ _ h.separator
  have himage' := Literal.lossless_body _ _ _ _ _ h.image
  rw [himage] at himage'
  have hflag' : (flagText platform).length + m₁.length ≤
      (flagText platform ++ ' ' :: (image ++ nameText stage)).length := by
    cases platform with
    | none =>
      have hlength := congrArg List.length hflag
      simp only [List.length_append, flagText, List.length_nil] at hlength ⊢
      omega
    | some p => exact (flag_of_platformOf h.flag hplatform).1
  have hname : (nameText stage).length + r.length ≤ t.length := by
    cases stage with
    | none =>
      have hlength := congrArg List.length
        ((hreaders.optional (hreaders.seq (hreaders.argument hreaders.stageKeyword)
          (hreaders.required "stage name" hreaders.stageName))) _ _ _ h.naming)
      simp only [List.length_append, nameText, List.length_nil] at hlength ⊢
      omega
    | some n => exact (name_of_naming h.naming hstage).2
  have hlt := length_lt_of_separator h.separator
  have hlength := congrArg List.length himage'
  simp only [List.length_append, List.length_cons] at hflag' hlength
  have hm₁ : m₁ = ' ' :: (image ++ nameText stage) := by
    refine List.append_inj_right' hflag ?_
    simp only [List.length_append, List.length_cons]
    omega
  subst hm₁
  have hm₂ : m₂ = image ++ nameText stage := by
    have hseparator' : Token.textAll ss ++ m₂ = [' '] ++ (image ++ nameText stage) := hseparator
    refine List.append_inj_right' hseparator' ?_
    simp only [List.length_append, List.length_cons] at hlt ⊢
    omega
  subst hm₂
  exact ⟨rfl, rfl, List.append_cancel_left himage'⟩

/-- No line end is in front of what is written behind the image. -/
theorem not_newline_nameText (stage : Option Text) :
    ¬ ∃ ts r, newline ((nameText stage).dropWhile isBlank) = .ok ts r := by
  cases stage with
  | none =>
    rintro ⟨ts, r, h⟩
    cases h
  | some n => exact not_newline_of_argument (c := 'A') rfl rfl

theorem head?_nameText (stage : Option Text) : (nameText stage).head?.any isFlagChar = false := by
  cases stage <;> rfl

theorem scans_nameText_iff (he : IsEscape e) (image : Text) (stage : Option Text) :
    (∃ us, Literal.Scans e .word none (image ++ nameText stage) us (nameText stage)) ↔
      (∃ ps, Literal.Scans e .word none image ps []) ∧
      ∀ n ∈ stage, EndsBefore e image " AS".toList := by
  cases stage with
  | none => simp [nameText]
  | some n =>
    have hbefore :=
      Literal.scans_before_iff (v := image) (c := 'A') (n := 'S' :: ' ' :: n) he rfl rfl
      (show Style.word.Plain from ⟨rfl, rfl⟩) rfl
    rw [endsBefore_argument_iff rfl image _ ['S']] at hbefore
    exact hbefore.trans (by simp)

/-- Arguments that are read as they were given are taken for what they are. -/
theorem StageReading.apart (he : IsEscape e) (hne : image ≠ [])
    (h : StageReading e (flagText platform ++ ' ' :: (image ++ nameText stage)) fs ss ls ns fin
      m₁ m₂ t r)
    (himage : Token.textAll ls = image) (hstage : Children.firstLeaf? .identifier ns = stage)
    (hplatform : platformOf fs = platform.map some) : StageApart e image stage platform := by
  obtain ⟨rfl, rfl, rfl⟩ := h.places himage hstage hplatform
  obtain ⟨us, hus, -⟩ := (Literal.body_of_trimsEnd rfl).1 h.image
  obtain ⟨hword, hends⟩ := (scans_nameText_iff he image stage).1 ⟨us, hus⟩
  obtain ⟨hblank, hend⟩ := hus.head he rfl (by simpa using hne)
  have hgap := stuck_of_many (advances_gap e) _ _ _ (separator_eq_ok.1 h.separator).1
  refine ⟨(Literal.accepts_iff rfl (.inl hne)).2 hword, ?_, ?_, ?_, ?_⟩
  · rw [← continues_append hne (not_newline_nameText stage)]
    exact continues_eq_false_iff.2 (gap_stuck_iff.1 hgap).2
  · rintro rfl
    rcases KeyValue.oneFlag_eq_ok.1 h.flag with ⟨hstuck, -, -⟩ | ⟨ss', k, us', hsep, hnamed, -⟩
    · have hstuck' := KeyValue.flag_stuck_iff.1 ((argument_stuck_iff h.separator).1 hstuck)
      rw [← beginsFlag_iff, Bool.not_eq_true, beginsFlag_append (head?_nameText stage)] at hstuck'
      exact hstuck'
    · have hlt := length_lt_of_separator hsep
      have hle := (KeyValue.lossless_named e isFlagChar).shrinks _ _ _ hnamed
      simp only [flagText, List.nil_append, List.length_cons] at hlt hle
      omega
  · rintro p ⟨⟩
    obtain ⟨-, hvalue⟩ := flag_of_platformOf h.flag hplatform
    obtain ⟨c, w, rfl⟩ := List.exists_cons_of_ne_nil hne
    obtain ⟨halone, hbefore⟩ :=
      (Literal.scans_before_iff (n := w ++ nameText stage) he hblank hend
        (show Style.value.Plain from ⟨rfl, rfl⟩) rfl).1 hvalue
    exact ⟨(Literal.accepts_iff rfl (.inr rfl)).2 halone,
      (endsBefore_argument_iff hblank p _ _).1 hbefore⟩
  · intro n hn
    exact ⟨(name_of_naming h.naming (hstage.trans hn)).1, hends n hn⟩

/-- The flag before an image that is kept apart from it. -/
theorem flag_of_apart (he : IsEscape e) {x : Text} (hgap : ∃ m, gap e x = .stuck m)
    (hx : x.head?.any isBlank = false ∧ x.atLineEnd = false)
    (hnoFlag : platform = none → beginsFlag x = false)
    (hvalue : ∀ p ∈ platform, Literal.accepts .value e p = true ∧ EndsBefore e p (' ' :: x))
    (h : KeyValue.oneFlag e (flagText platform ++ ' ' :: x) = .ok fs m₁) :
    m₁ = ' ' :: x ∧ platformOf fs = platform.map some := by
  cases platform with
  | none =>
    have hnone : KeyValue.oneFlag e (' ' :: x) = .ok [] (' ' :: x) := by
      refine KeyValue.oneFlag_eq_ok.2 (.inl ⟨?_, rfl, rfl⟩)
      rw [argument_stuck_iff (separator_of_space hgap), KeyValue.flag_stuck_iff, ← beginsFlag_iff,
        Bool.not_eq_true]
      exact hnoFlag rfl
    cases hnone.symm.trans h
    exact ⟨rfl, rfl⟩
  | some p =>
    obtain ⟨haccepts, hends⟩ := hvalue p rfl
    have halone := (Literal.accepts_iff rfl (.inr rfl)).1 haccepts
    cases x with
    | nil => cases hx.2
    | cons c w =>
      obtain ⟨us, hus⟩ :=
        (Literal.scans_before_iff he hx.1 hx.2 (show Style.value.Plain from ⟨rfl, rfl⟩) rfl).2
          ⟨halone, hends⟩
      have hbody : Literal.body .value e (p ++ ' ' :: c :: w) =
          .ok (Literal.assemble us) (' ' :: c :: w) :=
        (Literal.body_of_trimsEnd rfl).2 ⟨us, hus, rfl, .inr rfl⟩
      have hnamed := (KeyValue.named_assigned_iff (e := e) (p := isFlagChar) (k := platformFlag) rfl
        (by decide) (List.all_eq_true.1 (by decide))).2 ⟨_, hbody, rfl⟩
      have hdash : ∃ m, gap e ('-' :: '-' :: (platformFlag ++ '=' :: (p ++ ' ' :: c :: w))) =
          .stuck m := by
        refine gap_stuck rfl ?_ _
        rintro rfl
        rcases he with he | he <;> cases he
      have hflag := KeyValue.oneFlag_eq_ok.2 (.inr ⟨_, _, _, separator_of_space hdash, hnamed, rfl⟩)
      have htext : flagText (some p) ++ ' ' :: c :: w =
          ' ' :: '-' :: '-' :: (platformFlag ++ '=' :: (p ++ ' ' :: c :: w)) := by
        have hdashes : "--platform=".toList = '-' :: '-' :: (platformFlag ++ ['=']) := rfl
        simp only [flagText, hdashes, List.cons_append, List.append_assoc, List.nil_append]
      rw [htext] at h
      cases hflag.symm.trans h
      refine ⟨rfl, ?_⟩
      have hsource : Token.textAll (Literal.assemble us) = p := by
        rw [Literal.textAll_assemble]
        exact List.append_cancel_right hus.sourceOf_append_eq
      change some (some (Token.textAll (Literal.assemble us))) = some (some p)
      rw [hsource]

/-- The name behind an image. -/
theorem name_of_apart (he : IsEscape e) (hname : ∀ n ∈ stage, isStageName n = true)
    (h : optional (naming e) (nameText stage) = .ok ns r) :
    Children.firstLeaf? .identifier ns = stage := by
  cases stage with
  | none =>
    rcases optional_eq_ok.1 h with h | ⟨-, rfl, -⟩
    · obtain ⟨_, _, k, has, -, -⟩ := seq_eq_ok.1 h
      obtain ⟨_, _, _, hsep, -, -⟩ := seq_eq_ok.1 (argument_eq_ok.1 has)
      obtain ⟨_, _, hnil, -⟩ := exists_cons_of_separator hsep
      cases hnil
    · rfl
  | some n =>
    have hn : n ≠ [] ∧ ∀ c ∈ n, isStageChar c = true := by simpa [isStageName] using hname n rfl
    obtain ⟨c, w, rfl⟩ := List.exists_cons_of_ne_nil hn.1
    have hsep : separator e (' ' :: c :: w) = .ok [.blank [' ']] (c :: w ++ []) := by
      simpa using separator_of_word he (hn.2 c List.mem_cons_self) w
    have hnaming : naming e (' ' :: 'A' :: 'S' :: ' ' :: c :: w) = .ok _ [] :=
      naming_shape.2 ⟨_, ['A', 'S'], _, _, c :: w, separator_of_word he rfl _, rfl, rfl, hsep,
        hn.1, hn.2, rfl, rfl⟩
    replace hnaming : optional (naming e) (nameText (some (c :: w))) = .ok _ [] :=
      optional_eq_ok.2 (.inl hnaming)
    cases hnaming.symm.trans h
    rfl

/-- Arguments that are taken for what they are are read as they were given. -/
theorem StageReading.fields_of_apart (he : IsEscape e) (hne : image ≠ [])
    (h : StageReading e (flagText platform ++ ' ' :: (image ++ nameText stage)) fs ss ls ns fin
      m₁ m₂ t r)
    (hapart : StageApart e image stage platform) :
    Token.textAll ls = image ∧ Children.firstLeaf? .identifier ns = stage ∧
      platformOf fs = platform.map some := by
  have hword := (Literal.accepts_iff rfl (.inl hne)).1 hapart.word
  obtain ⟨us, hus⟩ :=
    (scans_nameText_iff he image stage).2 ⟨hword, fun n hn => (hapart.name n hn).2⟩
  have hx := hus.head he rfl (by simpa using hne)
  have hgap : ∃ m, gap e (image ++ nameText stage) = .stuck m := by
    refine gap_stuck_iff.2 ⟨hx.1, continues_eq_false_iff.1 ?_⟩
    rw [continues_append hne (not_newline_nameText stage)]
    exact hapart.begins
  have hvalue : ∀ p ∈ platform, Literal.accepts .value e p = true ∧
      EndsBefore e p (' ' :: (image ++ nameText stage)) := by
    intro p hp
    obtain ⟨haccepts, hends⟩ := hapart.value p hp
    refine ⟨haccepts, ?_⟩
    obtain ⟨c, w, rfl⟩ := List.exists_cons_of_ne_nil hne
    exact (endsBefore_argument_iff hx.1 p _ _).1 hends
  have hnoFlag : platform = none → beginsFlag (image ++ nameText stage) = false := fun hnone =>
    (beginsFlag_append (head?_nameText stage)).trans (hapart.noFlag hnone)
  obtain ⟨rfl, hplatform⟩ := flag_of_apart he hgap hx hnoFlag hvalue h.flag
  cases (separator_of_space hgap).symm.trans h.separator
  obtain ⟨ws, hws, -⟩ := (Literal.body_of_trimsEnd rfl).1 h.image
  obtain ⟨-, rfl⟩ := hws.unique hus
  exact ⟨List.append_cancel_right (Literal.lossless_body _ _ _ _ _ h.image),
    name_of_apart he (fun n hn => (hapart.name n hn).1) h.naming, hplatform⟩

/-- A stage has the image, the name and the platform that it was made from exactly if these are
taken for what they are. -/
theorem stage_of_create {i : Instruction} (he : IsEscape e)
    (h : createStage image stage platform e = .ok i) :
    (i.image?.map Literal.text = some image ∧ i.stageName? = stage ∧
        i.platformFlag?.map (fun p => p.literal?.map Literal.text) = platform.map some) ↔
      StageApart e image stage platform := by
  obtain ⟨hne, st, fs, ss, ls, ns, fin, m₁, m₂, t, r, hst, hreading, hi⟩ := exists_stageReading h
  obtain ⟨himage, hname, hplatform⟩ := hreading.fields hst hi
  rw [himage, hname, hplatform, Option.some.injEq]
  constructor
  · rintro ⟨himage, hname, hplatform⟩
    exact hreading.apart he hne himage hname hplatform
  · exact hreading.fields_of_apart he hne

/-- Blanks and the keyword `AS` in the word of a reference do no harm. -/
theorem stage_of_create_referenced :
    ∃ i, createStage "$\x7bx:-a AS b\x7d".toList (some ['c']) (some "linux/$x".toList) '\\' =
      .ok i ∧
      i.image?.map Literal.text = some "$\x7bx:-a AS b\x7d".toList ∧ i.stageName? = some ['c'] ∧
      i.platformFlag?.map (fun p => p.literal?.map Literal.text) =
        some (some "linux/$x".toList) := by
  obtain ⟨i, hi, -⟩ :
      ∃ i ∈ (createStage "$\x7bx:-a AS b\x7d".toList (some ['c']) (some "linux/$x".toList)
        '\\').toOption, True := by
    decide +kernel
  rw [mem_toOption] at hi
  exact ⟨i, hi, (stage_of_create (.inl rfl) hi).2 (by decide +kernel)⟩

/-- An image can bring a name, a platform or a line end with it. -/
theorem stage_of_create_split :
    (∃ i, createStage "a AS b".toList none none '\\' = .ok i ∧
      i.image?.map Literal.text = some ['a'] ∧ i.stageName? = some ['b']) ∧
    (∃ i, createStage "--platform=x a".toList none none '\\' = .ok i ∧
      i.image?.map Literal.text = some ['a'] ∧
      i.platformFlag?.map (fun p => p.literal?.map Literal.text) = some (some ['x'])) ∧
    (∃ i, createStage "a\n".toList none none '\\' = .ok i ∧
      i.image?.map Literal.text = some ['a']) := by
  simp only [← mem_toOption]
  decide +kernel

end Instruction

end Containerfile
