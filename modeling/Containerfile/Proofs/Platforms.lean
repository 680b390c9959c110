import Containerfile.Proofs.Flags

/-!
# Setting a platform

The platform of a stage is a flag, and a stage has at most one flag.  A platform that a caller
gives takes the place of the flag that is there, or is put right behind the keyword, before
another flag or before the image.  What comes next decides how it is read back: another flag is
read as the image, and an image that only a line continuation separates from the place is read as
a part of the platform.

## Main results

* `Instruction.exists_leads` — where the platform is put.
* `Instruction.parse_setPlatform_iff` — when a platform reads back.
-/

namespace Containerfile

open Grammar Lexeme

namespace Literal

variable {e : Char} {s t : Text} {ls : List Token}

/-- What stands for itself at the start of a word is said first. -/
theorem valueOf_word {c : Char} (h : body .word e (c :: s) = .ok ls t) (he : IsEscape e)
    (hc : isStageChar c = true) : ∃ w, valueOf ls = c :: w := by
  obtain ⟨ps, hps, hvalue, -⟩ := word_eq_ok h
  obtain ⟨qs, rfl, -⟩ := (scans_iff_of_take (step_stageChar he hc)).1 hps
  exact ⟨_, hvalue⟩

/-- A word that begins as a flag says so, and goes on with what is behind the flag. -/
theorem word_of_flag {k m : Text} {ws : List Token} (he : IsEscape e)
    (hws : KeyValue.named e isFlagChar k = .ok ws m)
    (h : body .word e ('-' :: '-' :: k) = .ok ls t) :
    ∃ w qs, valueOf ls = '-' :: w ++ valueOfPieces qs ∧ Scans e .value none m qs t := by
  obtain ⟨ps, hps, hvalue, -⟩ := word_eq_ok h
  obtain ⟨n, x, rfl, -, hall, -, hrest⟩ := KeyValue.named_eq_ok.1 hws
  have hplain : ∀ c ∈ '-' :: '-' :: n, isPlainChar c = true := by
    refine List.forall_mem_cons.2 ⟨rfl, List.forall_mem_cons.2 ⟨rfl, fun c hc => ?_⟩⟩
    exact isPlainChar_of_isFlagChar (hall c hc)
  obtain ⟨qs, rfl, hqs⟩ := (scans_plain_iff (v := '-' :: '-' :: n) he hplain).1 hps
  rw [valueOfPieces_append, valueOfPieces_map_text] at hvalue
  rcases hrest with ⟨-, rfl, -⟩ | ⟨x', ls', rfl, hls', -⟩
  · exact ⟨_, qs, hvalue, hqs⟩
  · obtain ⟨ps', hps', -⟩ := (body_of_trimsEnd rfl).1 hls'
    have hequals : Word.Quoting.none.allows e '=' = true := by rcases he with rfl | rfl <;> decide
    obtain ⟨ws, rfl, hws⟩ := (scans_iff_of_take (step_value hequals)).1 hqs
    obtain ⟨rfl, rfl⟩ := hws.unique hps'
    exact ⟨_, [], by simpa [valueOfPieces] using hvalue, .stop (hps'.step_rest rfl)⟩

end Literal

namespace Instruction

variable {e : Char} {s m m₁ m₂ t t' r k : Text} {st fs ss ls ns fin : List Token}

/-- Behind an image there is the keyword `AS` or the end, so that a word there begins with a
letter. -/
theorem word_behind (he : IsEscape e) (hns : optional (naming e) r = .ok ns t)
    (hfin : finish e t = .ok fin []) (hsep : separator e r = .ok ss k)
    (hls : Literal.body .word e k = .ok ls t') : ∃ x w, Literal.valueOf ls = x :: w ∧ x ≠ '-' := by
  obtain ⟨hgaps, -⟩ := separator_eq_ok.1 hsep
  rcases optional_eq_ok.1 hns with hns | ⟨-, rfl, rfl⟩
  · obtain ⟨ss', word, m, -, -, hsep', hword, -⟩ := naming_shape.1 hns
    cases hsep.symm.trans hsep'
    obtain ⟨x, y, rfl, hx, -⟩ := exists_of_as hword
    obtain ⟨w, hw⟩ := Literal.valueOf_word hls he (isStageChar_of_isNameChar hx)
    refine ⟨x, w, hw, ?_⟩
    rintro rfl
    cases hx
  · obtain ⟨us, m, hus, hend⟩ := finish_eq_ok.1 hfin
    cases hgaps.symm.trans hus
    obtain ⟨-, -, -, hstop⟩ := Literal.word_eq_ok hls
    refine absurd ?_ hstop
    rcases hend with ⟨rfl, -⟩ | ⟨us, hn, -⟩
    · rfl
    · exact Literal.step_atLineEnd he (atLineEnd_of_newline hn)

section

variable {ls' ns' fin' ss' ws : List Token} {m' r' : Text} (he : IsEscape e)
include he

/-- If a flag is read as an image, it is not the image that is behind the flag. -/
theorem valueOf_ne_of_flag (hws : KeyValue.named e isFlagChar k = .ok ws m₁)
    (hsep : separator e m₁ = .ok ss m₂) (hls : Literal.body .word e m₂ = .ok ls t)
    (hls' : Literal.body .word e ('-' :: '-' :: k) = .ok ls' t')
    (hns' : optional (naming e) t' = .ok ns' r') (hfin' : finish e r' = .ok fin' []) :
    Literal.valueOf ls' ≠ Literal.valueOf ls := by
  intro heq
  obtain ⟨w, qs, hvalue, hqs⟩ := Literal.word_of_flag he hws hls'
  cases hapart : setsApart e m₁ with
  | true =>
    -- the image is not read as a part of the flag, so it would have to name the stage
    obtain ⟨x, ss', ⟨ps, hps, -⟩, hsep'⟩ :=
      Literal.exists_silent he (separator_eq_ok.1 hsep).1 hapart
    obtain ⟨-, rfl⟩ := hps.unique hqs
    obtain ⟨c, w', hc, hne⟩ := word_behind he hns' hfin' hsep' hls
    rw [heq, hc] at hvalue
    exact hne (List.cons.inj hvalue).1
  | false =>
    obtain ⟨qs', hqs', hvalue'⟩ := Literal.scans_behind hqs he (separator_eq_ok.1 hsep).1 hapart
    obtain ⟨ps, hps, himage, -⟩ := Literal.word_eq_ok hls
    obtain ⟨rfl, -⟩ := hps.unique hqs'
    rw [heq, hvalue', ← himage] at hvalue
    have hlen := congrArg List.length hvalue
    simp only [List.length_append, List.length_cons] at hlen
    omega

/-- If an image that says nothing is read as a part of a value, the image that is read behind it
says more. -/
theorem valueOf_ne_of_absorbed {qs : List Literal.Piece} (hls : Literal.body .word e k = .ok ls t)
    (hns : optional (naming e) t = .ok ns r) (hfin : finish e r = .ok fin [])
    (hqs : Literal.Scans e .value none k qs m₁) (hsilent : Literal.valueOfPieces qs = [])
    (hsep' : separator e m₁ = .ok ss' m') (hls' : Literal.body .word e m' = .ok ls' t') :
    Literal.valueOf ls' ≠ Literal.valueOf ls := by
  obtain ⟨ps, hps, himage, -⟩ := Literal.word_eq_ok hls
  obtain ⟨rfl, rfl⟩ := hps.unique hqs
  obtain ⟨c, w, hc, -⟩ := word_behind he hns hfin hsep' hls'
  rw [himage, hsilent, hc]
  simp

end

/-- The text behind the platform, or behind the place where one is added. -/
def behindPlatform (i : Instruction) : Text :=
  Children.behind (Children.flagIndex? platformFlag i.parts)
    (Children.keywordIndex i.parts + 1) i.parts

/-- Another platform takes the place of the first one, or is put behind the keyword. -/
theorem setPlatform_eq {i : Instruction} {p : Text} {q : KeyValue} (hne : p ≠ [])
    (hq : KeyValue.createFlag platformFlag (some p) i.escape = .ok q) :
    i.setPlatform (some p) =
      .ok (i.setPart (Children.flagIndex? platformFlag i.parts) (some q.token)
      Children.insertAfterKeyword Children.removeArgument) := by
  obtain ⟨c, p, rfl⟩ := List.exists_cons_of_ne_nil hne
  unfold setPlatform
  simp only [hq]
  rfl

/-- What is read of a stage is the text behind its keyword. -/
theorem StageReading.text (h : StageReading e m fs ss ls ns fin m₁ m₂ t r)
    (hst : start Keyword.FROM.name s = .ok st m) :
    Token.textAll (fs ++ ss ++ .node (.literal true) ls :: (ns ++ fin)) = m := by
  have hi := (stageReading_iff.2 ⟨st, m, fs, ss, ls, ns, fin, m₁, m₂, t, r, hst, h, rfl⟩).1
  have htext := lossless_read _ _ _ _ hi
  have hst' := (arrayReaders_lossless e).start .FROM _ _ _ hst
  refine List.append_cancel_left (Eq.trans ?_ hst'.symm)
  rw [← htext]
  simp [Instruction.text]

section

variable {i i' : Instruction} {p : Text} {q : KeyValue} {us vs ws : List Token} (he : IsEscape e)
  (h : StageReading e m fs ss ls ns fin m₁ m₂ t r) (hst : start Keyword.FROM.name s = .ok st m)
  (hi : i = ⟨.stage, e, st ++ fs ++ ss ++ .node (.literal true) ls :: (ns ++ fin)⟩)
  (hq : KeyValue.createFlag platformFlag (some p) e = .ok q)
  (hi' : i' = i.setPart (Children.flagIndex? platformFlag i.parts) (some q.token)
    Children.insertAfterKeyword Children.removeArgument)
include he h hst hi hq hi'

/-- Where there is no platform, one is put behind the keyword. -/
theorem leads_of_absent (hnone : i.flag? platformFlag = none) (hsep : separator e m = .ok us k) :
    i.behindPlatform = m ∧ ∃ t' us, i'.text = Token.textAll st ++ t' ∧
      FlagLeads e m t' (platformFlag ++ (valueText (some p) ++ i.behindPlatform)) us := by
  have hparts : i.parts = st ++ (fs ++ ss ++ .node (.literal true) ls :: (ns ++ fin)) := by
    simp [hi]
  have hindex : Children.keywordIndex i.parts + 1 = st.length := by
    rw [hparts, keywordIndex_of_start hst]
  obtain ⟨htext, hbehind⟩ := Children.text_set_absent (q := q) Children.insertAfterKeyword
    Children.removeArgument hparts hindex (fun _ => rfl) (flag?_eq_none.1 hnone)
  rw [h.text hst] at htext hbehind
  replace hbehind : i.behindPlatform = m := hbehind
  rw [hbehind]
  refine ⟨rfl, _, _, ?_, .insert he hsep _⟩
  rw [(KeyValue.text_of_createFlag hq).1] at htext
  rw [hi']
  refine htext.trans ?_
  simp

/-- Where there is a platform, another one takes its place. -/
theorem leads_of_first (hfs : fs = vs ++ [KeyValue.token ⟨.symbol ['-', '-'] :: ws⟩])
    (hsep : separator e m = .ok vs ('-' :: '-' :: k))
    (hname : Text.sameLetters (KeyValue.key ⟨.symbol ['-', '-'] :: ws⟩) platformFlag = true) :
    i.behindPlatform = m₁ ∧ ∃ t' us, i'.text = Token.textAll st ++ t' ∧
      FlagLeads e m t' (platformFlag ++ (valueText (some p) ++ i.behindPlatform)) us := by
  have hparts : i.parts = (st ++ vs) ++ KeyValue.token ⟨.symbol ['-', '-'] :: ws⟩ ::
      (ss ++ .node (.literal true) ls :: (ns ++ fin)) := by
    simp [hi, hfs]
  have hbefore : ∀ u ∈ st ++ vs,
      (u.keyValue?.any fun p => p.isFlag && Text.sameLetters p.key platformFlag) = false := by
    intro u hu
    rw [((frame_of_start hst).append (frame_of_separator hsep)).keyValue? u hu]
    rfl
  have hrest : Token.textAll (ss ++ .node (.literal true) ls :: (ns ++ fin)) = m₁ := by
    have hreaders := arrayReaders_lossless e
    have hflag := hreaders.optional (hreaders.argument hreaders.flag) _ _ _ h.flag
    refine List.append_cancel_left (Eq.trans ?_ hflag.symm)
    rw [← h.text hst, List.append_assoc _ ss, Token.textAll_append fs]
  obtain ⟨htext, hbehind⟩ := Children.text_set_first (q := q) Children.insertAfterKeyword
    Children.removeArgument hparts (Children.keywordIndex i.parts + 1) hbefore hname
  rw [hrest] at htext hbehind
  replace hbehind : i.behindPlatform = m₁ := hbehind
  rw [hbehind]
  refine ⟨rfl, _, _, ?_, .replace he hsep _⟩
  rw [(KeyValue.text_of_createFlag hq).1] at htext
  rw [hi']
  refine htext.trans ?_
  simp

/-- Where the flag for the platform is put, and what is behind it: the image, or another flag. -/
theorem exists_leads :
    ∃ t' us, i'.text = Token.textAll st ++ t' ∧
      FlagLeads e m t' (platformFlag ++ (valueText (some p) ++ i.behindPlatform)) us ∧
      ((∀ f ∈ i.flags, Text.sameLetters f.key platformFlag = true) ∧
          separator e i.behindPlatform = .ok ss m₂ ∨
        (¬ ∀ f ∈ i.flags, Text.sameLetters f.key platformFlag = true) ∧ i.behindPlatform = m ∧
          ∃ vs k ws, separator e m = .ok vs ('-' :: '-' :: k) ∧
            KeyValue.named e isFlagChar k = .ok ws m₁) := by
  obtain ⟨-, -, hflags⟩ := h.views hst hi
  rcases KeyValue.oneFlag_eq_ok.1 h.flag with ⟨-, hfs, rfl⟩ | ⟨vs, k, ws, hsep, hws, hfs⟩
  · replace hflags : i.flags = [] := by rw [hflags, hfs, List.filterMap_nil]
    have hnone : i.flag? platformFlag = none := by
      unfold flag?
      rw [hflags]
      rfl
    obtain ⟨hbehind, t', us, ht', hleads⟩ := leads_of_absent he h hst hi hq hi' hnone h.separator
    refine ⟨t', us, ht', hleads, .inl ⟨?_, hbehind ▸ h.separator⟩⟩
    simp [hflags]
  · replace hflags : i.flags = [⟨.symbol ['-', '-'] :: ws⟩] := by
      rw [hflags, hfs, List.filterMap_append, (frame_of_separator hsep).filterMap_keyValue?]
      rfl
    rw [hflags, List.forall_mem_singleton]
    by_cases hname : Text.sameLetters (KeyValue.key ⟨.symbol ['-', '-'] :: ws⟩) platformFlag = true
    · obtain ⟨hbehind, t', us, ht', hleads⟩ := leads_of_first he h hst hi hq hi' hfs hsep hname
      exact ⟨t', us, ht', hleads, .inl ⟨hname, hbehind ▸ h.separator⟩⟩
    · have hnone : i.flag? platformFlag = none := by
        unfold flag?
        rw [hflags]
        simpa using hname
      obtain ⟨hbehind, t', us, ht', hleads⟩ := leads_of_absent he h hst hi hq hi' hnone hsep
      exact ⟨t', us, ht', hleads, .inr ⟨hname, hbehind, vs, k, ws, hsep, hws⟩⟩

end

/-- What the flag for the platform says: the value that was given, with what is read behind it. -/
theorem platform?_of_leads {i : Instruction} {p : Text} {qs : List Literal.Piece} {us : List Token}
    (hflags : i.flags = (us ++ [KeyValue.token ⟨[.symbol ['-', '-'], .identifier platformFlag,
      .symbol ['='], .node (.literal true)
        (Literal.assemble (p.map (fun c => .text [c]) ++ qs))]⟩]).filterMap Token.keyValue?)
    (hus : Frame us) : i.platform? = some (p ++ Literal.valueOfPieces qs) := by
  unfold platform? platformFlag? flag?
  rw [hflags, List.filterMap_append, hus.filterMap_keyValue?]
  exact KeyValue.value?_created p qs

/-- The flag for a platform is read with a value that goes on with what is behind. -/
theorem named_platform_iff {p u x : Text} {vs ws : List Token} (he : IsEscape e)
    (hsep : separator e u = .ok vs k) (hp : ∀ c ∈ p, isPlainChar c = true) :
    KeyValue.named e isFlagChar (platformFlag ++ (valueText (some p) ++ u)) = .ok ws x ↔
      ∃ qs, Literal.Scans e .value none u qs x ∧
        ws = [.identifier platformFlag, .symbol ['='], .node (.literal true)
          (Literal.assemble (p.map (fun c => .text [c]) ++ qs))] := by
  obtain ⟨c, w, rfl, hc⟩ := exists_cons_of_separator hsep
  rw [KeyValue.named_created_iff he (by decide) (List.all_eq_true.1 (by decide)) (by simpa using hp)
    (.gap hc)]
  simp

section

variable {i : Instruction} {p u : Text} {us : List Token} (he : IsEscape e)
  (hreading : StageReading e m fs ss ls ns fin m₁ m₂ t r)
  (hst' : start Keyword.FROM.name s = .ok st t')
  (hleads : FlagLeads e m t' (platformFlag ++ (valueText (some p) ++ u)) us)
  (hp : ∀ c ∈ p, isPlainChar c = true)
include he hreading hst' hleads hp

/-- Before an image that is set apart, the platform is read as it was given. -/
theorem exists_read_of_leads (hsep : separator e u = .ok ss m₂) (hapart : setsApart e u = true) :
    ∃ j, (read e s = .ok j [] ∧ j.form = .stage) ∧ j.platform? = some p ∧
      j.image? = some ⟨true, ls⟩ ∧
      j.stageName? = Children.firstLeaf? .identifier ns := by
  obtain ⟨m₁', ss', ⟨qs, hqs, hsilent⟩, hsep'⟩ :=
    Literal.exists_silent he (separator_eq_ok.1 hsep).1 hapart
  have hnamed := (named_platform_iff he hsep hp).2 ⟨qs, hqs, rfl⟩
  have hflag := KeyValue.oneFlag_eq_ok.2 (.inr ⟨us, _, _, hleads.separator, hnamed, rfl⟩)
  have h' : StageReading e t' _ ss' ls ns fin m₁' m₂ t r :=
    ⟨hflag, hsep', hreading.image, hreading.naming, hreading.finish⟩
  obtain ⟨himage, hname, hflags⟩ := h'.views hst' rfl
  refine ⟨_, stageReading_iff.2 ⟨_, _, _, _, _, _, _, _, _, _, _, hst', h', rfl⟩, ?_, himage, hname⟩
  rw [platform?_of_leads hflags (frame_of_separator hleads.separator), hsilent, List.append_nil]

/-- If the platform and the image are read as they were given, the image is behind the place of the
platform, and set apart from it. -/
theorem apart_of_read {j : Instruction} (hj : read e s = .ok j [] ∧ j.form = .stage)
    (hplatform : j.platform? = some p) (himage : j.imageName = Literal.valueOf ls)
    (hbehind : separator e u = .ok ss m₂ ∨ ∃ vs k ws, separator e u = .ok vs ('-' :: '-' :: k) ∧
      KeyValue.named e isFlagChar k = .ok ws m₁) :
    separator e u = .ok ss m₂ ∧ setsApart e u = true := by
  obtain ⟨vs, k, hsep⟩ : ∃ vs k, separator e u = .ok vs k := by
    rcases hbehind with hsep | ⟨vs, k, -, hsep, -⟩ <;> exact ⟨_, _, hsep⟩
  obtain ⟨st', m', fs', ss', ls', ns', fin', m₁', m₂', t'', r', hst'', h', hj⟩ :=
    stageReading_iff.1 hj
  cases hst'.symm.trans hst''
  obtain ⟨himage', -, hflags'⟩ := h'.views hst'' hj
  have heq : Literal.valueOf ls' = Literal.valueOf ls := by
    unfold imageName at himage
    rwa [himage'] at himage
  -- the flag is the one that was given, with a value that goes on at the text behind it
  obtain ⟨qs, hqs, rfl⟩ : ∃ qs, Literal.Scans e .value none u qs m₁' ∧
      fs' = us ++ [KeyValue.token ⟨[.symbol ['-', '-'], .identifier platformFlag, .symbol ['='],
        .node (.literal true) (Literal.assemble (p.map (fun c => .text [c]) ++ qs))]⟩] := by
    rcases KeyValue.oneFlag_eq_ok.1 h'.flag with ⟨hstuck, -⟩ | ⟨us', k', ws, hsep', hws, hfs'⟩
    · rw [argument_stuck_iff hleads.separator, KeyValue.flag_stuck_iff] at hstuck
      exact absurd ⟨'p', _, rfl, rfl⟩ hstuck
    · cases hleads.separator.symm.trans hsep'
      obtain ⟨qs, hqs, rfl⟩ := (named_platform_iff he hsep hp).1 hws
      exact ⟨qs, hqs, hfs'⟩
  have hsilent : Literal.valueOfPieces qs = [] := by
    rw [platform?_of_leads hflags' (frame_of_separator hleads.separator)] at hplatform
    simpa using hplatform
  cases hapart : setsApart e u with
  | true =>
    refine ⟨?_, rfl⟩
    rcases hbehind with hsep | ⟨vs', k', ws, hsep', hws⟩
    · exact hsep
    · obtain ⟨x, ss'', ⟨ps, hps, -⟩, hsep''⟩ :=
        Literal.exists_silent he (separator_eq_ok.1 hsep').1 hapart
      obtain ⟨-, rfl⟩ := hps.unique hqs
      cases hsep''.symm.trans h'.separator
      exact absurd heq (valueOf_ne_of_flag he hws hreading.separator hreading.image h'.image
        h'.naming
        h'.finish)
  | false =>
    exfalso
    obtain ⟨qs', hqs', hvalue⟩ := Literal.scans_behind hqs he (separator_eq_ok.1 hsep).1 hapart
    rw [hsilent] at hvalue
    rcases hbehind with hsep' | ⟨vs', k', ws, hsep', -⟩
    · cases hsep.symm.trans hsep'
      exact valueOf_ne_of_absorbed he hreading.image hreading.naming hreading.finish hqs'
        hvalue.symm
        h'.separator h'.image heq
    · cases hsep.symm.trans hsep'
      obtain ⟨ps, rfl, -⟩ := (Literal.scans_iff_of_take (Literal.step_stageChar he rfl)).1 hqs'
      cases hvalue

end

/-- **When a platform reads back.**  A stage that is given a platform is read with that platform,
and with its image and its name as before, exactly if it has no other flag, and the text behind
the place of the platform begins with a blank, once line continuations are passed.  Otherwise the
other flag is read as the image, or the image as a part of the platform. -/
theorem parse_setPlatform_iff {i : Instruction} {p : Text} (he : IsEscape e)
    (h : parseAs .stage s e = .ok i) (hne : p ≠ []) (hp : ∀ c ∈ p, isPlainChar c = true) :
    ∃ i', i.setPlatform (some p) = .ok i' ∧
      ((∃ j, parseAs .stage i'.text e = .ok j ∧ j.platform? = some p ∧ j.imageName = i.imageName ∧
          j.stageName? = i.stageName?) ↔
        (∀ f ∈ i.flags, Text.sameLetters f.key platformFlag = true) ∧
          setsApart e i.behindPlatform = true) := by
  have hparse {s : Text} {i : Instruction} :
      parseAs .stage s e = .ok i ↔ read e s = .ok i [] ∧ i.form = .stage :=
    Outcome.complete_eq_ok.trans readAs_eq_ok
  obtain ⟨st, m, fs, ss, ls, ns, fin, m₁, m₂, t, r, hst, hreading, hi⟩ :=
    stageReading_iff.1 (hparse.1 h)
  obtain ⟨himage, hname, -⟩ := hreading.views hst hi
  have hvalue : i.imageName = Literal.valueOf ls := by
    unfold imageName
    rw [himage]
    rfl
  obtain ⟨q, hq⟩ := KeyValue.exists_createFlag (n := platformFlag) he (by decide) hp
  have hescape : i.escape = e := by rw [hi]
  obtain ⟨t', us, ht', hleads, hbehind⟩ := exists_leads he hreading hst hi hq rfl
  refine ⟨_, setPlatform_eq hne (hescape ▸ hq), ?_⟩
  rw [ht']
  have hst' : start Keyword.FROM.name (Token.textAll st ++ t') = .ok st t' := by
    have hs := (arrayReaders_lossless e).start .FROM _ _ _ hst
    exact start_swap (z := []) he (hleads.swaps _) (hs ▸ hst)
  constructor
  · rintro ⟨j, hj, hplatform, hjimage, -⟩
    rw [hvalue] at hjimage
    rcases hbehind with ⟨hall, hsep⟩ | ⟨-, hm, vs, k, ws, hsep, hws⟩
    · exact ⟨hall,
        (apart_of_read he hreading hst' hleads hp (hparse.1 hj) hplatform hjimage (.inl hsep)).2⟩
    · rw [← hm] at hsep
      obtain ⟨hsep', -⟩ := apart_of_read he hreading hst' hleads hp (hparse.1 hj) hplatform hjimage
        (.inr ⟨vs, k, ws, hsep, hws⟩)
      cases hsep.symm.trans hsep'
      have hle := shrinks_separator e _ _ _ hreading.separator
      have hlt := KeyValue.advances_named _ _ _ _ _ hws
      simp only [List.length_cons] at hle
      omega
  · rintro ⟨hall, hapart⟩
    obtain ⟨-, hsep⟩ := hbehind.resolve_right fun hother => hother.1 hall
    obtain ⟨j, hj, hplatform, hjimage, hjname⟩ :=
      exists_read_of_leads he hreading hst' hleads hp hsep hapart
    refine ⟨j, hparse.2 hj, hplatform, ?_, hjname.trans hname.symm⟩
    unfold imageName
    rw [himage, hjimage]

/-- A platform that stands before a line continuation is replaced. -/
theorem parse_setPlatform_iff_continued :
    ∃ i i', parseAs .stage "FROM --platform=a \\\n img AS b".toList '\\' = .ok i ∧
      i.setPlatform (some "linux/arm64".toList) = .ok i' ∧
      ∃ j, parseAs .stage i'.text '\\' = .ok j ∧ j.platform? = some "linux/arm64".toList ∧
        j.imageName = i.imageName ∧ j.stageName? = i.stageName? := by
  obtain ⟨i, hi, hflags, hapart⟩ :
      ∃ i ∈ (parseAs .stage "FROM --platform=a \\\n img AS b".toList '\\').toOption,
        (∀ f ∈ i.flags, Text.sameLetters f.key platformFlag = true) ∧
          setsApart '\\' i.behindPlatform = true := by
    decide +kernel
  rw [mem_toOption] at hi
  obtain ⟨i', hi', hiff⟩ :=
    parse_setPlatform_iff (p := "linux/arm64".toList) (.inl rfl) hi (by decide)
    (List.all_eq_true.1 (by decide))
  exact ⟨i, i', hi, hi', hiff.2 ⟨hflags, hapart⟩⟩

/-- The stage is given a platform, and is not read back with it. -/
def MisreadsPlatform (p s : Text) : Prop :=
  ∃ i i', parseAs .stage s '\\' = .ok i ∧ i.setPlatform (some p) = .ok i' ∧
    ¬ ∃ j, parseAs .stage i'.text '\\' = .ok j ∧ j.platform? = some p ∧ j.imageName = i.imageName ∧
      j.stageName? = i.stageName?

theorem misreadsPlatform_of_parse {p s : Text}
    (h : ∃ i ∈ (parseAs .stage s '\\').toOption, ∃ i' ∈ (i.setPlatform (some p)).toOption,
      ¬ ∃ j ∈ (parseAs .stage i'.text '\\').toOption, j.platform? = some p ∧
        j.imageName = i.imageName ∧ j.stageName? = i.stageName?) : MisreadsPlatform p s := by
  obtain ⟨i, hi, i', hi', hnot⟩ := h
  rw [mem_toOption] at hi hi'
  refine ⟨i, i', hi, hi', fun ⟨j, hj, hread⟩ => hnot ⟨j, mem_toOption.2 hj, hread⟩⟩

/-- Another flag becomes the image, and an image on the next line becomes a part of the platform. -/
theorem misreads_setPlatform :
    MisreadsPlatform "linux".toList "FROM --foo=bar img".toList ∧
      MisreadsPlatform "linux".toList "FROM\\\nimg\n".toList ∧
      MisreadsPlatform "linux".toList "FROM --platform\\\nimg".toList := by
  refine ⟨misreadsPlatform_of_parse ?_, misreadsPlatform_of_parse ?_,
    misreadsPlatform_of_parse ?_⟩ <;>
    decide +kernel

end Instruction

end Containerfile
