import Containerfile.Proofs.ContinuedValues
import Containerfile.Proofs.CreatedStages
import Containerfile.Proofs.StageEdits

/-!
# Naming stages

A name for a stage is put behind its image, or in the place of the name that the stage has.  In
both cases the text that comes of it is read token by token as the edit left it: up to the place
of the name nothing depends on what is behind, and behind the name there is the line end of the
instruction, as before.

## Main results

* `Instruction.stageReading_added`, `Instruction.stageReading_renamed` — the tokens of a stage
  with a new name are those that are read from their text.
* `Document.parse_of_setStageName` — in a document, a stage that is given a name is read back.
-/

namespace Containerfile

open Grammar Lexeme

variable {e : Char} {a s r m m₁ m₂ t n : Text} {st fs ss ls ns cs fin : List Token}

/-! ## Another text behind the image -/

namespace Lexeme

/-- A word can come to stand before the blanks and the line end that end an instruction. -/
theorem Swaps.of_newline {c : Char} (hwalk : Walk e false (a ++ r) r)
    (hn : newline (r.dropWhile isBlank) = .ok ns m) (hc : isSolid c = true) (k : Text) :
    Swaps e a r (' ' :: c :: k) where
  gap := by
    cases r with
    | nil => rcases newline_eq_ok.1 hn with ⟨hr, -⟩ | ⟨hr, -⟩ <;> cases hr
    | cons d r =>
      by_cases hd : isBlank d = true
      · exact .inl ⟨d, r, rfl, .inl hd⟩
      · rw [List.dropWhile_cons_of_neg hd] at hn
        exact .inr ⟨List.cons_ne_nil d r, atLineEnd_of_newline hn⟩
  edge := .gap (.inl rfl)
  line _ _ _ := filler_stuck_of_dropWhile (n := k) hc <| by
    rw [List.dropWhile_cons_of_pos rfl, List.dropWhile_cons_of_neg (by simp [(isSolid_iff.1 hc).1])]
  feed := by
    intro hlast hhead
    obtain ⟨x, rfl⟩ := List.getLast?_eq_some_iff.1 hlast
    obtain ⟨w, rfl⟩ := List.head?_eq_some_iff.1 hhead
    rw [List.append_assoc] at hwalk
    exact hwalk.not_between
  feed' _ := by simp

end Lexeme

namespace Instruction

/-! ## What is read of a named stage -/

/-- A stage without a name is read with the name that is put behind its image. -/
theorem stageReading_added (h : StageReading e m fs ss ls [] fin m₁ m₂ t t) (he : IsEscape e)
    (hst : start Keyword.FROM.name s = .ok st m) (hended : Token.lineStateAll fin .within = .ended)
    (hne : n ≠ []) (hall : ∀ c ∈ n, isStageChar c = true) :
    ∃ m' m₁' m₂' t',
      start Keyword.FROM.name (Token.textAll (st ++ fs ++ ss ++ .node (.literal true) ls ::
        ([.blank [' '], .leaf .keyword "AS".toList, .blank [' '], .identifier n] ++ fin))) =
          .ok st m' ∧
      StageReading e m' fs ss ls
        [.blank [' '], .leaf .keyword "AS".toList, .blank [' '], .identifier n] fin
        m₁' m₂' t' t := by
  have htext := text_of_image hst h.flag h.separator h.image
  have hwalk : Walk e false s t :=
    Images.walk_value ⟨⟨st, m, fs, m₁, ss, hst, h.flag, h.separator⟩, h.image⟩ he
  have ht := text_of_finish h.finish
  obtain ⟨-, ns, -, hn⟩ := newline_of_finish h.finish hended
  obtain ⟨c, w, rfl⟩ := List.exists_cons_of_ne_nil hne
  rw [← htext] at hst hwalk
  have hswaps := Swaps.of_newline hwalk hn (c := 'A') rfl ('S' :: ' ' :: (c :: w ++ t))
  obtain ⟨m', m₁', m₂', hst', hfs', hss', hls'⟩ :=
    image_swap (z := []) he hswaps hst h.flag h.separator
    h.image fun _ => Literal.step_blank he rfl rfl
  have hend : t.head?.any isStageChar = false :=
    ((Declarations.nil t).edge he hn).1.head?_any he rfl
  have hnaming : naming e (' ' :: 'A' :: 'S' :: ' ' :: (c :: w ++ t)) = .ok _ t :=
    naming_shape.2 ⟨_, ['A', 'S'], _, _, c :: w, separator_of_word he rfl _, rfl, rfl,
      separator_of_word he (hall c List.mem_cons_self) _, hne, hall, hend, rfl⟩
  refine ⟨m', m₁', m₂', _, ?_, hfs', hss', hls', optional_eq_ok.2 (.inl hnaming), h.finish⟩
  simpa [Token.textAll, Token.text, Token.blank, Token.identifier, ht] using hst'

/-- A stage with a name is read with the name that takes its place. -/
theorem stageReading_renamed {old : Text}
    (h : StageReading e m fs ss ls (cs ++ [.identifier old]) fin m₁ m₂ t r) (he : IsEscape e)
    (hst : start Keyword.FROM.name s = .ok st m) (hne : n ≠ [])
    (hall : ∀ c ∈ n, isStageChar c = true) :
    ∃ m' m₁' m₂' t',
      start Keyword.FROM.name (Token.textAll (st ++ fs ++ ss ++ .node (.literal true) ls ::
        (cs ++ [.identifier n] ++ fin))) = .ok st m' ∧
      StageReading e m' fs ss ls (cs ++ [.identifier n]) fin m₁' m₂' t' r := by
  have hns : naming e t = .ok (cs ++ [.identifier old]) r :=
    (optional_eq_ok.1 h.naming).resolve_right (by simp)
  obtain ⟨us, word, k, us', name, hus, hword, hhead, hus', hne₀, hall₀, hend, heq⟩ :=
    naming_shape.1 hns
  obtain ⟨rfl, heq⟩ := List.append_inj' heq rfl
  obtain rfl : old = name := by simpa [Token.identifier] using heq
  obtain ⟨x, y, rfl, -, hy⟩ := exists_of_as hword
  have htext := text_of_image hst h.flag h.separator h.image
  have hreaders := arrayReaders_lossless e
  have hr := text_of_finish h.finish
  obtain ⟨c, w, rfl⟩ := List.exists_cons_of_ne_nil hne
  obtain ⟨c₀, w₀, rfl⟩ := List.exists_cons_of_ne_nil hne₀
  have hc := hall c List.mem_cons_self
  -- the name is put behind separators that were before the other name
  obtain rfl := hreaders.separator _ _ _ hus'
  have hus'' : separator e (Token.textAll us' ++ c :: (w ++ r)) = .ok us' (c :: (w ++ r)) :=
    separator_solid he (isSolid_of_isStageChar (hall₀ c₀ List.mem_cons_self))
      (isSolid_of_isStageChar hc)
      (he.ne_of_isStageChar hc) hus'
  obtain rfl := hreaders.separator _ _ _ hus
  have hswaps : Swaps e (Token.textAll (st ++ fs ++ ss ++ [.node (.literal true) ls]) ++
      (Token.textAll us ++ [x, y])) (Token.textAll us' ++ (c₀ :: w₀ ++ r))
      (Token.textAll us' ++ c :: (w ++ r)) := by
    obtain ⟨b, k, hk, hb⟩ := exists_cons_of_separator hus''
    exact .of_word he (c := y) (by simp) (isSolid_of_isStageChar (isStageChar_of_isNameChar hy))
      (exists_cons_of_separator hus') (hk ▸ .gap hb)
  rw [← htext] at hst
  obtain ⟨m', m₁', m₂', hst', hfs', hss', hls'⟩ :=
    image_swap (z := Token.textAll us ++ [x, y]) he hswaps
    (by simpa using hst) h.flag h.separator (by simpa using h.image) (by simp)
  have hnaming : naming e (Token.textAll us ++ [x, y] ++ (Token.textAll us' ++ c :: (w ++ r))) =
      .ok _ r :=
    naming_shape.2 ⟨us, [x, y], _, us', c :: w,
      hswaps.of_append.separator he (List.cons_ne_nil x [y]) (by simp) (by simpa using hus), hword,
      hswaps.edge.head?_any he rfl, hus'', hne, hall, hend, rfl⟩
  refine ⟨m', m₁', m₂', _, ?_, hfs', hss', hls', optional_eq_ok.2 (.inl hnaming), h.finish⟩
  simpa [Token.textAll, Token.text, Token.blank, Token.identifier, hr] using hst'

/-! ## The edited instruction -/

variable {i : Instruction}

/-- Another name takes the place of the first name, or is put behind the image. -/
theorem setStageName_eq (hne : n ≠ []) (hall : ∀ c ∈ n, isStageChar c = true) :
    i.setStageName (some n) = .ok (i.withParts (Children.set
      (i.parts.findIdx? (Token.isLeaf .identifier)) (some (.identifier n)) appendStageName
      removeStageName i.parts)) := by
  have hname : isStageName n = true := by simpa [isStageName] using ⟨hne, hall⟩
  unfold setStageName
  rw [Option.filter_some_neg (by simp [hname])]
  rfl

/-- What a stage is read as is read of it with another name, but for the tokens before that name. -/
theorem stageReading_set (h : StageReading e m fs ss ls ns fin m₁ m₂ t r) (he : IsEscape e)
    (hst : start Keyword.FROM.name s = .ok st m)
    (hi : i = ⟨.stage, e, st ++ fs ++ ss ++ .node (.literal true) ls :: (ns ++ fin)⟩)
    (hend : i.endsLine = true) (hne : n ≠ []) (hall : ∀ c ∈ n, isStageChar c = true) :
    ∃ cs, Frame cs ∧ Token.comments (cs ++ [.identifier n]) = Token.comments ns ∧
      i.setStageName (some n) = .ok ⟨.stage, e, st ++ fs ++ ss ++ .node (.literal true) ls ::
        (cs ++ [.identifier n] ++ fin)⟩ ∧
      ∃ m' m₁' m₂' t', start Keyword.FROM.name (Token.textAll (st ++ fs ++ ss ++
          .node (.literal true) ls :: (cs ++ [.identifier n] ++ fin))) = .ok st m' ∧
        StageReading e m' fs ss ls (cs ++ [.identifier n]) fin m₁' m₂' t' r := by
  have hbefore := isLiteral_of_mem hst h.flag h.separator
  have hframe := frame_of_finish h.finish
  subst hi
  rcases optional_eq_ok.1 h.naming with hns | ⟨-, rfl, rfl⟩
  · obtain ⟨cs, old, rfl, hcs⟩ := naming_eq_ok hns
    refine ⟨cs, hcs, ?_, ?_, stageReading_renamed h he hst hne hall⟩
    · simp only [Token.comments_append]
      rfl
    · have hsplit (name : Text) : st ++ fs ++ ss ++ .node (.literal true) ls ::
          (cs ++ [.identifier name] ++ fin) =
            st ++ fs ++ ss ++ .node (.literal true) ls :: cs ++ .identifier name :: fin := by simp
      rw [setStageName_eq hne hall, hsplit, hsplit, Children.set_first _ _ ?_ rfl]
      · rfl
      · exact List.forall_mem_append.2 ⟨fun t ht => (hbefore t ht).2,
          List.forall_mem_cons.2 ⟨rfl, hcs.isLeaf⟩⟩
  · have hended : Token.lineStateAll fin .within = .ended := by
      have hts := stageContent_eq_ok.2
        ⟨st, m, fs, m₁, ss, m₂, ls, r, [], hst, h.flag, h.separator, h.image, h.naming, rfl⟩
      exact (endsLine_append_iff (settled_stageContent e) hts .stage).1 (by simpa using hend)
    refine ⟨_, StageShape.frame_as, rfl, ?_, stageReading_added h he hst hended hne hall⟩
    rw [setStageName_eq hne hall, Children.set_absent _ _ ?_, Option.elim_some, List.nil_append,
      StageShape.appendStageName_eq rfl (isTrivia_of_finish h.finish)]
    · simp [withParts]
    · exact List.forall_mem_append.2 ⟨fun t ht => (hbefore t ht).2,
        List.forall_mem_cons.2 ⟨rfl, hframe.isLeaf⟩⟩

/-- **A stage that is given a name is read back**, with its image, its flags and its comments. -/
theorem exists_setStageName (he : IsEscape e) (hi : read e s = .ok i []) (hform : i.form = .stage)
    (hend : i.endsLine = true) (hne : n ≠ []) (hall : ∀ c ∈ n, isStageChar c = true) :
    ∃ i', i.setStageName (some n) = .ok i' ∧ i'.escape = e ∧ read e i'.text = .ok i' [] ∧
      i'.stageName? = some n ∧ i'.image? = i.image? ∧ i'.flags = i.flags ∧
      Token.comments i'.parts = Token.comments i.parts := by
  obtain ⟨st, m, fs, ss, ls, ns, fin, m₁, m₂, t, r, hst, h, hparts⟩ :=
    stageReading_iff.1 ⟨hi, hform⟩
  obtain ⟨himage, -, hflags⟩ := h.views hst hparts
  obtain ⟨cs, hcs, hcomments, hset, m', m₁', m₂', t', hst', h'⟩ :=
    stageReading_set h he hst hparts hend hne hall
  obtain ⟨himage', hname, hflags'⟩ := h'.views hst' rfl
  refine ⟨_, hset, rfl, ?_, ?_, himage'.trans himage.symm, hflags'.trans hflags.symm, ?_⟩
  · exact (stageReading_iff.2 ⟨st, m', fs, ss, ls, _, fin, m₁', m₂', t', r, hst', h', rfl⟩).1
  · rw [hname]
    unfold Children.firstLeaf?
    rw [List.findSome?_append]
    have hnone := Children.firstLeaf?_eq_none hcs.isLeaf
    unfold Children.firstLeaf? at hnone
    rw [hnone]
    rfl
  · rw [hparts]
    have hsplit (us : List Token) : Token.comments (st ++ fs ++ ss ++ .node (.literal true) ls ::
        (us ++ fin)) =
          Token.comments (st ++ fs ++ ss) ++ (Token.comments [.node (.literal true) ls] ++
          (Token.comments us ++ Token.comments fin)) := by
      rw [Token.comments_append _ (_ :: _), Token.comments_cons, Token.comments_append us]
    rw [hsplit, hsplit, hcomments]

end Instruction

/-! ## Documents -/

/-- **Naming a stage reads back.**  In a document, an instruction that opens a stage and is not
the last item is read from its own text after it was given a name, whether it had one or not: it
is the edited instruction, token by token, with that name and with the image, the platform and the
comments that it had. -/
theorem Document.parse_of_setStageName {s n : Text} {d : Document} {before after : List Item}
    {i : Instruction} (hd : parse s = .ok d) (hitems : d.items = before ++ .instruction i :: after)
    (hafter : after ≠ []) (hform : i.form = .stage) (hne : n ≠ [])
    (hall : ∀ c ∈ n, isStageChar c = true) :
    ∃ i', i.setStageName (some n) = .ok i' ∧ Instruction.parse i'.text i'.escape = .ok i' ∧
      i'.stageName? = some n ∧ i'.imageName = i.imageName ∧ i'.platformFlag? = i.platformFlag? ∧
      Token.comments i'.parts = Token.comments i.parts := by
  obtain ⟨he, hread, hend⟩ := read_of_parse hd hitems
  obtain ⟨i', hset, hescape, hread', hname, himage, hflags, hcomments⟩ :=
    Instruction.exists_setStageName he hread hform (hend hafter) hne hall
  refine ⟨i', hset, Instruction.parse_eq_ok.2 (hescape ▸ hread'), hname, ?_, ?_, hcomments⟩
  · unfold Instruction.imageName
    rw [himage]
  · unfold Instruction.platformFlag? Instruction.flag?
    rw [hflags]

/-- A stage with a comment before its name is named anew. -/
theorem Document.parse_of_setStageName_commented :
    ∃ d i i', parse "FROM --platform=x a\\\n# c\n AS b \nRUN x\n".toList = .ok d ∧
      d.items[0]? = some (.instruction i) ∧ i.setStageName (some "new-name".toList) = .ok i' ∧
      Instruction.parse i'.text i'.escape = .ok i' ∧ i'.stageName? = some "new-name".toList ∧
      Token.comments i'.parts = Token.comments i.parts ∧ Token.comments i.parts ≠ [] := by
  obtain ⟨d, hd, i, hi, hafter, hform, hcomments⟩ :
      ∃ d ∈ (parse "FROM --platform=x a\\\n# c\n AS b \nRUN x\n".toList).toOption,
        ∃ i ∈ d.items[0]?.bind Item.instruction?, d.items.tail ≠ [] ∧ i.form = .stage ∧
          Token.comments i.parts ≠ [] := by
    decide +kernel
  rw [mem_toOption] at hd
  rw [mem_instruction?] at hi
  obtain ⟨i', hset, hparse, hname, -, -, hcomments'⟩ :=
    parse_of_setStageName (n := "new-name".toList) hd (eq_cons_of_first hi) hafter hform (by decide)
      (List.all_eq_true.1 (by decide))
  exact ⟨d, i, i', hd, hi, hset, hparse, hname, hcomments', hcomments⟩

end Containerfile
