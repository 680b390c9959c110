import Containerfile.Proofs.Directives

/-!
# Where readers stop

A reader names the place where it stopped by the text that remains there, and the offset of that
place is what is missing from the whole.  This is sound only if the text that remains is the end
of the whole, and it is: not only what a success leaves, but also the place where a reader was
stuck or at which it found a fault, however far ahead it had looked.

## Main definitions

* `Outcome.rest` — the text from where the reader stopped.
* `Locates` — this text is the end of the one that was given.

## Main results

* `arrayReaders_locates`, `Instruction.locates_read`, `Document.locates_read` — it holds of every
  reader.
* `Position.ofOffset_offsetOf` — the place of a fault is found again from its offset.
-/

namespace Containerfile

/-! ## Offsets -/

namespace Text

theorem byteSize_append (s t : Text) : byteSize (s ++ t) = byteSize s + byteSize t := by
  induction s with
  | nil => simp [byteSize]
  | cons c s ih => simp only [List.cons_append, byteSize, ih, Nat.add_assoc]

theorem offsetOf_append (p r : Text) : offsetOf (p ++ r) r = byteSize p := by
  rw [offsetOf, byteSize_append]
  omega

theorem takeBytes?_byteSize (p r : Text) : takeBytes? (byteSize p) (p ++ r) = some p := by
  induction p with
  | nil => simp [byteSize, takeBytes?]
  | cons c p ih =>
    have hne : c.utf8Size + byteSize p ≠ 0 := by
      have := c.utf8Size_pos
      omega
    rw [byteSize, List.cons_append, takeBytes?.eq_3 _ _ _ hne, if_pos (Nat.le_add_right _ _),
      Nat.add_sub_cancel_left, ih]
    rfl

end Text

/-- The place of a text that remains is found again from its offset. -/
theorem Position.ofOffset_offsetOf (p r : Text) :
    ofOffset (p ++ r) ((p ++ r).offsetOf r) = behind p := by
  rw [ofOffset, Text.offsetOf_append, Text.takeBytes?_byteSize, Option.getD_some]

/-! ## Readers -/

/-- The text from where the reader stopped. -/
def Outcome.rest {α : Type} : Outcome α → Text
  | ok _ r => r
  | stuck r => r
  | failed e => e.rest

@[simp] theorem Outcome.rest_ok {α : Type} (a : α) (r : Text) : (ok a r).rest = r :=
  rfl

@[simp] theorem Outcome.rest_stuck {α : Type} (r : Text) : (stuck r : Outcome α).rest = r :=
  rfl

@[simp] theorem Outcome.rest_failed {α : Type} (e : Fault) : (failed e : Outcome α).rest = e.rest :=
  rfl

@[simp] theorem Outcome.rest_map {α β : Type} (f : α → β) (o : Outcome α) :
    (o.map f).rest = o.rest := by
  cases o <;> rfl

/-- Wherever the reader stops, what remains is the end of the text. -/
def Locates {α : Type} (f : Text → Outcome α) : Prop :=
  ∀ s, (f s).rest <:+ s

namespace Grammar

variable {g h : Grammar}

theorem locates_seq (hg : Locates g) (hh : Locates h) : Locates (g ++ h) := by
  intro s
  have hs := hg s
  change (seq g h s).rest <:+ s
  unfold seq
  cases hgs : g s with
  | ok ts r =>
    rw [hgs] at hs
    have hr : (h r).rest <:+ s := (hh r).trans hs
    cases hhr : h r <;> simpa [hhr] using hr
  | stuck r => rwa [hgs] at hs
  | failed e => rwa [hgs] at hs

theorem locates_many (hg : Locates g) : Locates (many g) := by
  intro s
  fun_induction Grammar.many g s with
  | case1 s ts r hs _ us r' hm ih | case2 s ts r hs _ r' hm ih | case3 s ts r hs _ e hm ih =>
    rw [hm] at ih
    have hr := hg s
    rw [hs] at hr
    exact ih.trans hr
  | case4 s ts r hs => simpa [hs] using hg s
  | case5 s r hs => exact List.suffix_refl s
  | case6 s e hs => simpa [hs] using hg s

/-- A combinator that goes back to where it began, or stays where its part stopped. -/
theorem sequential_locates : Sequential Locates where
  seq := locates_seq
  many := locates_many
  optional {g} hg s := by
    have := hg s
    unfold optional
    cases hs : g s <;> simp_all
  either {g h} hg hh s := by
    have := hg s
    unfold either
    cases hs : g s with
    | stuck => exact hh s
    | _ => simp_all
  attempt {g} hg s := by
    have := hg s
    unfold attempt
    cases hs : g s <;> simp_all
  tentative {g} hg s := by
    have := hg s
    unfold tentative
    cases hs : g s <;> simp_all
  nonempty {g} hg s := by
    have := hg s
    unfold nonempty
    cases hs : g s with
    | ok ts r => cases ts <;> simp_all
    | _ => simp_all
  commit {g} what hg s := by
    have := hg s
    unfold commit
    cases hs : g s <;> simp_all

theorem locates_node (kind : NodeKind) (hg : Locates g) : Locates (node kind g) := by
  intro s
  simpa [node] using hg s

theorem locates_run (kind : LeafKind) (p : Char → Bool) : Locates (run kind p) := by
  intro s
  unfold run
  split
  · exact List.suffix_refl s
  · exact List.dropWhile_suffix p

theorem locates_exactly (kind : LeafKind) (start : Text) : Locates (exactly kind start) := by
  intro s
  unfold exactly
  split
  · rename_i h
    exact ⟨start, (after?_eq_some.1 h).symm⟩
  · exact List.suffix_refl s

theorem locates_when (p : Text → Bool) : Locates (when p) := by
  intro s
  unfold when
  split <;> exact List.suffix_refl s

theorem locates_keyword (name : Text) : Locates (Lexeme.keyword name) := by
  intro s
  unfold Lexeme.keyword
  dsimp only
  split
  · exact List.drop_suffix _ s
  · exact List.suffix_refl s

end Grammar

namespace Lexeme

open Grammar

theorem locates_newline : Locates newline :=
  sequential_locates.either (locates_exactly _ _) (locates_exactly _ _)

theorem lineReaders_locates : LineReaders Locates where
  toSequential := sequential_locates
  blanks := locates_run _ _
  newline := locates_newline
  commentMark := locates_exactly _ _
  commentText := locates_run _ _
  directiveName := locates_run _ _
  equals := locates_exactly _ _
  endAhead := locates_when _

end Lexeme

/-! ## Literals -/

namespace Literal

variable {style : Style} {escape : Char} {quote : Option Quote} {s t : Text}

/-- The text from where the scan stopped. -/
def Scanned.rest : Scanned → Text
  | .ok (_, r) => r
  | .error e => e.rest

theorem Scanned.rest_prepend (ps : List Piece) (scanned : Scanned) :
    (scanned.prepend ps).rest = scanned.rest := by
  unfold prepend
  split <;> rfl

theorem rest_ofScanned (style : Style) {ps : List Piece} {m : Text} :
    (ofScanned style (.ok (ps, m))).rest = (cut style ps).2 ++ m := by
  rw [ofScanned_ok]
  split <;> rfl

/-- What a step leaves is an end of `t`, and an open quote stands in `t`. -/
def Step.Stops (t : Text) : Step → Prop
  | .take _ q r => r <:+ t ∧ ∀ q' ∈ q, q'.rest <:+ t
  | .last _ r => r <:+ t
  | .reference _ _ r => r <:+ t
  | .stop => True
  | .malformed _ => True

theorem stops_step (style : Style) (escape : Char) (hs : s <:+ t)
    (hquote : ∀ q ∈ quote, q.rest <:+ t) :
    (step style escape quote s).Stops t := by
  have hpossible := possible_step style escape quote s
  have haccounts := hpossible.accounts
  generalize step style escape quote s = st at hpossible haccounts
  cases hpossible with
  | stop | malformed => trivial
  | continuation | pair | lone | char | blank | reference =>
    exact ⟨.trans ⟨_, haccounts⟩ hs, hquote⟩
  | closingQuote => exact ⟨.trans ⟨_, haccounts⟩ hs, by simp⟩
  | openingQuote => exact ⟨.trans ⟨_, haccounts⟩ hs, by simpa using hs⟩
  | lastQuote | modified => exact .trans ⟨_, haccounts⟩ hs

/-- A scan, without the tests that the text has become shorter: it always has. -/
theorem scan_eq (style : Style) (escape : Char) (quote : Option Quote) (s : Text) :
    scan style escape quote s =
      match step style escape quote s with
      | .stop =>
        match quote with
        | some q => .error ⟨.malformed .unterminatedQuote, q.rest⟩
        | none => .ok ([], s)
      | .take ps q r => (scan style escape q r).prepend ps
      | .last ps r => .ok (ps, r)
      | .reference name m r =>
        match closeReference s name m (scan .modifierWord escape none r) with
        | .ok (parts, r') => (scan style escape quote r').prepend [.token (.node .reference parts)]
        | .error e => .error e
      | .malformed problem => .error ⟨.malformed problem, s⟩ := by
  rw [scan.eq_def]
  cases hstep : step style escape quote s with
  | stop | last | malformed => rfl
  | take ps q r => simp only [length_lt_of_step_take hstep, if_true]
  | reference name m r =>
    simp only [length_lt_of_step_reference hstep, if_true]
    cases hclose : closeReference s name m (scan .modifierWord escape none r) with
    | error e => rfl
    | ok closed =>
      obtain ⟨ws, hw, -⟩ := closeReference_eq_ok.1 hclose
      simp only [Scans.length_lt_of_reference hstep (scan_eq_ok.1 hw), if_true]

theorem fault_of_closeReference {start name : Text} {m : Modifier} {scanned : Scanned} {e : Fault}
    (h : closeReference start name m scanned = .error e) :
    e = ⟨.malformed .missingBrace, start⟩ ∨ scanned = .error e := by
  unfold closeReference at h
  split at h
  · cases h
  · cases h
    exact .inl rfl
  · cases h
    exact .inr rfl

/-- A scan stops within the text that it began in, also at a quote that was opened before. -/
theorem rest_scan_suffix (hs : s <:+ t) (hquote : ∀ q ∈ quote, q.rest <:+ t) :
    (scan style escape quote s).rest <:+ t := by
  induction hn : s.length using Nat.strongRecOn generalizing style quote s with
  | ind n ih =>
    have hstops := stops_step style escape hs hquote
    rw [scan_eq]
    cases hstep : step style escape quote s with
    | stop =>
      cases quote with
      | some q => exact hquote q rfl
      | none => exact hs
    | take ps q r =>
      rw [hstep] at hstops
      rw [Scanned.rest_prepend]
      exact ih _ (hn ▸ length_lt_of_step_take hstep) hstops.1 hstops.2 rfl
    | last ps r =>
      rw [hstep] at hstops
      exact hstops
    | reference name m r =>
      rw [hstep] at hstops
      have hword : (scan .modifierWord escape none r).rest <:+ t :=
        ih _ (hn ▸ length_lt_of_step_reference hstep) hstops (by simp) rfl
      cases hclose : closeReference s name m (scan .modifierWord escape none r) with
      | error e =>
        simp only [hclose]
        obtain rfl | herror := fault_of_closeReference hclose
        · exact hs
        · rwa [herror] at hword
      | ok closed =>
        obtain ⟨parts, r'⟩ := closed
        obtain ⟨ws, hw, -⟩ := closeReference_eq_ok.1 hclose
        rw [hw] at hword
        have hlt := Scans.length_lt_of_reference hstep (scan_eq_ok.1 hw)
        simp only [hclose, Scanned.rest_prepend]
        exact ih _ (hn ▸ hlt) ((List.suffix_cons _ _).trans hword) hquote rfl
    | malformed problem => exact hs

theorem locates_body (style : Style) (escape : Char) : Locates (body style escape) := by
  intro s
  have hrest : (scan style escape none s).rest <:+ s :=
    rest_scan_suffix (List.suffix_refl s) (by simp)
  unfold body
  cases hscan : scan style escape none s with
  | error e => rwa [hscan] at hrest
  | ok scanned =>
    obtain ⟨ps, m⟩ := scanned
    refine ⟨sourceOf (cut style ps).1, ?_⟩
    rw [rest_ofScanned, ← List.append_assoc, sourceOf_cut, (scan_eq_ok.1 hscan).sourceOf_append_eq]

end Literal

namespace Reference

theorem suffix_of_head_absent {s r : Text} (h : head s = .absent r) : r <:+ s := by
  unfold head at h
  split at h
  · rename_i s
    split at h
    · cases h
    · unfold headBraced at h
      split at h
      · cases h
      · split at h
        · cases h
        · split at h <;> cases h
  · rename_i s _
    split at h
    · cases h
      exact List.suffix_cons _ _
    · split at h
      · cases h
        exact List.suffix_cons _ _
      · cases h
  · cases h
    exact List.suffix_refl s

theorem locates_body (escape : Char) : Locates (body escape) := by
  intro s
  unfold body
  cases hhead : head s with
  | absent r => exact suffix_of_head_absent hhead
  | whole parts r => exact ⟨_, eq_of_head_whole hhead⟩
  | malformed problem => exact List.suffix_refl s
  | modified name m r =>
    have hr : r <:+ s := ⟨_, eq_of_head_modified hhead⟩
    have hword : (Literal.scan .modifierWord escape none r).rest <:+ s :=
      (Literal.rest_scan_suffix (List.suffix_refl r) (by simp)).trans hr
    dsimp only
    cases hclose : Literal.closeReference s name m (Literal.scan .modifierWord escape none r) with
    | error e =>
      obtain rfl | herror := Literal.fault_of_closeReference hclose
      · exact List.suffix_refl s
      · rwa [herror] at hword
    | ok closed =>
      obtain ⟨parts, r'⟩ := closed
      obtain ⟨ws, hw, -⟩ := Literal.closeReference_eq_ok.1 hclose
      rw [hw] at hword
      exact (List.suffix_cons _ _).trans hword

end Reference

/-! ## Instructions -/

theorem arrayReaders_locates (escape : Char) : ArrayReaders Locates escape where
  toSequential := Grammar.sequential_locates
  keyValue := Grammar.locates_node _
  execForm := Grammar.locates_node _
  blanks := Grammar.locates_run _ _
  continuation := Lexeme.lineReaders_locates.continuation (Grammar.locates_exactly _ _)
    fun _ => Grammar.locates_node _
  keyword _ := Grammar.locates_keyword _
  stageKeyword := Grammar.locates_keyword _
  stageName := Grammar.locates_run _ _
  flagName := Grammar.locates_run _ _
  labelName := Grammar.locates_run _ _
  dashes := Grammar.locates_exactly _ _
  equals := Grammar.locates_exactly _ _
  literal style _ := Grammar.locates_node _ (Literal.locates_body style escape)
  openingBracket := Grammar.locates_exactly _ _
  comma := Grammar.locates_exactly _ _
  closingBracket := Grammar.locates_exactly _ _
  quoteAhead := Grammar.locates_when _
  element _ := Grammar.locates_node _ (Literal.locates_body _ escape)
  finishAhead := Grammar.locates_when _

namespace Instruction

open Grammar Lexeme

theorem locates_trigger {f : Text → Outcome Instruction} (hf : Locates f) :
    Locates (trigger f) := by
  intro s
  have hs := hf s
  unfold trigger
  cases hfs : f s with
  | ok i r =>
    dsimp only
    split
    · exact List.suffix_refl s
    · simpa [hfs] using hs
  | stuck r => simpa [hfs] using hs
  | failed e => simpa [hfs] using hs

theorem locates_body (escape : Char) {f : Text → Outcome Instruction} (hf : Locates f)
    (k : Keyword) :
    Locates (body escape f k) := by
  have h := arrayReaders_locates escape
  by_cases hk : k = .ONBUILD
  · subst hk
    exact h.seq h.deferral (locates_trigger hf)
  · exact h.body (h.finish (locates_when _) locates_newline) f hk

theorem locates_readWith (escape : Char) {f : Text → Outcome Instruction} (hf : Locates f) :
    Locates (readWith escape f) := by
  intro s
  unfold readWith
  split
  · exact List.dropWhile_suffix isBlank
  · split
    · simpa using locates_body escape hf _ s
    · exact List.dropWhile_suffix isBlank

theorem locates_read (escape : Char) : Locates (read escape) := by
  intro s
  induction hn : s.length using Nat.strongRecOn generalizing s with
  | ind n ih =>
    unfold read
    rw [fix]
    refine locates_readWith escape (fun r => ?_) s
    split
    · rename_i hr
      exact ih r.length (hn ▸ hr) r rfl
    · exact List.suffix_refl r

theorem locates_formBody (escape : Char) (form : Form) : Locates (formBody escape form) := by
  have h := arrayReaders_locates escape
  have hbody := locates_body escape (locates_read escape)
  cases form with
  | stage => exact hbody .FROM
  | arg => exact hbody .ARG
  | env => exact hbody .ENV
  | label => exact hbody .LABEL
  | command => exact h.attempt (h.either (hbody .RUN) (h.either (hbody .CMD) (hbody .ENTRYPOINT)))
  | onBuild => exact hbody .ONBUILD
  | generic =>
    intro s
    change (anyGenericBody escape s).rest <:+ s
    unfold anyGenericBody
    split
    · exact h.seq (h.seq (h.opening _) (h.argumentsBody _))
        (h.finish (locates_when _) locates_newline) s
    · exact List.suffix_refl s

end Instruction

/-! ## Files -/

namespace Directive

open Grammar Lexeme

theorem locates_valueBody (name : DirectiveName) : Locates (valueBody name) := by
  intro s
  unfold valueBody
  dsimp only
  split
  · exact List.suffix_refl s
  · split
    · exact List.dropWhile_suffix _
    · exact List.suffix_refl s

theorem locates_assignment : Locates assignment := by
  intro s
  unfold assignment
  split
  · exact List.suffix_refl s
  · exact lineReaders_locates.assignmentOf (locates_valueBody _) s

theorem locates_body : Locates body :=
  lineReaders_locates.directive locates_assignment

end Directive

namespace Document

theorem locates_readDirectives (seen : List Text) : Locates (readDirectives seen) := by
  intro s
  fun_induction readDirectives seen s with
  | case1 seen s ts r hs name hseen => exact List.suffix_refl s
  | case2 seen s ts r hs name hseen hlt ih =>
    have hr := Directive.locates_body s
    rw [hs] at hr
    simpa using ih.trans hr
  | case3 seen s ts r hs name hseen hlt => simpa [hs] using Directive.locates_body s
  | case4 seen s r hs => exact List.suffix_refl s
  | case5 seen s e hs => simpa [hs] using Directive.locates_body s

theorem locates_readItem (escape : Char) : Locates (readItem escape) := by
  intro s
  have hblank := Lexeme.lineReaders_locates.blankLines s
  have hcomment := Lexeme.lineReaders_locates.commentBody s
  unfold readItem
  cases hb : BlankLines.body s with
  | ok ts r => simpa [hb] using hblank
  | failed e => simpa [hb] using hblank
  | stuck r =>
    cases hc : Lexeme.commentBody s with
    | ok ts r => simpa [hc] using hcomment
    | failed e => simpa [hc] using hcomment
    | stuck r => simpa using Instruction.locates_read escape s

theorem locates_readItems (escape : Char) : Locates (readItems escape) := by
  intro s
  have hitem := locates_readItem escape
  fun_induction readItems escape s with
  | case1 s => exact List.suffix_refl s
  | case2 s _ item r hs hlt ih =>
    have hr := hitem s
    rw [hs] at hr
    simpa using ih.trans hr
  | case3 s _ item r hs | case4 s _ r hs | case5 s _ e hs => simpa [hs] using hitem s

/-- What is left where the reader of files stops is the end of the file. -/
theorem locates_read : Locates read := by
  intro s
  have hs := locates_readDirectives [] s
  unfold read
  cases hd : readDirectives [] s with
  | ok ds r =>
    rw [hd] at hs
    simpa using (locates_readItems _ r).trans hs
  | stuck r => simpa [hd] using hs
  | failed e => simpa [hd] using hs

end Document

end Containerfile
