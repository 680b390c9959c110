import Containerfile.Proofs.ParameterExpansion

/-!
# Created references

A reference is created by writing it down and reading what was written.  The name is checked
before; the word is not, and it stands between an operator and a closing brace, where it is read
as any word is.  It can end too early, or run over the brace, and then nothing is created.  If
something is, it has the given name, operator and word: the operator is read before the word, no
operator starts with a name character or with another one, and what the word takes is the text up
to the last brace.

## Main results

* `Reference.create_eq_ok` — what is created.
* `Reference.body_render_some` — the reading of a reference with a word, by the reading of the word.
* `Reference.exists_create_of_wellFormed` — words that can be written.
* `Reference.fields_of_create` — a created reference has what it was created from.
-/

namespace Containerfile

/-! ## Plain words -/

/-- The segments of a text in which every character stands for itself. -/
def Segments.ofPlain (s : Text) : Segments :=
  s.foldr plain nil

namespace Segments

theorem render_ofPlain (escape : Char) (s : Text) : (ofPlain s).render escape = s := by
  induction s with
  | nil => rfl
  | cons c s ih => exact congrArg (c :: ·) ih

theorem wellFormed_ofPlain {escape : Char} {s : Text}
    (h : ∀ c ∈ s, c ∉ ['$', '}', escape, '\r', '\n']) : (ofPlain s).WellFormed escape true := by
  induction s with
  | nil => trivial
  | cons c s ih =>
    obtain ⟨hc, hs⟩ := List.forall_mem_cons.1 h
    simp only [List.mem_cons, List.not_mem_nil, or_false, not_or] at hc
    obtain ⟨hdollar, hbrace, hescape, hreturn, hfeed⟩ := hc
    exact ⟨hdollar, hescape, by simp [isLineBreak, hreturn, hfeed], fun _ => hbrace, ih hs⟩

end Segments

namespace Reference

variable {name word : Text} {op : Modifier} {modifier : Option (Modifier × Text)} {escape : Char}
  {r : Reference} {parts : List Token}

/-! ## What is created -/

theorem parse_eq_ok {s : Text} : parse s escape = .ok r ↔ body escape s = .ok r.parts [] := by
  rw [parse, except_map_eq_ok]
  constructor
  · rintro ⟨ts, hts, rfl⟩
    exact Outcome.complete_eq_ok.1 hts
  · intro h
    exact ⟨r.parts, Outcome.complete_eq_ok.2 h, rfl⟩

/-- A reference is created exactly if its name is one, and what is written is read to its end. -/
theorem create_eq_ok : create name modifier escape = .ok r ↔
    (name ≠ [] ∧ name.all isNameChar = true) ∧
    body escape (render name modifier) = .ok r.parts [] := by
  rw [← parse_eq_ok, create]
  cases hall : name.all isNameChar with
  | false => simp
  | true =>
    by_cases hne : name = []
    · simp [hne]
    · cases parse (render name modifier) escape <;> simp [hne]

theorem body_render_none (hne : name ≠ []) (hname : name.all isNameChar = true) :
    body escape (render name none) = .ok (bracedParts name) [] := by
  have hhead : head (render name none) = .whole (bracedParts name) [] :=
    head_braced_append hne hname rfl
  rw [body, hhead]

/-- A reference with a word is read to its end exactly if the word is read up to the last brace. -/
theorem body_render_some (hne : name ≠ []) (hname : name.all isNameChar = true) :
    body escape (render name (some (op, word))) = .ok parts [] ↔
      ∃ ps, Literal.Scans escape .modifierWord none (word ++ ['}']) ps ['}'] ∧
        parts = modifiedParts name op (Literal.assemble ps) := by
  have hoperator : (op.operator ++ (word ++ ['}'])).head?.any isNameChar = false := by
    cases op <;> rfl
  have hhead : head (render name (some (op, word))) = .modified name op (word ++ ['}']) := by
    have h := head_braced_append hne hname hoperator
    rw [headBraced_operator] at h
    simpa [render] using h
  rw [body, hhead]
  constructor
  · intro h
    dsimp only at h
    split at h
    · rename_i ts m hclose
      cases h
      obtain ⟨ps, hps, rfl⟩ := Literal.closeReference_eq_ok.1 hclose
      exact ⟨ps, Literal.scan_eq_ok.1 hps, rfl⟩
    · cases h
  · rintro ⟨ps, hps, rfl⟩
    simp only [hps.scan_eq, Literal.closeReference]

/-! ## What it was created from -/

/-- The parts of a created reference, and the text of its word. -/
theorem parts_of_create (h : create name modifier escape = .ok r) :
    (modifier = none ∧ r.parts = bracedParts name) ∨
      ∃ op word ts, modifier = some (op, word) ∧ r.parts = modifiedParts name op ts ∧
        Token.textAll ts = word := by
  obtain ⟨⟨hne, hname⟩, hbody⟩ := create_eq_ok.1 h
  cases modifier with
  | none =>
    rw [body_render_none hne hname] at hbody
    injection hbody with hparts
    exact .inl ⟨rfl, hparts.symm⟩
  | some written =>
    obtain ⟨op, word⟩ := written
    obtain ⟨ps, hps, hparts⟩ := (body_render_some hne hname).1 hbody
    refine .inr ⟨op, word, _, rfl, hparts, ?_⟩
    rw [Literal.textAll_assemble]
    exact List.append_cancel_right hps.sourceOf_append_eq

/-- A word of segments that can be told apart can be written into a reference. -/
theorem exists_create_of_wellFormed (he : IsEscape escape) (hne : name ≠ [])
    (hname : name.all isNameChar = true) {segs : Segments} (h : segs.WellFormed escape true) :
    ∃ r, create name (some (op, segs.render escape)) escape = .ok r := by
  have hscan : Literal.Scans escape .modifierWord none (segs.render escape ++ ['}'])
      (segs.pieces escape) ['}'] :=
    Segments.scans_render he h (List.forall_mem_singleton.2 rfl) rfl
      (Literal.step_closingBrace he [])
  exact ⟨⟨_⟩, create_eq_ok.2 ⟨⟨hne, hname⟩, (body_render_some hne hname).2 ⟨_, hscan, rfl⟩⟩⟩

/-- **Created references are what they were created from.**  Whatever the escape character is, a
created reference is braced and has the given name, operator and word; without an operator it has
no word.  If the escape character is one that a file can select, every name can be given, and with
it every word without dollar signs, closing braces, escape characters and line breaks. -/
theorem fields_of_create (name : Text) (modifier : Option (Modifier × Text)) (escape : Char) :
    (∀ r, create name modifier escape = .ok r →
      r.name = name ∧ r.modifier? = modifier.map Prod.fst ∧
      r.word?.map Literal.text = modifier.map Prod.snd ∧ r.isBraced = true) ∧
    (IsEscape escape → name ≠ [] → name.all isNameChar = true →
      (∀ op word, modifier = some (op, word) → ∀ c ∈ word, c ∉ ['$', '}', escape, '\r', '\n']) →
      ∃ r, create name modifier escape = .ok r) := by
  constructor
  · intro r h
    obtain ⟨rfl, hparts⟩ | ⟨op, word, ts, rfl, hparts, htext⟩ := parts_of_create h
    · simp only [Reference.name, modifier?, word?, isBraced, hparts]
      exact ⟨rfl, rfl, rfl, rfl⟩
    · simp only [Reference.name, modifier?, word?, isBraced, hparts]
      refine ⟨rfl, by cases op <;> rfl, congrArg some htext, rfl⟩
  · intro he hne hname hword
    cases modifier with
    | none => exact ⟨⟨bracedParts name⟩, create_eq_ok.2 ⟨⟨hne, hname⟩, body_render_none hne hname⟩⟩
    | some written =>
      obtain ⟨op, word⟩ := written
      have hcreate : ∃ r, create name (some (op, (Segments.ofPlain word).render escape)) escape =
          .ok r :=
        exists_create_of_wellFormed he hne hname (Segments.wellFormed_ofPlain (hword op word rfl))
      rwa [Segments.render_ofPlain] at hcreate

/-- A word that starts with another operator and holds a backslash, which is no escape character
here; and one that holds a reference and an escaped brace. -/
theorem fields_of_create_operator :
    (∃ r, create ['A'] (some (.alternateIfSet, ":-\\ \"".toList)) '`' = .ok r ∧ r.name = ['A'] ∧
      r.modifier? = some .alternateIfSet ∧ r.word?.map Literal.text = some ":-\\ \"".toList ∧
      r.isBraced = true) ∧
    ∃ r, create ['A'] (some (.defaultIfUnset, "$\x7bB:-\\\x7d\x7d".toList)) '\\' = .ok r ∧
      r.modifier? = some .defaultIfUnset ∧
      r.word?.map Literal.text = some "$\x7bB:-\\\x7d\x7d".toList := by
  constructor
  · have hplain : ∀ c ∈ [':', '-', '\\', ' ', '"'], c ∉ ['$', '}', '`', '\r', '\n'] := by simp
    obtain ⟨hreads, hexists⟩ :=
      fields_of_create ['A'] (some (.alternateIfSet, ":-\\ \"".toList)) '`'
    obtain ⟨r, hr⟩ := hexists (.inr rfl) (by simp) rfl fun op word h => by cases h; exact hplain
    obtain ⟨hname, hop, hword, hbraced⟩ := hreads r hr
    exact ⟨r, hr, hname, hop, hword, hbraced⟩
  · obtain ⟨r, hr⟩ : ∃ r, create ['A'] (some (.defaultIfUnset, "$\x7bB:-\\\x7d\x7d".toList)) '\\' =
        .ok r :=
      ⟨⟨modifiedParts ['A'] .defaultIfUnset
        [.node .reference
          (modifiedParts ['B'] .defaultIfUnsetOrEmpty [.fragment "\\\x7d".toList])]⟩,
        by decide +kernel⟩
    obtain ⟨-, hop, hword, -⟩ := (fields_of_create _ _ _).1 r hr
    exact ⟨r, hr, hop, hword⟩

end Reference

end Containerfile
