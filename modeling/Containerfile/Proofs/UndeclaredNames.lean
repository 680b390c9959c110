import Containerfile.Proofs.BuildArguments

/-!
# Names that are not declared

There are two policies for a reference to a name that is not declared: it is unset, or it stays as
it is written.  The policy is asked at every reference that counts, those in the words of
references included, and at no other place.  So the policies agree on an instruction if all names
that it refers to are declared.  If no name outside words is declared, the second policy never
comes to a word, and each reference becomes a fragment with the text that it had.

## Main definitions

* `Token.referredNames`, `Instruction.referredNames` — the names that are referred to.
* `Expansion.withPolicy` — an expansion under another policy.

## Main results

* `Expansion.substituteAll_withPolicy` — where all names are declared, the policy does not count.
* `Expansion.exists_substituteAll` — where none is declared, references that are kept keep the text.
* `Instruction.resolveDeclared_agrees` — the two policies, on one instruction.
-/

namespace Containerfile

/-! ## Names -/

namespace Token

mutual

/-- The names of the references in a token.  Those in the words of references are among them if
`words` holds; those in deferred instructions are not. -/
def referredNames (words : Bool) : Token → List Text
  | leaf _ _ => []
  | node .reference parts =>
    Reference.nameOf parts :: if words then referredNamesAll words parts else []
  | node (.instruction _ _) _ => []
  | node _ ts => referredNamesAll words ts

/-- The names of the references in tokens. -/
def referredNamesAll (words : Bool) : List Token → List Text
  | [] => []
  | t :: ts => referredNames words t ++ referredNamesAll words ts

end

theorem forall_mem_referredNamesAll {words : Bool} {P : Text → Prop} {ts : List Token} :
    (∀ name ∈ referredNamesAll words ts, P name) ↔
      ∀ t ∈ ts, ∀ name ∈ t.referredNames words, P name := by
  induction ts with
  | nil => simp [referredNamesAll]
  | cons t ts ih => rw [referredNamesAll, List.forall_mem_append, List.forall_mem_cons, ih]

end Token

/-- The names that an instruction refers to, with or without the words of references. -/
def Instruction.referredNames (i : Instruction) (words : Bool) : List Text :=
  Token.referredNamesAll words i.parts

namespace Expansion

variable {x : Expansion} {t : Token} {ts : List Token}

/-! ## Lists of tokens -/

variable {f g : Token → Except Error Token}

theorem mapM_congr (h : ∀ t ∈ ts, f t = g t) : ts.mapM f = ts.mapM g := by
  induction ts with
  | nil => rfl
  | cons t ts ih =>
    obtain ⟨ht, hts⟩ := List.forall_mem_cons.1 h
    rw [List.mapM_cons, List.mapM_cons, ht, ih hts]

/-- What keeps the text of each token keeps that of all. -/
theorem exists_mapM_textAll (h : ∀ t ∈ ts, ∃ u, f t = .ok u ∧ u.text = t.text) :
    ∃ us, ts.mapM f = .ok us ∧ Token.textAll us = Token.textAll ts := by
  induction ts with
  | nil => exact ⟨[], rfl, rfl⟩
  | cons t ts ih =>
    obtain ⟨⟨u, hu, htext⟩, hts⟩ := List.forall_mem_cons.1 h
    obtain ⟨us, hus, htexts⟩ := ih hts
    refine ⟨u :: us, ?_, by rw [Token.textAll, Token.textAll, htext, htexts]⟩
    rw [List.mapM_cons, hu, hus]
    rfl

/-- The word of a reference is the first literal among its parts. -/
theorem expandWord_eq (x : Expansion) (parts : List Token) :
    x.expandWord parts =
      ((Children.firstLiteral? parts).map fun l => (l.expand x).map Literal.value).getD
        (.ok []) := by
  induction parts with
  | nil => rw [expandWord]; rfl
  | cons t ts ih =>
    unfold Children.firstLiteral? at ih ⊢
    rw [List.findSome?_cons]
    cases ht : t.literal? with
    | some l =>
      obtain rfl := Token.literal?_eq_some.1 ht
      obtain ⟨references, parts⟩ := l
      cases references with
      | true =>
        simp only [Literal.token, expandWord, Literal.expand, substituteLiteral, if_true,
          Option.map_some, Option.getD_some]
        cases x.substituteParts parts <;> rfl
      | false => rw [Literal.token, expandWord]; rfl
    | none =>
      have hword : x.expandWord (t :: ts) = x.expandWord ts := by
        cases t with
        | leaf => rfl
        | node kind parts =>
          cases kind with
          | literal => cases ht
          | _ => rfl
      rw [hword, ih]

/-! ## Declared names -/

/-- An expansion under another policy for names that are not declared. -/
def withPolicy (x : Expansion) (policy : Undeclared) : Expansion :=
  { x with undeclared := policy }

variable {policy : Undeclared}

theorem expand_withPolicy {parts : List Token}
    (h : x.bindings.find? (Reference.nameOf parts) ≠ none) (word : Except Error Text) :
    (x.withPolicy policy).expand parts word = x.expand parts word := by
  obtain ⟨v, hv⟩ := Option.ne_none_iff_exists'.1 h
  simp only [expand, withPolicy, hv]

theorem substitutePart_withPolicy
    (h : (x.withPolicy policy).substitute t = x.substitute t) :
    (x.withPolicy policy).substitutePart t = x.substitutePart t := by
  cases t with
  | leaf kind s => cases kind <;> rfl
  | node kind ts =>
    cases kind with
    | reference => simpa only [substitutePart, substitute] using h
    | _ => rfl

theorem literal_expand_withPolicy {l : Literal}
    (h : (x.withPolicy policy).substitute l.token = x.substitute l.token) :
    l.expand (x.withPolicy policy) = l.expand x := by
  simp only [Literal.token, substitute] at h
  unfold Literal.expand
  cases hx : x.substituteLiteral l.references l.parts with
  | error e =>
    rw [hx] at h
    rw [except_map_eq_error.1 h]
  | ok us =>
    rw [hx] at h
    obtain ⟨vs, hvs, heq⟩ := except_map_eq_ok.1 h
    cases heq
    rw [hvs]

theorem expandWord_withPolicy {parts : List Token}
    (h : ∀ t ∈ parts, (x.withPolicy policy).substitute t = x.substitute t) :
    (x.withPolicy policy).expandWord parts = x.expandWord parts := by
  rw [expandWord_eq, expandWord_eq]
  cases hl : Children.firstLiteral? parts with
  | none => rfl
  | some l =>
    obtain ⟨t, ht, htl⟩ := List.exists_of_findSome?_eq_some hl
    obtain rfl := Token.literal?_eq_some.1 htl
    rw [Option.map_some, Option.map_some, literal_expand_withPolicy (h _ ht)]

/-- Where all names are declared, the policy does not count. -/
theorem substitute_withPolicy
    (h : ∀ name ∈ t.referredNames true, x.bindings.find? name ≠ none) :
    (x.withPolicy policy).substitute t = x.substitute t := by
  induction t using Token.induction with
  | leaf => rfl
  | node kind ts ih =>
    have hts : (∀ name ∈ Token.referredNamesAll true ts, x.bindings.find? name ≠ none) →
        ∀ t ∈ ts, (x.withPolicy policy).substitute t = x.substitute t :=
      fun h t ht => ih t ht (Token.forall_mem_referredNamesAll.1 h t ht)
    cases kind with
    | reference =>
      -- The word is only looked at if the name has no value, but it agrees in any case.
      obtain ⟨hname, hparts⟩ := List.forall_mem_cons.1 h
      rw [substitute, substitute, expandWord_withPolicy (hts hparts), expand_withPolicy hname]
    | literal references =>
      have hparts : (x.withPolicy policy).substituteParts ts = x.substituteParts ts := by
        rw [substituteParts_eq_mapM, substituteParts_eq_mapM]
        exact mapM_congr fun t ht => substitutePart_withPolicy (hts h t ht)
      rw [substitute, substitute, substituteLiteral, substituteLiteral, hparts]
    | keyValue | execForm =>
      rw [substitute, substitute, substituteAll_eq_mapM, substituteAll_eq_mapM, mapM_congr (hts h)]
    | continuation | comment | instruction => rfl

theorem substituteAll_withPolicy
    (h : ∀ name ∈ Token.referredNamesAll true ts, x.bindings.find? name ≠ none) :
    (x.withPolicy policy).substituteAll ts = x.substituteAll ts := by
  rw [substituteAll_eq_mapM, substituteAll_eq_mapM]
  exact mapM_congr fun t ht => substitute_withPolicy (Token.forall_mem_referredNamesAll.1 h t ht)

/-! ## Names that are kept -/

variable (hkeep : x.undeclared = .keep) (hescapes : x.removeEscapes = false)

include hescapes in
theorem exists_substitutePart (h : ∃ u, x.substitute t = .ok u ∧ u.text = t.text) :
    ∃ u, x.substitutePart t = .ok u ∧ u.text = t.text := by
  cases t with
  | leaf kind s =>
    cases kind with
    | fragment => exact ⟨_, rfl, by simp [fragmentText, hescapes, Token.fragment, Token.text]⟩
    | _ => exact ⟨_, rfl, rfl⟩
  | node kind ts =>
    cases kind with
    | reference => simpa only [substitutePart, substitute] using h
    | _ => exact ⟨_, rfl, rfl⟩

include hkeep hescapes in
/-- Where no name outside words is declared, references that are kept leave the text as it is. -/
theorem exists_substitute (h : ∀ name ∈ t.referredNames false, x.bindings.find? name = none) :
    ∃ u, x.substitute t = .ok u ∧ u.text = t.text := by
  induction t using Token.induction with
  | leaf kind s => exact ⟨_, rfl, rfl⟩
  | node kind ts ih =>
    have hts : (∀ name ∈ Token.referredNamesAll false ts, x.bindings.find? name = none) →
        ∀ t ∈ ts, ∃ u, x.substitute t = .ok u ∧ u.text = t.text :=
      fun h t ht => ih t ht (Token.forall_mem_referredNamesAll.1 h t ht)
    cases kind with
    | reference =>
      have hname := h _ List.mem_cons_self
      exact ⟨.fragment (Token.textAll ts),
        by simp [substitute, expand, hname, hkeep, Except.map], rfl⟩
    | literal references =>
      obtain ⟨us, hus, htext⟩ :=
        exists_mapM_textAll fun t ht => exists_substitutePart hescapes (hts h t ht)
      cases references with
      | true =>
        rw [substitute, substituteLiteral, if_pos rfl, substituteParts_eq_mapM, hus]
        exact ⟨_, rfl, htext⟩
      | false => exact ⟨_, rfl, rfl⟩
    | keyValue | execForm =>
      obtain ⟨us, hus, htext⟩ := exists_mapM_textAll (hts h)
      rw [substitute, substituteAll_eq_mapM, hus]
      exact ⟨_, rfl, htext⟩
    | continuation | comment | instruction => exact ⟨_, rfl, rfl⟩

include hkeep hescapes in
theorem exists_substituteAll
    (h : ∀ name ∈ Token.referredNamesAll false ts, x.bindings.find? name = none) :
    ∃ us, x.substituteAll ts = .ok us ∧ Token.textAll us = Token.textAll ts := by
  rw [substituteAll_eq_mapM]
  exact exists_mapM_textAll fun t ht =>
    exists_substitute hkeep hescapes (Token.forall_mem_referredNamesAll.1 h t ht)

end Expansion

/-! ## Instructions -/

theorem Resolution.answer_settle {α : Type} (options : ResolutionOptions) (text : α → Text)
    (target : α) (resolved : Except Error α) :
    (settle options text target resolved).answer = resolved.map text := by
  cases resolved <;> rfl

namespace Instruction

/-- **The two policies for names that are not declared.**  If every name that an instruction
refers to, also in the words of references, is declared, then it does not matter whether names
that are not declared are unset or kept: the answers are the same text or the same error.  If no
name outside words is declared, an instruction whose undeclared names are kept is answered with
its own text. -/
theorem resolveDeclared_agrees (i : Instruction) (b : Bindings) :
    ((∀ name ∈ i.referredNames true, name ∈ b.entries.map Prod.fst) →
      i.resolveDeclared b = (i.resolve b {}).answer) ∧
    ((∀ name ∈ i.referredNames false, name ∉ b.entries.map Prod.fst) →
      i.resolveDeclared b = .ok i.text) := by
  constructor
  · intro h
    have hfound : ∀ name ∈ Token.referredNamesAll true i.parts, b.find? name ≠ none :=
      fun name hname hnone => Bindings.lookup_eq_none.1 hnone (h name hname)
    let x : Expansion := { escape := i.escape, bindings := b }
    have hexpand : i.expand (x.withPolicy .keep) = i.expand x := by
      rw [expand, expand, Expansion.substituteAll_withPolicy hfound]
    calc
      i.resolveDeclared b = (i.expand (x.withPolicy .keep)).map text := rfl
      _ = (i.expand x).map text := by rw [hexpand]
      _ = (i.resolve b {}).answer := (Resolution.answer_settle {} text i (i.expand x)).symm
  · intro h
    have hfound : ∀ name ∈ Token.referredNamesAll false i.parts, b.find? name = none :=
      fun name hname => Bindings.lookup_eq_none.2 (h name hname)
    let x : Expansion := { escape := i.escape, bindings := b, undeclared := .keep }
    obtain ⟨us, hus, htext⟩ := Expansion.exists_substituteAll (x := x) rfl rfl hfound
    have hexpand : i.expand x = .ok (i.withParts us) := except_map_eq_ok.2 ⟨us, hus, rfl⟩
    exact except_map_eq_ok.2 ⟨i.withParts us, hexpand, htext⟩

/-- In `$A:${B:-$C}` all names can be declared, one of them without a value.  If only the one in
the word is, the text stays as it is. -/
theorem resolveDeclared_agrees_word :
    ∃ i, parse "FROM $A:$\x7bB:-$C\x7d".toList '\\' = .ok i ∧
      i.referredNames true = [['A'], ['B'], ['C']] ∧ i.referredNames false = [['A'], ['B']] ∧
      i.resolveDeclared ⟨[(['A'], some ['1']), (['B'], none), (['C'], some ['2'])]⟩ =
        .ok "FROM 1:2".toList ∧
      (i.resolve ⟨[(['A'], some ['1']), (['B'], none), (['C'], some ['2'])]⟩ {}).answer =
        .ok "FROM 1:2".toList ∧
      i.resolveDeclared ⟨[(['C'], some ['2'])]⟩ = .ok "FROM $A:$\x7bB:-$C\x7d".toList := by
  obtain ⟨i, hi, hall, houter, hresolve, htext⟩ :
      ∃ i, parse "FROM $A:$\x7bB:-$C\x7d".toList '\\' = .ok i ∧
      i.referredNames true = [['A'], ['B'], ['C']] ∧ i.referredNames false = [['A'], ['B']] ∧
      (i.resolve ⟨[(['A'], some ['1']), (['B'], none), (['C'], some ['2'])]⟩ {}).answer =
        .ok "FROM 1:2".toList ∧ i.text = "FROM $A:$\x7bB:-$C\x7d".toList :=
    let reference (name : Char) : Token :=
      .node .reference [.leaf .referenceMark ['$'], .leaf .identifier [name]]
    ⟨⟨.stage, '\\',
      [.leaf .keyword "FROM".toList, .blank [' '], .node (.literal true) [reference 'A',
        .fragment [':'], .node .reference [.leaf .referenceMark ['$'], .symbol ['\x7b'],
          .leaf .identifier ['B'], .leaf .operator ":-".toList,
          .node (.literal true) [reference 'C'], .symbol ['\x7d']]]]⟩,
      by decide +kernel, rfl, rfl, by decide +kernel, by decide +kernel⟩
  have hdeclared := (resolveDeclared_agrees i
    ⟨[(['A'], some ['1']), (['B'], none), (['C'], some ['2'])]⟩).1 (by rw [hall]; decide)
  have hkept := (resolveDeclared_agrees i ⟨[(['C'], some ['2'])]⟩).2 (by rw [houter]; decide)
  exact ⟨i, hi, hall, houter, hdeclared.trans hresolve, hresolve, hkept.trans (by rw [htext])⟩

end Instruction

end Containerfile
