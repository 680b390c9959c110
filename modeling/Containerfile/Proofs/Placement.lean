import Containerfile.Proofs.Cutting
import Containerfile.Proofs.Idempotence

/-!
# Where references stand

A substitution goes into literals that allow references, into pairs and into arrays, and nowhere
else; of an `ARG` it takes the declarations only.  So it finds all references if these stand in
such places alone.  Whether they do is a matter of the readers: each of them places references
where the substitution looks for them.  A deferred instruction is the exception, and is meant to
be one.

## Main definitions

* `Token.IsPlain` — a token with no reference in it.
* `Token.Placed`, `Instruction.Placed`, `Item.Placed` — references stand where they are found.
* `Item.Settled` — all references that are left are deferred.

## Main results

* `arrayReaders_placed`, `Document.placed_of_parse` — the readers place references so.
* `Expansion.Substitutes.isPlain` — a substitution then leaves none.
* `Document.resolve_settled` — resolution in place is complete.
-/

namespace Containerfile

/-! ## Tokens -/

namespace Token

variable {t : Token} {ts : List Token}

/-- There is no reference in the token, at any depth. -/
def IsPlain (t : Token) : Prop :=
  ∀ u ∈ t.subtokens, u.reference? = none

theorem isPlain_leaf (kind : LeafKind) (s : Text) : (leaf kind s).IsPlain := by
  simp [IsPlain, subtokens, reference?]

theorem isPlain_node {kind : NodeKind} :
    (node kind ts).IsPlain ↔ kind ≠ .reference ∧ ∀ t ∈ ts, t.IsPlain := by
  have hkind : (node kind ts).reference? = none ↔ kind ≠ .reference := by
    cases kind <;> simp [reference?]
  simp only [IsPlain, subtokens, List.forall_mem_cons, hkind, mem_descendants]
  grind

theorem isPlain_of_leafKind? (h : t.leafKind? ≠ none) : t.IsPlain := by
  cases t with
  | leaf kind s => exact isPlain_leaf kind s
  | node => exact absurd rfl h

theorem isPlain_separator {kind : NodeKind} (hkind : kind = .continuation ∨ kind = .comment)
    (hts : ∀ t ∈ ts, t.leafKind? ≠ none) : (node kind ts).IsPlain := by
  refine isPlain_node.2 ⟨?_, fun t ht => isPlain_of_leafKind? (hts t ht)⟩
  obtain rfl | rfl := hkind <;> simp

/-- What can be a part of a literal: there are references in it only if the literal allows them, and
only as parts. -/
def IsPart (references : Bool) (t : Token) : Prop :=
  t.IsPlain ∨ references = true ∧ t.reference? ≠ none

/-- References stand only where a substitution finds them. -/
inductive Placed : Token → Prop where
  | leaf (kind : LeafKind) (s : Text) : Placed (.leaf kind s)
  | literal {references : Bool} {ts : List Token} (h : ∀ t ∈ ts, t.IsPart references) :
      Placed (.node (.literal references) ts)
  | keyValue {ts : List Token} (h : ∀ t ∈ ts, Placed t) : Placed (.node .keyValue ts)
  | execForm {ts : List Token} (h : ∀ t ∈ ts, Placed t) : Placed (.node .execForm ts)
  | separator {kind : NodeKind} {ts : List Token} (hkind : kind = .continuation ∨ kind = .comment)
      (h : (node kind ts).IsPlain) : Placed (.node kind ts)

end Token

namespace Expansion

variable {x : Expansion} {t u : Token}

theorem SubstitutesPart.isPlain {references : Bool} (h : SubstitutesPart x t u)
    (ht : t.IsPart references) : u.IsPlain := by
  cases h with
  | reference | fragment => exact Token.isPlain_leaf _ _
  | same hsame => exact ht.resolve_right fun hreference => hreference.2 hsame.1

/-- **A substitution leaves no reference** if all stand where it finds them. -/
theorem Substitutes.isPlain (h : Substitutes x t u) (ht : t.Placed) : u.IsPlain := by
  induction ht generalizing u with
  | leaf =>
    cases h with
    | same => exact Token.isPlain_leaf _ _
  | literal hparts =>
    cases h with
    | @literal l m h =>
      obtain ⟨parts, hsubst, rfl⟩ := except_map_eq_ok.1 h
      refine Token.isPlain_node.2 ⟨by simp, ?_⟩
      -- A literal that allows no references is left alone, but then there are none in it.
      by_cases hreferences : l.references = true
      · rw [substituteLiteral, if_pos hreferences, substituteParts_eq_ok] at hsubst
        exact forall_of_forall₂ hsubst fun t ht u h => h.isPlain (hparts t ht)
      · rw [substituteLiteral, if_neg hreferences] at hsubst
        cases hsubst
        exact fun t ht => (hparts t ht).resolve_right fun h => hreferences h.1
    | same hsame => cases hsame.2.1
  | keyValue _ ih =>
    cases h with
    | keyValue h =>
      exact Token.isPlain_node.2
        ⟨by simp, forall_of_forall₂ (substituteAll_eq_ok.1 h) fun t ht u h => ih t ht h⟩
    | same hsame => cases hsame.2.2.1
  | execForm _ ih =>
    cases h with
    | execForm h =>
      exact Token.isPlain_node.2
        ⟨by simp, forall_of_forall₂ (substituteAll_eq_ok.1 h) fun t ht u h => ih t ht h⟩
    | same hsame => cases hsame.2.2.2
  | separator hkind hts =>
    obtain rfl | rfl := hkind <;>
      cases h with
      | same => exact hts

end Expansion

/-! ## Readers -/

/-- Separators and keywords hold no references. -/
theorem separatorReaders_isPlain (escape : Char) :
    SeparatorReaders (Yields Token.IsPlain) escape :=
  separatorReaders_yields Token.isPlain_leaf (fun _ _ => Token.isPlain_separator) escape

namespace Literal

variable {references : Bool} {style : Style} {escape : Char} {quote : Option Quote} {s r : Text}
  {ps : List Piece}

/-- The pieces that a step takes, and whether it can meet a reference. -/
def Step.Parts (references : Bool) : Step → Prop
  | .take ps _ _ => ∀ p ∈ ps, p.Holds (Token.IsPart references)
  | .last ps _ => ∀ p ∈ ps, p.Holds (Token.IsPart references)
  | .reference _ _ _ => references = true
  | .stop => True
  | .malformed _ => True

theorem Step.Possible.parts {st : Step} (h : Possible style escape quote s st) :
    st.Parts style.references := by
  cases h with
  | stop | malformed => trivial
  | pair | lone | char | blank => simp [Parts, Piece.Holds]
  | openingQuote | closingQuote | lastQuote =>
    exact List.forall_mem_singleton.2 (.inl (Token.isPlain_leaf _ _))
  | continuation _ h =>
    simp only [Parts, List.forall_mem_map]
    exact fun t ht => .inl ((separatorReaders_isPlain escape).continuation _ _ _ h t ht)
  | reference _ hreferences => exact List.forall_mem_singleton.2 (.inr ⟨hreferences, nofun⟩)
  | modified _ hreferences => exact hreferences

theorem Scans.isPart (h : Scans escape style quote s ps r) :
    ∀ p ∈ ps, p.Holds (Token.IsPart style.references) := by
  induction h with
  | stop => simp
  | @take style quote _ s _ _ _ _ hstep _ ih =>
    have hparts := (possible_step style escape quote s).parts
    rw [hstep] at hparts
    exact List.forall_mem_append.2 ⟨hparts, ih⟩
  | @last style quote s _ _ hstep =>
    have hparts := (possible_step style escape quote s).parts
    rwa [hstep] at hparts
  | @reference style quote s _ _ _ _ _ _ _ hstep _ _ _ ih =>
    have hparts := (possible_step style escape quote s).parts
    rw [hstep] at hparts
    exact List.forall_mem_cons.2 ⟨.inr ⟨hparts, nofun⟩, ih⟩

theorem isPart_body (style : Style) (escape : Char) :
    Yields (Token.IsPart style.references) (body style escape) := by
  intro s ts r h
  obtain ⟨ps, m, hscans, rfl, -, -⟩ := body_eq_ok.1 h
  exact forall_mem_assemble (fun _ => .inl (Token.isPlain_leaf _ _)) fun p hp =>
    hscans.isPart p (cut_subset style ps hp)

theorem placed_grammar (style : Style) (escape : Char) :
    Yields Token.Placed (grammar style escape) :=
  .node (isPart_body style escape) fun _ => .literal

end Literal

/-- All arguments place references where they are found. -/
theorem arrayReaders_placed (escape : Char) : ArrayReaders (Yields Token.Placed) escape where
  toSeparatorReaders := separatorReaders_yields .leaf
    (fun _ _ hkind hts => .separator hkind (Token.isPlain_separator hkind hts)) escape
  keyValue hg := .node hg fun _ => .keyValue
  stageKeyword := .keyword (.leaf _) _
  stageName := .run (.leaf _) _
  flagName := .run (.leaf _) _
  labelName := .run (.leaf _) _
  dashes := .exactly (.leaf _ _)
  equals := .exactly (.leaf _ _)
  literal style _ := Literal.placed_grammar style escape
  execForm hg := .node hg fun _ => .execForm
  openingBracket := .exactly (.leaf _ _)
  comma := .exactly (.leaf _ _)
  closingBracket := .exactly (.leaf _ _)
  quoteAhead := .when _
  element _ := Literal.placed_grammar _ escape
  finishAhead := .when _

/-! ## Instructions -/

namespace Instruction

variable {e : Char} {s r : Text} {i j : Instruction}

/-- References stand only where a resolution finds them, or in a deferred instruction. -/
structure Placed (i : Instruction) : Prop where
  parts : ∀ t ∈ i.parts, t.Placed ∨
    ∃ trigger, i.form = .onBuild ∧ i.trigger? = some trigger ∧ t = trigger.token
  /-- Of an `ARG`, only the declarations are resolved. -/
  aside : i.form = .arg → ∀ t ∈ i.parts, t.keyValue? = none → t.IsPlain

/-- In an `ARG` there are references in declarations only. -/
theorem isPlain_of_argBody {ts : List Token} (h : argBody e s = .ok ts r) :
    ∀ t ∈ ts, t.keyValue? = none → t.IsPlain := by
  have hreaders : SeparatorReaders (Yields fun t => t.keyValue? = none → t.IsPlain) e :=
    separatorReaders_yields (fun kind s _ => Token.isPlain_leaf kind s)
      (fun _ _ hkind hts _ => Token.isPlain_separator hkind hts) e
  have hdeclaration : Yields (fun t => t.keyValue? = none → t.IsPlain)
      (KeyValue.declaration e isStageChar) := .node (.trivial _) fun ts _ => nofun
  have hfinish := hreaders.finish (.when _) (yields_newline fun s _ => Token.isPlain_leaf _ s)
  exact hreaders.seq (hreaders.argContent hdeclaration) hfinish _ _ _ h

theorem placed_of_read (h : read e s = .ok i r) : i.Placed := by
  obtain ⟨k, ts, -, hbody, rfl⟩ := read_eq_ok.1 h
  have hreaders := arrayReaders_placed e
  by_cases hk : k = .ONBUILD
  · subst hk
    obtain ⟨ds, m, trigger, hd, -, -, rfl⟩ := onBuildBody_eq_ok.1 hbody
    have hds := hreaders.deferral _ _ _ hd
    refine ⟨List.forall_mem_append.2 ⟨fun t ht => .inl (hds t ht), ?_⟩, nofun⟩
    exact List.forall_mem_singleton.2 (.inr ⟨trigger, rfl, trigger?_of_deferral hd trigger, rfl⟩)
  · have hfinish := hreaders.finish (.when _) (yields_newline (.leaf _))
    refine ⟨fun t ht => .inl (hreaders.body hfinish _ hk _ _ _ hbody t ht), fun hform => ?_⟩
    have hk : k = .ARG := by cases k <;> first | rfl | cases hform
    subst hk
    exact isPlain_of_argBody hbody

end Instruction

/-! ## Items -/

namespace Item

/-- References stand only where a resolution finds them, or in a deferred instruction. -/
def Placed : Item → Prop
  | .instruction i => i.Placed
  | item => ∀ t ∈ item.parts, t.IsPlain

/-- There are no references but those of a deferred instruction. -/
def Settled (item : Item) : Prop :=
  ∀ t ∈ item.parts, t.IsPlain ∨ ∃ i trigger, item = .instruction i ∧ i.form = .onBuild ∧
    i.trigger? = some trigger ∧ t = trigger.token

end Item

theorem Directive.isPlain_body : Yields Token.IsPlain Directive.body :=
  yields_body Token.isPlain_leaf fun _ =>
    Token.isPlain_node.2 ⟨by simp, List.forall_mem_singleton.2 (Token.isPlain_leaf _ _)⟩

/-- Directives hold no references. -/
theorem ReadsDirectives.isPlain {seen seen' : List Text} {s r : Text} {ds : List Directive}
    (h : ReadsDirectives seen s ds seen' r) : ∀ d ∈ ds, ∀ t ∈ d.parts, t.IsPlain :=
  h.forall_mem (Directive.isPlain_body _ _ _)

theorem Document.placed_of_readItem {e : Char} {s r : Text} {item : Item}
    (h : readItem e s = .ok item r) : item.Placed := by
  obtain ⟨ts, hts, rfl⟩ | ⟨-, ⟨ts, hts, rfl⟩ | ⟨-, i, hi, rfl⟩⟩ := readItem_eq_ok.1 h
  · exact (lineReaders_yields Token.isPlain_leaf).blankLines _ _ _ hts
  · exact (lineReaders_yields Token.isPlain_leaf).commentBody _ _ _ hts
  · exact Instruction.placed_of_read hi

/-- The items of a file place references where a resolution finds them. -/
theorem Document.placed_of_parse {s : Text} {d : Document} (h : parse s = .ok d) :
    ∀ item ∈ d.items, item.Placed := by
  obtain ⟨ds, seen, r, items, rfl, hlayout⟩ := parse_iff.1 h
  refine List.forall_mem_append.2 ⟨?_, hlayout.items.forall_mem placed_of_readItem⟩
  exact List.forall_mem_map.2 hlayout.directives.isPlain

/-! ## Resolution -/

/-- An instruction that is resolved as a whole keeps no reference but in its trigger. -/
theorem Instruction.settled_of_expand {x : Expansion} {i j : Instruction} (h : i.expand x = .ok j)
    (hi : i.Placed) : (Item.instruction j).Settled := by
  obtain ⟨hparts, hj⟩ := expand_eq_ok.1 h
  have htrigger : j.trigger? = i.trigger? :=
    Expansion.findSome?_of_substituteAll (fun _ _ => Expansion.Substitutes.instruction?) hparts
  refine forall_of_forall₂ (Expansion.substituteAll_eq_ok.1 hparts) fun t ht u hsubst => ?_
  obtain hplaced | ⟨trigger, hform, hsome, rfl⟩ := hi.parts t ht
  · exact .inl (hsubst.isPlain hplaced)
  · obtain rfl : trigger.token = u := Except.ok.inj (Expansion.substitutes_iff.1 hsubst)
    refine .inr ⟨j, trigger, rfl, ?_, htrigger.trans hsome, rfl⟩
    rw [hj]
    exact hform

namespace Scope

variable {setting : Setting} {scope after : Scope} {item out : Item} {items outs : List Item}

/-- Declarations keep no reference if there are none beside them. -/
theorem Declares.isPlain {ts us : List Token} (h : Declares setting scope ts us after)
    (hplaced : ∀ t ∈ ts, t.Placed) (haside : ∀ t ∈ ts, t.keyValue? = none → t.IsPlain) :
    ∀ u ∈ us, u.IsPlain := by
  induction h with
  | nil => simp
  | aside ht _ ih =>
    rw [List.forall_mem_cons] at hplaced haside ⊢
    exact ⟨haside.1 ht, ih hplaced.2 haside.2⟩
  | @declaration scope after t p parts ts us ht hp _ ih =>
    rw [List.forall_mem_cons] at hplaced haside ⊢
    obtain rfl := Token.keyValue?_eq_some.1 ht
    have hsubst : (setting.expansion scope.visible).Substitutes p.token (KeyValue.token ⟨parts⟩) :=
      .keyValue hp
    exact ⟨hsubst.isPlain hplaced.1, ih hplaced.2 haside.2⟩

/-- **A step leaves no reference** but those of a deferred instruction. -/
theorem Step.settled (h : Step setting scope item out after) (hitem : item.Placed) :
    out.Settled := by
  cases h with
  | still hnone =>
    cases item with
    | instruction => cases hnone
    | comment | blankLines | directive => exact fun t ht => .inl (hitem t ht)
  | @arg i parts after hform h =>
    have hplaced : ∀ t ∈ i.parts, t.Placed := fun t ht =>
      (hitem.parts t ht).resolve_right fun ⟨_, hdeferred, _⟩ => by simp [hform] at hdeferred
    exact fun t ht => .inl ((declare_eq_ok.1 h).isPlain hplaced (hitem.aside hform) t ht)
  | opening _ h | env _ h | other _ h => exact Instruction.settled_of_expand h hitem

theorem Resolves.settled (h : Resolves setting scope items outs after)
    (hitems : ∀ item ∈ items, item.Placed) : ∀ out ∈ outs, out.Settled := by
  induction h with
  | nil => simp
  | cons hx _ ih =>
    obtain ⟨hitem, hitems⟩ := List.forall_mem_cons.1 hitems
    exact List.forall_mem_cons.2 ⟨hx.settled hitem, ih hitems⟩

end Scope

namespace Document

open Scope

/-- **Resolution in place is complete.**  In a file that has been read and then resolved, there
are no references but those of deferred instructions. -/
theorem resolve_settled {s t : Text} {d : Document} {buildArgs : Bindings}
    {options : ResolutionOptions} (h : parse s = .ok d) (hinline : options.inline = true)
    (ht : (d.resolve buildArgs options).answer = .ok t) :
    ∀ item ∈ (d.resolve buildArgs options).target.items, ∀ token ∈ item.parts,
      (∀ u ∈ token.subtokens, u.reference? = none) ∨
        ∃ i trigger, item = .instruction i ∧ i.form = .onBuild ∧ i.trigger? = some trigger ∧
          token = trigger.token := by
  obtain ⟨-, after, hrun⟩ := resolve_eq_ok ht
  rw [target_eq_resolved hinline]
  exact hrun.settled (placed_of_parse h)

/-- References in a declaration and in a stage are gone, and the one of a trigger is left. -/
theorem resolve_settled_deferred :
    ∃ d, parse "ARG I=$\x7bJ:-a\x7d\nFROM $I\nONBUILD USER $V\n".toList = .ok d ∧
      (d.resolve .empty { inline := true, removeEscapes := true }).answer =
        .ok "ARG I=a\nFROM a\nONBUILD USER $V\n".toList ∧
      ∀ item ∈ (d.resolve .empty { inline := true, removeEscapes := true }).target.items,
        ∀ token ∈ item.parts, (∀ u ∈ token.subtokens, u.reference? = none) ∨
          ∃ i trigger, item = .instruction i ∧ i.form = .onBuild ∧ i.trigger? = some trigger ∧
            token = trigger.token := by
  let reference (name : Char) : Token :=
    .node .reference [.leaf .referenceMark ['$'], .leaf .identifier [name]]
  obtain ⟨d, hd, h⟩ :
      ∃ d, parse "ARG I=$\x7bJ:-a\x7d\nFROM $I\nONBUILD USER $V\n".toList = .ok d ∧
      (d.resolve .empty { inline := true, removeEscapes := true }).answer =
        .ok "ARG I=a\nFROM a\nONBUILD USER $V\n".toList :=
    ⟨⟨[.instruction ⟨.arg, '\\', [.leaf .keyword "ARG".toList, .blank [' '],
          .node .keyValue [.leaf .identifier ['I'], .symbol ['='],
            .node (.literal true) [.node .reference [.leaf .referenceMark ['$'], .symbol ['\x7b'],
              .leaf .identifier ['J'], .leaf .operator ":-".toList,
              .node (.literal true) [.fragment ['a']], .symbol ['\x7d']]]], .newline ['\n']]⟩,
        .instruction ⟨.stage, '\\', [.leaf .keyword "FROM".toList, .blank [' '],
          .node (.literal true) [reference 'I'], .newline ['\n']]⟩,
        .instruction ⟨.onBuild, '\\', [.leaf .keyword "ONBUILD".toList, .blank [' '],
          .node (.instruction .generic '\\') [.leaf .keyword "USER".toList, .blank [' '],
            .node (.literal true) [reference 'V'], .newline ['\n']]]⟩]⟩,
      by decide +kernel, by decide +kernel⟩
  exact ⟨d, hd, h, resolve_settled hd rfl h⟩

end Document

end Containerfile
