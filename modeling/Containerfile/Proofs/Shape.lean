import Containerfile.Proofs.Directives
import Mathlib.Data.List.Chain

/-!
# The shape of a file

Not every list of items is one that a file is read as.  The readers leave a certain shape:
directives come first and differ in their names, an item is never empty, blank lines are taken all
at once, and an item with another one behind it ends its line.  The last point is not a matter of
course, since a comment or a directive can end at a carriage return and an instruction at a line
continuation; but then nothing behind it can begin an item.

All instructions, also the deferred ones, hold the escape character that the directives select.

## Main definitions

* `Token.Hereditary` — a property that passes from the children of a node to the node.
* `Token.Carries` — all instructions within a token hold a given escape character.
* `Document.WellShaped` — the shape.

## Main results

* `arrayReaders_yields` — hereditary properties hold of all arguments.
* `Document.wellShaped_of_parse` — a file that has been read has the shape.
-/

namespace Containerfile

open Lexeme Grammar

/-! ## Hereditary properties of tokens -/

/-- A property that leaves have, and that a node has if its children do, unless the node is an
instruction. -/
structure Token.Hereditary (Q : Token → Prop) : Prop where
  leaf (kind : LeafKind) (s : Text) : Q (.leaf kind s)
  node {kind : NodeKind} {ts : List Token} (hkind : kind.isInstruction = false)
    (h : ∀ t ∈ ts, Q t) : Q (.node kind ts)

namespace Token.Hereditary

variable {Q : Token → Prop} (hQ : Hereditary Q)
include hQ

theorem leafKind? {t : Token} (h : t.leafKind? ≠ none) : Q t := by
  cases t with
  | leaf kind s => exact hQ.leaf kind s
  | node => exact absurd rfl h

theorem separatorReaders (escape : Char) : SeparatorReaders (Yields Q) escape := by
  refine separatorReaders_yields hQ.leaf (fun kind ts hkind hts => ?_) escape
  refine hQ.node ?_ fun t ht => hQ.leafKind? (hts t ht)
  obtain rfl | rfl := hkind <;> rfl

theorem headBraced {name s r : Text} {parts : List Token}
    (h : Reference.headBraced name s = .whole parts r) : ∀ t ∈ parts, Q t := by
  unfold Reference.headBraced at h
  split at h
  · cases h
    simp [Reference.bracedParts, Token.symbol, Token.identifier, hQ.leaf]
  · split at h
    · cases h
    · split at h <;> cases h

theorem head {s r : Text} {parts : List Token} (h : Reference.head s = .whole parts r) :
    ∀ t ∈ parts, Q t := by
  unfold Reference.head at h
  split at h
  · split at h
    · cases h
    · exact hQ.headBraced h
  · split at h
    · cases h
    · split at h
      · cases h
      · cases h
        simp [Reference.bareParts, Token.identifier, hQ.leaf]
  · cases h

end Token.Hereditary

namespace Literal

variable {Q : Token → Prop} {style : Style} {escape : Char} {quote : Option Quote} {s r : Text}

/-- The tokens among the pieces that a step takes have a property. -/
def Step.Holds (Q : Token → Prop) : Step → Prop
  | .take ps _ _ => ∀ p ∈ ps, p.Holds Q
  | .last ps _ => ∀ p ∈ ps, p.Holds Q
  | .stop => True
  | .reference _ _ _ => True
  | .malformed _ => True

theorem Step.Possible.holds (hQ : Token.Hereditary Q) {st : Step}
    (h : Possible style escape quote s st) : st.Holds Q := by
  cases h with
  | stop | malformed | modified => trivial
  | pair | lone | char | blank => simp [Holds, Piece.Holds]
  | openingQuote | closingQuote | lastQuote => exact List.forall_mem_singleton.2 (hQ.leaf _ _)
  | continuation _ h =>
    simp only [Holds, List.forall_mem_map]
    exact (hQ.separatorReaders escape).continuation _ _ _ h
  | reference _ _ h => exact List.forall_mem_singleton.2 (hQ.node rfl (hQ.head h))

theorem Scans.holds (hQ : Token.Hereditary Q) {ps : List Piece}
    (h : Scans escape style quote s ps r) : ∀ p ∈ ps, p.Holds Q := by
  induction h with
  | stop => simp
  | @take style quote _ s _ _ _ _ hstep _ ih =>
    have hstep' := (possible_step style escape quote s).holds hQ
    rw [hstep] at hstep'
    exact List.forall_mem_append.2 ⟨hstep', ih⟩
  | @last style quote s _ _ hstep =>
    have hstep' := (possible_step style escape quote s).holds hQ
    rwa [hstep] at hstep'
  | @reference style quote s _ _ _ name op ws _ _ _ _ ihw ih =>
    refine List.forall_mem_cons.2 ⟨hQ.node rfl ?_, ih⟩
    have hword : Q (.node (.literal true) (assemble ws)) :=
      hQ.node rfl (forall_mem_assemble (hQ.leaf _) ihw)
    simp [Reference.modifiedParts, Token.symbol, Token.identifier, hQ.leaf, hword]

theorem yields_body (hQ : Token.Hereditary Q) (style : Style) (escape : Char) :
    Yields Q (body style escape) := by
  intro s ts r h
  obtain ⟨ps, m, hscans, rfl, -, -⟩ := body_eq_ok.1 h
  exact forall_mem_assemble (hQ.leaf _) fun p hp => hscans.holds hQ p (cut_subset style ps hp)

theorem yields_grammar (hQ : Token.Hereditary Q) (style : Style) (escape : Char) :
    Yields Q (grammar style escape) :=
  .node (yields_body hQ style escape) fun _ => hQ.node rfl

end Literal

/-- Hereditary properties hold of all arguments. -/
theorem arrayReaders_yields {Q : Token → Prop} (hQ : Token.Hereditary Q) (escape : Char) :
    ArrayReaders (Yields Q) escape where
  toSeparatorReaders := hQ.separatorReaders escape
  keyValue hg := .node hg fun _ => hQ.node rfl
  stageKeyword := .keyword (hQ.leaf _) _
  stageName := .run (hQ.leaf _) _
  flagName := .run (hQ.leaf _) _
  labelName := .run (hQ.leaf _) _
  dashes := .exactly (hQ.leaf _ _)
  equals := .exactly (hQ.leaf _ _)
  literal style _ := Literal.yields_grammar hQ style escape
  execForm hg := .node hg fun _ => hQ.node rfl
  openingBracket := .exactly (hQ.leaf _ _)
  comma := .exactly (hQ.leaf _ _)
  closingBracket := .exactly (hQ.leaf _ _)
  quoteAhead := .when _
  element _ := Literal.yields_grammar hQ _ escape
  finishAhead := .when _

/-! ## The escape character of instructions -/

/-- All instructions within the token, at any depth, hold the escape character `e`. -/
def Token.Carries (e : Char) (t : Token) : Prop :=
  ∀ u ∈ t.subtokens, ∀ i, u.instruction? = some i → i.escape = e

theorem Token.carries_node {e : Char} {kind : NodeKind} {ts : List Token} :
    (node kind ts).Carries e ↔
      (∀ i, (node kind ts).instruction? = some i → i.escape = e) ∧ ∀ t ∈ ts, t.Carries e := by
  simp only [Carries, subtokens, List.forall_mem_cons, mem_descendants]
  grind

theorem Token.hereditary_carries (e : Char) : Hereditary (Carries e) where
  leaf kind s := by simp [Carries, subtokens, instruction?]
  node {kind ts} hkind h := by
    refine carries_node.2 ⟨fun i hi => ?_, h⟩
    cases kind with
    | instruction => cases hkind
    | _ => cases hi

namespace Instruction

variable {e : Char}

/-- An instruction holds the escape character that it was read with, and so does what it defers. -/
theorem carries_of_read :
    ∀ s i r, read e s = .ok i r → i.escape = e ∧ ∀ t ∈ i.parts, t.Carries e := by
  refine read_induction fun f hf s i r h => ?_
  obtain ⟨k, ts, -, hbody, rfl⟩ := readWith_eq_ok.1 h
  have hreaders := arrayReaders_yields (Token.hereditary_carries e) e
  refine ⟨rfl, ?_⟩
  by_cases hk : k = .ONBUILD
  · subst hk
    have htrigger : Yields (Token.Carries e) (trigger f) := by
      intro s ts r ht
      obtain ⟨i, hi, -, rfl⟩ := trigger_eq_ok.1 ht
      obtain ⟨hescape, hparts⟩ := hf _ _ _ hi
      refine List.forall_mem_singleton.2 (Token.carries_node.2 ⟨fun j hj => ?_, hparts⟩)
      cases hj
      exact hescape
    exact hreaders.seq hreaders.deferral htrigger _ _ _ hbody
  · have hfinish := hreaders.finish (.when _) (yields_newline ((Token.hereditary_carries e).leaf _))
    exact hreaders.body hfinish f hk _ _ _ hbody

end Instruction

/-! ## Items -/

/-- Whether the item is blank lines. -/
def Item.isBlankLines : Item → Bool
  | blankLines _ => true
  | _ => false

/-- All instructions of an item hold the escape character `e`. -/
def Item.Carries (e : Char) (item : Item) : Prop :=
  (∀ i, item = .instruction i → i.escape = e) ∧ ∀ t ∈ item.parts, t.Carries e

namespace Document

variable {e : Char} {s r : Text} {item next : Item}

theorem carries_of_readItem (h : readItem e s = .ok item r) : item.Carries e := by
  have hreaders := lineReaders_yields (Token.hereditary_carries e).leaf
  obtain ⟨ts, hts, rfl⟩ | ⟨-, ⟨ts, hts, rfl⟩ | ⟨-, i, hi, rfl⟩⟩ := readItem_eq_ok.1 h
  · exact ⟨by simp, hreaders.blankLines _ _ _ hts⟩
  · exact ⟨by simp, hreaders.commentBody _ _ _ hts⟩
  · obtain ⟨hescape, hparts⟩ := Instruction.carries_of_read _ _ _ hi
    refine ⟨fun j hj => ?_, hparts⟩
    cases hj
    exact hescape

theorem text_ne_nil_of_readItem (h : readItem e s = .ok item r) : item.text ≠ [] := by
  intro hnil
  have hlt := length_lt_of_readItem h
  rw [← lossless_readItem e h, hnil] at hlt
  exact Nat.lt_irrefl _ hlt

/-- What stands between two neighbours: the first ends its line, and they are not both blank
lines. -/
def Apart (item next : Item) : Prop :=
  item.text.getLast? = some '\n' ∧ ¬ (item.isBlankLines = true ∧ next.isBlankLines = true)

/-- Two items that are read one after the other stand apart. -/
theorem apart_of_readItem (he : IsEscape e) {k : Text} (h : readItem e s = .ok item r)
    (hnext : readItem e r = .ok next k) : Apart item next := by
  have hbroken := not_broken_of_readItem hnext
  refine ⟨getLast?_of_readItem he h (endsLine_of_readItem he h hbroken), fun ⟨hitem, hlines⟩ => ?_⟩
  obtain ⟨ts, hts, rfl⟩ | ⟨-, ⟨ts, -, rfl⟩ | ⟨-, i, -, rfl⟩⟩ := readItem_eq_ok.1 h
  · -- blank lines go on as long as there are any, so no others can follow
    obtain ⟨-, -, -, m, hstuck⟩ | ⟨-, rfl⟩ := BlankLines.endsLine_cases hts
    · obtain ⟨us, hus, rfl⟩ | ⟨-, ⟨us, -, rfl⟩ | ⟨-, i, -, rfl⟩⟩ := readItem_eq_ok.1 hnext
      · rw [hstuck] at hus
        cases hus
      · cases hlines
      · cases hlines
    · exact hbroken (.inl rfl)
  · cases hitem
  · cases hitem

end Document

namespace Reads

open Document

variable {e : Char} {s r : Text} {items : List Item}

theorem carries (h : Reads e s items r) : ∀ item ∈ items, item.Carries e :=
  h.forall_mem carries_of_readItem

theorem text_ne_nil (h : Reads e s items r) : ∀ item ∈ items, item.text ≠ [] :=
  h.forall_mem text_ne_nil_of_readItem

theorem isChain_apart (he : IsEscape e) (h : Reads e s items r) : items.IsChain Apart := by
  induction h with
  | nil => exact .nil
  | cons h hs ih =>
    cases hs with
    | nil => exact .singleton _
    | cons hnext _ => exact .cons_cons (apart_of_readItem he h hnext) ih

end Reads

/-! ## Directives -/

namespace Directive

variable {s r : Text} {ts : List Token}

theorem carries_of_body (e : Char) (h : body s = .ok ts r) :
    (Item.directive ⟨ts⟩).Carries e := by
  have hQ := Token.hereditary_carries e
  refine ⟨by simp, yields_body hQ.leaf (fun v => ?_) _ _ _ h⟩
  exact hQ.node rfl (List.forall_mem_singleton.2 (hQ.leaf _ _))

theorem text_ne_nil_of_body (h : body s = .ok ts r) : (Item.directive ⟨ts⟩).text ≠ [] := by
  intro hnil
  have htext : Token.textAll ts = [] := hnil
  have hlt := advances_body _ _ _ h
  rw [← lossless_body _ _ _ h, htext] at hlt
  exact Nat.lt_irrefl _ hlt

/-- A directive stands apart from what is read behind it. -/
theorem apart_of_body {next : Item} (h : body s = .ok ts r) (hr : ¬ Broken r) :
    Document.Apart (.directive ⟨ts⟩) next := by
  obtain ⟨-, hlast⟩ | ⟨-, hbroken⟩ := endsLine_cases h
  · exact ⟨hlast, by simp [Item.isBlankLines]⟩
  · exact absurd hbroken hr

end Directive

theorem Text.sameLetters_comm (s t : Text) : sameLetters s t = sameLetters t s :=
  Bool.beq_comm

namespace ReadsDirectives

open Document

variable {seen seen' : List Text} {s r : Text} {ds : List Directive}

theorem carries (e : Char) (h : ReadsDirectives seen s ds seen' r) :
    ∀ d ∈ ds, (Item.directive d).Carries e :=
  h.forall_mem (Directive.carries_of_body e)

theorem text_ne_nil (h : ReadsDirectives seen s ds seen' r) :
    ∀ d ∈ ds, (Item.directive d).text ≠ [] :=
  h.forall_mem Directive.text_ne_nil_of_body

/-- Directives are new with respect to what was there before, and to one another. -/
theorem pairwise_names (h : ReadsDirectives seen s ds seen' r) :
    (∀ d ∈ ds, d.isSeen seen = false) ∧
      ds.Pairwise fun a b => Text.sameLetters a.name b.name = false := by
  induction h with
  | nil => simp
  | cons _ hn _ ih =>
    obtain ⟨hseen, hpairwise⟩ := ih
    simp only [Directive.isSeen, List.any_cons, Bool.or_eq_false_iff] at hseen
    refine ⟨List.forall_mem_cons.2 ⟨hn, fun d hd => (hseen d hd).2⟩,
      .cons (fun d hd => ?_) hpairwise⟩
    rw [Text.sameLetters_comm]
    exact (hseen d hd).1

/-- Directives and the items behind them stand apart. -/
theorem isChain_apart {e : Char} {items : List Item} {k : Text} (he : IsEscape e)
    (h : ReadsDirectives seen s ds seen' r) (hitems : Reads e r items k) :
    (ds.map Item.directive ++ items).IsChain Apart := by
  induction h with
  | nil => exact hitems.isChain_apart he
  | cons h _ hs ih =>
    have hchain := ih hitems
    rw [List.map_cons, List.cons_append]
    cases hs with
    | nil =>
      cases hitems with
      | nil => exact .singleton _
      | cons hnext _ =>
        exact .cons_cons (Directive.apart_of_body h (not_broken_of_readItem hnext)) hchain
    | cons hnext _ _ =>
      exact .cons_cons (Directive.apart_of_body h (Directive.not_broken_of_body hnext)) hchain

end ReadsDirectives

/-! ## Documents -/

namespace Document

/-- The shape of a file that has been read. -/
structure WellShaped (d : Document) : Prop where
  /-- Directives come first, and there are no others. -/
  leading : ∃ rest, d.items = d.directives.map .directive ++ rest ∧
    ∀ item ∈ rest, ∀ directive, item ≠ .directive directive
  /-- No two directives have the same name, in any case. -/
  distinct : d.directives.Pairwise fun a b => Text.sameLetters a.name b.name = false
  nonempty : ∀ item ∈ d.items, item.text ≠ []
  /-- No blank lines follow on blank lines. -/
  maximal : d.items.IsChain fun a b => ¬ (a.isBlankLines = true ∧ b.isBlankLines = true)
  /-- All items but the last end with a line feed. -/
  terminated : ∀ item ∈ d.items.dropLast, item.text.getLast? = some '\n'
  /-- Instructions hold the escape character of the file, and so do those within instructions. -/
  escape_eq : (∀ i ∈ d.instructions, i.escape = d.escape) ∧
    ∀ item ∈ d.items, ∀ t ∈ Token.descendants item.parts, ∀ i, t.instruction? = some i →
      i.escape = d.escape

theorem forall_mem_dropLast_of_isChain {items : List Item} (h : items.IsChain Apart) :
    ∀ item ∈ items.dropLast, item.text.getLast? = some '\n' := by
  induction h with
  | nil | singleton => simp
  | cons_cons hapart _ ih => exact List.forall_mem_cons.2 ⟨hapart.1, ih⟩

theorem Layout.carries {s r : Text} {ds : List Directive} {seen : List Text} {items : List Item}
    (h : Layout s ds seen r items) :
    ∀ item ∈ ds.map .directive ++ items, item.Carries (selectedEscape ds) :=
  List.forall_mem_append.2 ⟨List.forall_mem_map.2 (h.directives.carries _), h.items.carries⟩

/-- **The shape of a file.**  The directives of a file that has been read come first and differ in
their names; no item is empty; no two neighbours are both blank lines; every item but the last
ends with a line feed; and all instructions, also deferred ones, hold the escape character of the
file. -/
theorem wellShaped_of_parse {s : Text} {d : Document} (h : parse s = .ok d) : d.WellShaped := by
  obtain ⟨ds, seen, r, items, rfl, hlayout⟩ := parse_iff.1 h
  have hdirectives : directives ⟨ds.map .directive ++ items⟩ = ds :=
    leadingDirectives_append ds hlayout.items.not_directive
  have hescape := hlayout.escape_eq
  have hchain := hlayout.directives.isChain_apart hlayout.isEscape hlayout.items
  refine ⟨⟨items, by rw [hdirectives], hlayout.items.not_directive⟩, ?_, ?_, ?_, ?_, ?_, ?_⟩
  · rw [hdirectives]
    exact hlayout.directives.pairwise_names.2
  · exact List.forall_mem_append.2 ⟨List.forall_mem_map.2 hlayout.directives.text_ne_nil,
      hlayout.items.text_ne_nil⟩
  · exact hchain.imp fun _ _ hapart => hapart.2
  · exact forall_mem_dropLast_of_isChain hchain
  · intro i hi
    obtain ⟨item, hitem, heq⟩ := List.mem_filterMap.1 hi
    have hitem' : item = .instruction i := by
      cases item <;> cases heq
      rfl
    rw [hescape]
    exact (hlayout.carries item hitem).1 i hitem'
  · intro item hitem t ht i hi
    obtain ⟨u, hu, ht⟩ := Token.mem_descendants.1 ht
    rw [hescape]
    exact (hlayout.carries item hitem).2 u hu t ht i hi

/-- Two directives, of which one selects the backtick, a deferred instruction, and a comment that
has no line end. -/
theorem wellShaped_of_parse_deferred :
    ∃ d, parse "# Escape=`\n# check=a\n\n\nFROM a\nONBUILD RUN b `\n\n c\n\n#".toList = .ok d ∧
      d.escape = '`' ∧ d.items.length = 7 ∧ d.WellShaped := by
  obtain ⟨d, hd, hescape, hlength⟩ :
      ∃ d, parse "# Escape=`\n# check=a\n\n\nFROM a\nONBUILD RUN b `\n\n c\n\n#".toList = .ok d ∧
        d.escape = '`' ∧ d.items.length = 7 := by
    refine ⟨⟨[.directive ⟨[.leaf .commentMark ['#'], .blank [' '], .identifier "Escape".toList,
          .symbol ['='], .node (.literal false) [.fragment ['`']], .newline ['\n']]⟩,
        .directive ⟨[.leaf .commentMark ['#'], .blank [' '], .identifier "check".toList,
          .symbol ['='], .node (.literal false) [.fragment ['a']], .newline ['\n']]⟩,
        .blankLines ⟨[.newline ['\n'], .newline ['\n']]⟩,
        .instruction ⟨.stage, '`', [.leaf .keyword "FROM".toList, .blank [' '],
          .node (.literal true) [.fragment ['a']], .newline ['\n']]⟩,
        .instruction ⟨.onBuild, '`', [.leaf .keyword "ONBUILD".toList, .blank [' '],
          .node (.instruction .command '`') [.leaf .keyword "RUN".toList, .blank [' '],
            .node (.literal false) [.fragment "b ".toList,
              .node .continuation [.symbol ['`'], .newline ['\n']], .newline ['\n'],
              .fragment " c".toList], .newline ['\n']]]⟩,
        .blankLines ⟨[.newline ['\n']]⟩,
        .comment ⟨[.leaf .commentMark ['#']]⟩]⟩, ?_, ?_, rfl⟩
    · decide +kernel
    · decide +kernel
  exact ⟨d, hd, hescape, hlength, wellShaped_of_parse hd⟩

end Document

end Containerfile
