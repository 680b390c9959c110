import Containerfile.Instruction.Command
import Containerfile.Proofs.Directives
import Containerfile.Proofs.Idempotence

/-!
# What a resolution leaves alone

Resolution is meant for files that people look after, so it must not touch their layout.  A resolved
file has the same items in the same order, and the same tokens in the same places: only references
have become fragments with their values.  Comments, blank lines, directives, keywords, separators,
quotes and line continuations are what they were, and so are deferred instructions and the commands
of `RUN`, `CMD` and `ENTRYPOINT`, in which a dollar sign belongs to a shell.

If escape characters are dropped, the fragments of literals that allow references lose them, and
nothing else changes.

## Main definitions

* `Token.Rewritten`, `Item.Rewritten` — what a resolution may make of a token and of an item.
* `Token.StandsAt`, `Token.IsFixed` — the place of a token, and the tokens that stay in theirs.
* `Token.Inert` — a token that no substitution changes.

## Main results

* `Scope.Step.rewritten`, `Scope.Resolves.rewritten` — steps and runs rewrite items so.
* `Document.resolve_rewritten` — resolution touches nothing but references.
-/

namespace Containerfile

/-! ## Tokens -/

namespace Token

/-- What a resolution may make of a token: only references are replaced, each by one fragment, and
lists keep their lengths.  If escape characters are dropped, `removed` is the escape character,
and the fragments of a literal that allows references may lose it; `here` is what a fragment in
this place may lose. -/
inductive Rewritten (removed : Option Char) : (here : Option Char) → Token → Token → Prop where
  | same (here : Option Char) (t : Token) : Rewritten removed here t t
  | reference (here : Option Char) (parts : List Token) (value : Text) :
      Rewritten removed here (.node .reference parts) (.fragment value)
  | fragment (escape : Char) (s : Text) :
      Rewritten removed (some escape) (.fragment s) (.fragment (Expansion.dropEscapes escape s))
  | literal (here : Option Char) {ts us : List Token}
      (h : List.Forall₂ (Rewritten removed removed) ts us) :
      Rewritten removed here (.node (.literal true) ts) (.node (.literal true) us)
  | keyValue (here : Option Char) {ts us : List Token}
      (h : List.Forall₂ (Rewritten removed none) ts us) :
      Rewritten removed here (.node .keyValue ts) (.node .keyValue us)
  | execForm (here : Option Char) {ts us : List Token}
      (h : List.Forall₂ (Rewritten removed none) ts us) :
      Rewritten removed here (.node .execForm ts) (.node .execForm us)

/-- The token `v` stands at an address, which is a list of indices from the top down, and not
within a reference. -/
inductive StandsAt (v : Token) : List Token → List Nat → Prop where
  | top {ts : List Token} {i : Nat} (h : ts[i]? = some v) : StandsAt v ts [i]
  | inside {ts : List Token} {i : Nat} {t : Token} {address : List Nat} (h : ts[i]? = some t)
      (ht : t.reference? = none) (hv : StandsAt v t.children address) : StandsAt v ts (i :: address)

/-- A token that stays as it is in its place: a leaf, a continuation, a comment or a deferred
instruction, but no fragment if escape characters are dropped. -/
def IsFixed (removed : Option Char) (t : Token) : Prop :=
  (t.reference? = none ∧ t.literal? = none ∧ t.keyValue? = none ∧ t.execForm? = none) ∧
    (removed = none ∨ t.leafText? .fragment = none)

variable {removed here : Option Char} {t u v : Token} {ts us : List Token}

theorem Rewritten.eq_of_isFixed (h : Rewritten removed here t u)
    (hhere : here = none ∨ here = removed) (ht : t.IsFixed removed) : u = t := by
  obtain ⟨⟨hreference, hliteral, hkeyValue, hexecForm⟩, hfragment⟩ := ht
  cases h with
  | same => rfl
  | reference => cases hreference
  | literal => cases hliteral
  | keyValue => cases hkeyValue
  | execForm => cases hexecForm
  | fragment escape s =>
    obtain hnone | hnone := hfragment
    · subst hnone
      obtain hhere | hhere := hhere <;> cases hhere
    · cases hnone

theorem forall₂_imp_of_mem {R S : Token → Token → Prop} (h : List.Forall₂ R ts us)
    (himp : ∀ t ∈ ts, ∀ u, R t u → S t u) : List.Forall₂ S ts us := by
  induction h with
  | nil => exact .nil
  | cons hR _ ih =>
    rw [List.forall_mem_cons] at himp
    exact .cons (himp.1 _ hR) (ih himp.2)

theorem exists_of_forall₂ {R : Token → Token → Prop} (h : List.Forall₂ R ts us) {i : Nat}
    (hi : ts[i]? = some t) : ∃ u, us[i]? = some u ∧ R t u := by
  induction h generalizing i with
  | nil => simp at hi
  | cons hR _ ih =>
    cases i with
    | zero =>
      cases hi
      exact ⟨_, rfl, hR⟩
    | succ i => exact ih hi

theorem not_standsAt_nil {address : List Nat} : ¬ StandsAt v [] address := by
  rintro (hi | hi) <;> simp at hi

/-- **Fixed tokens stay in their places**, at any depth. -/
theorem StandsAt.of_rewritten {address : List Nat} (hv : StandsAt v ts address)
    (hfixed : v.IsFixed removed) (hhere : here = none ∨ here = removed)
    (h : List.Forall₂ (Rewritten removed here) ts us) : StandsAt v us address := by
  induction hv generalizing here us with
  | top hi =>
    obtain ⟨u, hu, hrewritten⟩ := exists_of_forall₂ h hi
    rw [hrewritten.eq_of_isFixed hhere hfixed] at hu
    exact .top hu
  | inside hi ht hv ih =>
    obtain ⟨u, hu, hrewritten⟩ := exists_of_forall₂ h hi
    cases hrewritten with
    | same => exact .inside hu ht hv
    | reference => cases ht
    | fragment => exact absurd hv not_standsAt_nil
    | literal _ hts => exact .inside hu rfl (ih (.inr rfl) hts)
    | keyValue _ hts => exact .inside hu rfl (ih (.inl rfl) hts)
    | execForm _ hts => exact .inside hu rfl (ih (.inl rfl) hts)

end Token

/-! ## Substitutions -/

/-- The character that fragments lose, if escape characters are dropped. -/
def removedEscape (removeEscapes : Bool) (escape : Char) : Option Char :=
  if removeEscapes then some escape else none

namespace Expansion

variable {x : Expansion} {t u : Token} {ts us : List Token}

theorem SubstitutesPart.rewritten (h : SubstitutesPart x t u) :
    Token.Rewritten (removedEscape x.removeEscapes x.escape)
      (removedEscape x.removeEscapes x.escape) t u := by
  cases h with
  | reference => exact .reference _ _ _
  | same => exact .same _ _
  | fragment s =>
    unfold fragmentText removedEscape
    split
    · exact .fragment _ _
    · exact .same _ _

/-- A substitution rewrites a token as a resolution may. -/
theorem Substitutes.rewritten (h : Substitutes x t u) :
    Token.Rewritten (removedEscape x.removeEscapes x.escape) none t u := by
  induction t using Token.induction generalizing u with
  | leaf kind s =>
    cases h with
    | same => exact .same _ _
  | node kind ts ih =>
    have hall {us : List Token} (h : x.substituteAll ts = .ok us) :
        List.Forall₂ (Token.Rewritten (removedEscape x.removeEscapes x.escape) none) ts us :=
      Token.forall₂_imp_of_mem (substituteAll_eq_ok.1 h) fun t ht u => ih t ht
    cases h with
    | reference => exact .reference _ _ _
    | @literal l m h =>
      obtain ⟨parts, hparts, rfl⟩ := except_map_eq_ok.1 h
      obtain ⟨references, ts⟩ := l
      cases references with
      | false =>
        cases hparts
        exact .same _ _
      | true => exact .literal _ ((substituteParts_eq_ok.1 hparts).imp fun _ _ h => h.rewritten)
    | @keyValue p q h => exact .keyValue _ (hall h)
    | execForm h => exact .execForm _ (hall h)
    | same => exact .same _ _

end Expansion

/-! ## Commands -/

/-- A token in which a substitution finds nothing to do, whatever the variables are. -/
inductive Token.Inert : Token → Prop where
  | literal (ts : List Token) : Inert (.node (.literal false) ts)
  | execForm {ts : List Token} (h : ∀ t ∈ ts, Inert t) : Inert (.node .execForm ts)
  | aside {t : Token} (ht : t.reference? = none ∧ t.literal? = none ∧ t.keyValue? = none ∧
      t.execForm? = none) : Inert t

theorem Token.Inert.substitutes {t : Token} (h : t.Inert) (x : Expansion) : x.Substitutes t t := by
  induction h with
  | literal ts => exact .literal (l := ⟨false, ts⟩) (m := ⟨false, ts⟩) rfl
  | execForm h ih =>
    exact .execForm (Expansion.substituteAll_eq_ok.2 (List.forall₂_same.2 ih))
  | aside ht => exact .same ht

theorem Token.Inert.eq_of_substitutes {t u : Token} {x : Expansion} (ht : t.Inert)
    (h : x.Substitutes t u) : u = t :=
  Except.ok.inj
    ((Expansion.substitutes_iff.1 h).symm.trans (Expansion.substitutes_iff.1 (ht.substitutes x)))

theorem Token.inert_leaf (kind : LeafKind) (s : Text) : (leaf kind s).Inert :=
  .aside ⟨rfl, rfl, rfl, rfl⟩

theorem separatorReaders_inert {Q : Token → Prop} (hQ : ∀ t : Token, t.Inert → Q t) (e : Char) :
    SeparatorReaders (Yields Q) e := by
  refine separatorReaders_yields (fun kind s => hQ _ (Token.inert_leaf kind s))
    (fun _ _ hkind _ => ?_) e
  obtain rfl | rfl := hkind <;> exact hQ _ (.aside ⟨rfl, rfl, rfl, rfl⟩)

/-- There is nothing to replace in an array that allows no references. -/
theorem ExecForm.inert_body (e : Char) : Yields Token.Inert (body e false) := by
  have hreaders := separatorReaders_inert (Q := Token.Inert) (fun _ h => h) e
  refine hreaders.arrayBody (.exactly (Token.inert_leaf _ _)) (.exactly (Token.inert_leaf _ _))
    (.exactly (Token.inert_leaf _ _)) ?_
  refine hreaders.seq (hreaders.seq (.when _) ?_) (hreaders.optional hreaders.separator)
  exact .node (.trivial _) fun ts _ => .literal ts

namespace Instruction

variable {e : Char} {s r : Text} {i j : Instruction}

/-- Of a command, there is something to replace in the flags only. -/
theorem inert_of_commandBody {k : Keyword} {ts : List Token} (h : commandBody e k s = .ok ts r) :
    ∀ t ∈ ts, t.keyValue? = none → t.Inert := by
  have hreaders := separatorReaders_inert (Q := fun t => t.keyValue? = none → t.Inert)
    (fun _ h _ => h) e
  have hflag : Yields (fun t => t.keyValue? = none → t.Inert) (KeyValue.flag e) :=
    .node (.trivial _) fun ts _ => nofun
  have harray : Yields (fun t => t.keyValue? = none → t.Inert) (ExecForm.grammar e false) :=
    .node (ExecForm.inert_body e) fun ts hts _ => .execForm hts
  have hline : Yields (fun t => t.keyValue? = none → t.Inert)
      (Literal.grammar (Style.line.withReferences false) e) :=
    .node (.trivial _) fun ts _ _ => .literal ts
  have hfinish := hreaders.finish (.when _) (yields_newline fun s _ => Token.inert_leaf _ s)
  refine hreaders.seq (hreaders.seq ?_ ?_) hfinish _ _ _ h
  · exact hreaders.seq (hreaders.start k) (hreaders.many (hreaders.argument hflag))
  · exact hreaders.either (hreaders.seq (hreaders.argument harray) (.when _))
      (hreaders.required _ hline)

theorem inert_of_read (h : read e s = .ok i r) (hform : i.form = .command) :
    ∀ t ∈ i.parts, t.keyValue? = none → t.Inert := by
  obtain ⟨k, ts, -, hbody, rfl⟩ := read_eq_ok.1 h
  cases k with
  | RUN | CMD | ENTRYPOINT => exact inert_of_commandBody hbody
  | _ => cases hform

end Instruction

/-! ## Items -/

/-- What a resolution may make of an item. -/
structure Item.Rewritten (removed : Option Char) (item out : Item) : Prop where
  /-- The item stays what it is. -/
  eq_withParts : out = item.withParts out.parts
  parts : List.Forall₂ (Token.Rewritten removed none) item.parts out.parts
  /-- Comments, blank lines and directives are not touched. -/
  still : item.instruction? = none → out = item
  /-- Nor is a command, but for its flags. -/
  command : ∀ i, item.instruction? = some i → i.form = .command →
    ∀ (k : Nat) (t : Token), item.parts[k]? = some t → t.keyValue? = none → out.parts[k]? = some t
  /-- Nor is a deferred instruction. -/
  trigger : out.instruction?.bind Instruction.trigger? = item.instruction?.bind Instruction.trigger?
  /-- Leaves and separators stay in their places, however deep. -/
  fixed : ∀ (t : Token) (address : List Nat), t.StandsAt item.parts address → t.IsFixed removed →
    t.StandsAt out.parts address

theorem Item.Rewritten.of_still {removed : Option Char} {item : Item}
    (hitem : item.instruction? = none) : item.Rewritten removed item where
  eq_withParts := by cases item <;> rfl
  parts := List.forall₂_same.2 fun t _ => .same none t
  still _ := rfl
  command i hi := by
    rw [hitem] at hi
    cases hi
  trigger := rfl
  fixed _ _ hv _ := hv

/-- There is something to replace in a command's flags only. -/
def Item.InertCommand (item : Item) : Prop :=
  ∀ i, item.instruction? = some i → i.form = .command → ∀ t ∈ i.parts, t.keyValue? = none → t.Inert

theorem Token.Rewritten.instruction?_eq {removed here : Option Char} {t u : Token}
    (h : t.Rewritten removed here u) : u.instruction? = t.instruction? := by
  cases h <;> rfl

namespace Instruction

variable {removed : Option Char} {i j : Instruction}

/-- What becomes of an instruction is settled by its parts. -/
theorem rewritten_of_parts {ts : List Token}
    (h : List.Forall₂ (Token.Rewritten removed none) i.parts ts)
    (hcommand : i.form = .command →
      List.Forall₂ (fun t u => t.keyValue? = none → u = t) i.parts ts) :
    (Item.instruction i).Rewritten removed (.instruction (i.withParts ts)) where
  eq_withParts := rfl
  parts := h
  still hnone := by cases hnone
  command k hk hform n t hn ht := by
    cases hk
    obtain ⟨u, hu, heq⟩ := Token.exists_of_forall₂ (hcommand hform) hn
    exact heq ht ▸ hu
  trigger := Expansion.findSome?_of_forall₂ (fun _ _ h => h.instruction?_eq) h
  fixed t address hv hfixed := hv.of_rewritten hfixed (.inl rfl) h

theorem rewritten_of_expand {x : Expansion} (h : i.expand x = .ok j)
    (hi : (Item.instruction i).InertCommand) :
    (Item.instruction i).Rewritten (removedEscape x.removeEscapes x.escape) (.instruction j) := by
  obtain ⟨hparts, hj⟩ := expand_eq_ok.1 h
  rw [Expansion.substituteAll_eq_ok] at hparts
  rw [hj]
  refine rewritten_of_parts (hparts.imp fun _ _ h => h.rewritten) fun hform => ?_
  exact Token.forall₂_imp_of_mem hparts fun t ht u h hnone =>
    (hi i rfl hform t ht hnone).eq_of_substitutes h

end Instruction

namespace Scope

variable {setting : Setting} {scope after : Scope} {item out : Item} {items outs : List Item}

theorem Declares.rewritten {ts us : List Token} (h : Declares setting scope ts us after) :
    List.Forall₂ (Token.Rewritten (removedEscape setting.removeEscapes setting.escape) none) ts
      us := by
  induction h with
  | nil => exact .nil
  | aside _ _ ih => exact .cons (.same _ _) ih
  | @declaration scope after t p parts ts us ht hp _ ih =>
    obtain rfl := Token.keyValue?_eq_some.1 ht
    have hsubst : (setting.expansion scope.visible).Substitutes p.token (KeyValue.token ⟨parts⟩) :=
      .keyValue hp
    exact .cons hsubst.rewritten ih

/-- **A step replaces references** and does nothing else to its item. -/
theorem Step.rewritten (h : Step setting scope item out after) (hitem : item.InertCommand) :
    item.Rewritten (removedEscape setting.removeEscapes setting.escape) out := by
  cases h with
  | still hnone => exact .of_still hnone
  | arg hform h =>
    exact Instruction.rewritten_of_parts (declare_eq_ok.1 h).rewritten (by simp [hform])
  | opening _ h | env _ h | other _ h => exact Instruction.rewritten_of_expand h hitem

theorem Resolves.rewritten (h : Resolves setting scope items outs after)
    (hitems : ∀ item ∈ items, item.InertCommand) :
    List.Forall₂ (Item.Rewritten (removedEscape setting.removeEscapes setting.escape)) items
      outs := by
  induction h with
  | nil => exact .nil
  | cons hx _ ih =>
    obtain ⟨hitem, hitems⟩ := List.forall_mem_cons.1 hitems
    exact .cons (hx.rewritten hitem) (ih hitems)

end Scope

/-! ## Files -/

theorem Document.inertCommand_of_readItem {e : Char} {s r : Text} {item : Item}
    (h : readItem e s = .ok item r) : item.InertCommand := by
  obtain ⟨ts, -, rfl⟩ | ⟨-, ⟨ts, -, rfl⟩ | ⟨-, i, hi, rfl⟩⟩ := readItem_eq_ok.1 h
  · exact fun _ h => by cases h
  · exact fun _ h => by cases h
  · rintro j hj hform
    cases hj
    exact Instruction.inert_of_read hi hform

namespace Document

theorem inertCommand_of_parse {s : Text} {d : Document} (h : parse s = .ok d) :
    ∀ item ∈ d.items, item.InertCommand := by
  obtain ⟨ds, seen, r, items, rfl, hlayout⟩ := parse_iff.1 h
  refine List.forall_mem_append.2 ⟨?_, hlayout.items.forall_mem inertCommand_of_readItem⟩
  exact List.forall_mem_map.2 fun _ _ _ h => by cases h

/-- **Resolution touches nothing but references.**  If a file that has been read can be resolved,
then the answer is the text of a file with the same items, in which references and, on demand,
escape characters have been replaced.  All else is in its place. -/
theorem resolve_rewritten {s t : Text} {d : Document} {buildArgs : Bindings}
    {options : ResolutionOptions} (h : parse s = .ok d)
    (ht : (d.resolve buildArgs options).answer = .ok t) :
    (d.resolved buildArgs options).text = t ∧
      List.Forall₂ (Item.Rewritten (removedEscape options.removeEscapes d.escape)) d.items
        (d.resolved buildArgs options).items := by
  obtain ⟨htext, after, hrun⟩ := resolve_eq_ok ht
  exact ⟨htext, hrun.rewritten (inertCommand_of_parse h)⟩

/-- The flag of a command loses its reference and its escape character; the command and the trigger
keep theirs. -/
theorem resolve_rewritten_flag :
    ∃ d, parse "RUN --mount=\\a$B echo $B\nONBUILD USER $B\n".toList = .ok d ∧
      (d.resolve .empty { removeEscapes := true }).answer =
        .ok "RUN --mount=a echo $B\nONBUILD USER $B\n".toList ∧
      (d.resolved .empty { removeEscapes := true }).text =
        "RUN --mount=a echo $B\nONBUILD USER $B\n".toList ∧
      List.Forall₂ (Item.Rewritten (some '\\')) d.items
        (d.resolved .empty { removeEscapes := true }).items := by
  let reference : Token := .node .reference [.leaf .referenceMark ['$'], .leaf .identifier ['B']]
  obtain ⟨d, hd, hescape, h⟩ :
      ∃ d, parse "RUN --mount=\\a$B echo $B\nONBUILD USER $B\n".toList = .ok d ∧ d.escape = '\\' ∧
        (d.resolve .empty { removeEscapes := true }).answer =
          .ok "RUN --mount=a echo $B\nONBUILD USER $B\n".toList :=
    ⟨⟨[.instruction ⟨.command, '\\', [.leaf .keyword "RUN".toList, .blank [' '],
          .node .keyValue [.symbol "--".toList, .leaf .identifier "mount".toList, .symbol ['='],
            .node (.literal true) [.fragment "\\a".toList, reference]], .blank [' '],
          .node (.literal false) [.fragment "echo $B".toList], .newline ['\n']]⟩,
        .instruction ⟨.onBuild, '\\', [.leaf .keyword "ONBUILD".toList, .blank [' '],
          .node (.instruction .generic '\\') [.leaf .keyword "USER".toList, .blank [' '],
            .node (.literal true) [reference], .newline ['\n']]]⟩]⟩,
      by decide +kernel, by decide +kernel, by decide +kernel⟩
  obtain ⟨htext, hitems⟩ := resolve_rewritten hd h
  rw [hescape] at hitems
  exact ⟨d, hd, h, htext, hitems⟩

end Document

end Containerfile
