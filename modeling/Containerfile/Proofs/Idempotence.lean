import Containerfile.Proofs.Resolution
import Containerfile.Proofs.Substitution

/-!
# Resolving again

A substitution leaves no reference behind that another one would find: what it leaves is *resolved*.
In a resolved token a substitution that keeps escape characters finds nothing to do, whatever the
variables are.  A file that has been resolved in place is therefore the same file after each further
resolution, also with other values from the caller.

What an item hands on to the next ones can be read off the resolved item alone.  A resolved item
thus stands for the one that it came from: it leaves the same scope behind.

## Main definitions

* `Token.Resolved`, `Item.Resolved` — no reference is left that a substitution would find.
* `Scope.behind` — the scope behind a resolved item.

## Main results

* `Scope.Step.resolved`, `Scope.step_of_resolved` — steps lead to resolved items, and end there.
* `Document.resolve_resolve` — resolution in place is idempotent, whatever the caller gives.
-/

namespace Containerfile

/-! ## Tokens -/

/-- A token in which a substitution finds no reference. -/
inductive Token.Resolved : Token → Prop where
  | literal {references : Bool} {ts : List Token}
      (h : references = true → ∀ t ∈ ts, t.reference? = none) :
      Resolved (.node (.literal references) ts)
  | keyValue {ts : List Token} (h : ∀ t ∈ ts, Resolved t) : Resolved (.node .keyValue ts)
  | execForm {ts : List Token} (h : ∀ t ∈ ts, Resolved t) : Resolved (.node .execForm ts)
  /-- Leaves, continuations, comments and deferred instructions are not looked into. -/
  | aside {t : Token} (ht : t.reference? = none ∧ t.literal? = none ∧ t.keyValue? = none ∧
      t.execForm? = none) : Resolved t

/-- What holds of every right-hand side that goes with a member of the left list holds of all
members of the right list. -/
theorem forall_of_forall₂ {R : Token → Token → Prop} {Q : Token → Prop} {ts us : List Token}
    (h : List.Forall₂ R ts us) (hQ : ∀ t ∈ ts, ∀ u, R t u → Q u) : ∀ u ∈ us, Q u := by
  induction h with
  | nil => simp
  | cons hu _ ih =>
    rw [List.forall_mem_cons] at hQ ⊢
    exact ⟨hQ.1 _ hu, ih hQ.2⟩

namespace Expansion

variable {x y : Expansion} {t u : Token} {ts us : List Token}

theorem SubstitutesPart.reference?_eq_none (h : SubstitutesPart x t u) : u.reference? = none := by
  cases h with
  | reference | fragment => rfl
  | same ht => exact ht.1

theorem substitutesPart_self (hx : x.removeEscapes = false) (ht : t.reference? = none) :
    SubstitutesPart x t t := by
  by_cases hf : t.leafText? .fragment = none
  · exact .same ⟨ht, hf⟩
  · cases t with
    | leaf kind s =>
      have hkind : kind = .fragment := by
        by_contra hne
        simp [Token.leafText?, hne] at hf
      subst hkind
      simpa [fragmentText, hx, Token.fragment] using SubstitutesPart.fragment (x := x) s
    | node kind ts => exact absurd rfl hf

/-- A substitution leaves no reference that it would find. -/
theorem Substitutes.resolved (h : Substitutes x t u) : u.Resolved := by
  induction t using Token.induction generalizing u with
  | leaf kind s =>
    cases h with
    | same ht => exact .aside ht
  | node kind ts ih =>
    cases h with
    | reference h => exact .aside ⟨rfl, rfl, rfl, rfl⟩
    | @literal l m h =>
      obtain ⟨parts, hparts, rfl⟩ := except_map_eq_ok.1 h
      refine .literal fun (hreferences : l.references = true) => ?_
      rw [substituteLiteral, if_pos hreferences, substituteParts_eq_ok] at hparts
      exact forall_of_forall₂ hparts fun _ _ _ h => h.reference?_eq_none
    | @keyValue p q h =>
      exact .keyValue (forall_of_forall₂ (substituteAll_eq_ok.1 h) fun t ht _ => ih t ht)
    | execForm h =>
      exact .execForm (forall_of_forall₂ (substituteAll_eq_ok.1 h) fun t ht _ => ih t ht)
    | same ht => exact .aside ht

/-- A substitution that keeps escape characters has nothing to do in a resolved token. -/
theorem substitutes_self (hx : x.removeEscapes = false) (h : t.Resolved) : Substitutes x t t := by
  induction h with
  | @literal references ts h =>
    refine .literal (l := ⟨references, ts⟩) (m := ⟨references, ts⟩)
      (except_map_eq_ok.2 ⟨ts, ?_, rfl⟩)
    cases references with
    | false => rfl
    | true =>
      exact substituteParts_eq_ok.2
        (List.forall₂_same.2 fun t ht => substitutesPart_self hx (h rfl t ht))
  | @keyValue ts h ih =>
    exact .keyValue (p := ⟨ts⟩) (q := ⟨ts⟩) (substituteAll_eq_ok.2 (List.forall₂_same.2 ih))
  | execForm h ih => exact .execForm (substituteAll_eq_ok.2 (List.forall₂_same.2 ih))
  | aside ht => exact .same ht

theorem resolved_of_substituteAll (h : x.substituteAll ts = .ok us) : ∀ u ∈ us, u.Resolved :=
  forall_of_forall₂ (substituteAll_eq_ok.1 h) fun _ _ _ => Substitutes.resolved

theorem substituteAll_self (hx : x.removeEscapes = false) (h : ∀ t ∈ ts, t.Resolved) :
    x.substituteAll ts = .ok ts :=
  substituteAll_eq_ok.2 (List.forall₂_same.2 fun t ht => substitutes_self hx (h t ht))

end Expansion

/-! ## Items -/

/-- An instruction in which a resolution finds no reference.  Of an `ARG` only the declarations are
looked into. -/
def Instruction.Resolved (i : Instruction) : Prop :=
  if i.form = .arg then ∀ p ∈ i.keyValues, p.token.Resolved else ∀ t ∈ i.parts, t.Resolved

theorem Instruction.resolved_of_expand {x : Expansion} {i j : Instruction} (h : i.expand x = .ok j)
    (hform : i.form ≠ .arg) : j.form = i.form ∧ j.Resolved := by
  obtain ⟨hparts, hj⟩ := expand_eq_ok.1 h
  have hform' : j.form = i.form := by
    rw [hj]
    rfl
  rw [Resolved, if_neg (hform' ▸ hform)]
  exact ⟨hform', Expansion.resolved_of_substituteAll hparts⟩

/-- An item in which a resolution finds no reference. -/
def Item.Resolved : Item → Prop
  | .instruction i => i.Resolved
  | _ => True

namespace Scope

variable {setting : Setting} {scope after : Scope} {item out : Item} {items outs : List Item}
  {ts us : List Token}

/-- The scope behind resolved declarations. -/
def declared (setting : Setting) : Scope → List KeyValue → Scope
  | scope, [] => scope
  | scope, p :: ps =>
    declared setting
      (scope.withVisible (scope.visible.insert p.key (declaredValue setting scope p))) ps

/-- The scope behind a resolved item. -/
def behind (setting : Setting) (scope : Scope) : Item → Scope
  | .instruction i =>
    match i.form with
    | .stage => ⟨scope.globals, some .empty⟩
    | .arg => scope.declared setting i.keyValues
    | .env => scope.assign i.assignments
    | _ => scope
  | _ => scope

/-- Declarations become resolved ones, from which the scope behind them can be read off. -/
theorem Declares.resolved (h : Declares setting scope ts us after) :
    (∀ p ∈ us.filterMap Token.keyValue?, p.token.Resolved) ∧
      after = scope.declared setting (us.filterMap Token.keyValue?) := by
  induction h with
  | nil => exact ⟨by simp, rfl⟩
  | aside ht _ ih => simpa [ht] using ih
  | @declaration scope after t p parts ts us _ hp _ ih =>
    have hresolved : (KeyValue.token ⟨parts⟩).Resolved :=
      .keyValue (Expansion.resolved_of_substituteAll hp)
    exact ⟨List.forall_mem_cons.2 ⟨hresolved, ih.1⟩, ih.2⟩

/-- Resolved declarations stay as they are. -/
theorem declares_self (hsetting : setting.removeEscapes = false)
    (h : ∀ p ∈ ts.filterMap Token.keyValue?, p.token.Resolved) :
    Declares setting scope ts ts (scope.declared setting (ts.filterMap Token.keyValue?)) := by
  induction ts generalizing scope with
  | nil => exact .nil scope
  | cons t ts ih =>
    cases ht : t.keyValue? with
    | none =>
      rw [List.filterMap_cons_none ht] at h ⊢
      exact .aside ht (ih h)
    | some p =>
      rw [List.filterMap_cons_some ht, List.forall_mem_cons] at h
      rw [List.filterMap_cons_some ht]
      have hparts : (setting.expansion scope.visible).substituteAll p.parts = .ok p.parts := by
        refine Expansion.substituteAll_self hsetting fun u hu => ?_
        cases h.1 with
        | keyValue h => exact h u hu
        | aside hp => cases hp.2.2.1
      obtain rfl := Token.keyValue?_eq_some.1 ht
      exact .declaration ht hparts (ih h.2)

/-- **A step leads to a resolved item**, from which the scope behind it can be read off. -/
theorem Step.resolved (h : Step setting scope item out after) :
    out.Resolved ∧ after = scope.behind setting out := by
  cases h with
  | still hnone =>
    cases item with
    | instruction => cases hnone
    | comment | blankLines | directive => exact ⟨trivial, rfl⟩
  | @opening i j hform h =>
    obtain ⟨hj, hresolved⟩ := Instruction.resolved_of_expand h (by simp [hform])
    exact ⟨hresolved, by simp [behind, hj, hform]⟩
  | @arg i parts after hform h =>
    have hform' : (i.withParts parts).form = .arg := hform
    simp only [Item.Resolved, Instruction.Resolved, behind, hform', if_true]
    exact (declare_eq_ok.1 h).resolved
  | @env i j hform h =>
    obtain ⟨hj, hresolved⟩ := Instruction.resolved_of_expand h (by simp [hform])
    exact ⟨hresolved, by simp [behind, hj, hform]⟩
  | @other i j hform h =>
    obtain ⟨hj, hresolved⟩ := Instruction.resolved_of_expand h hform.2.1
    refine ⟨hresolved, ?_⟩
    rw [← hj] at hform
    cases hj : j.form <;> simp_all [behind]

/-- **A resolved item stays as it is**, whatever the scope is. -/
theorem step_of_resolved (hsetting : setting.removeEscapes = false) (h : item.Resolved) :
    Step setting scope item item (scope.behind setting item) := by
  cases item with
  | instruction i =>
    by_cases harg : i.form = .arg
    · have hparts : ∀ p ∈ i.keyValues, p.token.Resolved := by
        simpa [Item.Resolved, Instruction.Resolved, harg] using h
      simp only [behind, harg]
      exact .arg harg (declare_eq_ok.2 (declares_self hsetting hparts))
    · have hparts : ∀ t ∈ i.parts, t.Resolved := by
        simpa [Item.Resolved, Instruction.Resolved, harg] using h
      have hself : ∀ b, i.expand (setting.expansion b) = .ok i := fun b =>
        Instruction.expand_eq_ok.2 ⟨Expansion.substituteAll_self hsetting hparts, rfl⟩
      cases hform : i.form with
      | arg => exact absurd hform harg
      | stage => simpa [behind, hform] using Step.opening hform (hself _)
      | env => simpa [behind, hform] using Step.env hform (hself _)
      | label | command | onBuild | generic =>
        simpa [behind, hform] using Step.other (by simp [hform]) (hself _)
  | comment | blankLines | directive => exact .still rfl

/-- A resolved item stands for the one that it came from: it leaves the same scope behind. -/
theorem Step.again (h : Step setting scope item out after)
    (hsetting : setting.removeEscapes = false) : Step setting scope out out after := by
  obtain ⟨hout, rfl⟩ := h.resolved
  exact step_of_resolved hsetting hout

theorem Resolves.resolved (h : Resolves setting scope items outs after) :
    ∀ out ∈ outs, out.Resolved := by
  induction h with
  | nil => simp
  | cons h _ ih => exact List.forall_mem_cons.2 ⟨h.resolved.1, ih⟩

theorem exists_resolves_self (hsetting : setting.removeEscapes = false)
    (h : ∀ item ∈ items, item.Resolved) : ∃ after, Resolves setting scope items items after := by
  induction items generalizing scope with
  | nil => exact ⟨scope, .nil scope⟩
  | cons item items ih =>
    obtain ⟨hitem, hitems⟩ := List.forall_mem_cons.1 h
    obtain ⟨after, hs⟩ := ih hitems
    exact ⟨after, .cons (step_of_resolved hsetting hitem) hs⟩

end Scope

/-! ## Documents -/

namespace Document

open Scope

variable {d : Document} {buildArgs : Bindings} {options : ResolutionOptions} {t : Text}

/-- What a run over all items makes of a resolution. -/
theorem resolve_of_resolves {outs : List Item} {after : Scope}
    (h : Resolves (d.setting buildArgs options) .start d.items outs after) :
    d.resolve buildArgs options = ⟨.ok (textOf outs), if options.inline then ⟨outs⟩ else d⟩ := by
  simp [resolve, resolveItems_eq_ok.2 ⟨after, h⟩, Except.map, Resolution.settle, text]

/-- What a resolution in place leaves is the resolved file. -/
theorem target_eq_resolved (hinline : options.inline = true) :
    (d.resolve buildArgs options).target = d.resolved buildArgs options := by
  obtain ⟨inline, removeEscapes⟩ := options
  cases hinline
  rfl

/-- **Resolution in place is idempotent**, whatever the caller gives the second time: a file that
has been resolved, with escape characters kept, is resolved without an error to the same text, and
it stays as it is. -/
theorem resolve_resolve {b₁ b₂ : Bindings} (hinline : options.inline = true)
    (hremove : options.removeEscapes = false) (h : (d.resolve b₁ options).answer = .ok t) :
    (d.resolve b₁ options).target.resolve b₂ options = ⟨.ok t, (d.resolve b₁ options).target⟩ := by
  obtain ⟨htext, after, hrun⟩ := resolve_eq_ok h
  rw [target_eq_resolved hinline]
  have hself : ∃ after', Resolves ((d.resolved b₁ options).setting b₂ options) .start
      (d.resolved b₁ options).items (d.resolved b₁ options).items after' :=
    exists_resolves_self hremove hrun.resolved
  obtain ⟨after', hself⟩ := hself
  rw [resolve_of_resolves hself, htext, ite_self]

/-- A value that looks like a reference, and one that would fail, is not resolved later. -/
theorem resolve_resolve_inserted :
    ∃ d, parse "FROM a\nARG V=1\nUSER $V\n".toList = .ok d ∧
      (d.resolve ⟨[(['V'], some "$\x7bW:?w\x7d".toList)]⟩ { inline := true }).target.resolve
          ⟨[(['V'], some ['2'])]⟩ { inline := true } =
        ⟨.ok "FROM a\nARG V=1\nUSER $\x7bW:?w\x7d\n".toList,
          (d.resolve ⟨[(['V'], some "$\x7bW:?w\x7d".toList)]⟩ { inline := true }).target⟩ := by
  obtain ⟨d, hd, h⟩ : ∃ d, parse "FROM a\nARG V=1\nUSER $V\n".toList = .ok d ∧
      (d.resolve ⟨[(['V'], some "$\x7bW:?w\x7d".toList)]⟩ { inline := true }).answer =
        .ok "FROM a\nARG V=1\nUSER $\x7bW:?w\x7d\n".toList :=
    ⟨⟨[.instruction ⟨.stage, '\\', [.leaf .keyword "FROM".toList, .blank [' '],
          .node (.literal true) [.fragment ['a']], .newline ['\n']]⟩,
        .instruction ⟨.arg, '\\', [.leaf .keyword "ARG".toList, .blank [' '],
          .node .keyValue [.leaf .identifier ['V'], .symbol ['='],
            .node (.literal true) [.fragment ['1']]], .newline ['\n']]⟩,
        .instruction ⟨.generic, '\\', [.leaf .keyword "USER".toList, .blank [' '],
          .node (.literal true) [.node .reference [.leaf .referenceMark ['$'],
            .leaf .identifier ['V']]], .newline ['\n']]⟩]⟩, by decide +kernel, by decide +kernel⟩
  exact ⟨d, hd, resolve_resolve rfl rfl h⟩

end Document

end Containerfile
