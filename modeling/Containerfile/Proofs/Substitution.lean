import Containerfile.Expansion
import Containerfile.Instruction.Pairs
import Containerfile.Proofs.Readers
import Mathlib.Data.List.Forall2

/-!
# What a substitution does to a token

A substitution replaces references, goes into literals, pairs and arrays, and leaves every other
token alone.  `Expansion.Substitutes` says so, and the views of an instruction follow from it: a
resolved instruction has the same names as before, and for each literal the expanded one.

## Main definitions

* `Expansion.Substitutes` — a token and what a substitution makes of it.
* `Expansion.SubstitutesPart` — the same for the parts of a literal.
* `Literal.Expands`, `KeyValue.Expands` — the same for literals and pairs.
* `Instruction.assigned` — the names that an `ENV` assigns, with the literals of their values.

## Main results

* `Expansion.substituteAll_eq_mapM`, `Expansion.substituteAll_eq_ok` — a list of tokens is
  substituted token by token.
* `Instruction.assignments_of_expand` — what an `ENV` assigns once it is resolved.
-/

namespace Containerfile

/-- The literal `m` is the literal `l` with its references replaced. -/
def Literal.Expands (x : Expansion) (l m : Literal) : Prop :=
  l.expand x = .ok m

/-- The pair `q` is the pair `p` with its references replaced. -/
def KeyValue.Expands (x : Expansion) (p q : KeyValue) : Prop :=
  x.substituteAll p.parts = .ok q.parts

theorem Token.keyValue?_eq_some {t : Token} {p : KeyValue} :
    t.keyValue? = some p ↔ t = p.token := by
  constructor
  · intro h
    cases t with
    | leaf => cases h
    | node kind ts => cases kind <;> cases h; rfl
  · rintro rfl
    rfl

theorem Token.literal?_eq_some {t : Token} {l : Literal} : t.literal? = some l ↔ t = l.token := by
  constructor
  · intro h
    cases t with
    | leaf => cases h
    | node kind ts => cases kind <;> cases h; rfl
  · rintro rfl
    rfl

namespace Expansion

variable {x : Expansion} {t u : Token} {ts us : List Token}

/-! ## Lists of tokens -/

theorem substituteAll_eq_mapM (x : Expansion) (ts : List Token) :
    x.substituteAll ts = ts.mapM x.substitute := by
  induction ts with
  | nil => rw [substituteAll, List.mapM_nil]; rfl
  | cons t ts ih => rw [substituteAll, List.mapM_cons, ih]

theorem substituteParts_eq_mapM (x : Expansion) (ts : List Token) :
    x.substituteParts ts = ts.mapM x.substitutePart := by
  induction ts with
  | nil => rw [substituteParts, List.mapM_nil]; rfl
  | cons t ts ih => rw [substituteParts, List.mapM_cons, ih]

/-- What treats a list token by token succeeds exactly if it does on each. -/
theorem mapM_eq_ok {R : Token → Token → Prop} {f : Token → Except Error Token}
    (hR : ∀ t u, R t u ↔ f t = .ok u) : ts.mapM f = .ok us ↔ List.Forall₂ R ts us := by
  induction ts generalizing us with
  | nil => simp [pure, Except.pure, eq_comm]
  | cons t ts ih =>
    rw [List.mapM_cons, bind_eq_ok, List.forall₂_cons_left_iff]
    constructor
    · rintro ⟨u, hu, h⟩
      obtain ⟨vs, hvs, h⟩ := bind_eq_ok.1 h
      cases h
      exact ⟨u, vs, (hR t u).2 hu, ih.1 hvs, rfl⟩
    · rintro ⟨u, vs, hu, hvs, rfl⟩
      exact ⟨u, (hR t u).1 hu, bind_eq_ok.2 ⟨vs, ih.2 hvs, rfl⟩⟩

/-! ## Tokens -/

/-- What a substitution does to a token. -/
inductive Substitutes (x : Expansion) : Token → Token → Prop where
  | reference {parts : List Token} {v : Text} (h : x.expand parts (x.expandWord parts) = .ok v) :
      Substitutes x (.node .reference parts) (.fragment v)
  | literal {l m : Literal} (h : l.Expands x m) : Substitutes x l.token m.token
  | keyValue {p q : KeyValue} (h : p.Expands x q) : Substitutes x p.token q.token
  | execForm {parts parts' : List Token} (h : x.substituteAll parts = .ok parts') :
      Substitutes x (.node .execForm parts) (.node .execForm parts')
  /-- Leaves, continuations, comments and deferred instructions stay as they are. -/
  | same {t : Token} (ht : t.reference? = none ∧ t.literal? = none ∧ t.keyValue? = none ∧
      t.execForm? = none) : Substitutes x t t

theorem substitutes_iff : Substitutes x t u ↔ x.substitute t = .ok u := by
  constructor
  · intro h
    cases h with
    | reference h => simp [substitute, h, Except.map]
    | @literal l m h =>
      obtain ⟨parts, hparts, rfl⟩ := except_map_eq_ok.1 h
      simp [Literal.token, substitute, hparts, Except.map]
    | keyValue h => simp [KeyValue.token, substitute, show x.substituteAll _ = _ from h, Except.map]
    | execForm h => simp [substitute, h, Except.map]
    | same ht =>
      obtain ⟨hr, hl, hp, he⟩ := ht
      cases t with
      | leaf kind s => rfl
      | node kind parts =>
        cases kind with
        | reference => cases hr
        | literal => cases hl
        | keyValue => cases hp
        | execForm => cases he
        | continuation | comment | instruction => rfl
  · intro h
    cases t with
    | leaf kind s =>
      cases h
      exact .same ⟨rfl, rfl, rfl, rfl⟩
    | node kind parts =>
      cases kind with
      | reference =>
        obtain ⟨v, hv, rfl⟩ := except_map_eq_ok.1 h
        exact .reference hv
      | literal references =>
        obtain ⟨parts', hparts, rfl⟩ := except_map_eq_ok.1 h
        exact .literal (l := ⟨references, parts⟩) (m := ⟨references, parts'⟩)
          (except_map_eq_ok.2 ⟨parts', hparts, rfl⟩)
      | keyValue =>
        obtain ⟨parts', hparts, rfl⟩ := except_map_eq_ok.1 h
        exact .keyValue (p := ⟨parts⟩) (q := ⟨parts'⟩) hparts
      | execForm =>
        obtain ⟨parts', hparts, rfl⟩ := except_map_eq_ok.1 h
        exact .execForm hparts
      | continuation | comment | instruction form escape =>
        cases h
        exact .same ⟨rfl, rfl, rfl, rfl⟩

/-- Tokens are substituted one by one. -/
theorem substituteAll_eq_ok :
    x.substituteAll ts = .ok us ↔ List.Forall₂ (Substitutes x) ts us := by
  rw [substituteAll_eq_mapM]
  exact mapM_eq_ok fun _ _ => substitutes_iff

/-! ## Parts of literals -/

/-- What a substitution does to a part of a literal. -/
inductive SubstitutesPart (x : Expansion) : Token → Token → Prop where
  | reference {parts : List Token} {v : Text} (h : x.expand parts (x.expandWord parts) = .ok v) :
      SubstitutesPart x (.node .reference parts) (.fragment v)
  | fragment (s : Text) : SubstitutesPart x (.fragment s) (.fragment (x.fragmentText s))
  /-- Quotes, continuations and comments stay as they are. -/
  | same {t : Token} (ht : t.reference? = none ∧ t.leafText? .fragment = none) :
      SubstitutesPart x t t

theorem substitutesPart_iff : SubstitutesPart x t u ↔ x.substitutePart t = .ok u := by
  constructor
  · intro h
    cases h with
    | reference h => simp [substitutePart, h, Except.map]
    | fragment s => simp [Token.fragment, substitutePart]
    | same ht =>
      obtain ⟨hr, hf⟩ := ht
      cases t with
      | leaf kind s => cases kind <;> first | rfl | simp [Token.leafText?] at hf
      | node kind parts => cases kind <;> first | rfl | cases hr
  · intro h
    cases t with
    | leaf kind s =>
      cases kind with
      | fragment =>
        cases h
        exact .fragment s
      | _ =>
        cases h
        exact .same ⟨rfl, rfl⟩
    | node kind parts =>
      cases kind with
      | reference =>
        obtain ⟨v, hv, rfl⟩ := except_map_eq_ok.1 h
        exact .reference hv
      | _ =>
        cases h
        exact .same ⟨rfl, rfl⟩

/-- The parts of a literal are substituted one by one. -/
theorem substituteParts_eq_ok :
    x.substituteParts ts = .ok us ↔ List.Forall₂ (SubstitutesPart x) ts us := by
  rw [substituteParts_eq_mapM]
  exact mapM_eq_ok fun _ _ => substitutesPart_iff

/-! ## Views -/

/-- A substitution leaves names alone. -/
theorem Substitutes.leafText?_identifier (h : Substitutes x t u) :
    u.leafText? .identifier = t.leafText? .identifier := by
  cases h <;> rfl

/-- A substitution leaves deferred instructions alone. -/
theorem Substitutes.instruction? (h : Substitutes x t u) : u.instruction? = t.instruction? := by
  cases h <;> rfl

theorem Substitutes.literal? (h : Substitutes x t u) :
    Option.Rel (Literal.Expands x) t.literal? u.literal? := by
  cases h with
  | literal h => exact .some h
  | same ht => rw [ht.2.1]; exact .none
  | reference | keyValue | execForm => exact .none

theorem Substitutes.keyValue? (h : Substitutes x t u) :
    Option.Rel (KeyValue.Expands x) t.keyValue? u.keyValue? := by
  cases h with
  | keyValue h => exact .some h
  | same ht => rw [ht.2.2.1]; exact .none
  | reference | literal | execForm => exact .none

/-- What a substitution keeps of each token, it keeps of the first token that has it. -/
theorem findSome?_of_forall₂ {α : Type} {R : Token → Token → Prop} {f : Token → Option α}
    (hf : ∀ t u, R t u → f u = f t) (h : List.Forall₂ R ts us) :
    us.findSome? f = ts.findSome? f := by
  induction h with
  | nil => rfl
  | cons hu _ ih => rw [List.findSome?_cons, List.findSome?_cons, hf _ _ hu, ih]

theorem findSome?_of_substituteAll {α : Type} {f : Token → Option α}
    (hf : ∀ t u, Substitutes x t u → f u = f t) (h : x.substituteAll ts = .ok us) :
    us.findSome? f = ts.findSome? f :=
  findSome?_of_forall₂ hf (substituteAll_eq_ok.1 h)

theorem firstLeaf?_identifier (h : x.substituteAll ts = .ok us) :
    Children.firstLeaf? .identifier us = Children.firstLeaf? .identifier ts :=
  findSome?_of_substituteAll (fun _ _ => Substitutes.leafText?_identifier) h

theorem firstLiteral? (h : x.substituteAll ts = .ok us) :
    Option.Rel (Literal.Expands x) (Children.firstLiteral? ts) (Children.firstLiteral? us) := by
  have hall := substituteAll_eq_ok.1 h
  clear h
  induction hall with
  | nil => exact .none
  | @cons t u ts us hu _ ih =>
    unfold Children.firstLiteral? at ih ⊢
    rw [List.findSome?_cons, List.findSome?_cons]
    have hrel := hu.literal?
    revert hrel
    generalize t.literal? = o
    generalize u.literal? = o'
    intro hrel
    cases hrel with
    | some h => exact .some h
    | none => exact ih

end Expansion

/-! ## Pairs and assignments -/

/-- What a literal, if there is one, says once its references are replaced. -/
def Expansion.valueOf? (x : Expansion) : Option Literal → Except Error (Option Text)
  | none => .ok none
  | some l => (l.expand x).map fun m => some m.value

theorem Expansion.valueOf?_of_rel {x : Expansion} {o o' : Option Literal}
    (h : Option.Rel (Literal.Expands x) o o') : x.valueOf? o = .ok (o'.map Literal.value) := by
  cases h with
  | none => rfl
  | some h => exact except_map_eq_ok.2 ⟨_, h, rfl⟩

namespace KeyValue

variable {x : Expansion} {p q : KeyValue}

theorem key_of_expands (h : p.Expands x q) : q.key = p.key := by
  unfold key
  rw [Expansion.firstLeaf?_identifier h]

theorem value?_of_expands (h : p.Expands x q) : x.valueOf? p.literal? = .ok q.value? :=
  Expansion.valueOf?_of_rel (Expansion.firstLiteral? h)

end KeyValue

namespace Instruction

variable {x : Expansion} {i j : Instruction}

/-- The names that an `ENV` assigns, with the literals of their values. -/
def assigned (i : Instruction) : List (Text × Option Literal) :=
  if i.isLegacy then [((Children.firstLeaf? .identifier i.parts).getD [], i.literal?)]
  else i.keyValues.map fun p => (p.key, p.literal?)

theorem expand_eq_ok :
    i.expand x = .ok j ↔ x.substituteAll i.parts = .ok j.parts ∧ j = i.withParts j.parts := by
  constructor
  · intro h
    obtain ⟨parts, hparts, rfl⟩ := except_map_eq_ok.1 h
    exact ⟨hparts, rfl⟩
  · rintro ⟨hparts, hj⟩
    exact except_map_eq_ok.2 ⟨_, hparts, hj.symm⟩

theorem keyValues_of_expand (h : i.expand x = .ok j) :
    List.Forall₂ (KeyValue.Expands x) i.keyValues j.keyValues :=
  List.rel_filterMap (fun _ _ h => h.keyValue?)
    (Expansion.substituteAll_eq_ok.1 (expand_eq_ok.1 h).1)

theorem isLegacy_of_expand (h : i.expand x = .ok j) : j.isLegacy = i.isLegacy := by
  have hall := Expansion.substituteAll_eq_ok.1 (expand_eq_ok.1 h).1
  unfold isLegacy
  generalize i.parts = ts at hall
  generalize j.parts = us at hall
  induction hall with
  | nil => rfl
  | cons hu _ ih =>
    rw [List.any_cons, List.any_cons, ih]
    cases hu <;> rfl

/-- What an `ENV` assigns once it is resolved: to each name, what its literal says once its
references are replaced. -/
theorem assignments_of_expand (h : i.expand x = .ok j) :
    List.Forall₂ (fun a b => b.1 = a.1 ∧ ∃ v, x.valueOf? a.2 = .ok v ∧ b.2 = v.getD [])
      i.assigned j.assignments := by
  obtain ⟨hparts, -⟩ := expand_eq_ok.1 h
  unfold assigned assignments
  rw [isLegacy_of_expand h]
  split
  · refine .cons ⟨?_, _, Expansion.valueOf?_of_rel (Expansion.firstLiteral? hparts), rfl⟩ .nil
    rw [Expansion.firstLeaf?_identifier hparts]
  · rw [List.forall₂_map_left_iff, List.forall₂_map_right_iff]
    refine (keyValues_of_expand h).imp fun p q hpq => ?_
    exact ⟨KeyValue.key_of_expands hpq, _, KeyValue.value?_of_expands hpq, rfl⟩

end Instruction

end Containerfile
