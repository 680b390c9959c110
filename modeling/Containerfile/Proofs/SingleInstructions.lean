import Containerfile.Proofs.Idempotence

/-!
# One instruction at a time

An instruction can be resolved alone, in the scope that it has in the file.  The resolution then
runs up to the instruction and stops, so it is the first part of the resolution of the file: it
fails only where that fails, and it gives the instruction that the resolved file has in this
place.

In place, this can be done for one instruction after another.  Every such resolution but the first
meets a file in which some instructions are resolved already.  A resolved instruction leaves the
scope behind it that the unresolved one leaves, so the run over such a file is still the run over
the file that it came from, and its outcome is the same.  Neither the order of the instructions
counts, nor how often each is taken.

## Main definitions

* `Document.resolveInTurn` — instructions resolved in place, one after another.

## Main results

* `Document.resolveInstruction_agrees` — one instruction is resolved as it is in the whole file.
* `Document.resolveInTurn_eq` — all instructions in turn, in any order, make the resolved file.
-/

namespace Containerfile

/-! ## Positions -/

namespace Document

variable {p n : Nat} {items : List Item}

/-- The index of an instruction: as many instructions stand before it as its number says. -/
theorem instructionIndexIn_eq_some :
    instructionIndexIn p items = some n ↔
      (∃ i, items[n]? = some (.instruction i)) ∧ (mk (items.take n)).instructions.length = p := by
  induction items generalizing p n with
  | nil => simp [instructionIndexIn]
  | cons item items ih =>
    cases hitem : item.instruction? with
    | none =>
      have hne : ∀ i, item ≠ .instruction i := by
        rintro i rfl
        cases hitem
      cases n with
      | zero => simp [instructionIndexIn, hitem, hne]
      | succ n => simpa [instructionIndexIn, hitem, instructions] using ih
    | some i =>
      obtain rfl : item = .instruction i := by
        cases item <;> cases hitem
        rfl
      cases n with
      | zero => cases p <;> simp [instructionIndexIn, Item.instruction?, instructions]
      | succ n =>
        cases p with
        | zero => simp [instructionIndexIn, Item.instruction?, instructions]
        | succ p => simpa [instructionIndexIn, Item.instruction?, instructions] using ih

/-- The instruction with a number, by the index of its item. -/
theorem instructions_getElem? {i : Instruction} (hi : items[n]? = some (.instruction i))
    (hp : (mk (items.take n)).instructions.length = p) : (mk items).instructions[p]? = some i := by
  obtain ⟨hlt, hget⟩ := List.getElem?_eq_some_iff.1 hi
  have hsplit : (mk items).instructions = (mk (items.take n)).instructions ++
      i :: (mk (items.drop (n + 1))).instructions := by
    conv_lhs => rw [← List.take_append_drop n items, List.drop_eq_getElem_cons hlt, hget]
    simp [instructions, Item.instruction?]
  rw [hsplit, ← hp]
  simp

theorem exists_instructionIndexIn_iff :
    (∃ n, instructionIndexIn p items = some n) ↔ p < (mk items).instructions.length := by
  constructor
  · rintro ⟨n, hn⟩
    obtain ⟨⟨i, hi⟩, hp⟩ := instructionIndexIn_eq_some.1 hn
    exact (List.getElem?_eq_some_iff.1 (instructions_getElem? hi hp)).1
  · intro h
    induction items generalizing p with
    | nil => simp [instructions] at h
    | cons item items ih =>
      cases hitem : item.instruction? with
      | none =>
        obtain ⟨n, hn⟩ := ih (p := p) (by simpa [instructions, hitem] using h)
        exact ⟨n + 1, by simp [instructionIndexIn, hitem, hn]⟩
      | some i =>
        cases p with
        | zero => exact ⟨0, by simp [instructionIndexIn, hitem]⟩
        | succ p =>
          obtain ⟨n, hn⟩ := ih (p := p) (by simpa [instructions, hitem] using h)
          exact ⟨n + 1, by simp [instructionIndexIn, hitem, hn]⟩

end Document

/-! ## Runs over a part of the items -/

namespace Scope

open Document

variable {setting : Setting} {scope after : Scope} {items outs : List Item} {n : Nat}

/-- A run over the first items is the first part of the run over all. -/
theorem Resolves.take (h : Resolves setting scope items outs after) (n : Nat) :
    ∃ mid, Resolves setting scope (items.take n) (outs.take n) mid := by
  induction h generalizing n with
  | nil scope => exact ⟨scope, by simpa using .nil scope⟩
  | @cons scope mid after item out items outs hx hs ih =>
    cases n with
    | zero => exact ⟨scope, .nil scope⟩
    | succ n =>
      obtain ⟨mid, hmid⟩ := ih n
      exact ⟨mid, .cons hx hmid⟩

/-- A failure among the first items is the failure of all. -/
theorem resolveItems_append_error {xs : List Item} {e : Error} (ys : List Item)
    (h : resolveItems setting scope xs = .error e) :
    resolveItems setting scope (xs ++ ys) = .error e := by
  induction xs generalizing scope with
  | nil => cases h
  | cons x xs ih =>
    rw [List.cons_append, resolveItems]
    obtain hx | ⟨⟨out, mid⟩, hx, h⟩ := bind_eq_error.1 h
    · exact bind_eq_error.2 (.inl hx)
    · obtain hxs | ⟨outs, -, h⟩ := bind_eq_error.1 h
      · exact bind_eq_error.2 (.inr ⟨(out, mid), hx, bind_eq_error.2 (.inl (ih hxs))⟩)
      · cases h

/-- Resolved items are instructions where the items are. -/
theorem Resolves.instructionIndexIn_eq (h : Resolves setting scope items outs after) (p : Nat) :
    instructionIndexIn p outs = instructionIndexIn p items := by
  induction h generalizing p with
  | nil => rfl
  | cons hx _ ih =>
    cases hx with
    | still hnone => simp [instructionIndexIn, hnone, ih]
    | opening | arg | env | other => cases p <;> simp [instructionIndexIn, Item.instruction?, ih]

/-- Items that are no instructions are the same in the resolved file. -/
theorem Resolves.getElem?_eq (h : Resolves setting scope items outs after)
    (hn : ∀ i, outs[n]? ≠ some (.instruction i)) : items[n]? = outs[n]? := by
  induction h generalizing n with
  | nil => rfl
  | cons hx _ ih =>
    cases n with
    | zero =>
      cases hx with
      | still => rfl
      | opening | arg | env | other => simp at hn
    | succ n => simpa using ih (n := n) (by simpa using hn)

theorem Resolves.leadingDirectives_eq (h : Resolves setting scope items outs after) :
    leadingDirectives outs = leadingDirectives items := by
  induction h with
  | nil => rfl
  | @cons _ _ _ item _ _ _ hx _ ih =>
    cases hx with
    | still => cases item <;> simp [leadingDirectives, ih]
    | opening | arg | env | other => rfl

/-- A run stays a run with the same outcome if a resolved item takes the place of the one that it
came from. -/
theorem Resolves.set (h : Resolves setting scope items outs after)
    (hsetting : setting.removeEscapes = false) {out : Item} (hout : outs[n]? = some out) :
    Resolves setting scope (items.set n out) outs after := by
  induction h generalizing n with
  | nil => simp at hout
  | @cons scope mid after item first items outs hx hs ih =>
    cases n with
    | zero =>
      obtain rfl : first = out := by simpa using hout
      exact .cons (hx.again hsetting) hs
    | succ n => exact .cons hx (ih (by simpa using hout))

end Scope

namespace Document

open Scope

variable {d : Document} {buildArgs : Bindings} {options : ResolutionOptions} {outs : List Item}
  {after : Scope} {p n : Nat}

/-! ## One instruction -/

/-- An item resolved alone is the one of the resolved file. -/
theorem resolvedItem_of_resolves
    (h : Resolves (d.setting buildArgs options) .start d.items outs after) (n : Nat) :
    d.resolvedItem buildArgs options n = .ok outs[n]? := by
  obtain ⟨mid, hmid⟩ := h.take (n + 1)
  simp [resolvedItem, resolveItems_eq_ok.2 ⟨mid, hmid⟩, Except.map]

/-- An item fails alone only with the error of the whole file. -/
theorem resolve_of_resolvedItem_error {e : Error}
    (h : d.resolvedItem buildArgs options n = .error e) :
    (d.resolve buildArgs options).answer = .error e := by
  have hall := resolveItems_append_error (d.items.drop (n + 1)) (except_map_eq_error.1 h)
  rw [List.take_append_drop] at hall
  simp [resolve, hall, Except.map, Resolution.settle]

/-- What resolving an instruction alone can do. -/
theorem resolveInstruction_cases (hn : d.instructionIndex? p = some n) :
    (∃ e, d.resolvedItem buildArgs options n = .error e ∧
      d.resolveInstruction p buildArgs options = ⟨.error e, d⟩) ∨
    ∃ out, d.resolvedItem buildArgs options n = .ok (some out) ∧
      d.resolveInstruction p buildArgs options =
        ⟨.ok out.text, if options.inline then ⟨d.items.set n out⟩ else d⟩ := by
  cases hr : d.resolvedItem buildArgs options n with
  | error e => exact .inl ⟨e, rfl, by simp [resolveInstruction, hn, hr]⟩
  | ok found =>
    obtain ⟨outs, houts, rfl⟩ := except_map_eq_ok.1 hr
    obtain ⟨after, hrun⟩ := resolveItems_eq_ok.1 houts
    obtain ⟨⟨i, hi⟩, -⟩ := instructionIndexIn_eq_some.1 hn
    obtain ⟨out, _, _, -, -, hout⟩ := hrun.exists_step (i := n) (by simpa using hi)
    rw [hout] at hr ⊢
    exact .inr ⟨out, rfl, by simp [resolveInstruction, hn, hr]⟩

/-- In a file that can be resolved, an instruction alone becomes the one of the resolved file. -/
theorem resolveInstruction_of_resolves (hn : d.instructionIndex? p = some n)
    (h : Resolves (d.setting buildArgs options) .start d.items outs after) :
    ∃ j, outs[n]? = some (.instruction j) ∧ (mk outs).instructions[p]? = some j ∧
      d.resolveInstruction p buildArgs options =
        ⟨.ok j.text, if options.inline then ⟨d.items.set n (.instruction j)⟩ else d⟩ := by
  have hn' : instructionIndexIn p outs = some n := by
    rw [h.instructionIndexIn_eq]
    exact hn
  obtain ⟨⟨j, hj⟩, hp⟩ := instructionIndexIn_eq_some.1 hn'
  refine ⟨j, hj, instructions_getElem? hj hp, ?_⟩
  simp [resolveInstruction, hn, resolvedItem_of_resolves h, hj, Item.text, Item.parts,
    Instruction.text]

/-- **One instruction is resolved as it is in the whole file.**  If the file can be resolved, so
can each of its instructions, and the answer is the text of the instruction with this number in
the resolved file.  An error that one instruction meets is the error of the whole file.  Done in
place, a success changes the instruction with this number and no other item; it becomes the one of
the resolved file, if the whole file can be resolved. -/
theorem resolveInstruction_agrees (hp : p < d.instructions.length) :
    (∀ t, (d.resolve buildArgs options).answer = .ok t →
      ∃ j, (d.resolved buildArgs options).instructions[p]? = some j ∧
        (d.resolveInstruction p buildArgs options).answer = .ok j.text) ∧
    (∀ e, (d.resolveInstruction p buildArgs options).answer = .error e →
      (d.resolve buildArgs options).answer = .error e) ∧
    ∀ t, options.inline = true → (d.resolveInstruction p buildArgs options).answer = .ok t →
      ∃ n, (∃ i, d.items[n]? = some (.instruction i)) ∧
        (mk (d.items.take n)).instructions.length = p ∧
        (d.resolveInstruction p buildArgs options).target.items.length = d.items.length ∧
        (∀ m, m ≠ n →
          (d.resolveInstruction p buildArgs options).target.items[m]? = d.items[m]?) ∧
        ∀ t', (d.resolve buildArgs options).answer = .ok t' →
          (d.resolveInstruction p buildArgs options).target.items[n]? =
            (d.resolved buildArgs options).items[n]? := by
  obtain ⟨n, hn⟩ : ∃ n, d.instructionIndex? p = some n :=
    exists_instructionIndexIn_iff.2 hp
  obtain ⟨⟨i, hi⟩, hcount⟩ := instructionIndexIn_eq_some.1 hn
  refine ⟨fun t ht => ?_, fun e he => ?_, fun t hinline ht => ⟨n, ⟨i, hi⟩, hcount, ?_⟩⟩
  · obtain ⟨-, after, hrun⟩ := resolve_eq_ok ht
    obtain ⟨j, -, hj, heq⟩ := resolveInstruction_of_resolves hn hrun
    exact ⟨j, hj, by rw [heq]⟩
  · obtain ⟨e', he', heq⟩ | ⟨out, -, heq⟩ := resolveInstruction_cases hn
    · rw [heq] at he
      cases he
      exact resolve_of_resolvedItem_error he'
    · rw [heq] at he
      cases he
  · obtain ⟨e, -, heq⟩ | ⟨out, hout, heq⟩ := resolveInstruction_cases hn
    · rw [heq] at ht
      cases ht
    · have hlt : n < d.items.length := (List.getElem?_eq_some_iff.1 hi).1
      simp only [heq, hinline, if_true]
      refine ⟨by simp, fun m hm => by simp [Ne.symm hm], fun t' ht' => ?_⟩
      obtain ⟨-, after, hrun⟩ := resolve_eq_ok ht'
      rw [resolvedItem_of_resolves hrun, Except.ok.injEq] at hout
      simp [hlt, hout]

/-- An instruction that refers to one of its stage becomes the one of the resolved file, and one
that insists on a variable fails as the file does. -/
theorem resolveInstruction_agrees_last :
    (∃ (d : Document) (j : Instruction) (n : Nat),
      parse "FROM a\nENV V=1\nUSER $V\n".toList = .ok d ∧ 2 < d.instructions.length ∧
      (d.resolved .empty { inline := true }).instructions[2]? = some j ∧
      (d.resolveInstruction 2 .empty { inline := true }).answer = .ok j.text ∧
      (∀ m, m ≠ n →
        (d.resolveInstruction 2 .empty { inline := true }).target.items[m]? = d.items[m]?) ∧
      (d.resolveInstruction 2 .empty { inline := true }).target.items[n]? =
        (d.resolved .empty { inline := true }).items[n]?) ∧
    ∃ d e, parse "FROM a\nUSER $\x7bV:?w\x7d\n".toList = .ok d ∧ 1 < d.instructions.length ∧
      (d.resolveInstruction 1 .empty {}).answer = .error e ∧
      (d.resolve .empty {}).answer = .error e := by
  let opening : Item := .instruction ⟨.stage, '\\', [.leaf .keyword "FROM".toList, .blank [' '],
    .node (.literal true) [.fragment ['a']], .newline ['\n']]⟩
  constructor
  · obtain ⟨d, hd, hp, h⟩ : ∃ d, parse "FROM a\nENV V=1\nUSER $V\n".toList = .ok d ∧
        2 < d.instructions.length ∧ (d.resolve .empty { inline := true }).answer =
          .ok "FROM a\nENV V=1\nUSER 1\n".toList :=
      ⟨⟨[opening,
          .instruction ⟨.env, '\\', [.leaf .keyword "ENV".toList, .blank [' '],
            .node .keyValue [.leaf .identifier ['V'], .symbol ['='],
              .node (.literal true) [.fragment ['1']]], .newline ['\n']]⟩,
          .instruction ⟨.generic, '\\', [.leaf .keyword "USER".toList, .blank [' '],
            .node (.literal true) [.node .reference [.leaf .referenceMark ['$'],
              .leaf .identifier ['V']]], .newline ['\n']]⟩]⟩,
        by decide +kernel, by decide +kernel, by decide +kernel⟩
    obtain ⟨j, hj, hanswer⟩ := (resolveInstruction_agrees hp).1 _ h
    obtain ⟨n, -, -, -, hothers, hsame⟩ := (resolveInstruction_agrees hp).2.2 _ rfl hanswer
    exact ⟨d, j, n, hd, hp, hj, hanswer, hothers, hsame _ h⟩
  · obtain ⟨d, hd, hp, h⟩ : ∃ d, parse "FROM a\nUSER $\x7bV:?w\x7d\n".toList = .ok d ∧
        1 < d.instructions.length ∧
        (d.resolveInstruction 1 .empty {}).answer = .error (.variableUnset ['V'] ['w']) :=
      ⟨⟨[opening,
          .instruction ⟨.generic, '\\', [.leaf .keyword "USER".toList, .blank [' '],
            .node (.literal true) [.node .reference [.leaf .referenceMark ['$'], .symbol ['\x7b'],
              .leaf .identifier ['V'], .leaf .operator ":?".toList,
              .node (.literal true) [.fragment ['w']], .symbol ['\x7d']]],
            .newline ['\n']]⟩]⟩,
        by decide +kernel, by decide +kernel, by decide +kernel⟩
    exact ⟨d, _, hd, hp, h, (resolveInstruction_agrees hp).2.1 _ h⟩

/-! ## All instructions in turn -/

/-- Resolves the instructions with the given numbers in place, one after another. -/
def resolveInTurn (buildArgs : Bindings) (options : ResolutionOptions) :
    Document → List Nat → Except Error Document
  | d, [] => .ok d
  | d, p :: ps => do
    let resolution := d.resolveInstruction p buildArgs options
    let _ ← resolution.answer
    resolveInTurn buildArgs options resolution.target ps

/-- One step in place: one more item is the one of the resolved file, and the run over all items
still leads there. -/
theorem resolveInstruction_step (hinline : options.inline = true)
    (hremove : options.removeEscapes = false)
    (h : Resolves (d.setting buildArgs options) .start d.items outs after)
    (hn : instructionIndexIn p outs = some n) :
    ∃ t items, d.resolveInstruction p buildArgs options = ⟨.ok t, ⟨items⟩⟩ ∧
      Resolves ((mk items).setting buildArgs options) .start items outs after ∧
      items[n]? = outs[n]? ∧ ∀ m, m ≠ n → items[m]? = d.items[m]? := by
  rw [h.instructionIndexIn_eq] at hn
  obtain ⟨j, hj, -, heq⟩ := resolveInstruction_of_resolves hn h
  rw [hinline, if_pos rfl] at heq
  have hset := h.set hremove hj
  -- The escape character is read off the directives, which no resolution changes.
  have hsetting : (mk (d.items.set n (.instruction j))).setting buildArgs options =
      d.setting buildArgs options := by
    simp [setting, escape, directives, ← hset.leadingDirectives_eq, h.leadingDirectives_eq]
  obtain ⟨⟨i, hi⟩, -⟩ := instructionIndexIn_eq_some.1 hn
  have hlt : n < d.items.length := (List.getElem?_eq_some_iff.1 hi).1
  exact ⟨j.text, _, heq, hsetting ▸ hset, by simp [hlt, hj], fun m hm => by simp [Ne.symm hm]⟩

/-- What instructions in turn make of a file that can be resolved: an item that was not among them
is the one of this file, and every other item is the one of the resolved file. -/
theorem exists_resolveInTurn (hinline : options.inline = true)
    (hremove : options.removeEscapes = false)
    (h : Resolves (d.setting buildArgs options) .start d.items outs after) {ps : List Nat}
    (hps : ∀ p ∈ ps, ∃ n, instructionIndexIn p outs = some n) :
    ∃ items, resolveInTurn buildArgs options d ps = .ok ⟨items⟩ ∧
      ∀ n, items[n]? = outs[n]? ∨
        items[n]? = d.items[n]? ∧ ∀ p ∈ ps, instructionIndexIn p outs ≠ some n := by
  induction ps generalizing d with
  | nil => exact ⟨d.items, rfl, fun n => .inr ⟨rfl, by simp⟩⟩
  | cons p ps ih =>
    obtain ⟨⟨n, hn⟩, hps⟩ := List.forall_mem_cons.1 hps
    obtain ⟨t, mids, heq, hrun, hplace, hothers⟩ := resolveInstruction_step hinline hremove h hn
    obtain ⟨items, hitems, hplaces⟩ := ih hrun hps
    refine ⟨items, by simpa [resolveInTurn, heq, bind, Except.bind] using hitems, fun m => ?_⟩
    obtain hm | ⟨hm, hlater⟩ := hplaces m
    · exact .inl hm
    · -- No later turn comes to this place, so it is as the first turn left it.
      by_cases hmn : m = n
      · subst hmn
        exact .inl (hm.trans hplace)
      · refine .inr ⟨hm.trans (hothers m hmn), List.forall_mem_cons.2 ⟨?_, hlater⟩⟩
        simp [hn, Ne.symm hmn]

/-- **The order does not count.**  Instructions resolved in place one after another, in any order
and each as often as one likes, make the file that one resolution in place makes, if every
instruction is among them, escape characters are kept and the file can be resolved. -/
theorem resolveInTurn_eq {t : Text} (hinline : options.inline = true)
    (hremove : options.removeEscapes = false) (h : (d.resolve buildArgs options).answer = .ok t)
    {ps : List Nat} (hps : ∀ p, p ∈ ps ↔ p < d.instructions.length) :
    resolveInTurn buildArgs options d ps = .ok (d.resolve buildArgs options).target := by
  obtain ⟨-, after, hrun⟩ := resolve_eq_ok h
  rw [target_eq_resolved hinline]
  have hpositions : ∀ p ∈ ps, ∃ n,
      instructionIndexIn p (d.resolved buildArgs options).items = some n := by
    intro p hp
    rw [hrun.instructionIndexIn_eq]
    exact exists_instructionIndexIn_iff.2 ((hps p).1 hp)
  obtain ⟨items, hitems, hplaces⟩ := exists_resolveInTurn hinline hremove hrun hpositions
  rw [hitems]
  refine congrArg (fun items => Except.ok (mk items)) (List.ext_getElem? fun n => ?_)
  obtain hn | ⟨hn, hnone⟩ := hplaces n
  · exact hn
  · rw [hn]
    refine hrun.getElem?_eq fun i hi => ?_
    have hindex := instructionIndexIn_eq_some.2 ⟨⟨i, hi⟩, rfl⟩
    refine hnone _ ((hps _).2 ?_) hindex
    rw [hrun.instructionIndexIn_eq] at hindex
    exact exists_instructionIndexIn_iff.1 ⟨n, hindex⟩

/-- An instruction before those that it depends on, and once more behind them. -/
theorem resolveInTurn_eq_repeated :
    ∃ d, parse "FROM a\nENV V=1\nENV W=$V\nUSER $W\n".toList = .ok d ∧
      (d.resolve .empty { inline := true }).answer =
        .ok "FROM a\nENV V=1\nENV W=1\nUSER 1\n".toList ∧
      resolveInTurn .empty { inline := true } d [3, 1, 3, 0, 2] =
        .ok (d.resolve .empty { inline := true }).target := by
  let assignment (name : Char) (value : Token) : Item := .instruction ⟨.env, '\\',
    [.leaf .keyword "ENV".toList, .blank [' '],
      .node .keyValue [.leaf .identifier [name], .symbol ['='], .node (.literal true) [value]],
      .newline ['\n']]⟩
  let reference (name : Char) : Token :=
    .node .reference [.leaf .referenceMark ['$'], .leaf .identifier [name]]
  obtain ⟨d, hd, h, hlength⟩ :
      ∃ d, parse "FROM a\nENV V=1\nENV W=$V\nUSER $W\n".toList = .ok d ∧
      (d.resolve .empty { inline := true }).answer =
        .ok "FROM a\nENV V=1\nENV W=1\nUSER 1\n".toList ∧
      d.instructions.length = 4 :=
    ⟨⟨[.instruction ⟨.stage, '\\', [.leaf .keyword "FROM".toList, .blank [' '],
          .node (.literal true) [.fragment ['a']], .newline ['\n']]⟩,
        assignment 'V' (.fragment ['1']), assignment 'W' (reference 'V'),
        .instruction ⟨.generic, '\\', [.leaf .keyword "USER".toList, .blank [' '],
          .node (.literal true) [reference 'W'], .newline ['\n']]⟩]⟩,
      by decide +kernel, by decide +kernel, by decide +kernel⟩
  have hps : ∀ p, p ∈ [3, 1, 3, 0, 2] ↔ p < d.instructions.length := by
    intro p
    rw [hlength]
    simp
    omega
  exact ⟨d, hd, h, resolveInTurn_eq rfl rfl h hps⟩

end Document

end Containerfile
