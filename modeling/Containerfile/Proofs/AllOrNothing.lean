import Containerfile.Proofs.SingleInstructions

/-!
# All or nothing

A resolution works on the text of its target and answers a text or an error; in place, it leaves
another target behind.  A failure can come after any number of references, instructions and
stages, so it matters that nothing of what was replaced until then shows.  For a literal, an
instruction, a file and one instruction of a file, the target afterwards is either the one from
before, or it is resolved throughout and reads as the answer says.  What is answered does not
depend on whether the resolution works in place.

## Main definitions

* `Resolution.AllOrNothing` — the target is left alone, or resolved throughout.

## Main results

* `Resolution.allOrNothing_settle` — a resolution that is settled at its end is of this kind.
* `Document.allOrNothing_resolveInstruction` — and so is that of one instruction of a file.
* `resolution_allOrNothing` — every resolution is.
-/

namespace Containerfile

namespace Resolution

variable {α : Type}

/-- A resolution of the target `before`, in place or not, leaves the target alone or resolves it
throughout.  `text` is what is answered about a target, and `Done` says that it is resolved. -/
structure AllOrNothing (text : α → Option Text) (Done : α → Prop) (before : α)
    (run : Bool → Resolution α) : Prop where
  of_error {inline : Bool} {e : Error} (h : (run inline).answer = .error e) :
    (run inline).target = before
  of_apart : (run false).target = before
  of_inline {t : Text} (h : (run true).answer = .ok t) :
    text (run true).target = some t ∧ Done (run true).target
  answer_eq : (run true).answer = (run false).answer

variable {text : α → Option Text} {Done : α → Prop} {before : α} {run : Bool → Resolution α}

/-- A resolution that works on a copy, and only at its end puts the copy in the place of its
target, is all or nothing. -/
theorem AllOrNothing.of_copy (copy : Except Error α)
    (herror : ∀ e, copy = .error e → ∀ inline, run inline = ⟨.error e, before⟩)
    (hok : ∀ a, copy = .ok a → ∃ t, text a = some t ∧ Done a ∧
      ∀ inline, run inline = ⟨.ok t, if inline then a else before⟩) :
    AllOrNothing text Done before run := by
  cases copy with
  | error e =>
    have hrun := herror e rfl
    exact {
      of_error := fun _ => by rw [hrun]
      of_apart := by rw [hrun]
      of_inline := fun h => by rw [hrun] at h; cases h
      answer_eq := by rw [hrun, hrun] }
  | ok a =>
    obtain ⟨t, htext, hdone, hrun⟩ := hok a rfl
    exact {
      of_error := fun h => by rw [hrun] at h; cases h
      of_apart := by rw [hrun, if_neg Bool.false_ne_true]
      of_inline := fun h => by
        rw [hrun] at h ⊢
        cases h
        exact ⟨htext, hdone⟩
      answer_eq := by rw [hrun, hrun] }

theorem allOrNothing_settle {text : α → Text} {remove : Bool} {copy : Except Error α}
    (hdone : ∀ a, copy = .ok a → Done a) :
    AllOrNothing (some ∘ text) Done before
      fun inline => settle ⟨inline, remove⟩ text before copy := by
  refine .of_copy copy (fun e he inline => ?_) fun a ha =>
    ⟨text a, rfl, hdone a ha, fun inline => ?_⟩
  · rw [he, settle]
  · rw [ha, settle]

end Resolution

open Resolution

/-! ## Literals and instructions -/

theorem Literal.allOrNothing_resolve (l : Literal) (escape : Char) (b : Bindings) (remove : Bool) :
    AllOrNothing (some ∘ text) (fun m => m.token.Resolved) l
      fun inline => l.resolve escape b ⟨inline, remove⟩ := by
  have hdone : ∀ m, l.expand ⟨escape, b, .empty, remove⟩ = .ok m → m.token.Resolved := by
    intro m hm
    exact (Expansion.Substitutes.literal hm).resolved
  exact allOrNothing_settle hdone

theorem Instruction.allOrNothing_resolve (i : Instruction) (b : Bindings) (remove : Bool) :
    AllOrNothing (some ∘ text) (fun j => ∀ t ∈ j.parts, t.Resolved) i
      fun inline => i.resolve b ⟨inline, remove⟩ := by
  have hdone : ∀ j, i.expand ⟨i.escape, b, .empty, remove⟩ = .ok j → ∀ t ∈ j.parts, t.Resolved := by
    intro j hj
    exact Expansion.resolved_of_substituteAll (expand_eq_ok.1 hj).1
  exact allOrNothing_settle hdone

namespace Document

open Scope

variable {d : Document} {b : Bindings} {options : ResolutionOptions} {p n : Nat}

/-! ## Files -/

theorem allOrNothing_resolve (d : Document) (b : Bindings) (remove : Bool) :
    AllOrNothing (some ∘ text) (fun e => ∀ item ∈ e.items, item.Resolved) d
      fun inline => d.resolve b ⟨inline, remove⟩ := by
  have hdone : ∀ e, (resolveItems ⟨d.escape, b, remove⟩ .start d.items).map mk = .ok e →
      ∀ item ∈ e.items, item.Resolved := by
    intro e he
    obtain ⟨outs, houts, rfl⟩ := except_map_eq_ok.1 he
    obtain ⟨after, hrun⟩ := resolveItems_eq_ok.1 houts
    exact hrun.resolved
  exact allOrNothing_settle hdone

/-- An instruction that is resolved alone is an instruction, and resolved. -/
theorem exists_of_resolvedItem {i : Instruction} {out : Item}
    (hi : d.items[n]? = some (.instruction i))
    (h : d.resolvedItem b options n = .ok (some out)) :
    ∃ j, out = .instruction j ∧ j.Resolved := by
  obtain ⟨outs, houts, hout⟩ := except_map_eq_ok.1 h
  obtain ⟨after, hrun⟩ := resolveItems_eq_ok.1 houts
  obtain ⟨out', before, behind, -, hstep, hout'⟩ := hrun.exists_step (i := n) (by simpa using hi)
  obtain rfl : out' = out := by simpa [hout] using hout'.symm
  obtain ⟨hresolved, -⟩ := hstep.resolved
  cases hstep with
  | still hnone => cases hnone
  | opening | arg | env | other => exact ⟨_, rfl, hresolved⟩

/-- An instruction that takes the place of another has its number. -/
theorem instructions_set {i j : Instruction} {items : List Item}
    (hi : items[n]? = some (.instruction i)) (hp : (mk (items.take n)).instructions.length = p) :
    (mk (items.set n (.instruction j))).instructions[p]? = some j := by
  obtain ⟨hlt, -⟩ := List.getElem?_eq_some_iff.1 hi
  have hplace : (items.set n (.instruction j))[n]? = some (.instruction j) := by simp [hlt]
  refine instructions_getElem? hplace ?_
  rw [List.take_set, List.set_eq_of_length_le (List.length_take_le n items), hp]

/-- The resolution of one instruction of a file is all or nothing. -/
theorem allOrNothing_resolveInstruction (d : Document) (p : Nat) (b : Bindings) (remove : Bool) :
    AllOrNothing (fun e : Document => e.instructions[p]?.map Instruction.text)
      (fun e => ∀ j ∈ e.instructions[p]?, j.Resolved) d
      fun inline => d.resolveInstruction p b ⟨inline, remove⟩ := by
  cases hn : d.instructionIndex? p with
  | none =>
    refine .of_copy (.error (.instructionNotFound p)) (fun e he inline => ?_) (fun a ha => ?_)
    · cases he
      simp [resolveInstruction, hn]
    · cases ha
  | some n =>
    obtain ⟨⟨i, hi⟩, hp⟩ := instructionIndexIn_eq_some.1 hn
    have hcases : (∃ e, d.resolvedItem b ⟨true, remove⟩ n = .error e ∧ _) ∨
        ∃ out, d.resolvedItem b ⟨true, remove⟩ n = .ok (some out) ∧ _ := resolveInstruction_cases hn
    -- What an item becomes is settled before the resolution asks whether it works in place.
    have hitem : ∀ inline,
        d.resolvedItem b ⟨inline, remove⟩ n = d.resolvedItem b ⟨true, remove⟩ n := fun _ => rfl
    obtain ⟨e, he, -⟩ | ⟨out, hout, -⟩ := hcases
    · refine .of_copy (.error e) (fun e' he' inline => ?_) (fun a ha => ?_)
      · cases he'
        simp only [resolveInstruction, hn, hitem, he]
      · cases ha
    · obtain ⟨j, rfl, hresolved⟩ := exists_of_resolvedItem hi hout
      have hj := instructions_set (j := j) hi hp
      refine .of_copy (.ok ⟨d.items.set n (.instruction j)⟩) (fun e he => ?_) fun a ha => ?_
      · cases he
      · cases ha
        refine ⟨j.text, by simp [hj], by simpa [hj] using hresolved, fun inline => ?_⟩
        simp only [resolveInstruction, hn, hitem, hout]
        rfl

end Document

/-- **Every resolution is all or nothing.**  A resolution of a literal, of an instruction, of a
file or of one instruction of a file that fails, or that does not work in place, leaves its target
exactly as it was.  One that works in place and succeeds leaves a target that is resolved
throughout and whose text, or the text of the instruction, is the answer.  The answer is the same
in place and not. -/
theorem resolution_allOrNothing (b : Bindings) (remove : Bool) :
    (∀ (l : Literal) (escape : Char),
      AllOrNothing (some ∘ Literal.text) (fun m => m.token.Resolved) l
        fun inline => l.resolve escape b ⟨inline, remove⟩) ∧
    (∀ i : Instruction,
      AllOrNothing (some ∘ Instruction.text) (fun j => ∀ t ∈ j.parts, t.Resolved) i
        fun inline => i.resolve b ⟨inline, remove⟩) ∧
    (∀ d : Document,
      AllOrNothing (some ∘ Document.text) (fun e => ∀ item ∈ e.items, item.Resolved) d
        fun inline => d.resolve b ⟨inline, remove⟩) ∧
    ∀ (d : Document) (p : Nat),
      AllOrNothing (fun e : Document => e.instructions[p]?.map Instruction.text)
        (fun e => ∀ j ∈ e.instructions[p]?, j.Resolved) d
        fun inline => d.resolveInstruction p b ⟨inline, remove⟩ :=
  ⟨fun l escape => l.allOrNothing_resolve escape b remove,
    fun i => i.allOrNothing_resolve b remove,
    fun d => d.allOrNothing_resolve b remove,
    fun d p => d.allOrNothing_resolveInstruction p b remove⟩

/-- A file whose last instruction cannot be resolved stays as it was, although the instructions
before it could be; and these can be resolved in place. -/
theorem resolution_allOrNothing_late :
    ∃ d t, Document.parse "FROM a\nARG V=1\nUSER $V\nUSER $\x7bW:?w\x7d\n".toList = .ok d ∧
      (d.resolve .empty ⟨true, false⟩).answer = .error (.variableUnset ['W'] ['w']) ∧
      (d.resolve .empty ⟨true, false⟩).target = d ∧
      (d.resolveInstruction 2 .empty ⟨true, false⟩).answer = .ok t ∧
      (d.resolveInstruction 2 .empty ⟨true, false⟩).target.instructions[2]?.map Instruction.text =
        some t := by
  let user (reference : List Token) : Item := .instruction ⟨.generic, '\\',
    [.leaf .keyword "USER".toList, .blank [' '], .node (.literal true) [.node .reference reference],
      .newline ['\n']]⟩
  obtain ⟨d, hd, herror, hok⟩ :
      ∃ d, Document.parse "FROM a\nARG V=1\nUSER $V\nUSER $\x7bW:?w\x7d\n".toList = .ok d ∧
      (d.resolve .empty ⟨true, false⟩).answer = .error (.variableUnset ['W'] ['w']) ∧
      (d.resolveInstruction 2 .empty ⟨true, false⟩).answer = .ok "USER 1\n".toList :=
    ⟨⟨[.instruction ⟨.stage, '\\', [.leaf .keyword "FROM".toList, .blank [' '],
          .node (.literal true) [.fragment ['a']], .newline ['\n']]⟩,
        .instruction ⟨.arg, '\\', [.leaf .keyword "ARG".toList, .blank [' '],
          .node .keyValue [.leaf .identifier ['V'], .symbol ['='],
            .node (.literal true) [.fragment ['1']]], .newline ['\n']]⟩,
        user [.leaf .referenceMark ['$'], .leaf .identifier ['V']],
        user [.leaf .referenceMark ['$'], .symbol ['\x7b'], .leaf .identifier ['W'],
          .leaf .operator ":?".toList, .node (.literal true) [.fragment ['w']], .symbol ['\x7d']]]⟩,
      by decide +kernel, by decide +kernel, by decide +kernel⟩
  obtain ⟨-, -, hfile, hone⟩ := resolution_allOrNothing .empty false
  exact ⟨d, _, hd, herror, (hfile d).of_error herror, hok, ((hone d 2).of_inline hok).1⟩

end Containerfile
