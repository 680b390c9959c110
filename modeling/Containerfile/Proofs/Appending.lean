import Containerfile.Proofs.Directives

/-!
# Appending an instruction

A text that is one instruction, put behind a document whose last instruction ends its line, is one
more instruction of the document and changes nothing else, unless an instruction that is there
becomes an array.  With the backslash for the escape character none does.

With the backtick it happens.  In `RUN ["a\` with two backticks behind it the line has ended for a
plain reading, while in the string of an array the backslash takes the first backtick with it and
the second one continues the line.  If the next line closes the string and the array, both lines
are one instruction.

## Main results

* `Document.parse_append_iff` — an instruction is appended and nothing changes exactly if no
  instruction becomes an array.
-/

namespace Containerfile

namespace Document

open Instruction

variable {e : Char}

/-- All items of a document end their lines if the last one does. -/
theorem Layout.endsLine {s r : Text} {ds : List Directive} {seen : List Text} {items : List Item}
    {i : Instruction} (h : Layout s ds seen r (items ++ [.instruction i]))
    (hi : i.endsLine = true) :
    ∀ item ∈ items ++ [.instruction i], item.endsLine = true := by
  obtain ⟨m, hm, hlast⟩ := Reads.append_iff.1 h.items
  have hbroken : ¬ Broken m := by
    cases hlast with
    | cons h _ => exact not_broken_of_readItem h
  intro item hitem
  obtain hitem | hitem := List.mem_append.1 hitem
  · exact hm.endsLine h.isEscape hbroken item hitem
  · rw [List.mem_singleton.1 hitem]
    exact hi

/-- The last item of a document, if it is an instruction, is behind its directives. -/
theorem Layout.exists_last {ds : List Directive} {items : List Item} {i : Instruction}
    (h : (ds.map Item.directive ++ items).getLast? = some (.instruction i)) :
    ∃ init, items = init ++ [.instruction i] := by
  obtain ⟨before, hbefore⟩ := List.getLast?_eq_some_iff.1 h
  obtain ⟨init, -, hitems⟩ := Layout.exists_of_eq hbefore
  exact ⟨init, hitems⟩

/-- **Appending an instruction.**  Behind a document whose last item is an instruction that ends
its line, the text of one more instruction is read as that, and the items before are the same,
exactly if no instruction of the document becomes an array with the text behind it.  None does
where the escape character is the backslash. -/
theorem parse_append_iff {s t : Text} {d : Document} {i j : Instruction}
    (hd : parse s = .ok d) (hi : d.items.getLast? = some (.instruction i))
    (hend : i.endsLine = true) (hj : Instruction.parse t d.escape = .ok j) :
    (parse (s ++ t) = .ok ⟨d.items ++ [.instruction j]⟩ ↔
        ∀ before i after, d.items = before ++ .instruction i :: after →
          ¬ BecomesArray d.escape i.text (textOf after ++ t)) ∧
      (d.escape = '\\' → parse (s ++ t) = .ok ⟨d.items ++ [.instruction j]⟩) := by
  obtain ⟨ds, seen, r, items, rfl, h⟩ := parse_iff.1 hd
  obtain ⟨init, rfl⟩ := Layout.exists_last hi
  rw [h.escape_eq] at hj ⊢
  have hread := Instruction.parse_eq_ok.1 hj
  have hends := h.endsLine hend
  have hlayout : Layout s ds seen r ((init ++ [.instruction i]) ++ []) := by simpa using h
  have hword := firstWord_of_read hread
  have hiff := hlayout.replace_iff (by simp) hends (directivesEnd_of_firstWord hword seen)
    (blankLines_stuck_of_firstWord hword) [.instruction j]
  have htext : s = textOf (ds.map .directive ++ (init ++ [.instruction i])) :=
    (text_of_parse hd).symm
  rw [← htext, ← List.append_assoc, and_iff_left (.cons (readItem_of_read hread) (.nil []))] at hiff
  exact ⟨hiff, fun hescape => hiff.2 fun before i' after heq =>
    hlayout.not_becomesArray hends hescape heq _⟩

/-- A command is appended to a stage. -/
theorem parse_append_iff_stage :
    ∃ d j, parse "FROM a\n".toList = .ok d ∧ Instruction.parse "RUN b\n".toList d.escape = .ok j ∧
      parse ("FROM a\n".toList ++ "RUN b\n".toList) = .ok ⟨d.items ++ [.instruction j]⟩ := by
  have hd : parse "FROM a\n".toList = .ok ⟨[.instruction ⟨.stage, '\\',
      [.leaf .keyword "FROM".toList, .blank [' '], .node (.literal true) [.fragment ['a']],
        .newline ['\n']]⟩]⟩ := by
    decide +kernel
  have hj : Instruction.parse "RUN b\n".toList '\\' = .ok ⟨.command, '\\',
      [.leaf .keyword "RUN".toList, .blank [' '], .node (.literal false) [.fragment ['b']],
        .newline ['\n']]⟩ := by
    decide +kernel
  exact ⟨_, _, hd, hj, (parse_append_iff hd rfl (by decide) hj).2 rfl⟩

/-- The line that ends with two backticks is an instruction of its own, and so is the line that is
appended, but together they are one. -/
theorem parse_append_backticks :
    ∃ d i j, parse "# escape=`\nRUN [\"a\\``\n".toList = .ok d ∧
      d.items.getLast? = some (.instruction i) ∧ i.endsLine = true ∧
      Instruction.parse "RUN b\"]\n".toList d.escape = .ok j ∧
      parse ("# escape=`\nRUN [\"a\\``\n".toList ++ "RUN b\"]\n".toList) ≠
        .ok ⟨d.items ++ [.instruction j]⟩ := by
  refine ⟨⟨[.directive ⟨[.leaf .commentMark ['#'], .blank [' '], .leaf .identifier "escape".toList,
      .leaf .symbol ['='], .node (.literal false) [.fragment ['`']], .newline ['\n']]⟩,
    .instruction ⟨.command, '`', [.leaf .keyword "RUN".toList, .blank [' '],
      .node (.literal false) [.fragment "[\"a\\``".toList], .newline ['\n']]⟩]⟩, _,
    ⟨.command, '`', [.leaf .keyword "RUN".toList, .blank [' '],
      .node (.literal false) [.fragment "b\"]".toList], .newline ['\n']]⟩, ?_, rfl, ?_, ?_, ?_⟩
  all_goals decide +kernel

end Document

end Containerfile
