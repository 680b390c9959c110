import Containerfile.Proofs.Directives

/-!
# Replacing an instruction

A document is read item by item, and an item that is replaced by another text can change how its
neighbours are read: the text may not be read as one instruction, or not end its line, and an
array that was left open before it may find its end in it.  There is nothing else.

## Main definitions

* `Document.KeepsOthers` — with another instruction in one place, the document is read with the
  same items in all others.

## Main results

* `Instruction.exists_read_append_iff` — when a text is read as one instruction, up to what is
  behind it.
* `Document.Layout.exists_parse_replaced_iff` — when a document with another text for an
  instruction keeps its other items.
* `Document.keepsOthers_iff` — the same, said of the items.
-/

namespace Containerfile

open Grammar Lexeme

/-! ## Replacing an instruction -/

namespace Instruction

theorem isBlank_of_isNameChar {c : Char} (hc : isNameChar c = true) : isBlank c = false := by
  cases hblank : isBlank c with
  | false => rfl
  | true =>
    simp only [isBlank, Bool.or_eq_true, beq_iff_eq] at hblank
    obtain rfl | rfl := hblank <;> cases hc

theorem firstWord_ne_nil {s : Text} {c : Char} {k : Text} (hs : s.dropWhile isBlank = c :: k)
    (hc : isNameChar c = true) : firstWord s ≠ [] := by
  unfold firstWord fromFirstWord
  rw [hs, List.takeWhile_cons_of_pos hc]
  exact List.cons_ne_nil _ _

/-- A text that begins with a word does so whatever is behind it. -/
theorem firstWord_append_ne_nil {s : Text} (h : firstWord s ≠ []) (x : Text) :
    firstWord (s ++ x) ≠ [] := by
  obtain ⟨c, k, hs, hc⟩ := Document.dropWhile_of_firstWord h
  refine firstWord_ne_nil (k := k ++ x) ?_ hc
  obtain ⟨b, hb, hblank⟩ := Text.eq_append_dropWhile isBlank s
  rw [hb, hs, List.append_assoc, List.dropWhile_append_of_pos hblank, List.cons_append,
    List.dropWhile_cons_of_neg (by simp [isBlank_of_isNameChar hc])]

/-- A text is read as one instruction, up to what is behind it, exactly if alone it is read as an
instruction with a line end of its own, or there is nothing behind it, and it does not become an
array. -/
theorem exists_read_append_iff {e : Char} (he : IsEscape e) {u x : Text} :
    (∃ j, read e (u ++ x) = .ok j x) ↔
      ∃ j, read e u = .ok j [] ∧ (j.endsLine = true ∨ x = []) ∧ ¬ BecomesArray e u x := by
  have htext : ∀ {j x}, read e (u ++ x) = .ok j x → j.text = u := fun hj =>
    List.append_cancel_right (lossless_read e _ _ _ hj)
  constructor
  · rintro ⟨j, hj⟩
    have hread := read_text he hj
    rw [htext hj] at hread
    by_cases hx : x = []
    · subst hx
      refine ⟨j, hread, .inr rfl, fun ⟨hnone, harray⟩ => hnone ?_⟩
      rwa [List.append_nil] at harray
    · have hend := endsLine_of_read he hj hx
      refine ⟨j, hread, .inl hend, ?_⟩
      have hu := htext hj
      subst hu
      exact (read_append_iff he hj hend x).1 hj
  · rintro ⟨j, hj, hend | rfl, harray⟩
    · have hu : j.text = u := htext (x := []) (by rwa [List.append_nil])
      subst hu
      exact ⟨j, (read_append_iff he hj hend x).2 harray⟩
    · exact ⟨j, by rwa [List.append_nil]⟩

/-- With the backslash for the escape character, an instruction that ends its line becomes no
array. -/
theorem not_becomesArray_of_read {u x : Text} {j : Instruction} (h : read '\\' u = .ok j [])
    (hend : j.endsLine = true ∨ x = []) : ¬ BecomesArray '\\' u x := by
  obtain hend | rfl := hend
  · have htext : j.text = u := by simpa using lossless_read _ _ _ _ h
    exact htext ▸ not_becomesArray (delimited_of_endsLine (.inl rfl) h hend).closed x
  · rintro ⟨hnone, harray⟩
    rw [List.append_nil] at harray
    exact hnone harray

end Instruction

/-! ## What a replacement keeps -/

/-- A list is another one but for one place exactly if it has the same length and the same elements
in all other places. -/
theorem exists_eq_append_cons_iff {α : Type} {l before after : List α} {a : α} :
    (∃ b, l = before ++ b :: after) ↔ l.length = (before ++ a :: after).length ∧
      ∀ k, k ≠ before.length → l[k]? = (before ++ a :: after)[k]? := by
  have hset : ∀ b, before ++ b :: after = (before ++ a :: after).set before.length b := by simp
  constructor
  · rintro ⟨b, rfl⟩
    refine ⟨by simp, fun k hk => ?_⟩
    rw [hset b, List.getElem?_set_ne (Ne.symm hk)]
  · rintro ⟨hlen, hget⟩
    have hlt : before.length < l.length := by simp [hlen]
    refine ⟨l[before.length], List.ext_getElem? fun k => ?_⟩
    by_cases hk : k = before.length
    · subst hk
      simp
    · rw [hset, List.getElem?_set_ne (Ne.symm hk), hget k hk]

/-- Items are read from some text. -/
theorem Reads.ne_nil {e : Char} {s r : Text} {items : List Item} (h : Reads e s items r)
    (hne : items ≠ []) : s ≠ [] := by
  rintro rfl
  cases h with
  | nil => exact hne rfl
  | cons hi _ => exact Document.not_broken_of_readItem hi (.inl rfl)

namespace Document

open Instruction

/-- A text that begins with a word is read, with items behind it, as one item and these exactly if
it is read as one instruction. -/
theorem exists_reads_cons_iff {e : Char} {u : Text} {after : List Item} (hu : firstWord u ≠ [])
    (hafter : Reads e (textOf after) after []) :
    (∃ item, Reads e (u ++ textOf after) (item :: after) []) ↔
      ∃ j, Instruction.read e (u ++ textOf after) = .ok j (textOf after) := by
  have hread := readItem_of_firstWord (e := e) (firstWord_append_ne_nil hu (textOf after))
  constructor
  · rintro ⟨item, h⟩
    cases h with
    | @cons s m r item items h hs =>
      have hm : m = textOf after := by simpa using hs.text_append.symm
      rw [hread] at h
      obtain ⟨j, hj, -⟩ := Outcome.map_eq_ok.1 h
      exact ⟨j, hm ▸ hj⟩
  · rintro ⟨j, hj⟩
    exact ⟨.instruction j, .cons (hread.trans (by rw [hj]; rfl)) hafter⟩

namespace Layout

variable {s r : Text} {ds : List Directive} {seen : List Text} {first after : List Item}
  {i : Instruction}

/-- The items before an instruction end their lines, and those behind it are read on their own. -/
theorem endsLine_and_reads (h : Layout s ds seen r (first ++ .instruction i :: after)) :
    (∀ item ∈ first, item.endsLine = true) ∧
      Reads (selectedEscape ds) (textOf after) after [] := by
  obtain ⟨m, hfirst, hrest⟩ := Reads.append_iff.1 h.items
  cases hrest with
  | cons hi hs =>
    have htext := hs.text_append
    rw [List.append_nil] at htext
    exact ⟨hfirst.endsLine h.isEscape (not_broken_of_readItem hi), htext ▸ hs⟩

/-- With another text for one of its instructions, a document keeps all its other items exactly if
the text alone is read as an instruction with a line end of its own, or is the last one, and
neither it nor an instruction before it becomes an array. -/
theorem exists_parse_replaced_iff (h : Layout s ds seen r (first ++ .instruction i :: after))
    {u : Text} (hu : firstWord u ≠ []) :
    (∃ item, parse (textOf (ds.map .directive ++ first) ++ (u ++ textOf after)) =
        .ok ⟨ds.map .directive ++ (first ++ item :: after)⟩) ↔
      (∃ j, Instruction.parse u (selectedEscape ds) = .ok j ∧ (j.endsLine = true ∨ after = []) ∧
          ¬ BecomesArray (selectedEscape ds) u (textOf after)) ∧
        ∀ before j mid, ds.map .directive ++ first = before ++ .instruction j :: mid →
          ¬ BecomesArray (selectedEscape ds) j.text (textOf mid ++ (u ++ textOf after)) := by
  obtain ⟨hend, hafter⟩ := h.endsLine_and_reads
  have hword := firstWord_append_ne_nil hu (textOf after)
  have hnil : textOf after = [] ↔ after = [] :=
    ⟨fun hnil => Classical.byContradiction fun hne => hafter.ne_nil hne hnil, fun hnil => by
      rw [hnil]
      rfl⟩
  have hiff := h.replace_iff (by simp) hend (directivesEnd_of_firstWord hword seen)
    (blankLines_stuck_of_firstWord hword)
  calc
    _ ↔ ∃ item, Reads (selectedEscape ds) (u ++ textOf after) (item :: after) [] ∧ _ :=
      exists_congr fun item => by rw [hiff (item :: after), and_comm]
    _ ↔ _ := by
      rw [exists_and_right, exists_reads_cons_iff hu hafter, exists_read_append_iff h.isEscape,
        hnil]
      simp only [Instruction.parse_eq_ok]

end Layout

/-- With `i` for its item at `n`, the document is read with the same items in all other places. -/
def KeepsOthers (d : Document) (n : Nat) (i : Instruction) : Prop :=
  ∃ d', parse (Document.mk (d.items.set n (.instruction i))).text = .ok d' ∧
    d'.items.length = d.items.length ∧ ∀ k, k ≠ n → d'.items[k]? = d.items[k]?

theorem text_set {d : Document} {before after : List Item} {item : Item}
    (hitems : d.items = before ++ item :: after) (i : Instruction) :
    (Document.mk (d.items.set before.length (.instruction i))).text =
      textOf before ++ (i.text ++ textOf after) := by
  unfold Document.text
  rw [hitems, List.set_append_right _ _ (Nat.le_refl _), Nat.sub_self, List.set_cons_zero,
    textOf_append, textOf_cons]
  rfl

theorem keepsOthers_iff {d : Document} {before after : List Item} {item : Item} {i : Instruction}
    (hitems : d.items = before ++ item :: after) :
    d.KeepsOthers before.length i ↔
      ∃ item', parse (textOf before ++ (i.text ++ textOf after)) =
        .ok ⟨before ++ item' :: after⟩ := by
  unfold KeepsOthers
  rw [text_set hitems, hitems]
  constructor
  · rintro ⟨d', hd', hothers⟩
    obtain ⟨item', hitem'⟩ := exists_eq_append_cons_iff.2 hothers
    exact ⟨item', hd'.trans (congrArg (Except.ok ∘ Document.mk) hitem')⟩
  · rintro ⟨item', hitem'⟩
    exact ⟨_, hitem', exists_eq_append_cons_iff.1 ⟨item', rfl⟩⟩

end Document

end Containerfile
