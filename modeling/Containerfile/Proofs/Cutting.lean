import Containerfile.Instruction.Command
import Containerfile.Proofs.Directives

/-!
# Cutting items out

The first items of a document are read again from their text alone, and so is each of its
instructions.  No reading depends on what is behind it, although readers look ahead through
separators and try arrays.

The one reading that could be different is an array that is tried with less text behind it: it might
find the end of the text where it found something else before.  Then a continued line end is behind
its bracket, with nothing but comments and blank lines between it and the end.  Items that were read
there one after another do not end in such a place.

## Main definitions

* `Dangling` — a text that ends with a continued line end, which does not stand in a comment.

## Main results

* `Reads.not_dangling` — items with something behind them do not end with a continued line end.
* `Document.parse_take` — the first items of a document are read again from their text.
-/

namespace Containerfile

open Lexeme Grammar Document

/-! ## Continued line ends at the end of a text -/

/-- The line that a text ends in is no comment. -/
def NoComment (p : Text) : Prop :=
  ∀ a b v, p = a ++ b ++ '#' :: v → (a = [] ∨ a.getLast? = some '\n') →
    (∀ c ∈ b, isBlank c = true) → ∃ c ∈ v, isLineBreak c = true

/-- The text ends with a continued line end, which does not stand in a comment. -/
structure Dangling (e : Char) (p w : Text) : Prop where
  continued : Continued w
  last : ∀ c, p.getLast? = some c → c ≠ e ∧ c ≠ '\\'
  noComment : NoComment p

theorem Dangling.of_append {e : Char} {l p w : Text} (h : Dangling e (l ++ p) w)
    (hl : l.getLast? = some '\n') : Dangling e p w where
  continued := h.continued
  last c hc := h.last c (by rw [List.getLast?_append, hc]; rfl)
  noComment a b v hp ha hb := by
    refine h.noComment (l ++ a) b v (by rw [hp]; simp) (.inr ?_) hb
    obtain rfl | ha := ha
    · rwa [List.append_nil]
    · rw [List.getLast?_append, ha]
      rfl

/-- An array that only separators follow dangles. -/
theorem exists_dangling_of_array {e : Char} (he : IsEscape e) {s m : Text} {ts : List Token}
    (hs : Instruction.firstWord s ≠ []) (hlast : s.getLast? = some '\n')
    (hw : Walk e true s (']' :: m)) (hm : many (gap e) m = .ok ts []) :
    ∃ p w, s = p ++ e :: w ∧ Dangling e p w := by
  obtain ⟨p, rfl⟩ := hw.suffix
  obtain ⟨l, c, b, w, hs', hb, hcont, hc⟩ := exists_continued_of_bracket he hm hlast
  refine ⟨l ++ c :: b, w, hs', hcont, last_ne_escape he hb (hc.imp_left And.right), ?_⟩
  intro a b' v hp ha hb'
  refine Classical.byContradiction fun hv => ?_
  have hline : ∀ d ∈ v, isLineBreak d = false := fun d hd => by
    cases hbreak : isLineBreak d with
    | false => rfl
    | true => exact absurd ⟨d, hd, hbreak⟩ hv
  -- the number sign is neither a bracket nor a line feed nor a blank, so it comes before them
  have hlen : (c :: b).length ≤ v.length := by
    refine Nat.le_of_not_lt fun hlt => ?_
    obtain ⟨z, -, hz⟩ := Text.exists_of_append_eq_append hp hlt
    have hmem : '#' ∈ c :: b := by rw [hz]; simp
    obtain rfl | hmem := List.mem_cons.1 hmem
    · obtain ⟨-, h⟩ | h := hc <;> cases h
    · exact absurd (hb _ hmem) (by decide)
  have hp' : (a ++ b' ++ ['#']) ++ v = l ++ c :: b := by simp [hp]
  obtain ⟨v', hl, rfl⟩ := Text.exists_of_append_eq_append hp' hlen
  obtain ⟨rfl, rfl⟩ | rfl := hc
  · obtain rfl | ha := ha
    · refine hs ?_
      have hdrop : (b' ++ '#' :: (v' ++ ']' :: m)).dropWhile isBlank = '#' :: (v' ++ ']' :: m) := by
        rw [List.dropWhile_append_of_pos hb', List.dropWhile_cons_of_neg (by decide)]
      have htext : l ++ ']' :: m = b' ++ '#' :: (v' ++ ']' :: m) := by simp [hl]
      unfold Instruction.firstWord Instruction.fromFirstWord
      rw [htext, hdrop]
      rfl
    · obtain ⟨a', rfl⟩ := List.getLast?_eq_some_iff.1 ha
      have htext : l ++ ']' :: m = a' ++ '\n' :: (b' ++ '#' :: (v' ++ ']' :: m)) := by simp [hl]
      exact hw.not_comment he htext hb' fun d hd => hline d (List.mem_append_left _ hd)
  · exact absurd (hline '\n' (by simp)) (by decide)

/-! ## Items do not end with one -/

theorem BlankLines.blank_or_break {s r : Text} {ts : List Token}
    (h : BlankLines.body s = .ok ts r) :
    ∀ c ∈ Token.textAll ts, isBlank c = true ∨ isLineBreak c = true := by
  have hcomp : Compositional fun g => ∀ s ts r, g s = .ok ts r →
      ∀ c ∈ Token.textAll ts, isBlank c = true ∨ isLineBreak c = true :=
    .ofRelation (R := fun _ ts _ => ∀ c ∈ Token.textAll ts, isBlank c = true ∨ isLineBreak c = true)
      (fun _ => by simp [Token.textAll])
      (fun hu hv c hc => by
        rw [Token.textAll_append, List.mem_append] at hc
        exact hc.elim (hu c) (hv c))
      (fun _ _ hu c hc => hu c (by simpa [Token.textAll, Token.text] using hc))
  have hblanks : ∀ s ts r, blanks s = .ok ts r →
      ∀ c ∈ Token.textAll ts, isBlank c = true ∨ isLineBreak c = true := by
    intro s ts r h c hc
    obtain ⟨-, rfl, -⟩ := run_eq_ok.1 h
    have hc' : c ∈ s.takeWhile isBlank := by simpa [Token.textAll, Token.text] using hc
    exact .inl (List.all_eq_true.1 List.all_takeWhile c hc')
  have hnewline : ∀ s ts r, newline s = .ok ts r →
      ∀ c ∈ Token.textAll ts, isBlank c = true ∨ isLineBreak c = true := by
    intro s ts r h c hc
    obtain ⟨-, rfl⟩ | ⟨-, rfl⟩ := newline_eq_ok.1 h <;>
      exact .inr (List.all_eq_true.1 (show List.all _ isLineBreak = true from rfl) c hc)
  refine hcomp.nonempty (hcomp.seq (hcomp.many (hcomp.seq (hcomp.optional hblanks) hnewline))
    (hcomp.optional (hcomp.seq hblanks ?_))) s ts r h
  intro s ts r h
  obtain ⟨-, rfl, -⟩ := when_eq_ok.1 h
  simp [Token.textAll]

/-- The escape character in a comment is in the text behind the number sign. -/
theorem Comment.exists_of_escape {e : Char} (he : IsEscape e) {s r p w : Text} {ts : List Token}
    (h : commentBody s = .ok ts r) (htext : Token.textAll ts = p ++ e :: w) :
    ∃ b v, p = b ++ '#' :: v ∧ (∀ c ∈ b, isBlank c = true) ∧ ∀ c ∈ v, isLineBreak c = false := by
  have hesc : isBlank e = false ∧ e ≠ '#' := by
    obtain rfl | rfl := he <;> decide
  obtain ⟨k, us, hk, hr⟩ := commentBody_eq_ok.1 ⟨ts, h⟩
  obtain ⟨b, hb, hblank⟩ := Text.eq_append_dropWhile isBlank s
  obtain ⟨v, hv, htext'⟩ := Text.eq_append_dropWhile (fun c => !isLineBreak c) k
  rw [hk, hv] at hb
  have hs := lossless_commentBody _ _ _ h
  rw [htext, hb] at hs
  have hs' : (b ++ ['#']) ++ (v ++ k.dropWhile fun c => !isLineBreak c) = p ++ e :: (w ++ r) := by
    simpa using hs.symm
  obtain ⟨a, rfl, ha⟩ := Text.exists_of_notMem hs' (by
    rw [List.mem_append, List.mem_singleton, not_or]
    exact ⟨fun hm => absurd (hblank _ hm) (by simp [hesc.1]), hesc.2⟩)
  refine ⟨b, a, by simp, hblank, ?_⟩
  obtain ⟨z, rfl, hz⟩ | ⟨z, rfl, -⟩ := List.append_eq_append_iff.1 ha
  · -- the line end is all that comes behind the text of the comment
    have hall : Token.textAll us ++ r = (z ++ e :: w) ++ r := by
      rw [Grammar.compositional_lossless.optional lossless_newline _ _ _ hr, hz]
      simp
    have hend := List.append_cancel_right hall
    have hmem : e ∈ Token.textAll us := by rw [hend]; simp
    obtain hn | ⟨-, rfl, -⟩ := optional_eq_ok.1 hr
    · obtain ⟨-, rfl⟩ | ⟨-, rfl⟩ := newline_eq_ok.1 hn <;> obtain rfl | rfl := he <;>
        exact absurd hmem (by decide)
    · simp [Token.textAll] at hmem
  · intro c hc
    simpa using htext' c (List.mem_append_left _ hc)

namespace Reads

variable {e : Char} {s y : Text} {items : List Item}

/-- Items with something behind them do not end with a continued line end. -/
theorem not_dangling (he : IsEscape e) (h : Reads e s items y)
    (hend : ∀ item ∈ items, item.endsLine = true) {p w : Text} (hw : Dangling e p w)
    (htext : textOf items = p ++ e :: w) : False := by
  induction h generalizing p with
  | nil s =>
    have := congrArg List.length htext
    simp [textOf] at this
  | @cons s m r item items h hs ih =>
    rw [textOf_cons] at htext
    have hitem := hend item List.mem_cons_self
    by_cases hlen : (e :: w).length ≤ (textOf items).length
    · obtain ⟨p', rfl, hp'⟩ := Text.exists_of_append_eq_append htext hlen
      exact ih (fun item hi => hend item (List.mem_cons_of_mem _ hi))
        (hw.of_append (getLast?_of_readItem he h hitem)) hp'
    · -- the escape character is one of the item
      have hle : (textOf items).length ≤ w.length := by
        rw [List.length_cons] at hlen
        omega
      have htext' : (p ++ [e]) ++ w = item.text ++ textOf items := by simp [htext]
      obtain ⟨w', hw', -⟩ := Text.exists_of_append_eq_append htext' hle
      obtain ⟨ts, hb, rfl⟩ | ⟨-, ⟨ts, hc, rfl⟩ | ⟨-, i, hi, rfl⟩⟩ := readItem_eq_ok.1 h
      · have hmem : e ∈ Token.textAll ts := by
          have htext : Token.textAll ts = (p ++ [e]) ++ w' := hw'
          rw [htext]
          simp
        obtain h | h := BlankLines.blank_or_break hb e hmem
        · obtain rfl | rfl := he <;> cases h
        · rw [he.isLineBreak] at h
          cases h
      · have htext' : Token.textAll ts = p ++ e :: w' := hw'.trans (by simp)
        obtain ⟨b, v, rfl, hb, hv⟩ := Comment.exists_of_escape he hc htext'
        obtain ⟨c, hc, hbreak⟩ := hw.noComment [] b v rfl (.inl rfl) hb
        rw [hv c hc] at hbreak
        cases hbreak
      · have hcut := (Instruction.delimited_of_endsLine he hi hitem).toLineCut
        have hm := hs.text_append
        have hs' : s = p ++ e :: (w ++ r) := by
          rw [hcut.eq, ← hm, ← List.append_assoc]
          change (Item.instruction i).text ++ textOf items ++ r = _
          rw [htext]
          simp
        refine hcut.not_continued he hs' hw.last hw.continued ?_ ?_
        · rw [← hm, List.length_append]
          omega
        · rw [← hm, List.length_append, List.length_append]
          omega

theorem getLast?_textOf (he : IsEscape e) (h : Reads e s items y)
    (hend : ∀ item ∈ items, item.endsLine = true) (hne : items ≠ []) :
    (textOf items).getLast? = some '\n' := by
  induction h with
  | nil s => exact absurd rfl hne
  | @cons s m r item items h hs ih =>
    rw [textOf_cons, List.getLast?_append]
    cases items with
    | nil => exact getLast?_of_readItem he h (hend item List.mem_cons_self)
    | cons item' items =>
      rw [ih (fun item hi => hend item (List.mem_cons_of_mem _ hi)) (List.cons_ne_nil _ _)]
      rfl

/-- An instruction with items behind it is no array if the text ends behind the items and it was
none with something there. -/
theorem not_becomesArray {i : Instruction} (he : IsEscape e)
    (h : Reads e s (.instruction i :: items) y)
    (hend : ∀ item ∈ Item.instruction i :: items, item.endsLine = true) :
    ¬ Instruction.BecomesArray e i.text (textOf items) := by
  rintro ⟨hnone, harray⟩
  have hread : Instruction.read e (i.text ++ (textOf items ++ y)) = .ok i (textOf items ++ y) :=
    instruction_eq (show Reads e s ([] ++ .instruction i :: items) y from h)
  have hdelimited := Instruction.delimited_of_endsLine he hread (hend _ List.mem_cons_self)
  obtain ⟨-, harray⟩ | ⟨m, ts, hw, hm⟩ := harray.cases he
  · have hsame := harray y
    rw [List.append_assoc] at hsame
    exact hnone (hdelimited.same hsame)
  · have hword : Instruction.firstWord (i.text ++ textOf items) ≠ [] := by
      have hword := firstWord_of_read hread
      rwa [Instruction.firstWord_append hdelimited.closed.hasNewline] at hword ⊢
    have hlast := h.getLast?_textOf he hend (List.cons_ne_nil _ _)
    rw [textOf_cons] at hlast
    obtain ⟨p, w, htext, hdangling⟩ := exists_dangling_of_array he hword hlast hw hm
    exact h.not_dangling he hend hdangling (by rw [textOf_cons]; exact htext)

end Reads

/-! ## The first items -/

namespace Document

/-- The first items of a document, with others behind them, are read again without those. -/
theorem Layout.parse_first {s r : Text} {ds : List Directive} {seen : List Text}
    {first rest : List Item} (h : Layout s ds seen r (first ++ rest)) (hne : rest ≠ []) :
    parse (textOf (ds.map .directive ++ first)) = .ok ⟨ds.map .directive ++ first⟩ := by
  obtain ⟨m, hfirst, hrest⟩ := Reads.append_iff.1 h.items
  have hbroken : ¬ Broken m := by
    cases hrest with
    | nil => exact absurd rfl hne
    | cons hitem _ => exact not_broken_of_readItem hitem
  have hend := hfirst.endsLine h.isEscape hbroken
  have hiff := h.replace_iff (x := []) (by simp [hne]) hend (.inl ⟨[], rfl⟩) ⟨[], by cbv⟩ []
  rw [List.append_nil, List.append_nil] at hiff
  refine hiff.2 ⟨fun before i after hi => ?_, .nil []⟩
  obtain ⟨before', -, rfl⟩ := Layout.exists_of_eq hi
  obtain ⟨k, -, hk⟩ := Reads.append_iff.1 hfirst
  rw [List.append_nil]
  exact hk.not_becomesArray h.isEscape fun item hi => hend item (List.mem_append_right _ hi)

/-- The first directives of a document, with others behind them, are read again without those. -/
theorem Layout.parse_firstDirectives {s r : Text} {ds : List Directive} {d : Directive}
    {others : List Directive} {seen : List Text} {items : List Item}
    (h : Layout s (ds ++ d :: others) seen r items) :
    parse (textOf (ds.map .directive)) = .ok ⟨ds.map .directive⟩ := by
  obtain ⟨seen', m, hds, hd⟩ := ReadsDirectives.append_iff.1 h.directives
  have hbroken : ¬ Broken m := by
    cases hd with
    | cons hd _ _ => exact Directive.not_broken_of_body hd
  have hread := hds.retail hbroken []
  rw [List.append_nil] at hread
  exact parse_iff.2 ⟨ds, seen', [], [], by simp, hread, .inl ⟨[], rfl⟩, .nil []⟩

/-- The first items of a document are read again from their text. -/
theorem Layout.parse_take {s r : Text} {ds : List Directive} {seen : List Text} {items : List Item}
    (h : Layout s ds seen r items) (n : Nat) :
    parse (textOf ((ds.map Item.directive ++ items).take n)) =
      .ok ⟨(ds.map Item.directive ++ items).take n⟩ := by
  rw [List.take_append, List.length_map, ← List.map_take]
  by_cases hn : n < ds.length
  · have hds : ds = ds.take n ++ ds[n] :: ds.drop (n + 1) := by
      rw [List.getElem_cons_drop, List.take_append_drop]
    rw [hds] at h
    rw [Nat.sub_eq_zero_of_le (Nat.le_of_lt hn), List.take_zero, List.append_nil]
    exact h.parse_firstDirectives
  · rw [List.take_of_length_le (Nat.le_of_not_lt hn)]
    have hitems := List.take_append_drop (n - ds.length) items
    by_cases hrest : items.drop (n - ds.length) = []
    · rw [hrest, List.append_nil] at hitems
      rw [hitems, textOf_append, h.text_eq, h.directives.text_append]
      exact parse_iff.2 ⟨ds, seen, r, items, rfl, h⟩
    · rw [← hitems] at h
      exact h.parse_first hrest

end Document

/-! ## Instructions and triggers -/

namespace Instruction

/-- There is no instruction before the one that is deferred. -/
theorem trigger?_of_deferral {e : Char} {s r : Text} {ds : List Token} (h : deferral e s = .ok ds r)
    (t : Instruction) : trigger? ⟨.onBuild, e, ds ++ [t.token]⟩ = some t := by
  have hreaders : SeparatorReaders (Yields fun t => t.instruction? = none) e := by
    refine separatorReaders_yields (fun _ _ => rfl) (fun kind ts hkind _ => ?_) e
    obtain rfl | rfl := hkind <;> rfl
  have hnone : ds.findSome? Token.instruction? = none :=
    List.findSome?_eq_none_iff.2 (hreaders.deferral s ds r h)
  unfold trigger?
  rw [List.findSome?_append, hnone]
  rfl

/-- What an instruction defers is its trigger, which is read from its own text. -/
theorem trigger_of_read {e : Char} (he : IsEscape e) {s r : Text} {i : Instruction}
    (h : read e s = .ok i r) (hi : i.form = .onBuild) :
    ∃ t, i.trigger? = some t ∧ read e t.text = .ok t [] := by
  obtain ⟨k, ts, -, hbody, rfl⟩ := read_eq_ok.1 h
  have hk : k = .ONBUILD := by cases k <;> first | rfl | cases hi
  subst hk
  obtain ⟨ds, m, t, hd, ht, -, rfl⟩ := onBuildBody_eq_ok.1 hbody
  exact ⟨t, trigger?_of_deferral hd t, read_text he ht⟩

end Instruction

namespace Document

/-- **Items can be cut out and read again.**  The first items of a document are read from their text
alone, however many they are, and so is each instruction and the trigger of each `ONBUILD`. -/
theorem parse_items_text {s : Text} {d : Document} (h : parse s = .ok d) :
    (∀ n, parse (Document.mk (d.items.take n)).text = .ok ⟨d.items.take n⟩) ∧
      ∀ i ∈ d.instructions, Instruction.parse i.text d.escape = .ok i ∧
        (i.form = .onBuild →
          ∃ t, i.trigger? = some t ∧ Instruction.parse t.text d.escape = .ok t) := by
  obtain ⟨ds, seen, r, items, rfl, hlayout⟩ := parse_iff.1 h
  refine ⟨hlayout.parse_take, fun i hi => ?_⟩
  obtain ⟨item, hitem, heq⟩ := List.mem_filterMap.1 hi
  have hitem' : item = .instruction i := by
    cases item <;> cases heq
    rfl
  subst hitem'
  obtain ⟨before, after, hsplit⟩ := List.append_of_mem hitem
  obtain ⟨before', -, rfl⟩ := Layout.exists_of_eq hsplit
  have hread := hlayout.items.instruction_eq
  rw [hlayout.escape_eq]
  refine ⟨Instruction.parse_eq_ok.2 (Instruction.read_text hlayout.isEscape hread), fun hform => ?_⟩
  obtain ⟨t, ht, htext⟩ := Instruction.trigger_of_read hlayout.isEscape hread hform
  exact ⟨t, ht, Instruction.parse_eq_ok.2 htext⟩

/-- A stage stands alone without the trigger behind it, and so does the instruction of the
trigger. -/
theorem parse_items_text_onBuild :
    ∃ d i t, parse "FROM a\nONBUILD RUN b\n".toList = .ok d ∧ i ∈ d.instructions ∧
      parse (Document.mk (d.items.take 1)).text = .ok ⟨d.items.take 1⟩ ∧
      i.trigger? = some t ∧ Instruction.parse t.text d.escape = .ok t := by
  have hd : parse "FROM a\nONBUILD RUN b\n".toList = .ok
      ⟨[.instruction ⟨.stage, '\\', [.leaf .keyword "FROM".toList, .blank [' '],
          .node (.literal true) [.fragment ['a']], .newline ['\n']]⟩,
        .instruction ⟨.onBuild, '\\', [.leaf .keyword "ONBUILD".toList, .blank [' '],
          .node (.instruction .command '\\') [.leaf .keyword "RUN".toList, .blank [' '],
            .node (.literal false) [.fragment ['b']], .newline ['\n']]]⟩]⟩ := by
    decide +kernel
  obtain ⟨hfirst, hinstructions⟩ := parse_items_text hd
  obtain ⟨t, ht, htext⟩ := (hinstructions _ (.tail _ (.head _))).2 rfl
  exact ⟨_, _, t, hd, .tail _ (.head _), hfirst 1, ht, htext⟩

end Document

end Containerfile
