import Containerfile.Document.Stages
import Containerfile.Proofs.Readers

/-!
# Stages partition the file

The global section and the stages are cut out of a file one after another: each ends where the
next one begins, and together they are the whole file.  What opens a stage stands at the start of
the stage and nowhere else, so there are as many stages as instructions that open one, and no
stage gets lost when they are numbered.

The layout of a file says where the sections are, by the indices of their items.  Their items can
as well be told one by one, from the last item to the first (`Document.split_cons`), and most
proofs do so.

## Main definitions

* `ItemRange.Tile` — ranges that follow one another without a gap.
* `Document.OpenedBy` — the items of one stage.

## Main results

* `Document.tile_layout` — the ranges of the layout follow one another, from the first index to
  the last.
* `Document.map_items_stages`, `Document.openedBy_stage` — every section becomes a stage.
* `Document.stages_partition` — the sections, by their items and by their indices.
-/

namespace Containerfile

/-! ## Ranges -/

namespace ItemRange

variable {a b : Nat} {ranges : List ItemRange}

/-- The indices, in order. -/
def indices (r : ItemRange) : List Nat :=
  List.range' r.start (r.stop - r.start)

/-- The range of the same items with `k` more before them. -/
def shift (k : Nat) (r : ItemRange) : ItemRange :=
  ⟨r.start + k, r.stop + k⟩

@[simp] theorem slice_shift (r : ItemRange) (item : Item) (items : List Item) :
    (r.shift 1).slice (item :: items) = r.slice items := by
  simp [shift, slice, Nat.add_sub_add_right]

/-- The ranges follow one another without a gap, from the index `a` to the index `b`. -/
def Tile : Nat → List ItemRange → Nat → Prop
  | a, [], b => a = b
  | a, r :: ranges, b => r.start = a ∧ r.start ≤ r.stop ∧ Tile r.stop ranges b

theorem Tile.le (h : Tile a ranges b) : a ≤ b := by
  induction ranges generalizing a with
  | nil => exact Nat.le_of_eq h
  | cons r ranges ih =>
    obtain ⟨rfl, hle, h⟩ := h
    exact Nat.le_trans hle (ih h)

/-- Their indices are all from `a` to `b`, in order. -/
theorem Tile.flatMap_indices (h : Tile a ranges b) :
    ranges.flatMap indices = List.range' a (b - a) := by
  induction ranges generalizing a with
  | nil =>
    cases h
    simp
  | cons r ranges ih =>
    obtain ⟨rfl, hle, h⟩ := h
    have hb := h.le
    have hstop : r.start + (r.stop - r.start) = r.stop := by omega
    have hlength : r.stop - r.start + (b - r.stop) = b - r.start := by omega
    rw [List.flatMap_cons, ih h, indices, ← hlength, ← List.range'_append_1, hstop]

end ItemRange

namespace Document

open ItemRange

variable {items : List Item} {sections : List (List Item)} {stage : Stage} {n k : Nat}

/-! ## The layout -/

theorem tile_stageRanges {start index : Nat} (items : List Item) (h : start ≤ index) :
    Tile start (stageRanges start index items) (index + items.length) := by
  induction items generalizing start index with
  | nil => exact ⟨rfl, h, rfl⟩
  | cons item items ih =>
    have hlength : index + (item :: items).length = index + 1 + items.length := by
      rw [List.length_cons]
      omega
    rw [hlength, stageRanges]
    split
    · exact ⟨rfl, h, ih (Nat.le_succ index)⟩
    · exact ih (Nat.le_succ_of_le h)

theorem tile_layoutFrom (index : Nat) (items : List Item) :
    Tile 0 ((layoutFrom index items).globals :: (layoutFrom index items).stages)
      (index + items.length) := by
  induction items generalizing index with
  | nil => exact ⟨rfl, Nat.zero_le _, rfl⟩
  | cons item items ih =>
    have hlength : index + (item :: items).length = index + 1 + items.length := by
      rw [List.length_cons]
      omega
    rw [hlength, layoutFrom]
    split
    · exact ⟨rfl, Nat.zero_le _, tile_stageRanges items (Nat.le_succ index)⟩
    · exact ih (index + 1)

/-- The global section and the stages follow one another, from the first item to the last. -/
theorem tile_layout (items : List Item) :
    Tile 0 ((layout items).globals :: (layout items).stages) items.length := by
  have htile := tile_layoutFrom 0 items
  rwa [Nat.zero_add] at htile

/-! ### One more item

An item in front of others moves all ranges by one index.  If it opens a stage, what was the global
section belongs to it; if not, it belongs to the global section. -/

theorem stageRanges_shift (start index : Nat) (items : List Item) :
    stageRanges (start + 1) (index + 1) items = (stageRanges start index items).map (shift 1) := by
  induction items generalizing start index with
  | nil => rfl
  | cons item items ih =>
    rw [stageRanges, stageRanges]
    split
    · rw [ih, List.map_cons]
      rfl
    · exact ih start (index + 1)

theorem stageRanges_zero (index : Nat) (items : List Item) :
    stageRanges 0 (index + 1) items = ⟨0, (layoutFrom index items).globals.stop + 1⟩ ::
      (layoutFrom index items).stages.map (shift 1) := by
  induction items generalizing index with
  | nil => rfl
  | cons item items ih =>
    rw [stageRanges, layoutFrom]
    split
    · rw [stageRanges_shift]
    · exact ih (index + 1)

theorem layoutFrom_succ (index : Nat) (items : List Item) :
    layoutFrom (index + 1) items = ⟨⟨0, (layoutFrom index items).globals.stop + 1⟩,
      (layoutFrom index items).stages.map (shift 1)⟩ := by
  induction items generalizing index with
  | nil => rfl
  | cons item items ih =>
    rw [layoutFrom, layoutFrom]
    split
    · rw [stageRanges_shift]
    · exact ih (index + 1)

@[simp] theorem split_nil : split [] = ([], []) :=
  rfl

/-- The sections of one more item. -/
theorem split_cons (item : Item) (items : List Item) :
    split (item :: items) = if item.opensStage then
      ([], (item :: (split items).1) :: (split items).2)
      else (item :: (split items).1, (split items).2) := by
  have hglobals : (layout items).globals.start = 0 := (tile_layout items).1
  have hfirst : ItemRange.slice ⟨0, (layout items).globals.stop + 1⟩ (item :: items) =
      item :: (layout items).globals.slice items := by
    simp [slice, hglobals]
  have hstages : ((layout items).stages.map (shift 1)).map (·.slice (item :: items)) =
      (layout items).stages.map (·.slice items) := by
    simp
  unfold split
  by_cases hitem : item.opensStage = true
  · have hlayout : layout (item :: items) = ⟨⟨0, 0⟩, ⟨0, (layout items).globals.stop + 1⟩ ::
        (layout items).stages.map (shift 1)⟩ := by
      rw [layout, layoutFrom, if_pos hitem]
      exact congrArg (StageLayout.mk ⟨0, 0⟩) (stageRanges_zero 0 items)
    rw [hlayout, if_pos hitem, List.map_cons, hfirst, hstages]
    rfl
  · have hlayout : layout (item :: items) = ⟨⟨0, (layout items).globals.stop + 1⟩,
        (layout items).stages.map (shift 1)⟩ := by
      rw [layout, layoutFrom, if_neg hitem]
      exact layoutFrom_succ 0 items
    rw [hlayout, if_neg hitem, hfirst, hstages]

/-! ## Sections -/

theorem split_fst (items : List Item) :
    (split items).1 = items.takeWhile fun item => !item.opensStage := by
  induction items with
  | nil => rfl
  | cons item items ih => by_cases h : item.opensStage <;> simp [split_cons, h, ih]

/-- The items of one stage: first the instruction that opens it, and behind it none that opens
another. -/
def OpenedBy (i : Instruction) (items : List Item) : Prop :=
  ∃ rest, items = .instruction i :: rest ∧ i.form = .stage ∧ ∀ item ∈ rest, item.opensStage = false

/-- The sections in order are all the items. -/
theorem split_append (items : List Item) : (split items).1 ++ (split items).2.flatten = items := by
  induction items with
  | nil => rfl
  | cons item items ih => by_cases hitem : item.opensStage = true <;> simp [split_cons, hitem, ih]

theorem opensStage_of_mem_split (items : List Item) :
    ∀ item ∈ (split items).1, item.opensStage = false := by
  intro item hitem
  rw [split_fst] at hitem
  simpa using List.all_eq_true.1 List.all_takeWhile item hitem

theorem openedBy_of_mem_split (items : List Item) : ∀ x ∈ (split items).2, ∃ i, OpenedBy i x := by
  induction items with
  | nil => simp
  | cons item items ih =>
    by_cases hitem : item.opensStage = true
    · obtain ⟨i, rfl, hform⟩ : ∃ i, item = .instruction i ∧ i.form = .stage := by
        cases item with
        | instruction i => exact ⟨i, rfl, by simpa [Item.opensStage] using hitem⟩
        | comment | blankLines | directive => cases hitem
      simp only [split_cons, hitem, if_true, List.forall_mem_cons]
      exact ⟨⟨i, _, rfl, hform, opensStage_of_mem_split items⟩, ih⟩
    · simpa [split_cons, hitem] using ih

/-- As many items open a stage as there are sections. -/
theorem countP_flatten (h : ∀ x ∈ sections, ∃ i, OpenedBy i x) :
    sections.flatten.countP Item.opensStage = sections.length := by
  induction sections with
  | nil => rfl
  | cons x sections ih =>
    obtain ⟨⟨i, rest, rfl, hform, hrest⟩, hsections⟩ := List.forall_mem_cons.1 h
    have hnone : rest.countP Item.opensStage = 0 := by simpa [List.countP_eq_zero] using hrest
    have hone : (Item.instruction i :: rest).countP Item.opensStage = 1 := by
      simp [Item.opensStage, hform, hnone]
    rw [List.flatten_cons, List.countP_append, hone, ih hsections, List.length_cons, Nat.add_comm]

/-! ## Numbers -/

theorem OpenedBy.ofItems? {i : Instruction} (h : OpenedBy i items) (n : Nat) :
    Stage.ofItems? n items = some ⟨n, i, items⟩ := by
  obtain ⟨rest, rfl, hform, -⟩ := h
  simp [Stage.ofItems?, hform]

/-- No section is left out when the stages are numbered. -/
theorem map_items_numberStages (h : ∀ x ∈ sections, ∃ i, OpenedBy i x) :
    (numberStages n sections).map Stage.items = sections := by
  induction sections generalizing n with
  | nil => rfl
  | cons x sections ih =>
    obtain ⟨⟨i, hi⟩, hsections⟩ := List.forall_mem_cons.1 h
    simp [numberStages, hi.ofItems?, ih hsections]

theorem openedBy_numberStages (h : ∀ x ∈ sections, ∃ i, OpenedBy i x)
    (hk : (numberStages n sections)[k]? = some stage) :
    stage.index = n + k ∧ OpenedBy stage.opening stage.items := by
  induction sections generalizing n k with
  | nil => simp [numberStages] at hk
  | cons x sections ih =>
    obtain ⟨⟨i, hi⟩, hsections⟩ := List.forall_mem_cons.1 h
    rw [numberStages, hi.ofItems?] at hk
    cases k with
    | zero =>
      cases hk
      exact ⟨rfl, hi⟩
    | succ k =>
      obtain ⟨hindex, hopened⟩ := ih hsections (n := n + 1) (k := k) (by simpa using hk)
      exact ⟨by omega, hopened⟩

theorem map_items_stages (d : Document) : d.stages.stages.map Stage.items = (split d.items).2 :=
  map_items_numberStages (openedBy_of_mem_split d.items)

theorem stages_append (d : Document) :
    d.stages.globals ++ d.stages.stages.flatMap Stage.items = d.items := by
  rw [List.flatMap_def, map_items_stages]
  exact split_append d.items

/-- A stage has its place among the stages as its number, and begins with what opens it. -/
theorem openedBy_stage {d : Document} (hk : d.stages.stages[k]? = some stage) :
    stage.index = k ∧ OpenedBy stage.opening stage.items := by
  simpa using openedBy_numberStages (openedBy_of_mem_split d.items) hk

/-! ## Places -/

variable {d : Document}

/-- A stage has the items at the indices that the layout gives for it. -/
theorem exists_range (hk : d.stages.stages[k]? = some stage) :
    ∃ r : ItemRange, (layout d.items).stages[k]? = some r ∧ stage.items = r.slice d.items := by
  have hitems : (d.stages.stages.map Stage.items)[k]? = some stage.items := by
    rw [List.getElem?_map, hk]
    rfl
  rw [map_items_stages, split, List.getElem?_map] at hitems
  obtain ⟨r, hr, hslice⟩ := Option.map_eq_some_iff.1 hitems
  exact ⟨r, hr, hslice.symm⟩

/-- There are as many stages as instructions that open one. -/
theorem length_stages (d : Document) :
    d.stages.stages.length = d.instructions.countP fun i => i.form == .stage := by
  have hglobals : (split d.items).1.countP Item.opensStage = 0 := by
    simpa [List.countP_eq_zero] using opensStage_of_mem_split d.items
  calc
    d.stages.stages.length = (split d.items).2.length := by rw [← map_items_stages, List.length_map]
    _ = (split d.items).2.flatten.countP Item.opensStage :=
      (countP_flatten (openedBy_of_mem_split d.items)).symm
    _ = d.items.countP Item.opensStage := by
      conv => rhs; rw [← split_append d.items]
      rw [List.countP_append, hglobals, Nat.zero_add]
    _ = d.instructions.countP fun i => i.form == .stage := by
      rw [instructions, List.countP_filterMap]
      congr 1
      funext item
      cases item <;> rfl

/-- Among the items of a stage, the first one opens a stage and no other does. -/
theorem OpenedBy.opensStage_iff {i : Instruction} {r : ItemRange} (h : OpenedBy i (r.slice items))
    (hle : r.start ≤ n) (hlt : n < r.stop) :
    items[n]?.any Item.opensStage = true ↔ n = r.start := by
  obtain ⟨rest, hitems, hform, hrest⟩ := h
  obtain ⟨m, rfl⟩ := Nat.exists_eq_add_of_le hle
  have hm : items[r.start + m]? = (.instruction i :: rest)[m]? := by
    rw [← hitems, slice, List.getElem?_take_of_lt (by omega), List.getElem?_drop]
  rw [hm]
  cases m with
  | zero => simp [Item.opensStage, hform]
  | succ m =>
    have hnone : rest[m]?.any Item.opensStage = false := by
      rw [Option.any_eq_false]
      exact fun item hitem => by simpa using hrest item (List.mem_of_getElem? hitem)
    simp [hnone]

/-- **Stages partition the file.**  The global section and the stages in order are the items of
the file, and none of the sections that the file is split into gets lost as a stage.  The ranges
of the layout follow one another without a gap, so that their indices are all indices in order,
and a section has the items at its indices.  There are as many stages as instructions that open
one: none of these is in the global section, and the only one in a stage is its first item.  Each
stage has its number as its index. -/
theorem stages_partition (d : Document) :
    d.stages.globals ++ d.stages.stages.flatMap Stage.items = d.items ∧
    split d.items = (d.stages.globals, d.stages.stages.map Stage.items) ∧
    d.stages.stages.length = (d.instructions.countP fun i => i.form == .stage) ∧
    (layout d.items).stages.length = d.stages.stages.length ∧
    Tile 0 ((layout d.items).globals :: (layout d.items).stages) d.items.length ∧
    List.range d.items.length =
      (layout d.items).globals.indices ++ (layout d.items).stages.flatMap indices ∧
    d.stages.globals = (layout d.items).globals.slice d.items ∧
    (∀ item ∈ d.stages.globals, item.opensStage = false) ∧
    ∀ (k : Nat) (stage : Stage), d.stages.stages[k]? = some stage →
      ∃ r : ItemRange, (layout d.items).stages[k]? = some r ∧
        stage.index = k ∧
        stage.items = r.slice d.items ∧
        stage.items.head? = some (.instruction stage.opening) ∧
        ∀ n, r.start ≤ n → n < r.stop →
          (d.items[n]?.any Item.opensStage = true ↔ n = r.start) := by
  refine ⟨stages_append d, ?_, length_stages d, ?_, tile_layout d.items, ?_, rfl,
    opensStage_of_mem_split d.items, fun k stage hk => ?_⟩
  · rw [map_items_stages]
    rfl
  · rw [← List.length_map Stage.items, map_items_stages, split, List.length_map]
  · rw [List.range_eq_range', ← List.flatMap_cons, (tile_layout d.items).flatMap_indices,
      Nat.sub_zero]
  · obtain ⟨r, hr, hslice⟩ := exists_range hk
    obtain ⟨hindex, hopened⟩ := openedBy_stage hk
    obtain ⟨rest, hitems, -, -⟩ := id hopened
    rw [hslice] at hopened
    exact ⟨r, hr, hindex, hslice, by rw [hitems]; rfl, fun n => hopened.opensStage_iff⟩

/-- Two stages, of which the first is nothing but what opens it. -/
theorem stages_partition_adjacent :
    ∃ (d : Document) (stage : Stage), parse "# c\nFROM a\nFROM b\nRUN x\n".toList = .ok d ∧
      layout d.items = ⟨⟨0, 1⟩, [⟨1, 2⟩, ⟨2, 4⟩]⟩ ∧ d.items.length = 4 ∧
      d.stages.stages[0]? = some stage ∧ stage.index = 0 ∧ stage.items = (d.items.drop 1).take 1 ∧
      ∀ n, 1 ≤ n → n < 2 → (d.items[n]?.any Item.opensStage = true ↔ n = 1) := by
  let opening (image : Text) : Instruction := ⟨.stage, '\\', [.leaf .keyword "FROM".toList,
    .blank [' '], .node (.literal true) [.fragment image], .newline ['\n']]⟩
  obtain ⟨d, stage, hd, hlayout, hlength, hstage⟩ :
      ∃ (d : Document) (stage : Stage), parse "# c\nFROM a\nFROM b\nRUN x\n".toList = .ok d ∧
      layout d.items = ⟨⟨0, 1⟩, [⟨1, 2⟩, ⟨2, 4⟩]⟩ ∧ d.items.length = 4 ∧
      d.stages.stages[0]? = some stage :=
    ⟨⟨[.comment ⟨[.leaf .commentMark ['#'], .fragment " c".toList, .newline ['\n']]⟩,
        .instruction (opening ['a']), .instruction (opening ['b']),
        .instruction ⟨.command, '\\', [.leaf .keyword "RUN".toList, .blank [' '],
          .node (.literal false) [.fragment ['x']], .newline ['\n']]⟩]⟩,
      ⟨0, opening ['a'], [.instruction (opening ['a'])]⟩, by decide +kernel, by decide, rfl, rfl⟩
  obtain ⟨r, hr, hindex, hitems, -, hopens⟩ :=
    (stages_partition d).2.2.2.2.2.2.2.2 0 stage hstage
  rw [hlayout] at hr
  cases hr
  exact ⟨d, stage, hd, hlayout, hlength, hstage, hindex, hitems, hopens⟩

end Document

end Containerfile
