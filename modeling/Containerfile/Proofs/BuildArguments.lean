import Containerfile.Config
import Containerfile.Proofs.Scoping

/-!
# What the caller can change

The caller of a resolution gives values for arguments of the build.  They are looked up where an
`ARG` declares a name, and nowhere else: a value for a name that the file does not declare is not
noticed, a name without a value is as good as none, and the order of the values does not count.

A configuration brings values of its own, and those of the caller are written over them.  A name
that the caller gives without a value takes the configured one away.

## Main definitions

* `Document.declaredNames` — the names that the file declares as arguments.

## Main results

* `Bindings.find?_extend` — one map written over another.
* `Scope.resolveItems_congr` — a run takes notice of the values of declared names only.
* `Document.resolve_eq_of_declared` — so does a resolution, also under a configuration.
-/

namespace Containerfile

/-! ## One map over another -/

namespace Bindings

/-- No name stands twice, as in every map that is made by insertions. -/
def Distinct (b : Bindings) : Prop :=
  (b.entries.map Prod.fst).Nodup

theorem lookup_eq_none {name : Text} {entries : List Write} :
    lookup name entries = none ↔ name ∉ entries.map Prod.fst := by
  induction entries with
  | nil => simp [lookup]
  | cons e entries ih =>
    by_cases he : e.1 = name
    · simp [lookup, he]
    · simp [lookup, he, Ne.symm he, ih]

theorem mem_put {name n : Text} {value : Option Text} {entries : List Write} :
    n ∈ (put name value entries).map Prod.fst ↔ n = name ∨ n ∈ entries.map Prod.fst := by
  rw [← not_iff_not, ← lookup_eq_none, lookup_put, not_or, ← lookup_eq_none]
  by_cases hn : name = n
  · simp [hn]
  · simp [hn, Ne.symm hn]

theorem Distinct.insert {b : Bindings} (h : b.Distinct) (name : Text) (value : Option Text) :
    (b.insert name value).Distinct := by
  obtain ⟨entries⟩ := b
  unfold Distinct Bindings.insert at *
  induction entries with
  | nil => simp [put]
  | cons e entries ih =>
    obtain ⟨hnew, hrest⟩ := List.nodup_cons.1 h
    by_cases he : e.1 = name
    · simpa [put, he] using h
    · simp only [put, he, if_false, List.map_cons, List.nodup_cons]
      exact ⟨fun hmem => (mem_put.1 hmem).elim he hnew, ih hrest⟩

theorem distinct_ofList (writes : List Write) : (ofList writes).Distinct := by
  induction writes using List.reverseRecOn with
  | nil => exact List.nodup_nil
  | append_singleton writes w ih =>
    rw [ofList_append]
    exact ih.insert w.1 w.2

/-- A map that is written over another one counts first, also where it has no value. -/
theorem find?_extend {b x : Bindings} (hx : x.Distinct) (name : Text) :
    (b.extend x.entries).find? name = (x.find? name).or (b.find? name) := by
  obtain ⟨entries⟩ := x
  induction entries generalizing b with
  | nil => rfl
  | cons e entries ih =>
    obtain ⟨hnew, hrest⟩ := List.nodup_cons.1 hx
    have hcons : b.extend (e :: entries) = (b.insert e.1 e.2).extend entries := rfl
    rw [hcons, ih hrest, find?_insert]
    by_cases he : e.1 = name
    · have hnone : lookup name entries = none := lookup_eq_none.2 (he ▸ hnew)
      simp [find?, lookup, he, hnone]
    · simp [find?, lookup, he]

theorem value?_extend {b x : Bindings} (hx : x.Distinct) (name : Text) :
    (b.extend x.entries).value? name = (x.find? name).getD (b.value? name) := by
  rw [value?, find?_extend hx]
  cases h : x.find? name <;> simp [value?]

end Bindings

/-! ## Declared names -/

/-- The names that an item declares as arguments. -/
def Item.declaredNames : Item → List Text
  | .instruction i => if i.form = .arg then i.declaredNames else []
  | _ => []

/-- The names that the file declares as arguments. -/
def Document.declaredNames (d : Document) : List Text :=
  d.items.flatMap Item.declaredNames

namespace Scope

variable {setting : Setting} {b : Bindings} {scope : Scope}

/-- The values of the caller are not among the variables. -/
theorem expansion_buildArgs (v : Bindings) :
    { setting with buildArgs := b }.expansion v = setting.expansion v :=
  rfl

/-- The declarations of an `ARG` take notice of the values of their own names only. -/
theorem declare_congr {ts : List Token} (h : ∀ p ∈ ts.filterMap Token.keyValue?,
      setting.buildArgs.value? p.key = b.value? p.key) :
    scope.declare setting ts = scope.declare { setting with buildArgs := b } ts := by
  induction ts generalizing scope with
  | nil => rfl
  | cons t ts ih =>
    cases ht : t.keyValue? with
    | none =>
      rw [List.filterMap_cons_none ht] at h
      simp only [declare, ht, ih h]
    | some p =>
      rw [List.filterMap_cons_some ht, List.forall_mem_cons] at h
      obtain ⟨hp, hts⟩ := h
      simp only [declare, ht, expansion_buildArgs]
      cases hparts : (setting.expansion scope.visible).substituteAll p.parts with
      | error e => rfl
      | ok parts =>
        have hkey : KeyValue.key ⟨parts⟩ = p.key := KeyValue.key_of_expands hparts
        have hvalue : declaredValue setting scope ⟨parts⟩ =
            declaredValue { setting with buildArgs := b } scope ⟨parts⟩ := by
          simp only [declaredValue, hkey, hp]
        simp only [bind, Except.bind, hvalue, ih hts]

theorem resolveItem_congr {item : Item}
    (h : ∀ name ∈ item.declaredNames, setting.buildArgs.value? name = b.value? name) :
    scope.resolveItem setting item = scope.resolveItem { setting with buildArgs := b } item := by
  cases item with
  | instruction i =>
    suffices hi : scope.resolveInstruction setting i =
        scope.resolveInstruction { setting with buildArgs := b } i by
      simp only [resolveItem, hi]
    unfold resolveInstruction
    cases hform : i.form with
    | arg =>
      have hpairs : ∀ p ∈ i.keyValues, setting.buildArgs.value? p.key = b.value? p.key := by
        simpa [Item.declaredNames, hform, Instruction.declaredNames] using h
      rw [declare_congr hpairs]
    | stage | env | label | command | onBuild | generic => simp only [expansion_buildArgs]
  | comment | blankLines | directive => rfl

/-- **A run takes notice of the values of declared names only.** -/
theorem resolveItems_congr {items : List Item}
    (h : ∀ name ∈ items.flatMap Item.declaredNames,
      setting.buildArgs.value? name = b.value? name) :
    resolveItems setting scope items =
      resolveItems { setting with buildArgs := b } scope items := by
  induction items generalizing scope with
  | nil => rfl
  | cons item items ih =>
    rw [List.flatMap_cons, List.forall_mem_append] at h
    simp only [resolveItems, resolveItem_congr h.1, ih h.2]

end Scope

/-! ## Resolution -/

namespace Document

theorem resolve_congr {d : Document} {options : ResolutionOptions} {a b : Bindings}
    (h : ∀ name ∈ d.declaredNames, a.value? name = b.value? name) :
    d.resolve a options = d.resolve b options := by
  have hitems : Scope.resolveItems (d.setting a options) .start d.items =
      Scope.resolveItems (d.setting b options) .start d.items := Scope.resolveItems_congr h
  unfold resolve
  rw [hitems]

/-- **The caller acts through declared names only.**  Two maps that give the same values to the
names that a file declares lead to the same answer and the same file.  To resolve under a
configuration is therefore to resolve with any map that has the entries of the caller first, even
those without a value, and the configured ones for other names. -/
theorem resolve_eq_of_declared (d : Document) :
    (∀ (options : ResolutionOptions) (a b : Bindings),
      (∀ name ∈ d.declaredNames, a.value? name = b.value? name) →
        d.resolve a options = d.resolve b options) ∧
    ∀ (config : Config) (entries : List (Text × Option Text)) (b : Bindings),
      (∀ name ∈ d.declaredNames, b.value? name =
        ((Bindings.ofList entries).find? name).getD (config.buildArgs.value? name)) →
        config.resolve d (.ofList entries) = d.resolve b config.options := by
  refine ⟨fun options a b => resolve_congr, fun config entries b hb => ?_⟩
  refine resolve_congr fun name hname => ?_
  rw [hb name hname, Bindings.value?_extend (Bindings.distinct_ofList entries)]

/-- A name without a value, and one that is not declared, are as good as none; and a name without a
value takes the configured value away. -/
theorem resolve_eq_of_declared_null :
    ∃ d, parse "ARG A=1\nFROM $A\n".toList = .ok d ∧ d.declaredNames = [['A']] ∧
      d.resolve (.ofList [(['B'], some ['2']), (['A'], none)]) { inline := true } =
        d.resolve .empty { inline := true } ∧
      Config.resolve (.ofArgs [(['A'], ['3'])] {}) d (.ofList [(['A'], none)]) =
        d.resolve .empty {} ∧
      (d.resolve .empty {}).answer = .ok "ARG A=1\nFROM 1\n".toList := by
  obtain ⟨d, hd, hnames, hanswer⟩ : ∃ d, parse "ARG A=1\nFROM $A\n".toList = .ok d ∧
      d.declaredNames = [['A']] ∧ (d.resolve .empty {}).answer = .ok "ARG A=1\nFROM 1\n".toList :=
    ⟨⟨[.instruction ⟨.arg, '\\', [.leaf .keyword "ARG".toList, .blank [' '],
          .node .keyValue [.leaf .identifier ['A'], .symbol ['='],
            .node (.literal true) [.fragment ['1']]], .newline ['\n']]⟩,
        .instruction ⟨.stage, '\\', [.leaf .keyword "FROM".toList, .blank [' '],
          .node (.literal true) [.node .reference [.leaf .referenceMark ['$'],
            .leaf .identifier ['A']]], .newline ['\n']]⟩]⟩,
      by decide +kernel, by decide, by decide +kernel⟩
  obtain ⟨hplain, hconfig⟩ := resolve_eq_of_declared d
  refine ⟨d, hd, hnames, hplain _ _ _ ?_, hconfig _ _ _ ?_, hanswer⟩
  · rw [hnames]
    decide
  · rw [hnames]
    decide

end Document

end Containerfile
