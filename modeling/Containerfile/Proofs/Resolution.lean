import Containerfile.Document.Resolution
import Containerfile.Proofs.Partition
import Containerfile.Proofs.Readers

/-!
# Resolving item by item

The items of a file are resolved one after another, and all that an item hands to the next one is
the scope.  `Scope.Step` lists what a step can do, and `Scope.Resolves` is a run of steps.  Along
every run the global variables stay as they are once a stage has been opened, and an item that opens
a stage leaves nothing of the stage before it.

So what becomes of an item is settled by the global section and by the items before it in its own
stage.  Other stages do not count, and neither does anything that comes later.

## Main definitions

* `Scope.Step`, `Scope.Resolves` — a step of the resolution, and a run of steps.
* `Scope.Declares` — what the declarations of an `ARG` do.
* `Document.resolved` — the file that a resolution in place leaves.
* `Document.stageBefore` — the items of the own stage that stand before an item.

## Main results

* `Document.resolved_eq_of_stageBefore` — resolution is local to a stage, and causal.
-/

namespace Containerfile

namespace Scope

variable {setting : Setting} {scope mid after after' : Scope} {item out out' : Item}
  {items outs us vs : List Item}

@[simp] theorem visible_withVisible (scope : Scope) (b : Bindings) :
    (scope.withVisible b).visible = b := by
  cases h : scope.stage <;> simp [withVisible, visible, h]

@[simp] theorem withVisible_visible (scope : Scope) : scope.withVisible scope.visible = scope := by
  obtain ⟨globals, stage⟩ := scope
  cases stage <;> rfl

@[simp] theorem withVisible_withVisible (scope : Scope) (b c : Bindings) :
    (scope.withVisible b).withVisible c = scope.withVisible c := by
  cases h : scope.stage <;> simp [withVisible, h]

/-! ## Steps -/

/-- What resolving one item can do: the resolved item, and the scope behind it. -/
inductive Step (setting : Setting) (scope : Scope) : Item → Item → Scope → Prop where
  /-- An item that is no instruction stays as it is. -/
  | still {item : Item} (hitem : item.instruction? = none) : Step setting scope item item scope
  /-- An instruction that opens a stage sees the global variables; the stage starts without any. -/
  | opening {i j : Instruction} (hform : i.form = .stage)
      (h : i.expand (setting.expansion scope.globals) = .ok j) :
      Step setting scope (.instruction i) (.instruction j) ⟨scope.globals, some .empty⟩
  | arg {i : Instruction} {parts : List Token} {after : Scope} (hform : i.form = .arg)
      (h : scope.declare setting i.parts = .ok (parts, after)) :
      Step setting scope (.instruction i) (.instruction (i.withParts parts)) after
  | env {i j : Instruction} (hform : i.form = .env)
      (h : i.expand (setting.expansion scope.visible) = .ok j) :
      Step setting scope (.instruction i) (.instruction j) (scope.assign j.assignments)
  | other {i j : Instruction} (hform : i.form ≠ .stage ∧ i.form ≠ .arg ∧ i.form ≠ .env)
      (h : i.expand (setting.expansion scope.visible) = .ok j) :
      Step setting scope (.instruction i) (.instruction j) scope

theorem step_iff :
    Step setting scope item out after ↔ scope.resolveItem setting item = .ok (out, after) := by
  constructor
  · intro h
    cases h with
    | still hitem => cases item <;> first | rfl | cases hitem
    | opening hform h => simp [resolveItem, resolveInstruction, hform, h, bind, Except.bind, pure,
        Except.pure]
    | arg hform h => simp [resolveItem, resolveInstruction, hform, h, bind, Except.bind, pure,
        Except.pure]
    | env hform h => simp [resolveItem, resolveInstruction, hform, h, bind, Except.bind, pure,
        Except.pure]
    | @other i j hform h =>
      obtain ⟨hstage, harg, henv⟩ := hform
      cases hf : i.form <;>
        simp_all [resolveItem, resolveInstruction, bind, Except.bind, pure, Except.pure]
  · intro h
    cases item with
    | instruction i =>
      obtain ⟨⟨j, scope'⟩, hi, h⟩ := bind_eq_ok.1 h
      cases h
      cases hf : i.form with
      | stage =>
        simp only [resolveInstruction, hf] at hi
        obtain ⟨j, hj, hi⟩ := bind_eq_ok.1 hi
        cases hi
        exact .opening hf hj
      | arg =>
        simp only [resolveInstruction, hf] at hi
        obtain ⟨⟨parts, after⟩, hd, hi⟩ := bind_eq_ok.1 hi
        cases hi
        exact .arg hf hd
      | env =>
        simp only [resolveInstruction, hf] at hi
        obtain ⟨j, hj, hi⟩ := bind_eq_ok.1 hi
        cases hi
        exact .env hf hj
      | label | command | onBuild | generic =>
        simp only [resolveInstruction, hf] at hi
        obtain ⟨j, hj, hi⟩ := bind_eq_ok.1 hi
        cases hi
        exact .other (by simp [hf]) hj
    | comment c => cases h; exact .still rfl
    | blankLines b => cases h; exact .still rfl
    | directive d => cases h; exact .still rfl

/-- What resolving the parts of an `ARG` does: each declaration is resolved in the scope that the
ones before it leave, and no other token is touched. -/
inductive Declares (setting : Setting) : Scope → List Token → List Token → Scope → Prop where
  | nil (scope : Scope) : Declares setting scope [] [] scope
  | aside {scope after : Scope} {t : Token} {ts us : List Token} (ht : t.keyValue? = none)
      (hs : Declares setting scope ts us after) : Declares setting scope (t :: ts) (t :: us) after
  | declaration {scope after : Scope} {t : Token} {p : KeyValue} {parts ts us : List Token}
      (ht : t.keyValue? = some p)
      (hp : (setting.expansion scope.visible).substituteAll p.parts = .ok parts)
      (hs : Declares setting (scope.withVisible (scope.visible.insert (KeyValue.key ⟨parts⟩)
        (declaredValue setting scope ⟨parts⟩))) ts us after) :
      Declares setting scope (t :: ts) (KeyValue.token ⟨parts⟩ :: us) after

theorem declare_eq_ok {ts us : List Token} :
    scope.declare setting ts = .ok (us, after) ↔ Declares setting scope ts us after := by
  constructor
  · intro h
    induction ts generalizing scope us with
    | nil =>
      cases h
      exact .nil _
    | cons t ts ih =>
      rw [declare] at h
      cases ht : t.keyValue? with
      | none =>
        simp only [ht] at h
        obtain ⟨⟨vs, _⟩, hd, h⟩ := bind_eq_ok.1 h
        cases h
        exact .aside ht (ih hd)
      | some p =>
        simp only [ht] at h
        obtain ⟨parts, hp, h⟩ := bind_eq_ok.1 h
        obtain ⟨⟨vs, _⟩, hd, h⟩ := bind_eq_ok.1 h
        cases h
        exact .declaration ht hp (ih hd)
  · intro h
    induction h with
    | nil => rfl
    | aside ht _ ih => simp [declare, ht, ih, bind, Except.bind, pure, Except.pure]
    | declaration ht hp _ ih => simp [declare, ht, hp, ih, bind, Except.bind, pure, Except.pure]

/-- Declarations change the visible variables and nothing else. -/
theorem Declares.eq_withVisible {ts us : List Token} (h : Declares setting scope ts us after) :
    after = scope.withVisible after.visible := by
  induction h with
  | nil => simp
  | aside _ _ ih => exact ih
  | declaration _ _ _ ih => simpa using ih

namespace Step

/-- A step is determined by what is before it. -/
theorem unique (h : Step setting scope item out after) (h' : Step setting scope item out' after') :
    out = out' ∧ after = after' := by
  have := (step_iff.1 h).symm.trans (step_iff.1 h')
  simpa using this

theorem exists_of_stage {i : Instruction} (h : Step setting scope (.instruction i) out after)
    (hform : i.form = .stage) :
    ∃ j, out = .instruction j ∧ i.expand (setting.expansion scope.globals) = .ok j ∧
      after = ⟨scope.globals, some .empty⟩ := by
  cases h with
  | still hnone => cases hnone
  | opening _ h => exact ⟨_, rfl, h, rfl⟩
  | arg h | env h => simp [hform] at h
  | other h => exact absurd hform h.1

theorem exists_of_arg {i : Instruction} (h : Step setting scope (.instruction i) out after)
    (hform : i.form = .arg) :
    ∃ parts, out = .instruction (i.withParts parts) ∧
      scope.declare setting i.parts = .ok (parts, after) := by
  cases h with
  | still hnone => cases hnone
  | arg _ h => exact ⟨_, rfl, h⟩
  | opening h | env h => simp [hform] at h
  | other h => exact absurd hform h.2.1

theorem exists_of_other {i : Instruction} (h : Step setting scope (.instruction i) out after)
    (hstage : i.form ≠ .stage) (harg : i.form ≠ .arg) :
    ∃ j, out = .instruction j ∧ i.expand (setting.expansion scope.visible) = .ok j := by
  cases h with
  | still hnone => cases hnone
  | opening h => exact absurd h hstage
  | arg h => exact absurd h harg
  | env _ h | other _ h => exact ⟨_, rfl, h⟩

/-- An item that opens a stage takes no notice of the stage before it. -/
theorem of_opensStage (h : Step setting scope item out after) (hitem : item.opensStage = true)
    (hglobals : mid.globals = scope.globals) : Step setting mid item out after := by
  cases h with
  | still hnone => cases item <;> first | cases hitem | cases hnone
  | opening hform h =>
    rw [← hglobals] at h ⊢
    exact .opening hform h
  | arg hform | env hform => simp [Item.opensStage, hform] at hitem
  | other hform => simp [Item.opensStage, hform] at hitem

/-- Once a stage has been opened, the global variables stay as they are. -/
theorem globals_eq (h : Step setting scope item out after)
    (hstage : scope.stage.isSome = true ∨ item.opensStage = true) :
    after.globals = scope.globals ∧ after.stage.isSome = true := by
  cases h with
  | still hnone =>
    refine ⟨rfl, hstage.resolve_right fun hitem => ?_⟩
    cases item <;> first | cases hitem | cases hnone
  | opening => exact ⟨rfl, rfl⟩
  | arg hform h =>
    have hsome := hstage.resolve_right (by simp [Item.opensStage, hform])
    obtain ⟨b, hb⟩ := Option.isSome_iff_exists.1 hsome
    rw [(declare_eq_ok.1 h).eq_withVisible]
    simp [withVisible, hb]
  | env hform =>
    have hsome := hstage.resolve_right (by simp [Item.opensStage, hform])
    obtain ⟨b, hb⟩ := Option.isSome_iff_exists.1 hsome
    simp [assign, hb]
  | other hform => exact ⟨rfl, hstage.resolve_right (by simp [Item.opensStage, hform])⟩

end Step

/-! ## Runs -/

/-- A run of steps over items, from the scope before the first to the scope behind the last. -/
inductive Resolves (setting : Setting) : Scope → List Item → List Item → Scope → Prop where
  | nil (scope : Scope) : Resolves setting scope [] [] scope
  | cons {scope mid after : Scope} {item out : Item} {items outs : List Item}
      (h : Step setting scope item out mid) (hs : Resolves setting mid items outs after) :
      Resolves setting scope (item :: items) (out :: outs) after

theorem resolveItems_eq_ok :
    resolveItems setting scope items = .ok outs ↔
      ∃ after, Resolves setting scope items outs after := by
  constructor
  · intro h
    induction items generalizing scope outs with
    | nil =>
      cases h
      exact ⟨scope, .nil scope⟩
    | cons item items ih =>
      obtain ⟨⟨out, mid⟩, hitem, h⟩ := bind_eq_ok.1 h
      obtain ⟨rest, hrest, h⟩ := bind_eq_ok.1 h
      cases h
      obtain ⟨after, hs⟩ := ih hrest
      exact ⟨after, .cons (step_iff.2 hitem) hs⟩
  · rintro ⟨after, h⟩
    induction h with
    | nil scope => rfl
    | cons h hs ih => simp [resolveItems, step_iff.1 h, ih, bind, Except.bind, pure, Except.pure]

namespace Resolves

theorem append_iff {xs ys : List Item} :
    Resolves setting scope (xs ++ ys) outs after ↔ ∃ us vs mid, outs = us ++ vs ∧
      Resolves setting scope xs us mid ∧ Resolves setting mid ys vs after := by
  induction xs generalizing scope outs with
  | nil =>
    constructor
    · intro h
      exact ⟨[], outs, scope, rfl, .nil scope, h⟩
    · rintro ⟨us, vs, mid, rfl, hx, hy⟩
      cases hx
      exact hy
  | cons x xs ih =>
    constructor
    · intro h
      cases h with
      | cons hx hs =>
        obtain ⟨us, vs, mid, rfl, hxs, hys⟩ := ih.1 hs
        exact ⟨_ :: us, vs, mid, rfl, .cons hx hxs, hys⟩
    · rintro ⟨us, vs, mid, rfl, hx, hy⟩
      cases hx with
      | cons hx hxs => exact .cons hx (ih.2 ⟨_, vs, mid, rfl, hxs, hy⟩)

/-- A run is determined by what is before it. -/
theorem unique (h : Resolves setting scope items us after)
    (h' : Resolves setting scope items vs after') : us = vs ∧ after = after' := by
  induction h generalizing vs with
  | nil =>
    cases h'
    exact ⟨rfl, rfl⟩
  | cons hx _ ih =>
    cases h' with
    | cons hy hys =>
      obtain ⟨rfl, rfl⟩ := hx.unique hy
      obtain ⟨rfl, rfl⟩ := ih hys
      exact ⟨rfl, rfl⟩

/-- A run that is in a stage, or starts with one, leaves the global variables alone. -/
theorem globals_eq (h : Resolves setting scope items outs after)
    (hstage : scope.stage.isSome = true ∨ items.head?.all Item.opensStage = true) :
    after.globals = scope.globals := by
  induction h with
  | nil => rfl
  | cons h _ ih =>
    obtain ⟨hglobals, hsome⟩ := h.globals_eq (by simpa using hstage)
    rw [ih (.inl hsome), hglobals]

/-- A run over a stage takes no notice of the stage before it. -/
theorem of_opensStage (h : Resolves setting scope (item :: items) outs after)
    (hitem : item.opensStage = true) (hglobals : mid.globals = scope.globals) :
    Resolves setting mid (item :: items) outs after := by
  cases h with
  | cons hx hs => exact .cons (hx.of_opensStage hitem hglobals) hs

/-- The step of the item at an index, with the run before it. -/
theorem exists_step (h : Resolves setting scope items outs after) {i : Nat}
    (hi : items[i]? = some item) :
    ∃ out before behind, Resolves setting scope (items.take i) (outs.take i) before ∧
      Step setting before item out behind ∧ outs[i]? = some out := by
  induction h generalizing i with
  | nil => simp at hi
  | @cons scope mid after x y items outs hx hs ih =>
    cases i with
    | zero =>
      have hx' : x = item := by simpa using hi
      exact ⟨y, scope, mid, .nil scope, hx' ▸ hx, rfl⟩
    | succ i =>
      obtain ⟨out, before, behind, hrun, hstep, hout⟩ := ih (i := i) (by simpa using hi)
      exact ⟨out, before, behind, .cons hx hrun, hstep, by simpa using hout⟩

end Resolves

end Scope

/-! ## Stages -/

namespace Document

open Scope

variable {d : Document} {items xs : List Item} {item : Item} {buildArgs : Bindings}
  {options : ResolutionOptions}

/-- The items of the own stage that stand before the item at an index, from the one that opens the
stage on; nothing if no stage has been opened there. -/
def stageBefore (items : List Item) (index : Nat) : Option (List Item) :=
  (split (items.take index)).2.getLast?

/-- The file with all its items resolved; the same file if that is not possible. -/
def resolved (d : Document) (buildArgs : Bindings) (options : ResolutionOptions) : Document :=
  (d.resolve buildArgs { options with inline := true }).target

theorem split_of_snd_eq_nil (h : (split items).2 = []) :
    (split items).1 = items ∧ ∀ item ∈ items, item.opensStage = false := by
  induction items with
  | nil => simp
  | cons item items ih =>
    by_cases hitem : item.opensStage = true
    · simp [split_cons, hitem] at h
    · have hrest : (split items).2 = [] := by simpa [split_cons, hitem] using h
      simpa [split_cons, hitem] using ih hrest

/-- The last stage runs from the last item that opens one to the end. -/
theorem getLast?_split {first : List Item} (h : (split items).2.getLast? = some first) :
    ∃ before opening rest, items = before ++ first ∧ first = opening :: rest ∧
      opening.opensStage = true ∧ ∀ item ∈ rest, item.opensStage = false := by
  induction items with
  | nil => simp at h
  | cons item items ih =>
    by_cases hrest : (split items).2 = []
    · by_cases hitem : item.opensStage = true
      · obtain ⟨hfst, hnone⟩ := split_of_snd_eq_nil hrest
        have hfirst : item :: items = first := by simpa [split_cons, hitem, hrest, hfst] using h
        exact ⟨[], item, items, by simp [hfirst], hfirst.symm, hitem, hnone⟩
      · simp [split_cons, hitem, hrest] at h
    · have hlast : (split items).2.getLast? = some first := by
        by_cases hitem : item.opensStage = true
        · rw [← h]
          simp [split_cons, hitem, List.getLast?_cons_of_ne_nil hrest]
        · simpa [split_cons, hitem] using h
      obtain ⟨before, opening, rest, rfl, hfirst, hopening, hnone⟩ := ih hlast
      exact ⟨item :: before, opening, rest, rfl, hfirst, hopening, hnone⟩

/-- A resolution that succeeds is a run over all items, and answers the text of what comes out. -/
theorem resolve_eq_ok {t : Text} (h : (d.resolve buildArgs options).answer = .ok t) :
    textOf (d.resolved buildArgs options).items = t ∧
      ∃ after, Resolves (d.setting buildArgs options) .start d.items
        (d.resolved buildArgs options).items after := by
  have hsetting : d.setting buildArgs { options with inline := true } =
      d.setting buildArgs options :=
    rfl
  simp only [resolved, resolve, hsetting] at h ⊢
  cases hitems : resolveItems (d.setting buildArgs options) .start d.items with
  | error e => simp [hitems, Except.map, Resolution.settle] at h
  | ok outs =>
    rw [hitems] at h
    refine ⟨?_, resolveItems_eq_ok.1 hitems⟩
    simpa [Except.map, Resolution.settle, text] using h

/-- What is behind an item that opens a stage does not count among the globals. -/
theorem split_fst_append (xs ys : List Item) (hitem : item.opensStage = true) :
    (split (xs ++ item :: ys)).1 = (split xs).1 := by
  simp only [split_fst, List.takeWhile_append, List.takeWhile_cons, hitem, Bool.not_true,
    Bool.false_eq_true, if_false, List.append_nil]
  split
  · rename_i hlen
    exact ((List.takeWhile_sublist _).eq_of_length hlen).symm
  · rfl

/-- The global variables behind some items are those behind the global section. -/
theorem globals_of_run {setting : Setting} {us : List Item} {after : Scope}
    (h : Resolves setting .start xs us after) :
    ∃ vs mid, Resolves setting .start (split xs).1 vs mid ∧ after.globals = mid.globals := by
  have hxs : xs = (split xs).1 ++ xs.dropWhile fun item => !item.opensStage := by
    rw [split_fst, List.takeWhile_append_dropWhile]
  rw [hxs] at h
  obtain ⟨vs, ws, mid, -, hglobals, hstages⟩ := Resolves.append_iff.1 h
  refine ⟨vs, mid, hglobals, hstages.globals_eq (.inr ?_)⟩
  have hhead := List.head?_dropWhile_not (fun item : Item => !item.opensStage) xs
  revert hhead
  cases (xs.dropWhile fun item => !item.opensStage).head? <;> simp

/-- The step of an item that opens a stage: it sees the variables of the global section. -/
theorem exists_step_of_opensStage {setting : Setting} {outs : List Item} {after : Scope}
    (h : Resolves setting .start items outs after) {i : Nat} (hi : items[i]? = some item)
    (hitem : item.opensStage = true) :
    ∃ vs globals out behind, Resolves setting .start (split items).1 vs globals ∧
      Step setting globals item out behind ∧ outs[i]? = some out := by
  obtain ⟨out, before, behind, hrun, hstep, hout⟩ := h.exists_step hi
  obtain ⟨vs, globals, hglobals, heq⟩ := globals_of_run hrun
  have hsplit : (split items).1 = (split (items.take i)).1 := by
    obtain ⟨hlt, rfl⟩ := List.getElem?_eq_some_iff.1 hi
    have hitems : items.take i ++ items[i] :: items.drop (i + 1) = items := by simp
    simpa only [hitems] using split_fst_append (items.take i) (items.drop (i + 1)) hitem
  rw [hsplit]
  exact ⟨vs, globals, out, behind, hglobals, hstep.of_opensStage hitem heq.symm, hout⟩

/-- The step of an item in a stage: its scope is the one behind the items before it in the stage,
run from the variables of the global section. -/
theorem exists_step_of_stageBefore {setting : Setting} {outs first : List Item} {after : Scope}
    (h : Resolves setting .start items outs after) {i : Nat} (hi : items[i]? = some item)
    (hfirst : stageBefore items i = some first) :
    ∃ vs globals us before out behind, Resolves setting .start (split items).1 vs globals ∧
      Resolves setting globals first us before ∧ Step setting before item out behind ∧
      outs[i]? = some out := by
  obtain ⟨out, before, behind, hrun, hstep, hout⟩ := h.exists_step hi
  obtain ⟨earlier, opening, rest, htake, rfl, hopening, -⟩ := getLast?_split hfirst
  rw [htake] at hrun
  obtain ⟨ws, us, mid, -, hearlier, hstage⟩ := Resolves.append_iff.1 hrun
  obtain ⟨vs, globals, hglobals, heq⟩ := globals_of_run hearlier
  have hsplit : (split items).1 = (split earlier).1 := by
    have hitems : earlier ++ opening :: (rest ++ items.drop i) = items := by
      simpa [htake] using List.take_append_drop i items
    simpa only [hitems] using split_fst_append earlier (rest ++ items.drop i) hopening
  rw [hsplit]
  exact ⟨vs, globals, us, before, out, behind, hglobals, hstage.of_opensStage hopening heq.symm,
    hstep, hout⟩

/-- **Resolution is local to a stage and causal.**  Two files with the same escape character and the
same items before their first stage are resolved with the same values.  Then two equal items become
equal items if they open stages, or if the items before them in their own stages are the same;
whatever the other stages and all later items hold. -/
theorem resolved_eq_of_stageBefore {d₁ d₂ : Document} {t₁ t₂ : Text}
    (hescape : d₁.escape = d₂.escape) (hglobals : d₁.stages.globals = d₂.stages.globals)
    (h₁ : (d₁.resolve buildArgs options).answer = .ok t₁)
    (h₂ : (d₂.resolve buildArgs options).answer = .ok t₂) {i j : Nat}
    (hi : d₁.items[i]? = some item) (hj : d₂.items[j]? = some item)
    (hstage : item.opensStage = true ∨
      ∃ first, stageBefore d₁.items i = some first ∧ stageBefore d₂.items j = some first) :
    ∃ out, (d₁.resolved buildArgs options).items[i]? = some out ∧
      (d₂.resolved buildArgs options).items[j]? = some out := by
  obtain ⟨-, after₁, hrun₁⟩ := resolve_eq_ok h₁
  obtain ⟨-, after₂, hrun₂⟩ := resolve_eq_ok h₂
  have hsetting : d₁.setting buildArgs options = d₂.setting buildArgs options := by
    simp [setting, hescape]
  have hsplit : (split d₁.items).1 = (split d₂.items).1 := hglobals
  rw [hsetting] at hrun₁
  obtain hitem | ⟨first, hfirst₁, hfirst₂⟩ := hstage
  · obtain ⟨vs₁, globals₁, out₁, _, hglobals₁, hstep₁, hout₁⟩ :=
      exists_step_of_opensStage hrun₁ hi hitem
    obtain ⟨vs₂, globals₂, out₂, _, hglobals₂, hstep₂, hout₂⟩ :=
      exists_step_of_opensStage hrun₂ hj hitem
    obtain ⟨-, rfl⟩ := hglobals₁.unique (hsplit ▸ hglobals₂)
    obtain ⟨rfl, -⟩ := hstep₁.unique hstep₂
    exact ⟨out₁, hout₁, hout₂⟩
  · obtain ⟨vs₁, globals₁, us₁, before₁, out₁, _, hglobals₁, hstage₁, hstep₁, hout₁⟩ :=
      exists_step_of_stageBefore hrun₁ hi hfirst₁
    obtain ⟨vs₂, globals₂, us₂, before₂, out₂, _, hglobals₂, hstage₂, hstep₂, hout₂⟩ :=
      exists_step_of_stageBefore hrun₂ hj hfirst₂
    obtain ⟨-, rfl⟩ := hglobals₁.unique (hsplit ▸ hglobals₂)
    obtain ⟨-, rfl⟩ := hstage₁.unique hstage₂
    obtain ⟨rfl, -⟩ := hstep₁.unique hstep₂
    exact ⟨out₁, hout₁, hout₂⟩

/-- A stage is resolved alike with and without a stage before it. -/
theorem resolved_eq_of_stageBefore_later :
    ∃ d₁ d₂ out, parse "FROM a\nENV V=1\nUSER $V\n".toList = .ok d₁ ∧
      parse "FROM b\nFROM a\nENV V=1\nUSER $V\n".toList = .ok d₂ ∧
      (d₁.resolved .empty {}).items[2]? = some out ∧
      (d₂.resolved .empty {}).items[3]? = some out := by
  obtain ⟨d₁, d₂, item, first, hd₁, hd₂, hescape, hglobals, hi, hj, hfirst₁, hfirst₂, h₁, h₂⟩ :
      ∃ (d₁ d₂ : Document) (item : Item) (first : List Item),
      parse "FROM a\nENV V=1\nUSER $V\n".toList = .ok d₁ ∧
      parse "FROM b\nFROM a\nENV V=1\nUSER $V\n".toList = .ok d₂ ∧ d₁.escape = d₂.escape ∧
      d₁.stages.globals = d₂.stages.globals ∧ d₁.items[2]? = some item ∧ d₂.items[3]? = some item ∧
      stageBefore d₁.items 2 = some first ∧ stageBefore d₂.items 3 = some first ∧
      (d₁.resolve .empty {}).answer = .ok "FROM a\nENV V=1\nUSER 1\n".toList ∧
      (d₂.resolve .empty {}).answer = .ok "FROM b\nFROM a\nENV V=1\nUSER 1\n".toList :=
    let opening (image : Text) : Item := .instruction ⟨.stage, '\\', [.leaf .keyword "FROM".toList,
      .blank [' '], .node (.literal true) [.fragment image], .newline ['\n']]⟩
    let stage : List Item := [opening ['a'],
      .instruction ⟨.env, '\\', [.leaf .keyword "ENV".toList, .blank [' '],
        .node .keyValue [.leaf .identifier ['V'], .symbol ['='],
          .node (.literal true) [.fragment ['1']]],
        .newline ['\n']]⟩,
      .instruction ⟨.generic, '\\', [.leaf .keyword "USER".toList, .blank [' '],
        .node (.literal true)
          [.node .reference [.leaf .referenceMark ['$'], .leaf .identifier ['V']]],
        .newline ['\n']]⟩]
    ⟨⟨stage⟩, ⟨opening ['b'] :: stage⟩, _, _, by decide +kernel, by decide +kernel,
      by decide +kernel, by decide +kernel, rfl, rfl, rfl, rfl, by decide +kernel,
      by decide +kernel⟩
  obtain ⟨out, hout₁, hout₂⟩ :=
    resolved_eq_of_stageBefore hescape hglobals h₁ h₂ hi hj (.inr ⟨first, hfirst₁, hfirst₂⟩)
  exact ⟨d₁, d₂, out, hd₁, hd₂, hout₁, hout₂⟩

end Document

end Containerfile
