import Containerfile.Proofs.Resolution
import Containerfile.Proofs.Substitution
import Mathlib.Data.List.Induction

/-!
# Which variables a reference sees

The resolution of a file hands a map of variables from item to item and changes it on the way.  Here
the map is described without that: by the places of the section that write to a variable.  What a
reference sees is the value of the last write before it.

A place that writes is a `Site`.  The declarations of an `ARG` write one after another, so each sees
the ones before it; the assignments of an `ENV` write all at once, so none sees another of them.
`Written` says which value each site of a section writes, in terms of the writes that are in force
for it; nothing in it depends on the order in which the resolution gets there.

## Main definitions

* `Site`, `Item.sites`, `sitesOf` — the places of a section that write to a variable.
* `Written` — the writes that sites make.

## Main results

* `Bindings.find?_ofList` — a map made of writes holds for each name its last write.
* `Scope.Resolves.written` — the scope behind a run is made of the writes of its items.
* `Document.resolved_of_written` — what `FROM`, `ARG`, `ENV` and all other instructions see.
-/

namespace Containerfile

/-- A name with the value that is written to it; without one, it is declared and unset. -/
abbrev Write := Text × Option Text

/-- What is written last to a name; nothing if nothing is written to it. -/
def lastWrite (name : Text) (writes : List Write) : Option (Option Text) :=
  (writes.reverse.find? fun w => w.1 == name).map Prod.snd

namespace Bindings

theorem lookup_put (name n : Text) (value : Option Text) (entries : List Write) :
    lookup n (put name value entries) = if name = n then some value else lookup n entries := by
  induction entries with
  | nil => simp [put, lookup]
  | cons e entries ih =>
    obtain ⟨m, v⟩ := e
    by_cases hm : m = name
    · subst hm
      by_cases hn : m = n <;> simp [put, lookup, hn]
    · by_cases hn : m = n
      · subst hn
        simp [put, lookup, hm, Ne.symm hm]
      · simp [put, lookup, hm, hn, ih]

theorem find?_insert (b : Bindings) (name n : Text) (value : Option Text) :
    (b.insert name value).find? n = if name = n then some value else b.find? n :=
  lookup_put name n value b.entries

theorem extend_append (b : Bindings) (xs ys : List Write) :
    b.extend (xs ++ ys) = (b.extend xs).extend ys :=
  List.foldl_append

theorem ofList_append (xs ys : List Write) : ofList (xs ++ ys) = (ofList xs).extend ys :=
  extend_append _ _ _

/-- A map made of writes holds a name exactly if it is written to, with what is written last. -/
theorem find?_ofList (writes : List Write) (name : Text) :
    (ofList writes).find? name = lastWrite name writes := by
  induction writes using List.reverseRecOn with
  | nil => rfl
  | append_singleton writes w ih =>
    have hinsert : ofList (writes ++ [w]) = (ofList writes).insert w.1 w.2 := ofList_append _ _
    rw [hinsert, find?_insert, ih]
    by_cases hw : w.1 = name <;> simp [lastWrite, hw]

end Bindings

/-! ## Places that write -/

/-- A place of a section that writes to a variable. -/
structure Site where
  name : Text
  /-- The value as it stands in the file, if there is one. -/
  literal? : Option Literal
  /-- The place assigns a value; if not, it declares an argument. -/
  assigns : Bool
  /-- How many writes of the section are in force for the references in the value. -/
  seen : Nat
deriving DecidableEq, Repr

/-- The value that a site writes, given what its own literal says once it is expanded: an assignment
writes that, a declaration the caller's value, its own, or the inherited one. -/
def Site.value (setting : Setting) (inherited : Text → Option Text) (site : Site)
    (own : Option Text) : Option Text :=
  if site.assigns then some (own.getD [])
  else (setting.buildArgs.value? site.name).or (own.or (inherited site.name))

/-- The sites of an instruction with `n` sites before it.  Assignments count only in a stage. -/
def Instruction.sites (inStage : Bool) (n : Nat) (i : Instruction) : List Site :=
  match i.form with
  | .arg => i.keyValues.mapIdx fun m p => ⟨p.key, p.literal?, false, n + m⟩
  | .env => if inStage then i.assigned.map fun a => ⟨a.1, a.2, true, n⟩ else []
  | _ => []

/-- The sites of an item with `n` sites before it. -/
def Item.sites (inStage : Bool) (n : Nat) : Item → List Site
  | .instruction i => i.sites inStage n
  | _ => []

/-- The sites of items with `n` sites before them, in order. -/
def sitesOf (inStage : Bool) : Nat → List Item → List Site
  | _, [] => []
  | n, item :: items =>
    item.sites inStage n ++ sitesOf inStage (n + (item.sites inStage n).length) items

theorem sitesOf_append (inStage : Bool) (n : Nat) (xs ys : List Item) :
    sitesOf inStage n (xs ++ ys) =
      sitesOf inStage n xs ++ sitesOf inStage (n + (sitesOf inStage n xs).length) ys := by
  induction xs generalizing n with
  | nil => simp [sitesOf]
  | cons x xs ih => simp [sitesOf, ih, Nat.add_assoc]

/-- The writes that sites make, behind the writes `before` of the same section. -/
structure Written (setting : Setting) (inherited : Text → Option Text) (before : List Write)
    (sites : List Site) (writes : List Write) : Prop where
  length_eq : writes.length = sites.length
  write : ∀ (k : Nat) (site : Site), sites[k]? = some site → ∃ own,
    (setting.expansion (.ofList ((before ++ writes).take site.seen))).valueOf? site.literal? =
      .ok own ∧
      writes[k]? = some (site.name, site.value setting inherited own)

theorem seen_le_of_mem_sites {inStage : Bool} {n : Nat} {item : Item} {site : Site}
    (h : site ∈ item.sites inStage n) : site.seen ≤ n + (item.sites inStage n).length := by
  cases item with
  | instruction i =>
    simp only [Item.sites, Instruction.sites] at h ⊢
    split at h
    · obtain ⟨m, hm, rfl⟩ := List.mem_mapIdx.1 h
      simp only [List.length_mapIdx]
      omega
    · split at h
      · obtain ⟨a, -, rfl⟩ := List.mem_map.1 h
        simp
      · cases h
    · cases h
  | comment c => cases h
  | blankLines b => cases h
  | directive d => cases h

theorem seen_le_of_mem_sitesOf {inStage : Bool} {n : Nat} {items : List Item} {site : Site}
    (h : site ∈ sitesOf inStage n items) : site.seen ≤ n + (sitesOf inStage n items).length := by
  induction items generalizing n with
  | nil => cases h
  | cons item items ih =>
    simp only [sitesOf, List.mem_append, List.length_append] at h ⊢
    rcases h with h | h
    · have := seen_le_of_mem_sites h
      omega
    · have := ih h
      omega

namespace Written

variable {setting : Setting} {inherited : Text → Option Text} {before xs ys : List Write}
  {sites more : List Site}

theorem nil : Written setting inherited before [] [] :=
  ⟨rfl, fun k site h => by simp at h⟩

/-- Writes behind others: the earlier ones see no more than before. -/
theorem append (hx : Written setting inherited before sites xs)
    (hy : Written setting inherited (before ++ xs) more ys)
    (hseen : ∀ site ∈ sites, site.seen ≤ before.length + sites.length) :
    Written setting inherited before (sites ++ more) (xs ++ ys) where
  length_eq := by simp [hx.length_eq, hy.length_eq]
  write k site hk := by
    by_cases hlt : k < sites.length
    · rw [List.getElem?_append_left hlt] at hk
      obtain ⟨own, hown, hwrite⟩ := hx.write k site hk
      have hle := hseen site (List.mem_of_getElem? hk)
      rw [← hx.length_eq, ← List.length_append] at hle
      refine ⟨own, ?_, ?_⟩
      · rwa [← List.append_assoc, List.take_append_of_le_length hle]
      · rwa [List.getElem?_append_left (by rw [hx.length_eq]; exact hlt)]
    · rw [List.getElem?_append_right (by omega)] at hk
      obtain ⟨own, hown, hwrite⟩ := hy.write _ site hk
      refine ⟨own, by rwa [← List.append_assoc], ?_⟩
      rwa [List.getElem?_append_right (by rw [hx.length_eq]; omega), hx.length_eq]

theorem names_eq (h : Written setting inherited before sites xs) :
    xs.map Prod.fst = sites.map Site.name := by
  refine List.ext_getElem (by simp [h.length_eq]) fun k hk hk' => ?_
  rw [List.length_map] at hk hk'
  obtain ⟨own, -, hwrite⟩ := h.write k sites[k] (List.getElem?_eq_getElem hk')
  rw [List.getElem?_eq_getElem hk] at hwrite
  simp [Option.some.inj hwrite]

/-- A name is written to by one of the first writes exactly if one of the first sites names it. -/
theorem isSome_lastWrite_iff (h : Written setting inherited before sites xs) (k : Nat)
    (name : Text) :
    (lastWrite name (xs.take k)).isSome = true ↔ ∃ site ∈ sites.take k, site.name = name := by
  have hmem : name ∈ (xs.take k).map Prod.fst ↔ name ∈ (sites.take k).map Site.name := by
    rw [List.map_take, List.map_take, h.names_eq]
  simpa [lastWrite, List.find?_isSome, -List.map_take] using hmem

end Written

/-! ## Steps and runs -/

namespace Scope

variable {setting : Setting} {scope after : Scope} {before : List Write}

@[simp] theorem inherited_withVisible (scope : Scope) (b : Bindings) :
    (scope.withVisible b).inherited = scope.inherited := by
  funext name
  cases h : scope.stage <;> simp [withVisible, inherited, h]

@[simp] theorem isSome_stage_withVisible (scope : Scope) (b : Bindings) :
    (scope.withVisible b).stage.isSome = scope.stage.isSome := by
  cases h : scope.stage <;> simp [withVisible, h]

/-- Declarations write one after another: each is expanded with the writes before it. -/
theorem Declares.exists_writes {ts us : List Token} (hvisible : scope.visible = .ofList before)
    (h : Declares setting scope ts us after) :
    ∃ writes, after = scope.withVisible (.ofList (before ++ writes)) ∧
      writes.length = (ts.filterMap Token.keyValue?).length ∧
      ∀ (m : Nat) (p : KeyValue), (ts.filterMap Token.keyValue?)[m]? = some p →
        ∃ q : KeyValue, (us.filterMap Token.keyValue?)[m]? = some q ∧
          p.Expands (setting.expansion (.ofList (before ++ writes.take m))) q ∧
          writes[m]? = some (p.key, (setting.buildArgs.value? p.key).or
            (q.value?.or (scope.inherited p.key))) := by
  induction h generalizing before with
  | nil => exact ⟨[], by simp [← hvisible], rfl, fun m p hp => by simp at hp⟩
  | aside ht _ ih =>
    obtain ⟨writes, hafter, hlen, hwrites⟩ := ih hvisible
    exact ⟨writes, hafter, by simpa [ht] using hlen, by simpa [ht] using hwrites⟩
  | @declaration scope after t p parts ts us ht hparts _ ih =>
    have hq : p.Expands (setting.expansion (.ofList before)) ⟨parts⟩ := hvisible ▸ hparts
    have hkey := KeyValue.key_of_expands hq
    have hnext : (scope.withVisible (scope.visible.insert (KeyValue.key ⟨parts⟩)
        (declaredValue setting scope ⟨parts⟩))).visible =
          .ofList (before ++ [(p.key, declaredValue setting scope ⟨parts⟩)]) := by
      simp [hvisible, hkey, Bindings.ofList_append, Bindings.extend]
    obtain ⟨writes, hafter, hlen, hwrites⟩ := ih hnext
    refine ⟨(p.key, declaredValue setting scope ⟨parts⟩) :: writes, ?_, ?_, ?_⟩
    · simpa using hafter
    · simpa [ht] using hlen
    · intro m p' hp'
      cases m with
      | zero =>
        have hp : p = p' := by simpa [ht] using hp'
        subst hp
        exact ⟨⟨parts⟩, by simp [Token.keyValue?, KeyValue.token], by simpa using hq,
          by simp [declaredValue, hkey]⟩
      | succ m =>
        obtain ⟨q, hq, hexpands, hwrite⟩ := hwrites m p' (by simpa [ht] using hp')
        exact ⟨q, by simpa [Token.keyValue?, KeyValue.token] using hq,
          by simpa using hexpands, by simpa using hwrite⟩

theorem written_of_declare {i : Instruction} {parts : List Token} (hform : i.form = .arg)
    (hvisible : scope.visible = .ofList before)
    (h : scope.declare setting i.parts = .ok (parts, after)) :
    ∃ writes, after = scope.withVisible (.ofList (before ++ writes)) ∧
      Written setting scope.inherited before (i.sites scope.stage.isSome before.length) writes ∧
      ∀ (m : Nat) (p : KeyValue), i.keyValues[m]? = some p →
        ∃ q, (i.withParts parts).keyValues[m]? = some q ∧
          p.Expands (setting.expansion (.ofList (before ++ writes.take m))) q := by
  obtain ⟨writes, hafter, hlen, hwrites⟩ :=
    (declare_eq_ok.1 h).exists_writes hvisible
  refine ⟨writes, hafter,
    ⟨by simpa [Instruction.sites, Instruction.keyValues, hform] using hlen, ?_⟩, ?_⟩
  · intro m site hsite
    simp only [Instruction.sites, hform, List.getElem?_mapIdx, Option.map_eq_some_iff] at hsite
    obtain ⟨p, hp, rfl⟩ := hsite
    obtain ⟨q, -, hexpands, hwrite⟩ := hwrites m p hp
    refine ⟨q.value?, ?_, by simpa [Site.value] using hwrite⟩
    simpa only [List.take_length_add_append] using KeyValue.value?_of_expands hexpands
  · intro m p hp
    obtain ⟨q, hq, hexpands, -⟩ := hwrites m p hp
    exact ⟨q, hq, hexpands⟩

/-- Assignments write all at once: none is expanded with another. -/
theorem written_of_expand {i j : Instruction} (hform : i.form = .env)
    (hvisible : scope.visible = .ofList before)
    (h : i.expand (setting.expansion scope.visible) = .ok j) :
    ∃ writes, scope.assign j.assignments = scope.withVisible (.ofList (before ++ writes)) ∧
      Written setting scope.inherited before (i.sites scope.stage.isSome before.length) writes := by
  cases hstage : scope.stage with
  | none =>
    refine ⟨[], by simp [assign, hstage, ← hvisible], ?_⟩
    simpa [Instruction.sites, hform] using Written.nil
  | some b =>
    have hassigned := Instruction.assignments_of_expand h
    have hb : b = .ofList before := by simpa [visible, hstage] using hvisible
    refine ⟨j.assignments.map fun a => (a.1, some a.2), ?_, ?_, ?_⟩
    · simp [assign, withVisible, hstage, hb, Bindings.ofList_append]
    · simpa [Instruction.sites, hform] using hassigned.length_eq.symm
    · intro k site hsite
      simp only [Instruction.sites, hform, Option.isSome_some, if_true, List.getElem?_map,
        Option.map_eq_some_iff] at hsite
      obtain ⟨a, ha, rfl⟩ := hsite
      obtain ⟨hlt, rfl⟩ := List.getElem?_eq_some_iff.1 ha
      have hlt' : k < j.assignments.length := hassigned.length_eq ▸ hlt
      obtain ⟨hname, own, hown, hvalue⟩ := hassigned.get hlt hlt'
      simp only [List.get_eq_getElem] at hname hown hvalue
      refine ⟨own, by simpa [hvisible] using hown, ?_⟩
      simp [Site.value, hlt', hname, hvalue]

namespace Step

variable {item out : Item}

/-- **What a step adds to the scope** is what the sites of its item write. -/
theorem written (h : Step setting scope item out after) (hitem : item.opensStage = false)
    (hvisible : scope.visible = .ofList before) :
    ∃ writes, after = scope.withVisible (.ofList (before ++ writes)) ∧
      Written setting scope.inherited before (item.sites scope.stage.isSome before.length)
        writes := by
  cases h with
  | still hnone =>
    refine ⟨[], by simp [← hvisible], ?_⟩
    cases item <;> first | exact .nil | cases hnone
  | opening hform => simp [Item.opensStage, hform] at hitem
  | arg hform h =>
    obtain ⟨writes, hafter, hwritten, -⟩ := written_of_declare hform hvisible h
    exact ⟨writes, hafter, hwritten⟩
  | env hform h => exact written_of_expand hform hvisible h
  | @other i j hform h =>
    refine ⟨[], by simp [← hvisible], ?_⟩
    obtain ⟨-, harg, henv⟩ := hform
    have hsites : i.sites scope.stage.isSome before.length = [] := by
      unfold Instruction.sites
      cases hf : i.form <;> simp_all
    change Written setting scope.inherited before (i.sites _ _) []
    rw [hsites]
    exact .nil

end Step

/-- **The scope behind a run** is made of the writes of its items, in their order. -/
theorem Resolves.written {items outs : List Item} (h : Resolves setting scope items outs after)
    (hitems : ∀ item ∈ items, item.opensStage = false) (hvisible : scope.visible = .ofList before) :
    ∃ writes, after = scope.withVisible (.ofList (before ++ writes)) ∧
      Written setting scope.inherited before (sitesOf scope.stage.isSome before.length items)
        writes := by
  induction h generalizing before with
  | nil => exact ⟨[], by simp [← hvisible], .nil⟩
  | @cons scope mid after item out items outs hx hs ih =>
    obtain ⟨xs, rfl, hwritten⟩ := hx.written (hitems item List.mem_cons_self) hvisible
    obtain ⟨ys, rfl, hrest⟩ := ih (fun item hi => hitems item (List.mem_cons_of_mem _ hi))
      (visible_withVisible _ _)
    refine ⟨xs ++ ys, by simp, hwritten.append ?_ fun site hsite => seen_le_of_mem_sites hsite⟩
    simpa [hwritten.length_eq] using hrest

end Scope

namespace Document

open Scope

variable {d : Document} {buildArgs : Bindings} {options : ResolutionOptions} {t : Text}

/-- The scope behind the global section holds the writes of its declarations. -/
theorem exists_globals {setting : Setting} {items vs : List Item} {scope : Scope}
    (h : Resolves setting .start (split items).1 vs scope) :
    ∃ writes, scope = ⟨.ofList writes, none⟩ ∧
      Written setting (fun _ => none) [] (sitesOf false 0 (split items).1) writes := by
  have hitems : ∀ item ∈ (split items).1, item.opensStage = false := by
    rw [split_fst]
    intro item hitem
    simpa using List.all_eq_true.1 List.all_takeWhile item hitem
  obtain ⟨writes, hscope, hwritten⟩ := h.written hitems (show _ = Bindings.ofList [] from rfl)
  exact ⟨writes, hscope, hwritten⟩

/-- The scope in a stage holds the writes of the items before it, and the global ones stay. -/
theorem exists_stage {setting : Setting} {globals : List Write} {opening : Item}
    {rest us : List Item} {scope : Scope}
    (h : Resolves setting ⟨.ofList globals, none⟩ (opening :: rest) us scope)
    (hopening : opening.opensStage = true) (hrest : ∀ item ∈ rest, item.opensStage = false) :
    ∃ writes, scope = ⟨.ofList globals, some (.ofList writes)⟩ ∧
      Written setting scope.inherited [] (sitesOf true 0 (opening :: rest)) writes := by
  cases opening with
  | instruction i =>
    have hform : i.form = .stage := by simpa [Item.opensStage] using hopening
    cases h with
    | cons hx hs =>
      obtain ⟨j, -, -, rfl⟩ := hx.exists_of_stage hform
      obtain ⟨writes, rfl, hwritten⟩ := hs.written hrest (show _ = Bindings.ofList [] from rfl)
      refine ⟨writes, rfl, ?_⟩
      simpa [sitesOf, Item.sites, Instruction.sites, hform] using hwritten
  | comment c => cases hopening
  | blankLines b => cases hopening
  | directive d => cases hopening

/-- **The scopes of `ARG` and `ENV`.**  Let a file be resolved.  Its global declarations make the
writes `globals`, and each `FROM` is expanded under these.  The items of a stage before an
instruction, with that instruction behind them, make the writes `writes`.  An `ARG` is expanded
declaration by declaration, each under the writes before it, and every other instruction under
those before the whole of it.  A map made of the first writes holds the names of the first sites,
each with the last write to it. -/
theorem resolved_of_written (h : (d.resolve buildArgs options).answer = .ok t) :
    (∀ inherited sites writes, Written (d.setting buildArgs options) inherited [] sites writes →
      ∀ (k : Nat) name, (Bindings.ofList (writes.take k)).find? name =
        lastWrite name (writes.take k) ∧
        ((lastWrite name (writes.take k)).isSome = true ↔
          ∃ site ∈ sites.take k, site.name = name)) ∧
    ∃ globals, Written (d.setting buildArgs options) (fun _ => none) []
        (sitesOf false 0 d.stages.globals) globals ∧
      (∀ (n : Nat) i, d.items[n]? = some (.instruction i) → i.form = .stage →
        ∃ j, (d.resolved buildArgs options).items[n]? = some (.instruction j) ∧
          i.expand ((d.setting buildArgs options).expansion (.ofList globals)) = .ok j) ∧
      ∀ (n : Nat) i first, d.items[n]? = some (.instruction i) → i.form ≠ .stage →
        stageBefore d.items n = some first →
        ∃ writes j, Written (d.setting buildArgs options)
          (fun name => (lastWrite name globals).join) []
            (sitesOf true 0 (first ++ [.instruction i])) writes ∧
          (d.resolved buildArgs options).items[n]? = some (.instruction j) ∧
          (i.form ≠ .arg → i.expand ((d.setting buildArgs options).expansion
            (.ofList (writes.take (sitesOf true 0 first).length))) = .ok j) ∧
          (i.form = .arg → ∀ (m : Nat) (p : KeyValue), i.keyValues[m]? = some p →
            ∃ q, j.keyValues[m]? = some q ∧ p.Expands ((d.setting buildArgs options).expansion
              (.ofList (writes.take ((sitesOf true 0 first).length + m)))) q) := by
  obtain ⟨-, after, hrun⟩ := resolve_eq_ok h
  obtain ⟨vs, scope, hglobals, -⟩ := globals_of_run hrun
  obtain ⟨globals, rfl, hwritten⟩ := exists_globals hglobals
  refine ⟨fun _ _ _ hw k name => ⟨Bindings.find?_ofList _ _, hw.isSome_lastWrite_iff k name⟩,
    globals, hwritten, ?_, ?_⟩
  · intro n i hn hform
    obtain ⟨_, scope, out, _, hscope, hstep, hout⟩ :=
      exists_step_of_opensStage hrun hn (by simp [Item.opensStage, hform])
    obtain ⟨-, rfl⟩ := hglobals.unique hscope
    obtain ⟨j, rfl, hj, -⟩ := hstep.exists_of_stage hform
    exact ⟨j, hout, hj⟩
  · intro n i first hn hform hfirst
    obtain ⟨_, scope, us, before, out, behind, hscope, hstage, hstep, hout⟩ :=
      exists_step_of_stageBefore hrun hn hfirst
    obtain ⟨-, rfl⟩ := hglobals.unique hscope
    obtain ⟨_, opening, rest, -, rfl, hopening, hrest⟩ := getLast?_split hfirst
    obtain ⟨xs, rfl, hxs⟩ := exists_stage hstage hopening hrest
    have hinherited : Scope.inherited ⟨.ofList globals, some (.ofList xs)⟩ =
        fun name => (lastWrite name globals).join := by
      funext name
      simp [inherited, Bindings.value?, Bindings.find?_ofList]
    have hlen : (sitesOf true 0 (opening :: rest)).length = xs.length := hxs.length_eq.symm
    have happend : ∀ ys, Written (d.setting buildArgs options)
          (Scope.inherited ⟨.ofList globals, some (.ofList xs)⟩) xs (i.sites true xs.length) ys →
        Written (d.setting buildArgs options) (fun name => (lastWrite name globals).join) []
          (sitesOf true 0 (opening :: rest ++ [.instruction i])) (xs ++ ys) := by
      intro ys hys
      rw [sitesOf_append, ← hinherited]
      refine hxs.append ?_ fun site hsite => seen_le_of_mem_sitesOf hsite
      rw [hlen]
      simpa [sitesOf, Item.sites] using hys
    by_cases harg : i.form = .arg
    · obtain ⟨parts, rfl, hdeclare⟩ := hstep.exists_of_arg harg
      obtain ⟨ys, -, hys, hpairs⟩ := written_of_declare harg rfl hdeclare
      refine ⟨xs ++ ys, _, happend ys hys, hout, fun hne => absurd harg hne, fun _ m p hp => ?_⟩
      obtain ⟨q, hq, hexpands⟩ := hpairs m p hp
      rw [hlen, List.take_length_add_append]
      exact ⟨q, hq, hexpands⟩
    · obtain ⟨ys, -, hys⟩ := hstep.written (by simp [Item.opensStage, hform]) rfl
      obtain ⟨j, rfl, hj⟩ := hstep.exists_of_other hform harg
      refine ⟨xs ++ ys, j, happend ys hys, hout, fun _ => ?_, fun h => absurd h harg⟩
      rw [hlen, List.take_left]
      exact hj

/-- An argument without a default of its own has the value of the global one. -/
theorem resolved_of_written_inherited :
    ∃ d i first globals writes j, parse "ARG V=1\nFROM a\nARG V\nUSER $V\n".toList = .ok d ∧
      d.items[3]? = some (.instruction i) ∧ stageBefore d.items 3 = some first ∧
      (d.resolve .empty {}).answer = .ok "ARG V=1\nFROM a\nARG V\nUSER 1\n".toList ∧
      Written (d.setting .empty {}) (fun name => (lastWrite name globals).join) []
        (sitesOf true 0 (first ++ [.instruction i])) writes ∧
      (d.resolved .empty {}).items[3]? = some (.instruction j) ∧
      i.expand ((d.setting .empty {}).expansion
        (.ofList (writes.take (sitesOf true 0 first).length))) = .ok j := by
  obtain ⟨d, i, first, hd, hi, hfirst, hform, harg, hanswer⟩ :
      ∃ (d : Document) (i : Instruction) (first : List Item),
      parse "ARG V=1\nFROM a\nARG V\nUSER $V\n".toList = .ok d ∧
      d.items[3]? = some (.instruction i) ∧ stageBefore d.items 3 = some first ∧
      i.form ≠ .stage ∧ i.form ≠ .arg ∧
      (d.resolve .empty {}).answer = .ok "ARG V=1\nFROM a\nARG V\nUSER 1\n".toList :=
    ⟨⟨[.instruction ⟨.arg, '\\', [.leaf .keyword "ARG".toList, .blank [' '],
          .node .keyValue [.leaf .identifier ['V'], .symbol ['='],
            .node (.literal true) [.fragment ['1']]], .newline ['\n']]⟩,
        .instruction ⟨.stage, '\\', [.leaf .keyword "FROM".toList, .blank [' '],
          .node (.literal true) [.fragment ['a']], .newline ['\n']]⟩,
        .instruction ⟨.arg, '\\', [.leaf .keyword "ARG".toList, .blank [' '],
          .node .keyValue [.leaf .identifier ['V']], .newline ['\n']]⟩,
        .instruction ⟨.generic, '\\', [.leaf .keyword "USER".toList, .blank [' '],
          .node (.literal true)
            [.node .reference [.leaf .referenceMark ['$'], .leaf .identifier ['V']]],
          .newline ['\n']]⟩]⟩, _, _,
      by decide +kernel, rfl, rfl, by decide, by decide, by decide +kernel⟩
  obtain ⟨-, globals, -, -, hstage⟩ := resolved_of_written hanswer
  obtain ⟨writes, j, hwritten, hj, hexpand, -⟩ := hstage 3 i first hi hform hfirst
  exact ⟨d, i, first, globals, writes, j, hd, hi, hfirst, hanswer, hwritten, hj, hexpand harg⟩

end Document

end Containerfile
