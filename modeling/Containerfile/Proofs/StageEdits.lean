import Containerfile.Proofs.Dispatch
import Containerfile.Proofs.Removing

/-!
# The shape of a stage under edits

The edits of an instruction that opens a stage look for places by simple searches: behind the
first keyword, behind the last argument, between the first literal and the first name.  None of
them checks what it finds.  They are right because the tokens always stand in one order, and this
order is what they keep: the keyword, flags, the image, and perhaps a name with a keyword of its
own.

## Main definitions

* `StageShape` — the order of the tokens, as the edits keep it.
* `StageOrder` — what the order says about each kind of token.
* `StageRanges` — the places that edits look for lie within the tokens.
* `StageEdit`, `StageEdit.run` — the edits, and runs of them in which some may fail.

## Main results

* `StageEdit.stageShape_apply` — every edit keeps the order.
* `StageEdit.stageShape_run` — so does every run.
* `StageEdit.ordered_of_run` — stages that are read or made stay in order under every run of edits.
-/

namespace Containerfile

open Grammar Lexeme

/-! ## Changing one child -/

namespace Children

variable {p : Token → Bool} {ts us vs : List Token} {t x : Token}

section

variable (add : Token → List Token → List Token) (remove : Nat → List Token → List Token)

theorem set_first (hus : ∀ u ∈ us, p u = false) (hx : p x = true) :
    set ((us ++ x :: vs).findIdx? p) (some t) add remove (us ++ x :: vs) = us ++ t :: vs := by
  rw [findIdx?_append_cons hus hx]
  unfold set
  rw [Option.filter_some_pos (by simp)]
  simp

theorem set_first_none (hus : ∀ u ∈ us, p u = false) (hx : p x = true) :
    set ((us ++ x :: vs).findIdx? p) none add remove (us ++ x :: vs) =
      remove us.length (us ++ x :: vs) := by
  rw [findIdx?_append_cons hus hx]
  exact set_none (by simp) add remove

theorem set_absent (h : ∀ u ∈ ts, p u = false) (replacement : Option Token) :
    set (ts.findIdx? p) replacement add remove ts = replacement.elim ts (add · ts) := by
  rw [List.findIdx?_eq_none_iff.2 h]
  cases replacement <;> rfl

end

/-- Either no child satisfies `p`, or there is a first one that does. -/
theorem absent_or_first (p : Token → Bool) (ts : List Token) :
    (∀ u ∈ ts, p u = false) ∨
      ∃ us x vs, ts = us ++ x :: vs ∧ (∀ u ∈ us, p u = false) ∧ p x = true := by
  cases h : ts.find? p with
  | none => exact .inl fun u hu => Bool.eq_false_iff.2 (List.find?_eq_none.1 h u hu)
  | some x =>
    obtain ⟨hx, us, vs, rfl, hus⟩ := List.find?_eq_some_iff_append.1 h
    exact .inr ⟨us, x, vs, rfl, fun u hu => by simpa using hus u hu, hx⟩

theorem insertAt_append (us inserted vs : List Token) :
    insertAt us.length inserted (us ++ vs) = us ++ inserted ++ vs := by
  simp [insertAt]

theorem afterLast_le (p : Token → Bool) (ts : List Token) : afterLast p ts ≤ ts.length := by
  induction ts with
  | nil => exact Nat.le_refl 0
  | cons t ts ih =>
    cases h : afterLast p ts with
    | zero =>
      simp only [afterLast, h, List.length_cons]
      split <;> omega
    | succ n =>
      simp only [afterLast, h, List.length_cons]
      omega

end Children

/-! ## The order of the tokens -/

/-- What can be behind the image of a stage: nothing, or the name of the stage, with what comes
before it and the line end. -/
inductive StageTail : List Token → Prop where
  | unnamed {ts : List Token} (h : ∀ t ∈ ts, t.isTrivia = true) : StageTail ts
  | named {cs ws : List Token} (name : Text) (hcs : Frame cs) (hws : ∀ t ∈ ws, t.isTrivia = true) :
      StageTail (cs ++ .identifier name :: ws)

/-- The tokens of an instruction that opens a stage, in their order. -/
inductive StageShape : List Token → Prop where
  | intro {lead flags rest : List Token} {word : Text} {image : Token}
      (hlead : ∀ t ∈ lead, t.isTrivia = true) (hword : Keyword.FROM.matchesWord word = true)
      (hflags : ∀ t ∈ flags, t.isTrivia = true ∨ t.isKeyValue = true)
      (himage : image.isLiteral = true) (hrest : StageTail rest) :
      StageShape (lead ++ .leaf .keyword word :: (flags ++ image :: rest))

namespace Token

variable {t : Token}

theorem of_isTrivia (h : t.isTrivia = true) :
    t.isLeaf .keyword = false ∧ t.isLeaf .identifier = false ∧ t.isLiteral = false ∧
      t.isKeyValue = false := by
  cases t with
  | leaf kind s => cases kind <;> first | exact ⟨rfl, rfl, rfl, rfl⟩ | cases h
  | node kind ts => cases kind <;> first | exact ⟨rfl, rfl, rfl, rfl⟩ | cases h

theorem of_isLiteral (h : t.isLiteral = true) :
    t.isTrivia = false ∧ t.isKeyValue = false ∧ ∀ kind, t.isLeaf kind = false := by
  cases t with
  | leaf kind s => cases h
  | node kind ts => cases kind <;> first | exact ⟨rfl, rfl, fun _ => rfl⟩ | cases h

theorem of_isKeyValue (h : t.isKeyValue = true) :
    t.isTrivia = false ∧ t.isLiteral = false ∧ ∀ kind, t.isLeaf kind = false := by
  cases t with
  | leaf kind s => cases h
  | node kind ts => cases kind <;> first | exact ⟨rfl, rfl, fun _ => rfl⟩ | cases h

theorem isKeyValue_of_keyValue? {p : KeyValue → Bool} (h : t.keyValue?.any p = true) :
    t.isKeyValue = true := by
  cases t with
  | leaf kind s => cases h
  | node kind ts => cases kind <;> first | rfl | cases h

end Token

theorem Frame.isKeyValue {ts : List Token} (h : Frame ts) : ∀ t ∈ ts, t.isKeyValue = false := by
  intro t ht
  have hargument := h t ht
  simp only [Token.isArgument, Bool.or_eq_false_iff] at hargument
  exact hargument.2

namespace StageTail

variable {ts : List Token}

/-- Behind the image of a stage there is no other one, and no flag. -/
theorem not_argument (h : StageTail ts) : ∀ t ∈ ts, t.isLiteral = false ∧ t.isKeyValue = false := by
  have hframe {us : List Token} (hus : Frame us) :
      ∀ t ∈ us, t.isLiteral = false ∧ t.isKeyValue = false :=
    fun t ht => ⟨hus.isLiteral t ht, hus.isKeyValue t ht⟩
  cases h with
  | unnamed h => exact hframe (.of_isTrivia h)
  | named name hcs hws =>
    refine List.forall_mem_append.2 ⟨hframe hcs, List.forall_mem_cons.2 ⟨⟨rfl, rfl⟩, ?_⟩⟩
    exact hframe (.of_isTrivia hws)

/-- There is at most one name. -/
theorem countP_le (h : StageTail ts) : ts.countP (Token.isLeaf .identifier) ≤ 1 := by
  have hframe {us : List Token} (hus : Frame us) : us.countP (Token.isLeaf .identifier) = 0 :=
    List.countP_eq_zero.2 fun t ht => by simp [hus.isLeaf t ht]
  cases h with
  | unnamed h => rw [hframe (.of_isTrivia h)]; omega
  | named name hcs hws =>
    rw [List.countP_append, List.countP_cons, hframe hcs, hframe (.of_isTrivia hws)]
    split <;> omega

end StageTail

namespace StageShape

variable {lead flags ts : List Token} {word : Text}

/-- Before the image of a stage there is no literal and no name. -/
theorem before_image (hlead : ∀ t ∈ lead, t.isTrivia = true)
    (hflags : ∀ t ∈ flags, t.isTrivia = true ∨ t.isKeyValue = true) (word : Text) :
    ∀ t ∈ lead ++ .leaf .keyword word :: flags, t.isLiteral = false ∧
      t.isLeaf .identifier = false := by
  have htrivia {t : Token} (h : t.isTrivia = true) :
      t.isLiteral = false ∧ t.isLeaf .identifier = false := by
    obtain ⟨-, hname, hliteral, -⟩ := Token.of_isTrivia h
    exact ⟨hliteral, hname⟩
  refine List.forall_mem_append.2 ⟨fun t ht => htrivia (hlead t ht), ?_⟩
  refine List.forall_mem_cons.2 ⟨⟨rfl, rfl⟩, fun t ht => ?_⟩
  obtain h | h := hflags t ht
  · exact htrivia h
  · obtain ⟨-, hliteral, hleaf⟩ := Token.of_isKeyValue h
    exact ⟨hliteral, hleaf _⟩

theorem append_image (lead flags rest : List Token) (keyword image : Token) :
    lead ++ keyword :: (flags ++ image :: rest) = (lead ++ keyword :: flags) ++ image :: rest := by
  simp

theorem append_name (us cs ws : List Token) (image name : Token) :
    us ++ image :: (cs ++ name :: ws) = us ++ [image] ++ cs ++ name :: ws := by
  simp

/-! ### Stages that are read -/

/-- The tokens of a stage that is read are in order. -/
theorem of_read {e : Char} {s r : Text} {i : Instruction} (h : Instruction.read e s = .ok i r)
    (hi : i.form = .stage) : StageShape i.parts := by
  obtain ⟨_, fin, m, -, hts, hfin, rfl⟩ := Instruction.read_stage_iff.1 ⟨h, hi⟩
  obtain ⟨st, m, fs, m₁, ss, m₂, ls, t, ns, hst, hfs, hss, -, hns, rfl⟩ :=
    Instruction.stageContent_eq_ok.1 hts
  have hfinish := isTrivia_of_finish hfin
  obtain ⟨b, word, -, -, hword, -, rfl⟩ := start_shape.1 hst
  have hlead : ∀ t ∈ (if b = [] then [] else [Token.blank b]), t.isTrivia = true := by
    intro t ht
    split at ht
    · cases ht
    · rw [List.mem_singleton.1 ht]
      rfl
  have hflags : ∀ t ∈ fs ++ ss, t.isTrivia = true ∨ t.isKeyValue = true := by
    intro t ht
    obtain ht | ht := List.mem_append.1 ht
    · obtain ⟨-, rfl, -⟩ | ⟨ss', m', us, hss', -, rfl⟩ := KeyValue.oneFlag_eq_ok.1 hfs
      · cases ht
      · obtain ht | ht := List.mem_append.1 ht
        · exact .inl (isTrivia_of_separator hss' t ht)
        · rw [List.mem_singleton.1 ht]
          exact .inr rfl
    · exact .inl (isTrivia_of_separator hss t ht)
  have hrest : StageTail (ns ++ fin) := by
    obtain hns | ⟨-, rfl, -⟩ := optional_eq_ok.1 hns
    · obtain ⟨cs, name, rfl, hcs⟩ := Instruction.naming_eq_ok hns
      rw [List.append_assoc]
      exact .named name hcs hfinish
    · exact .unnamed hfinish
  have hmatches : Keyword.FROM.matchesWord word = true := by
    rwa [Keyword.matchesWord, Text.sameLetters, Bool.beq_comm]
  have himage : (Token.node (.literal true) ls).isLiteral = true := rfl
  simpa using StageShape.intro hlead hmatches hflags himage hrest

/-! ### Edits -/

/-- Another image takes the place of the image. -/
theorem set_image (h : StageShape ts) (image : Literal) (add : Token → List Token → List Token)
    (remove : Nat → List Token → List Token) :
    StageShape (Children.set (ts.findIdx? Token.isLiteral) (some image.token) add remove ts) := by
  cases h with
  | @intro lead flags rest word image hlead hword hflags himage hrest =>
    have hbefore := fun t ht => (before_image hlead hflags word t ht).1
    rw [append_image, Children.set_first add remove hbefore himage, ← append_image]
    exact .intro hlead hword hflags rfl hrest

/-- The keyword of a stage is its first one. -/
theorem keywordIndex_eq (hlead : ∀ t ∈ lead, t.isTrivia = true) (ts : List Token) :
    Children.keywordIndex (lead ++ .leaf .keyword word :: ts) = lead.length := by
  unfold Children.keywordIndex Children.indexOfLeaf?
  rw [Children.findIdx?_append_cons (fun t ht => (Token.of_isTrivia (hlead t ht)).1) rfl]
  rfl

theorem insertAfterKeyword_eq (hlead : ∀ t ∈ lead, t.isTrivia = true) (t : Token)
    (ts : List Token) :
    Children.insertAfterKeyword t (lead ++ .leaf .keyword word :: ts) =
      lead ++ .leaf .keyword word :: (.blank [' '] :: t :: ts) := by
  have hlength : lead.length + 1 = (lead ++ [Token.leaf .keyword word]).length := by simp
  unfold Children.insertAfterKeyword
  rw [keywordIndex_eq hlead, List.append_cons, hlength, Children.insertAt_append]
  simp

/-- A flag is added right behind the keyword. -/
theorem insert_flag (h : StageShape ts) (flag : KeyValue) :
    StageShape (Children.insertAfterKeyword flag.token ts) := by
  cases h with
  | @intro lead flags rest word image hlead hword hflags himage hrest =>
    have hflags' : ∀ t ∈ .blank [' '] :: flag.token :: flags, t.isTrivia = true ∨
        t.isKeyValue = true :=
      List.forall_mem_cons.2 ⟨.inl rfl, List.forall_mem_cons.2 ⟨.inr rfl, hflags⟩⟩
    rw [insertAfterKeyword_eq hlead]
    exact .intro hlead hword hflags' himage hrest

/-- A flag is removed with the separators before it, and the keyword stays. -/
theorem removeArgument_eq (lead first second : List Token) (flag : Token) :
    ∃ n, Children.removeArgument (lead ++ .leaf .keyword word :: first).length
        ((lead ++ .leaf .keyword word :: first) ++ flag :: second) =
      lead ++ .leaf .keyword word :: (first.take n ++ second) := by
  have hlast : Children.contentEnd (lead ++ .leaf .keyword word :: first) =
      lead.length + 1 + Children.contentEnd first := Children.afterLast_append_cons rfl
  refine ⟨Children.contentEnd first, ?_⟩
  have hle : Children.contentEnd first ≤ first.length := Children.afterLast_le _ _
  unfold Children.removeArgument Children.removeBetween
  rw [List.take_left, hlast]
  have hmax : max (lead.length + 1 + Children.contentEnd first)
      ((lead ++ .leaf .keyword word :: first).length + 1) =
        (lead ++ .leaf .keyword word :: first).length + 1 := by
    simp only [List.length_append, List.length_cons]
    omega
  rw [hmax, Children.drop_append_cons]
  have htake : ((lead ++ .leaf .keyword word :: first) ++ flag :: second).take
      (lead.length + 1 + Children.contentEnd first) =
        lead ++ .leaf .keyword word :: first.take (Children.contentEnd first) := by
    rw [Nat.add_assoc, List.append_assoc, List.take_length_add_append, Nat.add_comm 1,
      List.cons_append, List.take_succ_cons, List.take_append_of_le_length hle]
  rw [htake]
  simp

/-- Another flag takes the place of the flag, or comes right behind the keyword. -/
theorem set_flag (h : StageShape ts) (name : Text) (flag : Option KeyValue) :
    StageShape (Children.set (Children.flagIndex? name ts) (flag.map KeyValue.token)
      Children.insertAfterKeyword Children.removeArgument ts) := by
  cases h with
  | @intro lead flags rest word image hlead hword hflags himage hrest =>
    let p := fun t : Token => t.keyValue?.any fun q => q.isFlag && Text.sameLetters q.key name
    have hother (t : Token) (ht : t.isKeyValue = false) : p t = false := by
      refine Bool.eq_false_iff.2 fun hp => ?_
      rw [Token.isKeyValue_of_keyValue? hp] at ht
      cases ht
    have hbefore {ts : List Token} (hts : ∀ t ∈ ts, p t = false) :
        ∀ t ∈ lead ++ .leaf .keyword word :: ts, p t = false := by
      refine List.forall_mem_append.2 ⟨fun t ht => ?_, List.forall_mem_cons.2 ⟨rfl, hts⟩⟩
      exact hother t (Token.of_isTrivia (hlead t ht)).2.2.2
    change StageShape (Children.set (List.findIdx? p _) _ _ _ _)
    obtain hnone | ⟨first, x, second, rfl, hfirst, hx⟩ := Children.absent_or_first p flags
    · -- There is no such flag, and the one that is given is added.
      have hbehind : ∀ t ∈ flags ++ image :: rest, p t = false := by
        refine List.forall_mem_append.2 ⟨hnone, List.forall_mem_cons.2 ⟨?_, fun t ht => ?_⟩⟩
        · exact hother image (Token.of_isLiteral himage).2.1
        · exact hother t (hrest.not_argument t ht).2
      rw [Children.set_absent _ _ (hbefore hbehind)]
      cases flag with
      | none => exact .intro hlead hword hflags himage hrest
      | some flag => exact insert_flag (.intro hlead hword hflags himage hrest) flag
    · have hsplit (x : Token) :
          lead ++ .leaf .keyword word :: ((first ++ x :: second) ++ image :: rest) =
            (lead ++ .leaf .keyword word :: first) ++ x :: (second ++ image :: rest) := by simp
      rw [hsplit]
      obtain ⟨hfirst', hsecond⟩ := List.forall_mem_append.1 hflags
      have hsecond' := (List.forall_mem_cons.1 hsecond).2
      cases flag with
      | none =>
        rw [Option.map_none, Children.set_first_none _ _ (hbefore hfirst) hx]
        obtain ⟨n, hremove⟩ := @removeArgument_eq word lead first (second ++ image :: rest) x
        rw [hremove, ← List.append_assoc]
        refine .intro hlead hword (List.forall_mem_append.2 ⟨fun t ht => ?_, hsecond'⟩) himage hrest
        exact hfirst' t (List.mem_of_mem_take ht)
      | some flag =>
        rw [Option.map_some, Children.set_first _ _ (hbefore hfirst) hx, ← hsplit]
        refine .intro hlead hword (List.forall_mem_append.2 ⟨hfirst', ?_⟩) himage hrest
        exact List.forall_mem_cons.2 ⟨.inr rfl, hsecond'⟩

/-- What is put before the name of a stage. -/
theorem frame_as : Frame [.blank [' '], .leaf .keyword "AS".toList, .blank [' ']] := by
  simp [Frame, Token.isArgument, Token.isLeaf, Token.leafKind?, Token.isLiteral, Token.isKeyValue,
    Token.blank]

theorem appendStageName_eq {us rest : List Token} {image : Token} (himage : image.isLiteral = true)
    (hrest : ∀ t ∈ rest, t.isTrivia = true) (name : Token) :
    Instruction.appendStageName name (us ++ image :: rest) =
      us ++ image :: ([.blank [' '], .leaf .keyword "AS".toList, .blank [' ']] ++ name ::
        rest) := by
  have hend : Children.contentEnd (us ++ image :: rest) = (us ++ [image]).length := by
    rw [List.length_append]
    exact Children.afterLast_append (by simp [(Token.of_isLiteral himage).1]) (by simpa using hrest)
  unfold Instruction.appendStageName
  rw [hend, List.append_cons us image rest, Children.insertAt_append]
  simp

/-- Another name takes the place of the name, or comes behind the image. -/
theorem set_name (h : StageShape ts) (name : Option Text) :
    StageShape (Children.set (Children.indexOfLeaf? .identifier ts) (name.map Token.identifier)
      Instruction.appendStageName Instruction.removeStageName ts) := by
  cases h with
  | @intro lead flags rest word image hlead hword hflags himage hrest =>
    have hbefore := before_image hlead hflags word
    change StageShape (Children.set (List.findIdx? (Token.isLeaf .identifier) _) _ _ _ _)
    rw [append_image]
    cases hrest with
    | unnamed hrest =>
      have hnone : ∀ t ∈ (lead ++ .leaf .keyword word :: flags) ++ image :: rest,
          t.isLeaf .identifier = false := by
        refine List.forall_mem_append.2 ⟨fun t ht => (hbefore t ht).2, ?_⟩
        refine List.forall_mem_cons.2 ⟨(Token.of_isLiteral himage).2.2 _, fun t ht => ?_⟩
        exact (Token.of_isTrivia (hrest t ht)).2.1
      rw [Children.set_absent _ _ hnone]
      cases name with
      | none =>
        rw [← append_image]
        exact .intro hlead hword hflags himage (.unnamed hrest)
      | some name =>
        rw [Option.map_some, Option.elim_some, appendStageName_eq himage hrest, ← append_image]
        exact .intro hlead hword hflags himage (.named name frame_as hrest)
    | @named cs ws old hcs hws =>
      have hnone : ∀ t ∈ (lead ++ .leaf .keyword word :: flags) ++ [image] ++ cs,
          t.isLeaf .identifier = false := by
        refine List.forall_mem_append.2
          ⟨List.forall_mem_append.2 ⟨fun t ht => (hbefore t ht).2, ?_⟩, hcs.isLeaf⟩
        exact List.forall_mem_singleton.2 ((Token.of_isLiteral himage).2.2 _)
      rw [append_name]
      cases name with
      | none =>
        rw [Option.map_none, Children.set_first_none _ _ hnone rfl,
          Instruction.removeStageName_append (fun t ht => (hbefore t ht).1) himage,
          ← List.append_cons, ← append_image]
        exact .intro hlead hword hflags himage (.unnamed hws)
      | some name =>
        rw [Option.map_some, Children.set_first _ _ hnone rfl, ← append_name, ← append_image]
        exact .intro hlead hword hflags himage (.named name hcs hws)

end StageShape

/-! ## What the order says -/

/-- The first keyword, in any case the one of a stage, comes before exactly one literal.  All keys
with values stand between the two, and there is at most one name, which comes behind the
literal. -/
def StageOrder (ts : List Token) : Prop :=
  ∃ lead word middle image rest, ts = lead ++ .leaf .keyword word :: (middle ++ image :: rest) ∧
    Keyword.FROM.matchesWord word = true ∧ (∀ t ∈ lead, t.isLeaf .keyword = false) ∧
    image.isLiteral = true ∧ (∀ t ∈ lead ++ middle ++ rest, t.isLiteral = false) ∧
    (∀ t ∈ lead ++ rest, t.isKeyValue = false) ∧
    (∀ t ∈ lead ++ middle, t.isLeaf .identifier = false) ∧
    rest.countP (Token.isLeaf .identifier) ≤ 1

theorem StageShape.order {ts : List Token} (h : StageShape ts) : StageOrder ts := by
  cases h with
  | @intro lead flags rest word image hlead hword hflags himage hrest =>
    have hbefore := before_image hlead hflags word
    obtain ⟨hbefore, hmiddle⟩ := List.forall_mem_append.1 hbefore
    have hmiddle := (List.forall_mem_cons.1 hmiddle).2
    refine ⟨lead, word, flags, image, rest, rfl, hword, ?_, himage, ?_, ?_, ?_, hrest.countP_le⟩
    · exact fun t ht => (Token.of_isTrivia (hlead t ht)).1
    · refine List.forall_mem_append.2 ⟨List.forall_mem_append.2 ⟨?_, ?_⟩, ?_⟩
      · exact fun t ht => (hbefore t ht).1
      · exact fun t ht => (hmiddle t ht).1
      · exact fun t ht => (hrest.not_argument t ht).1
    · refine List.forall_mem_append.2 ⟨fun t ht => ?_, fun t ht => (hrest.not_argument t ht).2⟩
      exact (Token.of_isTrivia (hlead t ht)).2.2.2
    · exact List.forall_mem_append.2 ⟨fun t ht => (hbefore t ht).2, fun t ht => (hmiddle t ht).2⟩

/-- The ranges in which edits add and remove tokens are ranges of the list. -/
structure StageRanges (ts : List Token) : Prop where
  /-- A flag is added behind the keyword. -/
  afterKeyword : Children.keywordIndex ts + 1 ≤ ts.length
  /-- A name is added behind the last argument. -/
  contentEnd : Children.contentEnd ts ≤ ts.length
  /-- A flag is removed from behind the last argument before it on. -/
  flag : ∀ name n, Children.flagIndex? name ts = some n →
    Children.contentEnd (ts.take n) ≤ n ∧ n < ts.length
  /-- A name is removed from behind the image on. -/
  name : ∀ n, Children.indexOfLeaf? .identifier ts = some n →
    ∃ image, ts.findIdx? Token.isLiteral = some image ∧ image + 1 ≤ n ∧ n < ts.length

/-- Tokens in this order have all that edits look for. -/
theorem StageOrder.ranges {ts : List Token} (h : StageOrder ts) : StageRanges ts := by
  obtain ⟨lead, word, middle, image, rest, rfl, -, hlead, himage, hliterals, -, hnames, -⟩ := h
  have hlt {p : Token → Bool} {ts : List Token} {n : Nat} (hn : ts.findIdx? p = some n) :
      n < ts.length :=
    (List.findIdx?_eq_some_iff_getElem.1 hn).1
  refine ⟨?_, Children.afterLast_le _ _, fun name n hn => ⟨?_, hlt hn⟩, fun n hn => ?_⟩
  · unfold Children.keywordIndex Children.indexOfLeaf?
    rw [Children.findIdx?_append_cons hlead rfl]
    simp
  · exact Nat.le_trans (Children.afterLast_le _ _) (List.length_take_le _ _)
  · have hbefore : ∀ t ∈ lead ++ .leaf .keyword word :: middle,
        t.isLiteral = false ∧ t.isLeaf .identifier = false := by
      intro t ht
      have hother (ht : t ∈ lead ++ middle) :=
        And.intro (hliterals t (List.mem_append_left rest ht)) (hnames t ht)
      obtain ht | ht := List.mem_append.1 ht
      · exact hother (List.mem_append_left middle ht)
      · obtain rfl | ht := List.mem_cons.1 ht
        · exact ⟨rfl, rfl⟩
        · exact hother (List.mem_append_right lead ht)
    refine ⟨(lead ++ .leaf .keyword word :: middle).length, ?_, ?_, hlt hn⟩
    · rw [StageShape.append_image]
      exact Children.findIdx?_append_cons (fun t ht => (hbefore t ht).1) himage
    · -- Up to the image there is no name, so the first name is behind it.
      have hnone : ∀ t ∈ (lead ++ .leaf .keyword word :: middle) ++ [image],
          t.isLeaf .identifier = false := by
        refine List.forall_mem_append.2 ⟨fun t ht => (hbefore t ht).2, ?_⟩
        exact List.forall_mem_singleton.2 ((Token.of_isLiteral himage).2.2 _)
      unfold Children.indexOfLeaf? at hn
      rw [StageShape.append_image, List.append_cons _ image rest, List.findIdx?_append,
        List.findIdx?_eq_none_iff.2 hnone, Option.none_or] at hn
      obtain ⟨m, -, rfl⟩ := Option.map_eq_some_iff.1 hn
      simp only [List.length_append, List.length_singleton]
      omega

/-! ## Runs of edits -/

/-- An edit of an instruction that opens a stage. -/
inductive StageEdit where
  | image (image : Text)
  | imageLiteral (image : Literal)
  | platform (platform : Option Text)
  | platformFlag (flag : Option KeyValue)
  | stageName (name : Option Text)
deriving DecidableEq, Repr

namespace StageEdit

/-- The instruction after the edit, if the edit does not fail. -/
def apply (i : Instruction) : StageEdit → Except Error Instruction
  | image s => i.setImage s
  | imageLiteral l => .ok (i.setImageLiteral l)
  | platform p => i.setPlatform p
  | platformFlag flag => .ok (i.setPlatformFlag flag)
  | stageName name => i.setStageName name

/-- The instruction after the edit; one that fails changes nothing. -/
def step (i : Instruction) (edit : StageEdit) : Instruction :=
  match edit.apply i with
  | .ok j => j
  | .error _ => i

/-- The instruction after edits, one after another. -/
def run (i : Instruction) (edits : List StageEdit) : Instruction :=
  edits.foldl step i

variable {i j : Instruction}

/-- An edit that does not fail keeps the order of the tokens. -/
theorem stageShape_apply (h : StageShape i.parts) {edit : StageEdit} (hj : edit.apply i = .ok j) :
    StageShape j.parts := by
  cases edit with
  | image s =>
    obtain ⟨l, -, hl⟩ := bind_eq_ok.1 hj
    cases hl
    exact h.set_image l _ _
  | imageLiteral l =>
    cases hj
    exact h.set_image l _ _
  | platform p =>
    match p, hj with
    | none, hj =>
      cases hj
      exact h.set_flag Instruction.platformFlag none
    | some (c :: cs), hj =>
      obtain ⟨flag, -, hflag⟩ := bind_eq_ok.1 hj
      cases hflag
      exact h.set_flag Instruction.platformFlag (some flag)
  | platformFlag flag =>
    cases hj
    exact h.set_flag Instruction.platformFlag flag
  | stageName name =>
    change i.setStageName name = .ok j at hj
    unfold Instruction.setStageName at hj
    split at hj
    · cases hj
    · cases hj
      exact h.set_name name

theorem stageShape_step (h : StageShape i.parts) (edit : StageEdit) :
    StageShape (edit.step i).parts := by
  unfold step
  cases hj : edit.apply i with
  | ok j => exact stageShape_apply h hj
  | error e => exact h

theorem stageShape_run (h : StageShape i.parts) (edits : List StageEdit) :
    StageShape (run i edits).parts := by
  induction edits generalizing i with
  | nil => exact h
  | cons edit edits ih => exact ih (stageShape_step h edit)

/-- An instruction that is made from its arguments is read from its written form. -/
theorem obtained_of_createStage {image : Text} {stage platform : Option Text} {escape : Char}
    (h : Instruction.createStage image stage platform escape = .ok i) :
    i.Obtained ∧ i.form = .stage := by
  unfold Instruction.createStage Instruction.compose at h
  split at h
  · cases h
  · split at h
    · rename_i j hj
      cases h
      refine ⟨.parseAs hj, ?_⟩
      exact (Instruction.readAs_eq_ok.1 (Outcome.complete_eq_ok.1 hj)).2
    · cases h

/-- **Stages keep their order under edits.**  However an instruction that opens a stage was read
or made, and whatever edits it has gone through, some of which may have failed: its keyword comes
before its one image, its flags stand between the two, its one name, if it has any, behind the
image.  So all ranges in which the next edit adds or removes tokens are ranges of its list of
tokens. -/
theorem ordered_of_run
    (hi : i.Obtained ∧ i.form = .stage ∨ ∃ image stage platform escape,
      Instruction.createStage image stage platform escape = .ok i) (edits : List StageEdit) :
    StageOrder (run i edits).parts ∧ StageRanges (run i edits).parts := by
  have hobtained : i.Obtained ∧ i.form = .stage := by
    obtain hi | ⟨image, stage, platform, escape, hi⟩ := hi
    · exact hi
    · exact obtained_of_createStage hi
  obtain ⟨e, s, r, hread⟩ := hobtained.1.exists_read
  have horder := (stageShape_run (.of_read hread hobtained.2) edits).order
  exact ⟨horder, horder.ranges⟩

/-- A stage with a platform that is not the one of its flag, a name that cannot be given, and edits
that add, replace and remove. -/
theorem ordered_of_run_failing :
    ∃ i, Instruction.parse "\tfrom --p=a \\\n b as c\n".toList '\\' = .ok i ∧
      Except.toOption (apply i (.stageName (some ['/']))) = none ∧
      StageOrder (run i [.platform (some ['x']), .stageName (some ['/']), .stageName none,
        .platformFlag none, .image ['d'], .stageName (some ['e'])]).parts ∧
      StageRanges (run i [.platform (some ['x']), .stageName (some ['/']), .stageName none,
        .platformFlag none, .image ['d'], .stageName (some ['e'])]).parts := by
  have hi : Instruction.parse "\tfrom --p=a \\\n b as c\n".toList '\\' = .ok ⟨.stage, '\\',
      [.blank ['\t'], .leaf .keyword "from".toList, .blank [' '],
        .node .keyValue [.symbol ['-', '-'], .identifier ['p'], .symbol ['='],
          .node (.literal true) [.fragment ['a']]],
        .blank [' '], .node .continuation [.symbol ['\\'], .newline ['\n']], .blank [' '],
        .node (.literal true) [.fragment ['b']], .blank [' '], .leaf .keyword "as".toList,
        .blank [' '], .identifier ['c'], .newline ['\n']]⟩ := by
    decide +kernel
  exact ⟨_, hi, rfl, ordered_of_run (.inl ⟨.parse hi, rfl⟩) _⟩

end StageEdit

end Containerfile
