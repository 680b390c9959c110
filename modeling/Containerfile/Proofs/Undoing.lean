import Containerfile.Proofs.StageEdits
import Containerfile.Proofs.Substitution

/-!
# Adding and taking away again

What an edit adds to an instruction can be taken away by another one, and then the instruction is
as it was, down to its separators.  That is not plain from the code: an addition looks for its
place in one way (behind the keyword, behind the last flag, behind the last argument) and a
removal for its range in another (back to the argument before it).  They agree since an addition
is always made right behind an argument or the keyword, with one blank between: then the removal
goes back to that blank and no further.

## Main definitions

* `Children.Seat` — a place right behind a token that is neither a separator nor a line end.
* `Addition` — the edits that add something, with the edits that take it away.

## Main results

* `Children.set_none_insertAt` — an argument that is added in a seat is taken away again.
* `Addition.undo_apply` — so is everything that an edit adds to an instruction that was read.
-/

namespace Containerfile

open Grammar Lexeme

/-! ## Seats -/

theorem Token.isLeaf_eq_isSome (kind : LeafKind) (t : Token) :
    t.isLeaf kind = (t.leafText? kind).isSome := by
  cases t with
  | leaf k s => cases k <;> cases kind <;> rfl
  | node k ts => rfl

theorem Token.isTrivia_of_keyword {t : Token} (h : t.isLeaf .keyword = true) :
    t.isTrivia = false := by
  refine Bool.eq_false_iff.2 fun htrivia => ?_
  rw [(Token.of_isTrivia htrivia).1] at h
  cases h

namespace Children

variable {p : Token → Bool} {ts : List Token} {t u : Token} {n : Nat}

theorem isLeaf_of_firstLeaf? {kind : LeafKind} (h : firstLeaf? kind ts = none) :
    ∀ t ∈ ts, t.isLeaf kind = false := by
  intro t ht
  rw [Token.isLeaf_eq_isSome, List.findSome?_eq_none_iff.1 h t ht]
  rfl

/-- The place is right behind a token that is neither a separator nor a line end. -/
def Seat (n : Nat) (ts : List Token) : Prop :=
  ∃ us vs, ts = us ++ vs ∧ n = us.length ∧ ∃ ws u, us = ws ++ [u] ∧ u.isTrivia = false

theorem seat_append_cons (hu : u.isTrivia = false) (us vs : List Token) :
    Seat (us.length + 1) (us ++ u :: vs) :=
  ⟨us ++ [u], vs, by simp, by simp, us, u, rfl, hu⟩

/-- An argument that is added in a seat, and is the only one of its kind, is removed with the blank
that was added before it. -/
theorem set_none_insertAt (hn : Seat n ts) (hnone : ∀ u ∈ ts, p u = false)
    (hblank : p (.blank [' ']) = false) (ht : p t = true)
    (add : Token → List Token → List Token) :
    set ((insertAt n [.blank [' '], t] ts).findIdx? p) none add removeArgument
      (insertAt n [.blank [' '], t] ts) = ts := by
  obtain ⟨us, vs, rfl, rfl, hus⟩ := hn
  have hinsert : insertAt us.length [.blank [' '], t] (us ++ vs) =
      (us ++ [.blank [' ']]) ++ t :: vs := by
    rw [insertAt_append]
    simp
  have hbefore : ∀ u ∈ us ++ [.blank [' ']], p u = false := by
    refine List.forall_mem_append.2 ⟨fun u hu => hnone u (List.mem_append_left vs hu), ?_⟩
    exact List.forall_mem_singleton.2 hblank
  rw [hinsert, set_first_none add removeArgument hbefore ht]
  exact removeArgument_append hus (List.forall_mem_singleton.2 rfl) t vs

/-! ### Where arguments are added -/

/-- Either no child satisfies `p`, or the place behind the last one that does is found. -/
theorem afterLast_cases (p : Token → Bool) (ts : List Token) :
    (∀ t ∈ ts, p t = false) ∧ afterLast p ts = 0 ∨
      ∃ us u vs, ts = us ++ u :: vs ∧ p u = true ∧ afterLast p ts = us.length + 1 := by
  induction ts with
  | nil => exact .inl ⟨by simp, rfl⟩
  | cons t ts ih =>
    obtain ⟨hnone, hzero⟩ | ⟨us, u, vs, rfl, hu, hlast⟩ := ih
    · by_cases ht : p t = true
      · exact .inr ⟨[], t, ts, rfl, ht, by simp [afterLast, hzero, ht]⟩
      · exact .inl ⟨by simpa [ht] using hnone, by simp [afterLast, hzero, ht]⟩
    · exact .inr ⟨t :: us, u, vs, rfl, hu, by simp [afterLast, hlast]⟩

section

variable (h : ∃ t ∈ ts, t.isLeaf .keyword = true)
include h

theorem seat_afterKeyword : Seat (keywordIndex ts + 1) ts := by
  obtain ⟨t, ht, hkeyword⟩ := h
  obtain hnone | ⟨us, x, vs, rfl, hus, hx⟩ := absent_or_first (Token.isLeaf .keyword) ts
  · rw [hnone t ht] at hkeyword
    cases hkeyword
  · unfold keywordIndex indexOfLeaf?
    rw [findIdx?_append_cons hus hx]
    exact seat_append_cons (Token.isTrivia_of_keyword hx) us vs

theorem seat_contentEnd : Seat (contentEnd ts) ts := by
  obtain ⟨t, ht, hkeyword⟩ := h
  obtain ⟨hnone, -⟩ | ⟨us, u, vs, rfl, hu, hlast⟩ := afterLast_cases (fun t => !t.isTrivia) ts
  · have htrivia := hnone t ht
    rw [Token.isTrivia_of_keyword hkeyword] at htrivia
    cases htrivia
  · unfold contentEnd
    rw [hlast]
    exact seat_append_cons (by simpa using hu) us vs

theorem seat_flagsEnd : Seat (flagsEnd ts) ts := by
  unfold flagsEnd
  obtain ⟨-, hzero⟩ | ⟨us, u, vs, rfl, hu, hlast⟩ := afterLast_cases isFlag ts
  · rw [hzero]
    exact seat_afterKeyword h
  · rw [hlast]
    exact seat_append_cons (Token.of_isKeyValue (Token.isKeyValue_of_keyValue? hu)).1 us vs

end

end Children

/-! ## Looking for keys -/

namespace KeyValue

variable {dashes : List Token} {key : Text} {value : Option Text} {e : Char} {p : KeyValue}

theorem build_eq_ok (h : build dashes key value e = .ok p) :
    ∃ ts, p.parts = dashes ++ .identifier key :: ts := by
  unfold build at h
  split at h
  · obtain ⟨ts, -, hts⟩ := bind_eq_ok.1 h
    cases hts
    exact ⟨ts, rfl⟩
  · cases h

theorem key_of_create (h : create key value e = .ok p) : p.key = key := by
  obtain ⟨ts, hparts⟩ := build_eq_ok h
  unfold KeyValue.key
  rw [hparts]
  rfl

theorem of_createFlag (h : createFlag key value e = .ok p) : p.isFlag = true ∧ p.key = key := by
  obtain ⟨ts, hparts⟩ := build_eq_ok h
  unfold isFlag KeyValue.key
  rw [hparts]
  exact ⟨rfl, rfl⟩

/-- The value that a bare name gets is cleared with its equals sign. -/
theorem setLiteral_bare (k : Text) (l : Literal) :
    setLiteral (setLiteral ⟨[.identifier k]⟩ (some l)) none = ⟨[.identifier k]⟩ :=
  rfl

end KeyValue

namespace Children

variable {ts : List Token} {q : KeyValue → Bool} {p : KeyValue}

theorem find?_keyValues_eq_none :
    (ts.filterMap Token.keyValue?).find? q = none ↔ ∀ t ∈ ts, t.keyValue?.any q = false := by
  rw [List.find?_eq_none]
  constructor
  · intro h t ht
    refine Bool.eq_false_iff.2 fun hq => ?_
    obtain ⟨p, hp, hqp⟩ := (Option.any_eq_true _ _).1 hq
    exact h p (List.mem_filterMap.2 ⟨t, ht, hp⟩) hqp
  · intro h p hp hqp
    obtain ⟨t, ht, htp⟩ := List.mem_filterMap.1 hp
    have hq := h t ht
    rw [htp, Option.any_some, hqp] at hq
    cases hq

theorem find?_keyValues_eq_some :
    (ts.filterMap Token.keyValue?).find? q = some p ↔
      ∃ us vs, ts = us ++ p.token :: vs ∧ (∀ u ∈ us, u.keyValue?.any q = false) ∧ q p = true := by
  rw [List.find?_filterMap, Option.bind_eq_some_iff]
  constructor
  · rintro ⟨t, ht, htp⟩
    obtain rfl := Token.keyValue?_eq_some.1 htp
    obtain ⟨hq, us, vs, rfl, hus⟩ := List.find?_eq_some_iff_append.1 ht
    exact ⟨us, vs, rfl, fun u hu => by simpa using hus u hu, hq⟩
  · rintro ⟨us, vs, rfl, hus, hq⟩
    refine ⟨p.token, List.find?_eq_some_iff_append.2 ⟨hq, us, vs, rfl, fun u hu => ?_⟩, rfl⟩
    simpa using hus u hu

theorem length_keyValues_insertAt (n : Nat) (p : KeyValue) (ts : List Token) :
    ((insertAt n [.blank [' '], p.token] ts).filterMap Token.keyValue?).length =
      (ts.filterMap Token.keyValue?).length + 1 := by
  have hsplit : ts.filterMap Token.keyValue? =
      (ts.take n).filterMap Token.keyValue? ++ (ts.drop n).filterMap Token.keyValue? := by
    rw [← List.filterMap_append, List.take_append_drop]
  have hinserted : [.blank [' '], p.token].filterMap Token.keyValue? = [p] := rfl
  unfold insertAt
  rw [List.filterMap_append, List.filterMap_append, hinserted, hsplit]
  simp only [List.length_append, List.length_singleton]
  omega

end Children

namespace Instruction

variable {i : Instruction} {name : Text} {p : KeyValue}

theorem flag?_eq_none : i.flag? name = none ↔
    ∀ t ∈ i.parts, (t.keyValue?.any fun p => p.isFlag && Text.sameLetters p.key name) = false := by
  unfold flag? flags keyValues
  rw [List.find?_filter]
  simp only [Bool.decide_and, Bool.decide_eq_true]
  exact Children.find?_keyValues_eq_none

theorem declaration?_eq_none : i.declaration? name = none ↔
    ∀ t ∈ i.parts, (t.keyValue?.any fun p => p.key == name) = false :=
  Children.find?_keyValues_eq_none

theorem declaration?_eq_some : i.declaration? name = some p ↔
    ∃ us vs, i.parts = us ++ p.token :: vs ∧
      (∀ u ∈ us, (u.keyValue?.any fun p => p.key == name) = false) ∧ (p.key == name) = true :=
  Children.find?_keyValues_eq_some

/-! ## Instructions that are read -/

variable {e : Char} {s r : Text}

theorem exists_keyword (h : read e s = .ok i r) : ∃ t ∈ i.parts, t.isLeaf .keyword = true := by
  obtain ⟨k, ts, -, hbody, rfl⟩ := read_eq_ok.1 h
  obtain ⟨t, ht, hword⟩ := List.exists_of_findSome?_eq_some (headed_body e _ k s ts r hbody)
  refine ⟨t, ht, ?_⟩
  rw [Token.isLeaf_eq_isSome, hword]
  rfl

theorem exists_declarations (h : read e s = .ok i r) (hform : i.form = .arg) :
    ∃ m n ds, Declarations e m ds n ∧ ds ≠ [] ∧ i.keyValues = ds.map Prod.snd := by
  obtain ⟨_, fin, n, -, hts, hfin, rfl⟩ := read_arg_iff.1 ⟨h, hform⟩
  obtain ⟨st, m, ds, hst, hds, hne, rfl, -⟩ := argContent_eq_ok.1 hts
  exact ⟨m, n, ds, hds, hne, keyValues_of_declarations hst hds hfin⟩

end Instruction

theorem Declarations.exists_named {e : Char} {s r : Text} {ds : List (List Token × KeyValue)}
    {d : List Token × KeyValue} (h : Declarations e s ds r) (hd : d ∈ ds) :
    ∃ m m', KeyValue.named e isStageChar m = .ok d.2.parts m' := by
  induction h with
  | nil => cases hd
  | cons hsep hname hrest ih =>
    obtain rfl | hd := List.mem_cons.1 hd
    · exact ⟨_, _, hname⟩
    · exact ih hd

namespace Instruction

variable {i j : Instruction} {name : Text} {p : KeyValue} {e : Char} {s r : Text}

/-- A declaration without a value that is read is a bare name. -/
theorem bare_of_declaration? (h : read e s = .ok i r) (hform : i.form = .arg)
    (hp : i.declaration? name = some p) (hvalue : p.value? = none) :
    ∃ k, p = ⟨[.identifier k]⟩ := by
  obtain ⟨m, n, ds, hds, -, hkeyValues⟩ := exists_declarations h hform
  have hmem : p ∈ ds.map Prod.snd := hkeyValues ▸ List.mem_of_find?_eq_some hp
  obtain ⟨d, hd, rfl⟩ := List.mem_map.1 hmem
  obtain ⟨m, m', hname⟩ := hds.exists_named hd
  obtain ⟨ss, ts⟩ := d
  obtain ⟨k, -, -, -, -, -, ⟨-, -, hparts⟩ | ⟨-, ls, -, -, hparts⟩⟩ := KeyValue.named_eq_ok.1 hname
  · exact ⟨k, congrArg KeyValue.mk hparts⟩
  · unfold KeyValue.value? KeyValue.literal? at hvalue
    rw [hparts] at hvalue
    cases hvalue

/-! ## Flags and declarations -/

/-- The only key of its kind that is added in a seat is found and taken away again. -/
theorem setPart_none_insertAt {n : Nat} {q : KeyValue → Bool} (hn : Children.Seat n i.parts)
    (hnone : ∀ t ∈ i.parts, t.keyValue?.any q = false) (hq : q p = true)
    (hj : j = i.withParts (Children.insertAt n [.blank [' '], p.token] i.parts))
    (add : Token → List Token → List Token) :
    j.setPart (j.parts.findIdx? fun t => t.keyValue?.any q) none add Children.removeArgument = i ∧
      ¬ ∀ t ∈ j.parts, t.keyValue?.any q = false := by
  subst hj
  have hp : p.token.keyValue?.any q = true := hq
  refine ⟨?_, fun hnone' => ?_⟩
  · exact congrArg i.withParts (Children.set_none_insertAt hn hnone rfl hp add)
  · have hmem : p.token ∈ Children.insertAt n [.blank [' '], p.token] i.parts := by
      simp [Children.insertAt]
    exact Bool.eq_false_iff.1 (hnone' p.token hmem) hp

theorem setPart_flag_none {n : Nat} {add : Token → List Token → List Token}
    (hn : Children.Seat n i.parts) (hnone : i.flag? name = none) (hflag : p.isFlag = true)
    (hname : p.key = name) (hadd : add p.token i.parts =
      Children.insertAt n [.blank [' '], p.token] i.parts)
    (hj : j = i.setPart (Children.flagIndex? name i.parts) (some p.token) add
      Children.removeArgument) :
    j.setPart (Children.flagIndex? name j.parts) none add Children.removeArgument = i ∧
      j.flag? name ≠ none := by
  have hset : j = i.withParts (Children.insertAt n [.blank [' '], p.token] i.parts) := by
    rw [hj, ← hadd]
    exact congrArg i.withParts
      (Children.set_absent add Children.removeArgument (flag?_eq_none.1 hnone) (some p.token))
  have hq : (p.isFlag && Text.sameLetters p.key name) = true := by
    rw [hflag, hname]
    exact beq_self_eq_true _
  obtain ⟨hremove, hpresent⟩ := setPart_none_insertAt hn (flag?_eq_none.1 hnone) hq hset add
  exact ⟨hremove, fun h => hpresent (flag?_eq_none.1 h)⟩

/-- Where a name is declared, and not alone, its declaration can be removed. -/
theorem removeDeclaration_eq (hdeclared : i.declaration? name ≠ none)
    (hlen : 2 ≤ i.keyValues.length) :
    i.removeDeclaration name = .ok (i.setPart (Children.keyIndex? name i.parts) none
      Children.append Children.removeArgument) := by
  unfold removeDeclaration
  rw [if_neg (Nat.not_lt.2 hlen)]
  cases hindex : Children.keyIndex? name i.parts with
  | none => exact absurd (declaration?_eq_none.2 (List.findIdx?_eq_none_iff.1 hindex)) hdeclared
  | some n => rfl

theorem removeDeclaration_insertAt {n : Nat} (hn : Children.Seat n i.parts)
    (hsome : i.keyValues ≠ []) (hnone : i.declaration? name = none) (hname : p.key = name)
    (hj : j = i.withParts (Children.insertAt n [.blank [' '], p.token] i.parts)) :
    j.removeDeclaration name = .ok i ∧ j.declaration? name ≠ none := by
  have hlen : 2 ≤ j.keyValues.length := by
    have hadd := Children.length_keyValues_insertAt n p i.parts
    have hpos : 0 < (i.parts.filterMap Token.keyValue?).length := List.length_pos_iff.2 hsome
    rw [hj]
    change 2 ≤
      ((Children.insertAt n [.blank [' '], p.token] i.parts).filterMap Token.keyValue?).length
    omega
  have hq : (p.key == name) = true := beq_iff_eq.2 hname
  obtain ⟨hremove, hpresent⟩ :=
    setPart_none_insertAt hn (declaration?_eq_none.1 hnone) hq hj Children.append
  have hdeclared : j.declaration? name ≠ none := fun h => hpresent (declaration?_eq_none.1 h)
  rw [removeDeclaration_eq hdeclared hlen]
  exact ⟨congrArg Except.ok hremove, hdeclared⟩

/-- The default of a declared argument is set where its first declaration is. -/
theorem setDefault_eq_ok {name : Text} {value : Option Text} :
    i.setDefault name value = .ok j ↔ ∃ n p q, Children.keyIndex? name i.parts = some n ∧
      i.declaration? name = some p ∧ p.setValue value i.escape = .ok q ∧
      j = i.withParts (i.parts.set n q.token) := by
  unfold setDefault modifyDeclaration?
  cases Children.keyIndex? name i.parts with
  | none => simp
  | some n =>
    cases i.declaration? name with
    | none => simp
    | some p =>
      dsimp only
      rw [bind_eq_ok]
      simp [pure, Except.pure, eq_comm]

/-- A default is set in the first declaration of its name. -/
theorem setDefault_append_eq_ok {us vs : List Token} {value : Option Text}
    (hparts : i.parts = us ++ p.token :: vs)
    (hus : ∀ u ∈ us, (u.keyValue?.any fun p => p.key == name) = false)
    (hkey : (p.key == name) = true) :
    i.setDefault name value = .ok j ↔
      ∃ q, p.setValue value i.escape = .ok q ∧ j = i.withParts (us ++ q.token :: vs) := by
  have hindex : Children.keyIndex? name i.parts = some us.length := by
    rw [hparts]
    exact Children.findIdx?_append_cons hus hkey
  have hdeclared := declaration?_eq_some.2 ⟨us, vs, hparts, hus, hkey⟩
  have hset (t : Token) : i.parts.set us.length t = us ++ t :: vs := by
    rw [hparts]
    simp
  rw [setDefault_eq_ok]
  simp [hindex, hdeclared, hset]

/-- A default that a bare declaration gets is cleared again. -/
theorem setDefault_bare {k value : Text} (hbare : i.declaration? name = some ⟨[.identifier k]⟩)
    (hj : i.setDefault name (some value) = .ok j) :
    j.setDefault name none = .ok i ∧ ∃ q, j.declaration? name = some q ∧ q.value? ≠ none := by
  obtain ⟨us, vs, hparts, hus, hkey⟩ := declaration?_eq_some.1 hbare
  obtain ⟨q, hq, rfl⟩ := (setDefault_append_eq_ok hparts hus hkey).1 hj
  obtain ⟨l, -, hl⟩ := bind_eq_ok.1 hq
  cases hl
  have hkey' : ((KeyValue.setLiteral ⟨[.identifier k]⟩ (some l)).key == name) = true := hkey
  refine ⟨(setDefault_append_eq_ok rfl hus hkey').2 ⟨_, rfl, ?_⟩, _,
    declaration?_eq_some.2 ⟨us, vs, rfl, hus, hkey'⟩, nofun⟩
  rw [KeyValue.setLiteral_bare, ← hparts]
  rfl

end Instruction

/-! ## The name of a stage -/

/-- A name that a stage gets is taken away with the keyword before it. -/
theorem StageShape.set_name_none {ts : List Token} (h : StageShape ts)
    (hnone : ∀ t ∈ ts, t.isLeaf .identifier = false) (name : Text) :
    Children.set
      (Children.indexOfLeaf? .identifier (Instruction.appendStageName (.identifier name) ts))
        none Instruction.appendStageName Instruction.removeStageName
        (Instruction.appendStageName (.identifier name) ts) = ts ∧
      .identifier name ∈ Instruction.appendStageName (.identifier name) ts := by
  cases h with
  | @intro lead flags rest word image hlead hword hflags himage hrest =>
    have hbefore := fun t ht => (before_image hlead hflags word t ht).1
    rw [append_image] at hnone ⊢
    cases hrest with
    | unnamed hrest =>
      have hnone' : ∀ t ∈ (lead ++ .leaf .keyword word :: flags) ++ [image] ++
          [.blank [' '], .leaf .keyword "AS".toList, .blank [' ']],
          t.isLeaf .identifier = false := by
        refine List.forall_mem_append.2 ⟨fun t ht => hnone t ?_, frame_as.isLeaf⟩
        rw [List.append_cons _ image rest]
        exact List.mem_append_left rest ht
      rw [appendStageName_eq himage hrest, append_name]
      refine ⟨?_, List.mem_append_right _ List.mem_cons_self⟩
      refine (Children.set_first_none _ _ hnone' rfl).trans ?_
      rw [Instruction.removeStageName_append hbefore himage, ← List.append_cons]
    | @named cs ws old =>
      have hmem : .identifier old ∈ (lead ++ .leaf .keyword word :: flags) ++ image ::
          (cs ++ .identifier old :: ws) := by simp
      cases hnone (.identifier old) hmem

theorem Instruction.setStageName_unnamed {i j : Instruction} {name : Text} (h : StageShape i.parts)
    (hnone : i.stageName? = none) (hj : i.setStageName (some name) = .ok j) :
    j.setStageName none = .ok i ∧ j.stageName? ≠ none := by
  have hleaf := Children.isLeaf_of_firstLeaf? hnone
  unfold setStageName at hj
  split at hj
  · cases hj
  · have hparts : j.parts = appendStageName (.identifier name) i.parts := by
      cases hj
      exact Children.set_absent appendStageName removeStageName hleaf (some (.identifier name))
    obtain ⟨hremove, hpresent⟩ := h.set_name_none hleaf name
    rw [← hparts] at hremove hpresent
    refine ⟨?_, fun hnone' => ?_⟩
    · cases hj
      exact congrArg (fun ts => Except.ok (i.withParts ts)) hremove
    · cases Children.isLeaf_of_firstLeaf? hnone' _ hpresent

/-! ## Additions -/

/-- Something that an edit can add to an instruction. -/
inductive Addition where
  | platform (platform : Text)
  | stageName (name : Text)
  | defaultValue (name value : Text)
  | declaration (name : Text) (value : Option Text)
  | flag (name : Text) (value : Option Text)
deriving DecidableEq, Repr

namespace Addition

variable {i j : Instruction}

/-- The form of the instructions that it can be added to. -/
def form : Addition → Form
  | platform _ | stageName _ => .stage
  | defaultValue _ _ | declaration _ _ => .arg
  | flag _ _ => .generic

/-- The instruction does not have it yet.  A platform is absent if its flag is: a flag without a
value is there, and goes with the platform that it is given.  A default can be absent from a
declared name only. -/
def Absent (i : Instruction) : Addition → Prop
  | platform _ => i.platformFlag? = none
  | stageName _ => i.stageName? = none
  | defaultValue name _ => ∃ p, i.declaration? name = some p ∧ p.value? = none
  | declaration name _ => i.declaration? name = none
  | flag name _ => i.flag? name = none

/-- The edit that adds it. -/
def apply (i : Instruction) : Addition → Except Error Instruction
  | platform p => i.setPlatform (some p)
  | stageName name => i.setStageName (some name)
  | defaultValue name value => i.setDefault name (some value)
  | declaration name value => i.addDeclaration name value
  | flag name value => i.setFlag name value

/-- The edit that takes it away. -/
def undo (i : Instruction) : Addition → Except Error Instruction
  | platform _ => i.setPlatform none
  | stageName _ => i.setStageName none
  | defaultValue name _ => i.setDefault name none
  | declaration name _ => i.removeDeclaration name
  | flag name _ => .ok (i.removeFlag name)

/-- **What is added can be taken away.**  If an edit adds something to an instruction that was
read and does not have it, then the instruction has it, and the edit that takes it away succeeds
and gives back the instruction with all its tokens, whatever continuations, comments and other
arguments there are. -/
theorem undo_apply (a : Addition) (hi : i.Obtained) (hform : i.form = a.form) (habsent : a.Absent i)
    (hj : a.apply i = .ok j) : a.undo j = .ok i ∧ ¬ a.Absent j := by
  obtain ⟨e, s, r, hread⟩ := hi.exists_read
  have hkeyword := Instruction.exists_keyword hread
  cases a with
  | platform p =>
    match p, hj with
    | c :: cs, hj =>
      obtain ⟨flag, hflag, hset⟩ := bind_eq_ok.1 hj
      obtain ⟨hflag, hname⟩ := KeyValue.of_createFlag hflag
      obtain ⟨hremove, hpresent⟩ := Instruction.setPart_flag_none
        (Children.seat_afterKeyword hkeyword) habsent hflag hname rfl (Except.ok.inj hset).symm
      exact ⟨congrArg Except.ok hremove, hpresent⟩
  | stageName name =>
    exact Instruction.setStageName_unnamed (StageShape.of_read hread hform) habsent hj
  | defaultValue name value =>
    obtain ⟨p, hp, hvalue⟩ := habsent
    obtain ⟨k, rfl⟩ := Instruction.bare_of_declaration? hread hform hp hvalue
    obtain ⟨hclear, q, hq, hvalue⟩ := Instruction.setDefault_bare hp hj
    refine ⟨hclear, ?_⟩
    rintro ⟨q', hq', hnone⟩
    cases hq.symm.trans hq'
    exact hvalue hnone
  | declaration name value =>
    obtain ⟨p, hp, hset⟩ := bind_eq_ok.1 hj
    obtain ⟨m, n, ds, -, hne, hkeyValues⟩ := Instruction.exists_declarations hread hform
    have hsome : i.keyValues ≠ [] := by simpa [hkeyValues] using hne
    exact Instruction.removeDeclaration_insertAt (Children.seat_contentEnd hkeyword) hsome habsent
      (KeyValue.key_of_create hp) (Except.ok.inj hset).symm
  | flag name value =>
    obtain ⟨flag, hflag, hset⟩ := bind_eq_ok.1 hj
    obtain ⟨hflag, hname⟩ := KeyValue.of_createFlag hflag
    obtain ⟨hremove, hpresent⟩ := Instruction.setPart_flag_none
      (Children.seat_flagsEnd hkeyword) habsent hflag hname rfl (Except.ok.inj hset).symm
    exact ⟨congrArg Except.ok hremove, hpresent⟩

/-- One more declaration in an `ARG` that ends with a continuation and a comment. -/
theorem undo_apply_commented :
    ∃ i j, Instruction.parse "ARG a \\\n# c\n".toList '\\' = .ok i ∧
      Absent i (.declaration ['b'] (some ['1'])) ∧
      apply i (.declaration ['b'] (some ['1'])) = .ok j ∧ j.text = "ARG a b=1 \\\n# c\n".toList ∧
      undo j (.declaration ['b'] (some ['1'])) = .ok i ∧
      ¬ Absent j (.declaration ['b'] (some ['1'])) := by
  have hi : Instruction.parse "ARG a \\\n# c\n".toList '\\' = .ok ⟨.arg, '\\',
      [.leaf .keyword "ARG".toList, .blank [' '], .node .keyValue [.identifier ['a']], .blank [' '],
        .node .continuation [.symbol ['\\'], .newline ['\n']],
        .node .comment [.leaf .commentMark ['#'], .fragment [' ', 'c'], .newline ['\n']]]⟩ := by
    decide +kernel
  refine ⟨_, ⟨.arg, '\\',
    [.leaf .keyword "ARG".toList, .blank [' '], .node .keyValue [.identifier ['a']], .blank [' '],
      .node .keyValue [.identifier ['b'], .symbol ['='], .node (.literal true) [.fragment ['1']]],
      .blank [' '], .node .continuation [.symbol ['\\'], .newline ['\n']],
      .node .comment [.leaf .commentMark ['#'], .fragment [' ', 'c'], .newline ['\n']]]⟩, hi,
      rfl, ?_⟩
  exact ⟨by decide +kernel, by decide +kernel,
    undo_apply (.declaration ['b'] (some ['1'])) (.parse hi) rfl rfl (by decide +kernel)⟩

end Addition

end Containerfile
