import Containerfile.Proofs.Arguments

/-!
# Setting a flag

A flag that a caller gives takes the place of the flag with its name, or is put behind the other
flags.  Its name may be any word, and only letters, digits and dashes are read as the name of a
flag; so a flag with another name is not read back.  The arguments that follow, or the next flag,
are read as a part of the value if only line continuations separate them from it.

## Main definitions

* `Instruction.behindFlag` — the text behind the place of a flag.
* `FlagPlace` — a flag among the others.
* `Instruction.ReadsBack` — the flag, the other flags and the arguments are as they should be.

## Main results

* `Instruction.exists_flagPlace` — where a flag is put.
* `FlagPlace.exists_reading`, `FlagPlace.apart_of_reading` — when it is read back.
* `Instruction.parse_setFlag_iff` — when a flag reads back.
-/

namespace Containerfile

open Grammar Lexeme

/-! ## Among the flags -/

namespace Flags

variable {e : Char} {s x r k : Text} {fs : List (List Token × KeyValue)} {ss : List Token}

/-- Flags are the same behind other separators before them. -/
theorem restart (h : Flags e s fs r) (hsep : separator e r = .ok ss k)
    (hx : ∀ us l, separator e s = .ok us l → ∃ us', separator e x = .ok us' l) :
    ∃ fs' r' ss', Flags e x fs' r' ∧ separator e r' = .ok ss' k ∧
      fs'.map Prod.snd = fs.map Prod.snd := by
  cases h with
  | nil =>
    obtain ⟨ss', hsep'⟩ := hx _ _ hsep
    exact ⟨[], x, ss', .nil x, hsep', rfl⟩
  | cons hsep₁ hname hrest =>
    obtain ⟨us', hsep'⟩ := hx _ _ hsep₁
    exact ⟨_, r, ss, .cons hsep' hname hrest, hsep, rfl⟩

/-- There are separators before flags and before what is behind them. -/
theorem exists_separator (h : Flags e s fs r) (hsep : separator e r = .ok ss k) :
    ∃ us l, separator e s = .ok us l := by
  cases h with
  | nil => exact ⟨ss, k, hsep⟩
  | cons hsep₁ _ _ => exact ⟨_, _, hsep₁⟩

end Flags

/-- None of the flags has the name `n`, in any case. -/
def Unnamed (n : Text) (fs : List (List Token × KeyValue)) : Prop :=
  ∀ p ∈ fs.map Prod.snd, ¬ Text.sameLetters p.key n = true

namespace Unnamed

/-- Either no flag has the name, or there is a first one. -/
theorem absent_or_first (n : Text) (fs : List (List Token × KeyValue)) :
    Unnamed n fs ∨ ∃ bs d cs, fs = bs ++ d :: cs ∧ Unnamed n bs ∧
      Text.sameLetters d.2.key n = true := by
  have hunnamed {gs : List (List Token × KeyValue)}
      (hgs : ∀ f ∈ gs, ¬ Text.sameLetters f.2.key n = true) :
      Unnamed n gs := by
    intro p hp
    obtain ⟨f, hf, rfl⟩ := List.mem_map.1 hp
    exact hgs f hf
  cases hfind : fs.find? fun f => Text.sameLetters f.2.key n with
  | none => exact .inl (hunnamed (List.find?_eq_none.1 hfind))
  | some d =>
    obtain ⟨hd, bs, cs, hfs, hbs⟩ := List.find?_eq_some_iff_append.1 hfind
    exact .inr ⟨bs, d, cs, hfs, hunnamed fun f hf => by simpa using hbs f hf, hd⟩

variable {n : Text} {bs cs : List (List Token × KeyValue)} {d : List Token × KeyValue}
  (h : Unnamed n bs)
  (hd : Text.sameLetters d.2.key n = true)
include h hd

theorem find?_eq :
    ((bs ++ d :: cs).map Prod.snd).find? (fun p => Text.sameLetters p.key n) = some d.2 := by
  rw [List.map_append, List.find?_append, List.find?_eq_none.2 h, Option.none_or]
  exact List.find?_cons_of_pos hd

theorem eraseP_eq :
    ((bs ++ d :: cs).map Prod.snd).eraseP (fun p => Text.sameLetters p.key n) =
      (bs ++ cs).map Prod.snd := by
  rw [List.map_append, List.map_append, List.map_cons, List.eraseP_append_right _ h]
  exact congrArg _ (List.eraseP_cons_of_pos hd)

end Unnamed

/-- The flag `n` is put behind the flags `bs`, in front of the text `rest`, where the flags `cs`
are.  The text `x'`, which has the new flag first, stands for the text `x`. -/
structure FlagPlace (e : Char) (n : Text) (value : Option Text) (m r : Text)
    (bs cs : List (List Token × KeyValue)) (vs : List Token) (x x' rest : Text) : Prop where
  before : Flags e m bs x
  after : Flags e rest cs r
  leads : FlagLeads e x x' (n ++ (valueText value ++ rest)) vs
  others : Unnamed n bs

namespace Instruction

variable {e : Char} {args : Arguments} {kw : Keyword} {i i' : Instruction} {n s m r k t : Text}
  {value : Option Text} {fs : List (List Token × KeyValue)} {st ss us fin : List Token}

/-- The text behind the flag with a name, or behind the place where one is added. -/
def behindFlag (i : Instruction) (n : Text) : Text :=
  Children.behind (Children.flagIndex? n i.parts) (Children.flagsEnd i.parts) i.parts

/-- Flags are added behind the last one, or behind the keyword. -/
theorem flagsEnd_eq (hst : start kw.name s = .ok st m) (hfs : Flags e m fs r)
    (hus : ∀ u ∈ us, u.keyValue? = none) :
    Children.flagsEnd (st ++ Declarations.tokens fs ++ us) =
      (st ++ Declarations.tokens fs).length := by
  have hno {ts : List Token} (hts : ∀ u ∈ ts, u.keyValue? = none) :
      ∀ u ∈ ts, Children.isFlag u = false := by
    intro u hu
    unfold Children.isFlag
    rw [hts u hu]
    rfl
  unfold Children.flagsEnd
  rcases List.eq_nil_or_concat' fs with rfl | ⟨gs, ⟨ss, p⟩, rfl⟩
  · have hall := List.forall_mem_append.2 ⟨hno (frame_of_start hst).keyValue?, hno hus⟩
    have htokens : st ++ Declarations.tokens [] = st := List.append_nil st
    rw [htokens]
    rcases Children.afterLast_cases Children.isFlag (st ++ us) with
      ⟨-, hzero⟩ | ⟨ws, u, vs, heq, hu, -⟩
    · rw [hzero, keywordIndex_of_start hst]
    · rw [hall u (by simp [heq])] at hu
      cases hu
  · have hp : Children.isFlag p.token = true := (hfs.isFlag_of_mem (ss, p) (by simp)).1
    have hsplit : st ++ Declarations.tokens (gs ++ [(ss, p)]) =
        (st ++ Declarations.tokens gs ++ ss) ++ [p.token] := by
      simp [Declarations.tokens]
    rw [hsplit, List.append_assoc _ [p.token], List.singleton_append,
      Children.afterLast_append hp (hno hus)]
    have hlen : (st ++ Declarations.tokens gs ++ ss ++ [p.token]).length =
        (st ++ Declarations.tokens gs ++ ss).length + 1 := List.length_append
    rw [hlen]

section

variable {q : KeyValue} {bs cs : List (List Token × KeyValue)} {d : List Token × KeyValue}
  (he : IsEscape e) (h : GenericReading e args m fs ss us fin r k t)
  (hst : start kw.name s = .ok st m)
  (hi : i = ⟨.generic, e, st ++ Declarations.tokens fs ++ ss ++ us ++ fin⟩)
  (hq : KeyValue.createFlag n value e = .ok q)
  (hi' : i' = i.setPart (Children.flagIndex? n i.parts) (some q.token) Children.insertFlag
    Children.removeArgument)
include he h hst hi hq hi'

/-- A flag with a name that is not there is put behind the others. -/
theorem flagPlace_of_absent (hfs : Unnamed n fs) :
    ∃ vs x', FlagPlace e n value m r fs [] vs r x' (i.behindFlag n) ∧
      i'.text = Token.textAll st ++ (Token.textAll (Declarations.tokens fs) ++ x') := by
  obtain ⟨hflags, -, -⟩ := h.views hst hi
  have hparts : i.parts = st ++ Declarations.tokens fs ++ (ss ++ us ++ fin) := by simp [hi]
  have hnone : i.flag? n = none := by
    unfold flag?
    rw [hflags]
    exact List.find?_eq_none.2 hfs
  have hrest : ∀ u ∈ ss ++ us ++ fin, u.keyValue? = none := by
    refine List.forall_mem_append.2 ⟨List.forall_mem_append.2 ⟨?_, ?_⟩, ?_⟩
    · exact (frame_of_separator h.separator).keyValue?
    · exact keyValue?_of_arguments h.arguments
    · exact (frame_of_finish h.finish).keyValue?
  have hend : Children.flagsEnd i.parts = (st ++ Declarations.tokens fs).length := by
    rw [hparts, flagsEnd_eq hst h.flags hrest]
  obtain ⟨htext, hbehind⟩ :=
    Children.text_set_absent (q := q) Children.insertFlag Children.removeArgument
    hparts hend (fun _ => rfl) (flag?_eq_none.1 hnone)
  rw [h.text_rest] at htext hbehind
  replace hbehind : i.behindFlag n = r := hbehind
  rw [hbehind]
  refine ⟨_, _, ⟨h.flags, .nil r, .insert he h.separator _, hfs⟩, ?_⟩
  rw [(KeyValue.text_of_createFlag hq).1] at htext
  rw [hi']
  refine htext.trans ?_
  simp

/-- A flag takes the place of the first one with its name. -/
theorem flagPlace_of_first (hfs : fs = bs ++ d :: cs) (hbs : Unnamed n bs)
    (hd : Text.sameLetters d.2.key n = true) :
    ∃ vs x x', FlagPlace e n value m r bs cs vs x x' (i.behindFlag n) ∧
      i'.text = Token.textAll st ++ (Token.textAll (Declarations.tokens bs) ++ x') := by
  subst hfs
  obtain ⟨x, hbefore, hcons⟩ := Flags.append_iff.1 h.flags
  cases hcons with
  | @cons _ l l' _ vs ws _ hsep hname hafter =>
    have hparts : i.parts = (st ++ Declarations.tokens bs ++ vs) ++
        KeyValue.token ⟨.symbol ['-', '-'] :: ws⟩ ::
            (Declarations.tokens cs ++ (ss ++ us ++ fin)) := by
      simp [hi, Declarations.tokens]
    have hfirst : ∀ u ∈ st ++ Declarations.tokens bs ++ vs,
        (u.keyValue?.any fun p => p.isFlag && Text.sameLetters p.key n) = false := by
      rw [← Children.find?_keyValues_eq_none, List.filterMap_append, List.filterMap_append,
        hbefore.keyValues, (frame_of_start hst).filterMap_keyValue?,
        (frame_of_separator hsep).filterMap_keyValue?, List.nil_append, List.append_nil,
        List.find?_eq_none]
      exact fun p hp hnamed => hbs p hp (Bool.and_eq_true_iff.1 hnamed).2
    obtain ⟨htext, hbehind⟩ :=
      Children.text_set_first (q := q) Children.insertFlag Children.removeArgument
      hparts (Children.flagsEnd i.parts) hfirst hd
    rw [Token.textAll_append (Declarations.tokens cs), h.text_rest,
      hafter.text_append] at htext hbehind
    replace hbehind : i.behindFlag n = l' := hbehind
    rw [hbehind]
    refine ⟨vs, x, _, ⟨hbefore, hafter, .replace he hsep _, hbs⟩, ?_⟩
    rw [(KeyValue.text_of_createFlag hq).1] at htext
    rw [hi']
    refine htext.trans ?_
    simp

/-- Where a flag is put. -/
theorem exists_flagPlace :
    ∃ bs cs vs x x', FlagPlace e n value m r bs cs vs x x' (i.behindFlag n) ∧
      i'.text = Token.textAll st ++ (Token.textAll (Declarations.tokens bs) ++ x') ∧
      i.flags.eraseP (fun f => Text.sameLetters f.key n) = (bs ++ cs).map Prod.snd := by
  obtain ⟨hflags, -, -⟩ := h.views hst hi
  rw [hflags]
  rcases Unnamed.absent_or_first n fs with hfs | ⟨bs, d, cs, hfs, hbs, hd⟩
  · obtain ⟨vs, x', hplace, htext⟩ := flagPlace_of_absent he h hst hi hq hi' hfs
    refine ⟨fs, [], vs, r, x', hplace, htext, ?_⟩
    rw [List.append_nil]
    exact List.eraseP_of_forall_not hfs
  · obtain ⟨vs, x, x', hplace, htext⟩ := flagPlace_of_first he h hst hi hq hi' hfs hbs hd
    exact ⟨bs, cs, vs, x, x', hplace, htext, hfs ▸ hbs.eraseP_eq hd⟩

end

end Instruction

/-! ## Reading it back -/

namespace Instruction

theorem argumentValues_eq (i : Instruction) :
    i.argumentValues = i.execForm?.elim (literalValues i.parts) ExecForm.values := by
  unfold argumentValues arguments
  cases i.execForm? <;> rfl

/-- What is read with a keyword has arguments of the kind that the keyword has. -/
theorem exists_reading_of_parse {e : Char} {s m : Text} {kw : Keyword} {args : Arguments}
    {st : List Token} {j : Instruction} (hargs : kw.arguments? = some args)
    (hst : start kw.name s = .ok st m) (hj : parseAs .generic s e = .ok j) :
    ∃ fs ss us fin r k t, GenericReading e args m fs ss us fin r k t ∧
      j.flags = fs.map Prod.snd ∧ j.execForm? = us.findSome? Token.execForm? ∧
      literalValues j.parts = literalValues us := by
  obtain ⟨kw', args', st', m', fs, ss, us, fin, r, k, t, hargs', hst', hreading, hj⟩ :=
    genericReading_iff.1 hj
  obtain rfl : kw = kw' := by
    have hkw := Keyword.ofWord?_eq_some.2 (matchesWord_of_start hst)
    have hkw' := Keyword.ofWord?_eq_some.2 (matchesWord_of_start hst')
    exact Option.some.inj (hkw.symm.trans hkw')
  cases hst.symm.trans hst'
  cases hargs.symm.trans hargs'
  exact ⟨fs, ss, us, fin, r, k, t, hreading, hreading.views hst' hj⟩

/-- The instruction `j` has the flag, and the other flags and the arguments of `i`. -/
def ReadsBack (n : Text) (value : Option Text) (i j : Instruction) : Prop :=
  (j.flag? n).map KeyValue.value? = some value ∧
    j.flags.eraseP (fun f => Text.sameLetters f.key n) =
      i.flags.eraseP (fun f => Text.sameLetters f.key n) ∧
    j.argumentValues = i.argumentValues

end Instruction

namespace FlagPlace

open Instruction

variable {e : Char} {args : Arguments} {n m r k t x x' rest : Text} {value : Option Text}
  {bs cs fs : List (List Token × KeyValue)} {vs ss us fin : List Token}
  (h : FlagPlace e n value m r bs cs vs x x' rest) (he : IsEscape e)
  (hreading : GenericReading e args m fs ss us fin r k t) (hne : n ≠ [])
  (hvalue : ∀ v ∈ value, ∀ c ∈ v, isPlainChar c = true)
include h he

/-- The flags before the place are read as before. -/
theorem flags_before : Flags e (Token.textAll (Declarations.tokens bs) ++ x') bs x' := by
  have hbefore := h.before
  rw [← hbefore.text_append] at hbefore
  exact hbefore.swap he (h.leads.swaps _) h.leads.stop

include hreading hne hvalue

/-- A flag with a proper name reads back, if the value is apart from what is behind it. -/
theorem exists_reading (hall : ∀ c ∈ n, isFlagChar c = true)
    (hapart : value = none ∨ setsApart e rest = true) :
    ∃ d cs' ss' r', GenericReading e args (Token.textAll (Declarations.tokens bs) ++ x')
        (bs ++ d :: cs') ss' us fin r' k t ∧
      d.2.key = n ∧ d.2.value? = value ∧ cs'.map Prod.snd = cs.map Prod.snd := by
  obtain ⟨us₀, k₀, hsep⟩ := h.after.exists_separator hreading.separator
  obtain ⟨c, w, rfl, hc⟩ := exists_cons_of_separator hsep
  have hnamed {ws : List Token} {y : Text} :=
    @KeyValue.named_created_iff e n (c :: w) y value ws he hne
    hall hvalue (.gap hc)
  -- the flag ends before separators that lead to what is behind it
  obtain ⟨ws, y, hws, hkey, hread, hnext⟩ : ∃ ws y,
      KeyValue.named e isFlagChar (n ++ (valueText value ++ c :: w)) = .ok ws y ∧
      KeyValue.key ⟨.symbol ['-', '-'] :: ws⟩ = n ∧
      KeyValue.value? ⟨.symbol ['-', '-'] :: ws⟩ = value ∧
      ∀ us l, separator e (c :: w) = .ok us l → ∃ us', separator e y = .ok us' l := by
    cases value with
    | none => exact ⟨_, _, hnamed.2 (.inl ⟨rfl, rfl, rfl⟩), rfl, rfl, fun us l hsep => ⟨us, hsep⟩⟩
    | some v =>
      have hapart := hapart.resolve_left (Option.some_ne_none v)
      obtain ⟨y, us', ⟨qs, hqs, hsilent⟩, hsep'⟩ :=
        Literal.exists_silent he (separator_eq_ok.1 hsep).1 hapart
      refine ⟨_, y, hnamed.2 (.inr ⟨v, qs, rfl, hqs, rfl⟩), rfl, ?_, fun us l hsep'' => ?_⟩
      · rw [KeyValue.value?_created, hsilent, List.append_nil]
      · cases hsep.symm.trans hsep''
        exact ⟨us', hsep'⟩
  obtain ⟨cs', r', ss', hcs', hsep', hmap⟩ := h.after.restart hreading.separator hnext
  have hflags := Flags.append_iff.2 ⟨x', h.flags_before he, .cons h.leads.separator hws hcs'⟩
  exact ⟨_, cs', ss', r', ⟨hflags, hsep', hreading.noFlag, hreading.arguments, hreading.finish⟩,
    hkey, hread, hmap⟩

section

variable {fs' : List (List Token × KeyValue)} {ss' us' fin' : List Token} {r' k' t' : Text}

omit hne hvalue in
/-- A value that goes on over separators takes what is behind them: a flag, which it says, or an
argument, which is missing then. -/
theorem not_absorbed {gs : List (List Token × KeyValue)} {y : Text} {qs : List Literal.Piece}
    (hapart : setsApart e rest = false) (hqs : Literal.Scans e .value none rest qs y)
    (hsilent : Literal.valueOfPieces qs = []) (hgs : Flags e y gs r')
    (hothers : gs.map Prod.snd = cs.map Prod.snd) (hsep' : separator e r' = .ok ss' k')
    (hus' : argumentsBehind e args k' = .ok us' t')
    (hwords : us.findSome? Token.execForm? = none → us'.findSome? Token.execForm? = none)
    (hsame : us.findSome? Token.execForm? = none → literalValues us' = literalValues us) :
    False := by
  obtain ⟨us₀, k₀, hsep⟩ := h.after.exists_separator hreading.separator
  obtain ⟨qs', hqs', heq⟩ := Literal.scans_behind hqs he (separator_eq_ok.1 hsep).1 hapart
  rw [hsilent] at heq
  cases h.after with
  | cons hsep'' =>
    cases hsep.symm.trans hsep''
    obtain ⟨ps, rfl, -⟩ := (Literal.scans_iff_of_take (Literal.step_stageChar he rfl)).1 hqs'
    cases heq
  | nil =>
    cases hsep.symm.trans hreading.separator
    obtain rfl : gs = [] := List.map_eq_nil_iff.1 hothers
    cases hgs
    obtain ⟨hnone, hne⟩ :=
      arguments_ne_of_absorbed he hsep hreading.arguments hqs' heq.symm hsep' hus'
    exact hne (hwords hnone) (hsame hnone)

/-- If a flag is read back, with the other flags and the arguments as before, its name is proper,
and its value is apart from what is behind it. -/
theorem apart_of_reading
    (hreading' : GenericReading e args (Token.textAll (Declarations.tokens bs) ++ x') fs' ss'
      us' fin' r'
      k' t')
    (hflag : ((fs'.map Prod.snd).find? fun p => Text.sameLetters p.key n).map KeyValue.value? =
      some value)
    (hothers : (fs'.map Prod.snd).eraseP (fun p => Text.sameLetters p.key n) =
      (bs ++ cs).map Prod.snd)
    (hwords : us.findSome? Token.execForm? = none → us'.findSome? Token.execForm? = none)
    (hsame : us.findSome? Token.execForm? = none → literalValues us' = literalValues us) :
    (∀ c ∈ n, isFlagChar c = true) ∧ (value = none ∨ setsApart e rest = true) := by
  obtain ⟨f, hfind, hf⟩ := Option.map_eq_some_iff.1 hflag
  have hall : ∀ c ∈ n, isFlagChar c = true := by
    obtain ⟨d, hd, rfl⟩ := List.mem_map.1 (List.mem_of_find?_eq_some hfind)
    have hname : Text.sameLetters d.2.key n = true := by simpa using List.find?_some hfind
    exact forall_of_sameLetters (fun c hc => by simp [isFlagChar, Char.isAlphanum, hc])
      (beq_iff_eq.2 (eq_of_beq hname).symm) (hreading'.flags.isFlag_of_mem d hd).2
  refine ⟨hall, ?_⟩
  -- the flags that are read are those before the place, the new one, and others
  obtain ⟨gs, rfl, hgs⟩ := (h.flags_before he).append_of_stuck hreading'.flags
    ((argument_stuck_iff hreading'.separator).2 hreading'.noFlag)
  cases hgs with
  | nil =>
    rw [List.append_nil, List.find?_eq_none.2 h.others] at hfind
    cases hfind
  | @cons _ l y _ vs' ws gs hsep' hws hgs =>
    cases h.leads.separator.symm.trans hsep'
    have hedge : Edge e rest := by
      obtain ⟨us₀, k₀, hsep⟩ := h.after.exists_separator hreading.separator
      obtain ⟨c, w, hcons, hc⟩ := exists_cons_of_separator hsep
      exact hcons ▸ .gap hc
    rcases (KeyValue.named_created_iff he hne hall hvalue hedge).1 hws with
      ⟨rfl, -, -⟩ | ⟨v, qs, rfl, hqs, rfl⟩
    · exact .inl rfl
    · have hself :
          Text.sameLetters (KeyValue.key ⟨[.symbol ['-', '-'], .identifier n, .symbol ['='],
            .node (.literal true) (Literal.assemble (v.map (fun c => .text [c]) ++ qs))]⟩) n =
              true :=
        beq_self_eq_true _
      rw [h.others.find?_eq (d := (vs, _)) hself] at hfind
      cases hfind
      rw [KeyValue.value?_created] at hf
      have hsilent : Literal.valueOfPieces qs = [] := by simpa using hf
      rw [h.others.eraseP_eq (d := (vs, _)) hself, List.map_append, List.map_append] at hothers
      refine .inr (Bool.ne_false_iff.1 fun hapart => ?_)
      exact h.not_absorbed he hreading hapart hqs hsilent hgs (List.append_cancel_left hothers)
        hreading'.separator hreading'.arguments hwords hsame

end

section

variable {kw : Keyword} {st : List Token} {i i' j : Instruction} (hargs : kw.arguments? = some args)
  (hst : start kw.name i'.text = .ok st (Token.textAll (Declarations.tokens bs) ++ x'))
  (harray : i.execForm? = us.findSome? Token.execForm?)
  (hliterals : literalValues i.parts = literalValues us)
  (hothers : i.flags.eraseP (fun f => Text.sameLetters f.key n) = (bs ++ cs).map Prod.snd)

include hreading hne hvalue hargs hst harray hliterals hothers

/-- If the flag reads back, its name is proper, and its value is apart from what is behind it. -/
theorem apart_of_readsBack (hj : parseAs .generic i'.text e = .ok j) (hback : ReadsBack n value i j)
    (hwords : i.execForm? = none → j.execForm? = none) :
    (∀ c ∈ n, isFlagChar c = true) ∧ (value = none ∨ setsApart e rest = true) := by
  obtain ⟨hflag, hjothers, hjvalues⟩ := hback
  obtain ⟨fs', ss', us', fin', r', k', t', hreading', hjflags, hjarray, hjliterals⟩ :=
    exists_reading_of_parse hargs hst hj
  unfold flag? at hflag
  rw [hjflags] at hflag hjothers
  rw [harray, hjarray] at hwords
  refine h.apart_of_reading he hreading hne hvalue hreading' hflag (hjothers.trans hothers) hwords
    fun hnone => ?_
  rw [argumentValues_eq, argumentValues_eq, hjarray, harray, hnone, hwords hnone] at hjvalues
  exact hjliterals.symm.trans (hjvalues.trans hliterals)

/-- A flag with a proper name and a value that is apart reads back. -/
theorem exists_readsBack (hall : ∀ c ∈ n, isFlagChar c = true)
    (hapart : value = none ∨ setsApart e rest = true) :
    ∃ j, parseAs .generic i'.text e = .ok j ∧ ReadsBack n value i j ∧
      j.execForm? = i.execForm? := by
  obtain ⟨d, cs', ss', r', hreading', hkey, hread, hmap⟩ :=
    h.exists_reading he hreading hne hvalue hall hapart
  obtain ⟨hjflags, hjarray, hjliterals⟩ := hreading'.views hst rfl
  have hself : Text.sameLetters d.2.key n = true := hkey ▸ beq_self_eq_true _
  refine ⟨_, genericReading_iff.2 ⟨kw, args, st, _, _, ss', us, fin, r', k, t, hargs, hst,
    hreading', rfl⟩, ⟨?_, ?_, ?_⟩, ?_⟩
  · unfold flag?
    rw [hjflags, h.others.find?_eq hself, Option.map_some, hread]
  · rw [hothers, hjflags, h.others.eraseP_eq hself, List.map_append, List.map_append, hmap]
  · rw [argumentValues_eq, argumentValues_eq, hjarray, hjliterals, harray, hliterals]
  · rw [hjarray, harray]

end

end FlagPlace

/-! ## Flags from a caller -/

namespace Instruction

variable {e : Char} {s n : Text} {value : Option Text} {i i' j : Instruction}

theorem setFlag_eq_ok : i.setFlag n value = .ok i' ↔
    ∃ q, KeyValue.createFlag n value i.escape = .ok q ∧
      i' = i.setPart (Children.flagIndex? n i.parts) (some q.token) Children.insertFlag
        Children.removeArgument := by
  unfold setFlag
  cases KeyValue.createFlag n value i.escape with
  | error f => simp [bind, Except.bind]
  | ok q => simp [bind, Except.bind, pure, Except.pure, eq_comm]

/-- Whether words of the instruction could be an array instead: those of `ADD`, `COPY` and
`VOLUME`. -/
def takesArray (i : Instruction) : Bool :=
  (Keyword.ofWord? i.keyword).bind Keyword.arguments? == some (.words true)

/-- **When a flag reads back.**  An instruction that is given a flag is read with that flag, and
with its other flags and its arguments as before, exactly if the name of the flag is made of
letters, digits and dashes, and the flag has no value or the text behind its place begins with a
blank, once line continuations are passed.  Otherwise the flag is not read as one, or what is
behind it is read as a part of its value.  An array then stays the same array.  Only where words
could be an array instead, that they are none has to be asked for. -/
theorem parse_setFlag_iff (he : IsEscape e) (h : parseAs .generic s e = .ok i)
    (hvalue : ∀ v ∈ value, ∀ c ∈ v, isPlainChar c = true) (hset : i.setFlag n value = .ok i') :
    ((∃ j, parseAs .generic i'.text e = .ok j ∧ ReadsBack n value i j ∧ j.execForm? = i.execForm?) ↔
      (∀ c ∈ n, isFlagChar c = true) ∧ (value = none ∨ setsApart e (i.behindFlag n) = true)) ∧
    (i.execForm? ≠ none ∨ i.takesArray = false →
      ((∃ j, parseAs .generic i'.text e = .ok j ∧ ReadsBack n value i j) ↔
        (∀ c ∈ n, isFlagChar c = true) ∧
        (value = none ∨ setsApart e (i.behindFlag n) = true))) := by
  obtain ⟨kw, args, st, m, fs, ss, us, fin, r, k, t, hargs, hst, hreading, hi⟩ :=
    genericReading_iff.1 h
  obtain ⟨q, hq, hi'⟩ := setFlag_eq_ok.1 hset
  have hescape : i.escape = e := by rw [hi]
  rw [hescape] at hq
  obtain ⟨-, hne⟩ := KeyValue.text_of_createFlag hq
  obtain ⟨bs, cs, vs, x, x', hplace, htext, hothers⟩ := exists_flagPlace he hreading hst hi hq hi'
  obtain ⟨-, harray, hliterals⟩ := hreading.views hst hi
  have hst' : start kw.name i'.text = .ok st (Token.textAll (Declarations.tokens bs) ++ x') := by
    have hs := (arrayReaders_lossless e).start kw _ _ _ hst
    rw [← hplace.before.text_append] at hs hst
    rw [← hs, ← List.append_assoc] at hst
    rw [htext, ← List.append_assoc]
    exact start_swap he (hplace.leads.swaps _) hst
  have hneeded {j : Instruction} (hj : parseAs .generic i'.text e = .ok j)
    (hback : ReadsBack n value i j)
      (hwords : i.execForm? = none → j.execForm? = none) :=
    hplace.apart_of_readsBack he hreading hne hvalue hargs hst' harray hliterals hothers hj
      hback hwords
  have henough := hplace.exists_readsBack he hreading hne hvalue hargs hst' harray hliterals hothers
  refine ⟨⟨fun ⟨j, hj, hback, hsame⟩ => hneeded hj hback fun hnone => hsame.trans hnone,
      fun hproper => henough hproper.1 hproper.2⟩,
    fun hplain => ⟨fun ⟨j, hj, hback⟩ => hneeded hj hback fun hnone => ?_, fun hproper => ?_⟩⟩
  · obtain ⟨fs', ss', us', fin', r', k', t', hreading', -, hjarray, -⟩ :=
      exists_reading_of_parse hargs hst' hj
    have hkeyword : i.takesArray = false := hplain.resolve_left (not_not_intro hnone)
    rw [takesArray, keyword_of_read (readAs_eq_ok.1 (Outcome.complete_eq_ok.1 h)).1,
      Keyword.ofWord?_eq_some.2 (matchesWord_of_start hst), Option.bind_some, hargs] at hkeyword
    rw [harray] at hnone
    rw [hjarray]
    exact execForm?_of_arguments (by simpa using hkeyword) hreading.arguments
      hreading'.arguments hnone
  · obtain ⟨j, hj, hback, -⟩ := henough hproper.1 hproper.2
    exact ⟨j, hj, hback⟩

/-- A flag is put between another flag and arguments that a line continuation separates from it. -/
theorem parse_setFlag_iff_continued :
    ∃ i i', parseAs .generic "COPY --from=a \\\n x y".toList '\\' = .ok i ∧
      i.setFlag "chown".toList (some "me:us".toList) = .ok i' ∧
      ∃ j, parseAs .generic i'.text '\\' = .ok j ∧
        ReadsBack "chown".toList (some "me:us".toList) i j ∧ j.execForm? = i.execForm? := by
  obtain ⟨i, hi, i', hi', hapart⟩ :
      ∃ i ∈ (parseAs .generic "COPY --from=a \\\n x y".toList '\\').toOption,
        ∃ i' ∈ (i.setFlag "chown".toList (some "me:us".toList)).toOption,
          setsApart '\\' (i.behindFlag "chown".toList) = true := by
    decide +kernel
  rw [mem_toOption] at hi hi'
  have hvalue : ∀ v ∈ some "me:us".toList, ∀ c ∈ v, isPlainChar c = true := by
    rintro v ⟨⟩
    exact List.all_eq_true.1 (by decide)
  exact ⟨i, i', hi, hi', (parse_setFlag_iff (.inl rfl) hi hvalue hi').1.2
    ⟨List.all_eq_true.1 (by decide), .inr hapart⟩⟩

/-- The instruction is given a flag, and is not read back with it. -/
def MisreadsFlag (e : Char) (n : Text) (value : Option Text) (s : Text) : Prop :=
  ∃ i i', parseAs .generic s e = .ok i ∧ i.setFlag n value = .ok i' ∧
    ¬ ∃ j, parseAs .generic i'.text e = .ok j ∧ (j.flag? n).map KeyValue.value? = some value ∧
      j.argumentValues = i.argumentValues

theorem misreadsFlag_of_parse
    (h : ∃ i ∈ (parseAs .generic s e).toOption, ∃ i' ∈ (i.setFlag n value).toOption,
      ¬ ∃ j ∈ (parseAs .generic i'.text e).toOption,
        (j.flag? n).map KeyValue.value? = some value ∧ j.argumentValues = i.argumentValues) :
    MisreadsFlag e n value s := by
  obtain ⟨i, hi, i', hi', hnot⟩ := h
  rw [mem_toOption] at hi hi'
  exact ⟨i, i', hi, hi', fun ⟨j, hj, hread⟩ => hnot ⟨j, mem_toOption.2 hj, hread⟩⟩

/-- A flag with an underscore in its name cannot be read, and an argument or a flag on the next
line becomes a part of the value.  So does an argument behind a blank, if the escape character can
be in a value. -/
theorem misreads_setFlag :
    MisreadsFlag '\\' "my_flag".toList (some "x".toList) "COPY a b".toList ∧
      MisreadsFlag '\\' "from".toList (some "x".toList) "COPY\\\na b".toList ∧
      MisreadsFlag '\\' "from".toList (some "x".toList) "COPY --from\\\n--chown=a b c".toList ∧
      MisreadsFlag '/' "from".toList (some "x/".toList) "COPY a b".toList := by
  refine ⟨misreadsFlag_of_parse ?_, misreadsFlag_of_parse ?_, misreadsFlag_of_parse ?_,
    misreadsFlag_of_parse ?_⟩ <;> decide +kernel

end Instruction

end Containerfile
