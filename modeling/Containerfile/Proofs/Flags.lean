import Containerfile.Proofs.ContinuedValues
import Containerfile.Proofs.CreatedStages
import Containerfile.Proofs.Undoing

/-!
# Flags from a caller

A flag with a value that a caller gives is written before the arguments that are there.  Where a
blank comes next, once line continuations are passed, the value ends there; where the next
argument comes at once, that argument becomes a part of the value.

## Main definitions

* `Lexeme.setsApart` — a blank comes first, once line continuations are passed.
* `isPlainChar` — the characters that stand for themselves in a value.
* `Flags` — flags one behind another.
* `FlagLeads` — a text with a flag first stands for another text.

## Main results

* `Literal.exists_silent`, `Literal.scans_behind` — where a value ends that stands before
  separators.
* `KeyValue.named_created_iff` — how a flag from a caller is read.
* `Flags.swap` — flags are the same with another text behind.
* `FlagLeads.insert`, `FlagLeads.replace` — a flag before the arguments, or in the place of another.
-/

namespace Containerfile

open Grammar Lexeme

/-! ## Apart from what is behind -/

namespace Lexeme

variable {e : Char} {t m r : Text} {ts : List Token}

/-- Whether a blank comes first, once line continuations are passed. -/
def setsApart (e : Char) (t : Text) : Bool :=
  match many (continuation e) t with
  | .ok _ r => r.head?.any isBlank
  | _ => false

theorem setsApart_of_many (h : many (continuation e) t = .ok ts r) :
    setsApart e t = r.head?.any isBlank := by
  unfold setsApart
  rw [h]

theorem setsApart_of_stuck (h : ∃ m, continuation e t = .stuck m) :
    setsApart e t = t.head?.any isBlank :=
  setsApart_of_many (many_eq_ok.2 (.inr (.inr ⟨h, rfl, rfl⟩)))

theorem setsApart_of_continuation (h : continuation e t = .ok ts m) :
    setsApart e t = setsApart e m := by
  cases hm : many (continuation e) m with
  | ok us r =>
    rw [setsApart_of_many hm]
    exact setsApart_of_many
      (many_eq_ok.2 (.inl ⟨ts, m, us, h, advances_continuation _ _ _ _ h, hm, rfl⟩))
  | stuck k => exact absurd hm (Committed.many _ m k)
  | failed f => exact absurd hm ((unfailing_continuation e).many m f)

theorem setsApart_blank (he : IsEscape e) {c : Char} (hc : isBlank c = true) :
    setsApart e (c :: t) = true := by
  rw [setsApart_of_stuck (continuation_stuck_iff.2 ?_)]
  · exact hc
  · rintro ⟨ts, r, h⟩
    obtain ⟨s, hs⟩ := eq_cons_of_continuation h
    obtain ⟨rfl, -⟩ := List.cons.inj hs
    rcases he with rfl | rfl <;> cases hc

end Lexeme

namespace Literal

variable {e : Char} {t k r : Text} {ss : List Token}

/-- Before separators with a blank among the first of them, a value takes continuations only. -/
theorem exists_silent (he : IsEscape e) (hgaps : many (gap e) t = .ok ss k)
    (hapart : setsApart e t = true) : ∃ r ss', Silent e .value t r ∧ separator e r = .ok ss' k := by
  induction t, ss, k, hgaps using gaps_induction with
  | nil s m hstuck _ =>
    obtain ⟨hblank, hstuck⟩ := gap_stuck_iff.1 ⟨m, hstuck⟩
    rw [setsApart_of_stuck hstuck, hblank] at hapart
    cases hapart
  | blanks c b m vs k hall hm hgaps ih =>
    have hstop : step .value e none (c :: (b ++ m)) = .stop :=
      step_blank he rfl (hall c List.mem_cons_self)
    exact ⟨_, _, ⟨[], .stop hstop, rfl⟩, separator_eq_ok.2 ⟨hgaps, by simp⟩⟩
  | continuation s us m vs k hc hm hgaps ih =>
    rw [setsApart_of_continuation hc] at hapart
    obtain ⟨r, ss', ⟨ps, hps, hvalue⟩, hsep⟩ := ih hapart
    refine ⟨r, ss', ⟨_, .take (step_of_continuation hc) hps, ?_⟩, hsep⟩
    rw [valueOfPieces_append, valueOfPieces_continuation hc, hvalue]
    rfl

/-- Before separators without a blank among the first of them, a value goes on behind them. -/
theorem scans_behind {ps : List Piece} (h : Scans e .value none t ps r) (he : IsEscape e)
    (hgaps : many (gap e) t = .ok ss k) (hapart : setsApart e t = false) :
    ∃ qs, Scans e .value none k qs r ∧ valueOfPieces ps = valueOfPieces qs := by
  induction t, ss, k, hgaps using gaps_induction generalizing ps with
  | nil => exact ⟨ps, h, rfl⟩
  | blanks c b m vs k hall hm hgaps ih =>
    rw [setsApart_blank he (hall c List.mem_cons_self)] at hapart
    cases hapart
  | continuation s us m vs k hc hm hgaps ih =>
    rw [setsApart_of_continuation hc] at hapart
    obtain ⟨qs, rfl, hqs⟩ := (scans_iff_of_take (step_of_continuation hc)).1 h
    obtain ⟨ws, hws, hvalue⟩ := ih hqs hapart
    exact ⟨ws, hws, by rw [valueOfPieces_append, valueOfPieces_continuation hc, hvalue]; rfl⟩

/-- Styles with the same steps read the same. -/
theorem Scans.of_step_eq {style style' : Style} {q : Option Quote} {s : Text} {ps : List Piece}
    (h : Scans e style q s ps r) (hstep : ∀ q s, step style e q s = step style' e q s) :
    Scans e style' q s ps r := by
  induction h with
  | stop hstop => exact .stop (hstep _ _ ▸ hstop)
  | take htake _ ih => exact .take (hstep _ _ ▸ htake) (ih hstep)
  | last hlast => exact .last (hstep _ _ ▸ hlast)
  | reference href hw _ _ ih => exact .reference (hstep _ _ ▸ href) hw (ih hstep)

/-- A word and a value are read in the same way. -/
theorem scans_word_iff {q : Option Quote} {s : Text} {ps : List Piece} :
    Scans e .word q s ps r ↔ Scans e .value q s ps r := by
  have hstep (q : Option Quote) (s : Text) : step .word e q s = step .value e q s := by
    cases s <;> rfl
  exact ⟨fun h => h.of_step_eq hstep, fun h => h.of_step_eq fun q s => (hstep q s).symm⟩

/-- What a word says, and where it ends. -/
theorem word_eq_ok {s : Text} {ls : List Token} (h : body .word e s = .ok ls r) :
    ∃ ps, Scans e .value none s ps r ∧ valueOf ls = valueOfPieces ps ∧
      step .value e none s ≠ .stop := by
  obtain ⟨ps, hps, rfl, hne⟩ := (body_of_trimsEnd rfl).1 h
  refine ⟨ps, scans_word_iff.1 hps, valueOf_assemble ps, fun hstop => ?_⟩
  obtain ⟨rfl, -⟩ := (scans_word_iff.1 hps).unique (.stop hstop)
  rcases hne with hne | hempty
  · exact hne rfl
  · cases hempty

end Literal

/-! ## The flag -/

/-- Whether a character stands for itself in a value: a letter, a digit, or one of `/`, `.`, `:`,
`_` and `-`. -/
def isPlainChar (c : Char) : Bool :=
  isStageChar c || c == '/' || c == ':'

theorem isPlainChar_of_isFlagChar {c : Char} (hc : isFlagChar c = true) : isPlainChar c = true := by
  simp only [isFlagChar, isPlainChar, isStageChar, Bool.or_eq_true] at hc ⊢
  exact .inl (.inl (.inl (hc.imp_left .inl)))

theorem allows_of_isPlainChar {e c : Char} (he : IsEscape e) (hc : isPlainChar c = true) :
    Word.Quoting.none.allows e c = true := by
  have hne : ∀ {d}, isPlainChar d = false → c ≠ d := by
    rintro d hd rfl
    rw [hd] at hc
    cases hc
  have hescape : c ≠ e := by rcases he with rfl | rfl <;> exact hne rfl
  simp [Word.Quoting.allows, isLineBreak, isBlank, isQuote, hescape, hne (d := '\r') rfl,
    hne (d := '\n') rfl, hne (d := ' ') rfl, hne (d := '\t') rfl, hne (d := '"') rfl,
    hne (d := '\'') rfl, hne (d := '$') rfl]

namespace Literal

variable {e : Char} {v t r : Text} {ls : List Token} {ps : List Piece}

theorem step_value {c : Char} (hc : Word.Quoting.none.allows e c = true) :
    step .value e none (c :: t) = .take [.text [c]] none t :=
  Word.step_allowed (.inr rfl) Word.Quoting.isOpen_none hc

/-- Characters that stand for themselves are read one by one. -/
theorem scans_plain_iff (he : IsEscape e) (hv : ∀ c ∈ v, isPlainChar c = true) :
    Scans e .value none (v ++ t) ps r ↔
      ∃ qs, ps = v.map (fun c => .text [c]) ++ qs ∧ Scans e .value none t qs r := by
  induction v generalizing ps with
  | nil => simp
  | cons c v ih =>
    obtain ⟨hc, hv⟩ := List.forall_mem_cons.1 hv
    rw [List.cons_append, scans_iff_of_take (step_value (allows_of_isPlainChar he hc))]
    constructor
    · rintro ⟨_, rfl, h⟩
      obtain ⟨qs, rfl, hqs⟩ := (ih hv).1 h
      exact ⟨qs, rfl, hqs⟩
    · rintro ⟨qs, rfl, hqs⟩
      exact ⟨_, rfl, (ih hv).2 ⟨qs, rfl, hqs⟩⟩

/-- A value is read with what the text behind it adds. -/
theorem body_plain_iff (he : IsEscape e) (hv : ∀ c ∈ v, isPlainChar c = true) :
    body .value e (v ++ t) = .ok ls r ↔
      ∃ qs, Scans e .value none t qs r ∧ ls = assemble (v.map (fun c => .text [c]) ++ qs) := by
  rw [body_of_trimsEnd rfl]
  simp only [scans_plain_iff he hv]
  constructor
  · rintro ⟨_, ⟨qs, rfl, hqs⟩, rfl, -⟩
    exact ⟨qs, hqs, rfl⟩
  · rintro ⟨qs, hqs, rfl⟩
    exact ⟨_, ⟨qs, rfl, hqs⟩, rfl, .inr rfl⟩

end Literal

namespace KeyValue

variable {e : Char} {p : Char → Bool} {n t r : Text} {value : Option Text} {us : List Token}

/-- A name that is followed by no other character of a name is read whole. -/
theorem named_append_iff {x : Text} (hne : n ≠ []) (hall : ∀ c ∈ n, p c = true)
    (hx : x.head?.any p = false) :
    named e p (n ++ x) = .ok us r ↔
      x.head? ≠ some '=' ∧ r = x ∧ us = [.identifier n] ∨
        ∃ m ls, x = '=' :: m ∧ Literal.body .value e m = .ok ls r ∧
          us = [.identifier n, .symbol ['='], .node (.literal true) ls] := by
  constructor
  · intro h
    obtain ⟨k, m, heq, hk, hkall, hm, hrest⟩ := named_eq_ok.1 h
    have hrun : run .identifier p (n ++ x) = .ok [.identifier n] x :=
      run_shape.2 ⟨n, rfl, hne, hall, hx, rfl⟩
    have hrun' : run .identifier p (n ++ x) = .ok [.identifier k] m :=
      run_shape.2 ⟨k, heq, hk, hkall, hm, rfl⟩
    obtain ⟨hname, rfl⟩ := Outcome.ok.inj (hrun.symm.trans hrun')
    obtain rfl : n = k := by simpa [Token.identifier] using hname
    exact hrest
  · exact fun hrest => named_eq_ok.2 ⟨n, x, rfl, hne, hall, hx, hrest⟩

/-- A flag from a caller is read without a value, or with one that goes on with what is behind. -/
theorem named_created_iff (he : IsEscape e) (hne : n ≠ []) (hall : ∀ c ∈ n, isFlagChar c = true)
    (hvalue : ∀ v ∈ value, ∀ c ∈ v, isPlainChar c = true) (ht : Edge e t) :
    named e isFlagChar (n ++ (valueText value ++ t)) = .ok us r ↔
      value = none ∧ r = t ∧ us = [.identifier n] ∨
        ∃ v qs, value = some v ∧ Literal.Scans e .value none t qs r ∧
          us = [.identifier n, .symbol ['='], .node (.literal true)
            (Literal.assemble (v.map (fun c => .text [c]) ++ qs))] := by
  cases value with
  | none =>
    have hequals := ht.head?_ne_equals he
    have hiff := @named_append_iff e isFlagChar n r us t hne hall (ht.head?_any he rfl)
    simp only [valueText, List.nil_append, hiff, hequals, ne_eq, not_false_eq_true, true_and,
      reduceCtorEq, false_and, exists_const, or_false]
    refine or_iff_left ?_
    rintro ⟨m, ls, rfl, -⟩
    exact hequals rfl
  | some v =>
    have hbody := @Literal.body_plain_iff e v t r
    rw [named_append_iff hne hall rfl]
    simp only [valueText, List.cons_append, List.head?_cons, ne_eq, not_true_eq_false, false_and,
      false_or, reduceCtorEq, List.cons.injEq, true_and, Option.some.injEq]
    constructor
    · rintro ⟨m, ls, rfl, hls, rfl⟩
      obtain ⟨qs, hqs, rfl⟩ := (hbody he (hvalue v rfl)).1 hls
      exact ⟨v, qs, rfl, hqs, rfl⟩
    · rintro ⟨v, qs, rfl, hqs, rfl⟩
      exact ⟨_, _, rfl, (hbody he (hvalue v rfl)).2 ⟨qs, hqs, rfl⟩, rfl⟩

/-- A flag can be made with any value of characters that stand for themselves. -/
theorem exists_createFlag {v : Text} (he : IsEscape e) (hkey : isKey n = true)
    (hv : ∀ c ∈ v, isPlainChar c = true) : ∃ q, createFlag n (some v) e = .ok q := by
  obtain ⟨ls, hls⟩ : ∃ ls, Literal.body .value e v = .ok ls [] := by
    have hbody := (Literal.body_plain_iff (t := []) he hv).2 ⟨[], .stop rfl, rfl⟩
    rw [List.append_nil] at hbody
    exact ⟨_, hbody⟩
  have hcreate : Literal.create "value" v e .value = .ok ⟨true, ls⟩ := by
    unfold Literal.create Literal.parseAs
    rw [Outcome.complete_eq_ok.2 hls]
    simp [Style.value, Except.map]
  unfold createFlag build valueParts
  simp only [if_pos hkey, hcreate]
  exact ⟨_, rfl⟩

theorem text_of_createFlag {q : KeyValue} (h : createFlag n value e = .ok q) :
    q.text = '-' :: '-' :: (n ++ valueText value) ∧ n ≠ [] := by
  obtain ⟨haccepted, htext⟩ := accepted_of_build h
  exact ⟨htext, haccepted.isWord.ne_nil⟩

/-- What a flag with a value says: the value, with what is read behind it. -/
theorem value?_created (v : Text) (qs : List Literal.Piece) :
    value? ⟨[.symbol ['-', '-'], .identifier n, .symbol ['='], .node (.literal true)
      (Literal.assemble (v.map (fun c => .text [c]) ++ qs))]⟩ =
        some (v ++ Literal.valueOfPieces qs) := by
  change some (Literal.valueOf (Literal.assemble _)) = _
  rw [Literal.valueOf_assemble, Literal.valueOfPieces_append, Literal.valueOfPieces_map_text]

end KeyValue

/-! ## Flags one behind another -/

/-- Flags in a row, each with the separators before it. -/
inductive Flags (e : Char) : Text → List (List Token × KeyValue) → Text → Prop where
  | nil (s : Text) : Flags e s [] s
  | cons {s m m' r : Text} {ss us : List Token} {fs : List (List Token × KeyValue)}
      (hsep : separator e s = .ok ss ('-' :: '-' :: m))
      (hname : KeyValue.named e isFlagChar m = .ok us m') (hrest : Flags e m' fs r) :
      Flags e s ((ss, ⟨.symbol ['-', '-'] :: us⟩) :: fs) r

namespace Flags

variable {e : Char} {s m r a t t' : Text} {fs gs : List (List Token × KeyValue)}
  {ts us ss : List Token}

theorem advances_argument : Advances (argument e (KeyValue.flag e)) :=
  Lexeme.advances_argument (arrayReaders_lossless e).flag.shrinks

/-- Reading flags as long as there are some. -/
theorem flagsBody_eq_ok : Instruction.flagsBody e s = .ok ts r ↔
    ∃ fs, Flags e s fs r ∧ ts = Declarations.tokens fs ∧
      ∃ m, argument e (KeyValue.flag e) r = .stuck m := by
  unfold Instruction.flagsBody
  constructor
  · intro h
    induction s, ts, r, h using advances_argument.many_induction with
    | nil s m hstuck _ => exact ⟨[], .nil s, rfl, m, hstuck⟩
    | round s us m vs r hu _ _ ih =>
      obtain ⟨ss, k, ws, hsep, hname, rfl⟩ := KeyValue.argument_flag_eq_ok.1 hu
      obtain ⟨fs, hfs, rfl, hstuck⟩ := ih
      exact ⟨_ :: fs, .cons hsep hname hfs, rfl, hstuck⟩
  · rintro ⟨fs, h, rfl, hstuck⟩
    induction h with
    | nil s => exact many_eq_ok.2 (.inr (.inr ⟨hstuck, rfl, rfl⟩))
    | @cons s m m' r ss us fs hsep hname hrest ih =>
      have hu := KeyValue.argument_flag_eq_ok.2 ⟨ss, m, us, hsep, hname, rfl⟩
      exact many_eq_ok.2 (.inl ⟨_, m', _, hu, advances_argument _ _ _ hu, ih hstuck, rfl⟩)

theorem text_append (h : Flags e s fs r) : Token.textAll (Declarations.tokens fs) ++ r = s := by
  induction h with
  | nil s => rfl
  | @cons s m m' r ss us fs hsep hname hrest ih =>
    rw [← (arrayReaders_lossless e).separator _ _ _ hsep, ← KeyValue.lossless_named _ _ _ _ _ hname,
      ← ih]
    simp [Declarations.tokens, KeyValue.token, Token.textAll, Token.text, Token.symbol]

theorem append_iff : Flags e s (fs ++ gs) r ↔ ∃ m, Flags e s fs m ∧ Flags e m gs r := by
  induction fs generalizing s with
  | nil =>
    constructor
    · exact fun h => ⟨s, .nil s, h⟩
    · rintro ⟨m, h, h'⟩
      cases h
      exact h'
  | cons f fs ih =>
    constructor
    · intro h
      cases h with
      | cons hsep hname hrest =>
        obtain ⟨m, hfs, hgs⟩ := ih.1 hrest
        exact ⟨m, .cons hsep hname hfs, hgs⟩
    · rintro ⟨m, h, h'⟩
      cases h with
      | cons hsep hname hrest => exact .cons hsep hname (ih.2 ⟨m, hrest, h'⟩)

theorem keyValues (h : Flags e s fs r) :
    (Declarations.tokens fs).filterMap Token.keyValue? = fs.map Prod.snd := by
  induction h with
  | nil => rfl
  | @cons s m m' r ss us fs hsep _ _ ih =>
    have hcons : Declarations.tokens ((ss, ⟨.symbol ['-', '-'] :: us⟩) :: fs) =
        ss ++ ([KeyValue.token ⟨.symbol ['-', '-'] :: us⟩] ++ Declarations.tokens fs) := by
      simp [Declarations.tokens]
    rw [hcons, List.filterMap_append, List.filterMap_append, ih,
      (frame_of_separator hsep).filterMap_keyValue?]
    rfl

/-- What is read as a flag is one, and its name is a name of a flag. -/
theorem isFlag_of_mem (h : Flags e s fs r) :
    ∀ f ∈ fs, f.2.isFlag = true ∧ ∀ c ∈ f.2.key, isFlagChar c = true := by
  induction h with
  | nil => simp
  | @cons s m m' r ss us fs hsep hname hrest ih =>
    refine List.forall_mem_cons.2 ⟨⟨rfl, ?_⟩, ih⟩
    obtain ⟨k, x, -, -, hall, -, ⟨-, -, rfl⟩ | ⟨_, _, -, -, rfl⟩⟩ :=
      KeyValue.named_eq_ok.1 hname <;>
      exact hall

/-- Flags are the same with another text behind, if a value that ends before the one ends before the
other. -/
theorem swap (h : Flags e (a ++ t) fs t) (he : IsEscape e) (hs : Swaps e a t t')
    (hstop : Literal.step .value e none t = .stop → Literal.step .value e none t' = .stop) :
    Flags e (a ++ t') fs t' := by
  generalize hS : a ++ t = S at h
  generalize hR : t = R at h
  induction h generalizing a with
  | nil s =>
    obtain rfl : a = [] := by simpa [← hR] using hS
    exact .nil _
  | @cons s m m' r ss us fs hsep hname hrest ih =>
    subst hS hR
    obtain ⟨w, rfl⟩ : ∃ w, m' = w ++ t := ⟨_, hrest.text_append.symm⟩
    obtain ⟨k, rfl⟩ : ∃ k, m = k ++ t :=
      ⟨_, by rw [List.append_assoc, KeyValue.lossless_named _ _ _ _ _ hname]⟩
    have hk : Swaps e ('-' :: '-' :: k) t t' := by
      have htext := (arrayReaders_lossless e).separator _ _ _ hsep
      rw [← List.cons_append, ← List.cons_append, ← List.append_assoc] at htext
      exact Swaps.of_append (List.append_cancel_right htext ▸ hs)
    have hk' : Swaps e k t t' := Swaps.of_append (k := ['-', '-']) hk
    have hw : Swaps e w t t' := by
      have htext := KeyValue.lossless_named _ _ _ _ _ hname
      rw [← List.append_assoc] at htext
      exact Swaps.of_append (List.append_cancel_right htext ▸ hk')
    have hname' : KeyValue.named e isFlagChar (k ++ t') = .ok us (w ++ t') := by
      by_cases hnil : w = []
      · subst hnil
        refine KeyValue.named_swap_of_end he rfl hk' hname fun hvalued => hstop ?_
        obtain ⟨_, _, -, -, -, -, ⟨-, -, rfl⟩ | ⟨x, ls, rfl, hbody, rfl⟩⟩ :=
          KeyValue.named_append hname
        · cases hvalued
        · obtain ⟨ps, hps, -⟩ := (Literal.body_of_trimsEnd rfl).1 hbody
          exact hps.step_rest rfl
      · exact KeyValue.named_swap_within he rfl hk' hnil hname
    exact .cons (hs.separator (z := '-' :: '-' :: k) he (List.cons_ne_nil _ _) (by simp) hsep)
      hname'
      (ih hw rfl rfl)

/-- Flags that are read go on where others that are read end. -/
theorem append_of_stuck (h : Flags e s fs m) (h' : Flags e s gs r)
    (hstuck : ∃ k, argument e (KeyValue.flag e) r = .stuck k) :
    ∃ hs, gs = fs ++ hs ∧ Flags e m hs r := by
  induction h generalizing gs with
  | nil => exact ⟨gs, rfl, h'⟩
  | @cons s k k' m ss us fs hsep hname hrest ih =>
    cases h' with
    | nil =>
      obtain ⟨k, hk⟩ := hstuck
      cases (KeyValue.argument_flag_eq_ok.2 ⟨ss, _, us, hsep, hname, rfl⟩).symm.trans hk
    | cons hsep' hname' hrest' =>
      cases hsep.symm.trans hsep'
      cases hname.symm.trans hname'
      obtain ⟨hs, rfl, hhs⟩ := ih hrest'
      exact ⟨hs, rfl, hhs⟩

end Flags

/-! ## The place of a flag -/

theorem IsEscape.isSolid {e : Char} (he : IsEscape e) : isSolid e = true := by
  rcases he with rfl | rfl <;> decide

/-- Separators before a word can stand for other separators. -/
theorem swaps_of_separator {e c : Char} {a t t' k k' : Text} {ss ss' : List Token} (he : IsEscape e)
    (hsep : separator e t = .ok ss k) (hsep' : separator e t' = .ok ss' (c :: k'))
    (hc : isSolid c = true) : Swaps e a t t' := by
  obtain ⟨d, w, hd, hdw⟩ := exists_cons_of_separator hsep'
  refine .of_gap he (exists_cons_of_separator hsep) (hd ▸ .gap hdw) (fun _ _ _ => ?_) fun _ hhead =>
    ?_
  · rcases dropWhile_of_gaps he (separator_eq_ok.1 hsep').1 with ⟨w, hw⟩ | hk
    · exact filler_stuck_of_dropWhile he.isSolid hw
    · exact filler_stuck_of_dropWhile hc hk
  · rw [hd] at hhead
    cases hhead
    rcases hdw with hdw | hdw
    · cases hdw
    · exact he.ne_newline hdw.symm

/-- The text `t'` stands for `t`, and has the flag `--u` first. -/
structure FlagLeads (e : Char) (t t' u : Text) (ss : List Token) : Prop where
  separator : separator e t' = .ok ss ('-' :: '-' :: u)
  swaps : ∀ a, Swaps e a t t'
  stop : Literal.step .value e none t = .stop → Literal.step .value e none t' = .stop

theorem Literal.step_escape_ne_stop {style : Style} {e : Char} {q : Option Quote} {s : Text} :
    step style e q (e :: s) ≠ .stop := by
  rw [step.eq_def]
  dsimp only
  rw [if_pos rfl]
  unfold stepEscape stepEscaped
  split
  · simp
  · split
    · simp
    · split <;> simp

/-- A literal goes on at a character that is no blank, before the end of the line. -/
theorem Literal.step_ne_stop {style : Style} {e c : Char} {w : Text} (hstyle : style.Plain)
    (hbrace : style.braceEnds = false) (hblank : isBlank c = false)
    (hend : Text.atLineEnd (c :: w) = false) : step style e none (c :: w) ≠ .stop := by
  by_cases hc : c = e
  · exact hc ▸ step_escape_ne_stop
  · have hchar : stepChar style none c w ≠ .stop := by
      unfold stepChar stepDollar
      split
      · split <;> simp
      · simp
    by_cases hquote : style.quotes = true ∧ isQuote c = true
    · simp [step, stepUnquoted, hstyle.escapes, hc, hend, hquote]
    · simpa [step, stepUnquoted, hstyle.escapes, hbrace, hc, hend, hquote, hblank] using hchar

/-- A literal is left before a blank or a line end. -/
theorem Literal.blank_or_atLineEnd_of_stop {style : Style} {e : Char} {s : Text}
    (hstyle : style.Plain) (hbrace : style.braceEnds = false) (h : step style e none s = .stop) :
    s.head?.any isBlank = true ∨ s.atLineEnd = true := by
  cases s with
  | nil => exact .inr rfl
  | cons c s =>
    by_contra hno
    rw [not_or, Bool.not_eq_true, Bool.not_eq_true] at hno
    exact step_ne_stop hstyle hbrace (by simpa using hno.1) hno.2 h

namespace FlagLeads

variable {e : Char} {t u m k : Text} {ss : List Token}

/-- A flag comes before the arguments that are there. -/
theorem insert (he : IsEscape e) (hsep : Lexeme.separator e t = .ok ss k) (u : Text) :
    FlagLeads e t (' ' :: '-' :: '-' :: u) u [.blank [' ']] where
  separator := separator_of_word he rfl _
  swaps _ := swaps_of_separator he hsep (separator_of_word he rfl _) rfl
  stop _ := Literal.step_blank he rfl rfl

/-- A flag comes in the place of another. -/
theorem replace (he : IsEscape e) (hsep : Lexeme.separator e t = .ok ss ('-' :: '-' :: m))
    (u : Text) :
    FlagLeads e t (Token.textAll ss ++ '-' :: '-' :: u) u ss := by
  have htext := (arrayReaders_lossless e).separator _ _ _ hsep
  have hsep' : Lexeme.separator e (Token.textAll ss ++ '-' :: '-' :: u) =
      .ok ss ('-' :: '-' :: u) :=
    separator_solid (n := '-' :: m) he rfl rfl (he.ne_of_isStageChar rfl) (htext ▸ hsep)
  refine ⟨hsep', fun a => swaps_of_separator he hsep hsep' rfl, fun hstop => ?_⟩
  -- the value before the flag ends at a blank, because it would go on with a continuation
  obtain ⟨c, w, hw, hc⟩ := exists_cons_of_separator hsep
  rcases hc with hc | rfl
  · cases hss : Token.textAll ss with
    | nil =>
      rw [hss, hw] at htext
      cases htext
      cases hc
    | cons d b =>
      rw [hss, hw] at htext
      cases htext
      exact Literal.step_blank he rfl hc
  · rw [hw] at hstop
    exact absurd hstop Literal.step_escape_ne_stop

end FlagLeads

/-! ## Tokens around the place -/

namespace Children

/-- The text behind the child at an index, or else behind the place where one would be added. -/
def behind (current : Option Nat) (added : Nat) (ts : List Token) : Text :=
  Token.textAll (ts.drop ((current.map (· + 1)).getD added))

section

variable {n : Text} {ts us vs : List Token} {p q : KeyValue} {added : Nat}
  (add : Token → List Token → List Token) (remove : Nat → List Token → List Token)

/-- A flag is added where none has its name. -/
theorem text_set_absent (hts : ts = us ++ vs) (hadded : added = us.length)
    (hadd : ∀ t, add t ts = insertAt added [.blank [' '], t] ts)
    (hnone : ∀ u ∈ ts, (u.keyValue?.any fun p => p.isFlag && Text.sameLetters p.key n) = false) :
    Token.textAll (set (flagIndex? n ts) (some q.token) add remove ts) =
        Token.textAll us ++ ' ' :: (q.text ++ Token.textAll vs) ∧
      behind (flagIndex? n ts) added ts = Token.textAll vs := by
  have hq : q.token.text = q.text := rfl
  unfold flagIndex? behind
  rw [set_absent _ _ hnone, List.findIdx?_eq_none_iff.2 hnone, Option.elim_some, hadd, insertAt,
    Option.map_none, Option.getD_none, hadded, hts, List.take_left, List.drop_left]
  simp [Token.textAll, Token.text, Token.blank, hq]

/-- A flag takes the place of the first one with its name. -/
theorem text_set_first (hts : ts = us ++ p.token :: vs) (added : Nat)
    (hus : ∀ u ∈ us, (u.keyValue?.any fun p => p.isFlag && Text.sameLetters p.key n) = false)
    (hp : (p.isFlag && Text.sameLetters p.key n) = true) :
    Token.textAll (set (flagIndex? n ts) (some q.token) add remove ts) =
        Token.textAll us ++ (q.text ++ Token.textAll vs) ∧
      behind (flagIndex? n ts) added ts = Token.textAll vs := by
  have hq : q.token.text = q.text := rfl
  have hp' : (p.token.keyValue?.any fun p => p.isFlag && Text.sameLetters p.key n) = true := hp
  unfold flagIndex? behind
  rw [hts, set_first _ _ hus hp', findIdx?_append_cons hus hp', Option.map_some, Option.getD_some,
    drop_append_cons]
  simp [Token.textAll, hq]

end

end Children

/-- The keyword is the last token of the start of an instruction. -/
theorem Lexeme.keywordIndex_of_start {k : Keyword} {s r : Text} {st : List Token}
    (h : start k.name s = .ok st r) (ts : List Token) :
    Children.keywordIndex (st ++ ts) + 1 = st.length := by
  obtain ⟨b, word, -, -, -, -, rfl⟩ := start_shape.1 h
  have hlead : ∀ t ∈ if b = [] then [] else [Token.blank b], t.isTrivia = true := by
    split
    · simp
    · exact List.forall_mem_singleton.2 rfl
  rw [List.append_assoc, List.singleton_append, StageShape.keywordIndex_eq hlead]
  simp

end Containerfile
