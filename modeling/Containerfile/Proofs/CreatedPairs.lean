import Containerfile.Proofs.Followers
import Containerfile.Proofs.Removing
import Mathlib.Data.List.Chain

/-!
# Keys and values from a caller

`ARG`, `ENV` and `LABEL` are made from pairs of a key and a value.  Each pair is accepted on its
own, then all are written one behind another, with a blank before each, and the line is read.
What is read is what was given exactly if each value is kept apart from the key behind it.  A
value that ends with an escape character takes the blank behind it and with it the next pair; so
does one with a comment on its last line, or one before a key that begins a comment.

## Main definitions

* `KeyValue.written` — a key with the text of its value.
* `rowText` — the text of pairs, one behind another.
* `KeptApart` — each value is kept apart from the key behind it.
* `Row` — keys and values that are read one behind another.

## Main results

* `Row.written_of_keptApart`, `Row.keptApart_of_written` — a row of pairs is read as it was given.
* `Instruction.written_of_create` — the three instructions.
-/

namespace Containerfile

open Lexeme Grammar

/-! ## Pairs and their text -/

/-- A key with the text of its value. -/
def KeyValue.written (p : KeyValue) : Text × Option Text :=
  (p.key, p.literal?.map Literal.text)

/-- The text of a value behind its key. -/
def valueText : Option Text → Text
  | none => []
  | some v => '=' :: v

/-- The text of pairs, one behind another. -/
def rowText (pairs : List (Text × Option Text)) : Text :=
  pairs.flatMap fun p => ' ' :: (p.1 ++ valueText p.2)

/-- Pairs that all have a value. -/
def valued (pairs : List (Text × Text)) : List (Text × Option Text) :=
  pairs.map fun p => (p.1, some p.2)

/-- Each value is kept apart from the key that is written behind it. -/
def KeptApart (e : Char) (pairs : List (Text × Option Text)) : Prop :=
  pairs.IsChain fun p q => ∀ v ∈ p.2, EndsBefore e v (' ' :: q.1)

instance (e : Char) (pairs : List (Text × Option Text)) : Decidable (KeptApart e pairs) :=
  inferInstanceAs (Decidable (List.IsChain _ _))

/-- A pair that is accepted on its own. -/
structure Accepted (e : Char) (p : Text × Option Text) : Prop where
  key : KeyValue.isKey p.1 = true
  value : ∀ v ∈ p.2, ∃ ps, Literal.Scans e .value none v ps []

theorem Literal.body_of_create {name : String} {v : Text} {e : Char} {style : Style} {l : Literal}
    (h : create name v e style = .ok l) :
    body style e v = .ok l.parts [] ∧ (v ≠ [] ∨ style.allowsEmpty = true) := by
  unfold create at h
  split at h
  · cases h
  · rename_i hempty
    split at h
    · rename_i l' hparse
      cases h
      obtain ⟨ts, hts, rfl⟩ := except_map_eq_ok.1 hparse
      exact ⟨Outcome.complete_eq_ok.1 hts, by simpa [imp_iff_not_or] using hempty⟩
    · cases h

theorem Literal.scans_of_create {name : String} {v : Text} {e : Char} {style : Style} {l : Literal}
    (htrim : style.trimsEnd = false) (h : create name v e style = .ok l) :
    ∃ ps, Scans e style none v ps [] ∧ l.text = v := by
  obtain ⟨hbody, -⟩ := body_of_create h
  obtain ⟨ps, hps, -⟩ := (body_of_trimsEnd htrim).1 hbody
  exact ⟨ps, hps, by simpa [Literal.text] using lossless_body _ _ _ _ _ hbody⟩

theorem accepted_of_build {e : Char} {dashes : List Token} {key : Text} {value : Option Text}
    {p : KeyValue} (h : KeyValue.build dashes key value e = .ok p) :
    Accepted e (key, value) ∧ p.text = Token.textAll dashes ++ (key ++ valueText value) := by
  unfold KeyValue.build at h
  split at h
  · rename_i hkey
    obtain ⟨ts, hts, hp⟩ := bind_eq_ok.1 h
    cases hp
    cases value with
    | none =>
      cases hts
      exact ⟨⟨hkey, by simp⟩,
        by simp [KeyValue.text, valueText, Token.textAll, Token.text, Token.identifier]⟩
    | some v =>
      obtain ⟨l, hl, hts⟩ := bind_eq_ok.1 hts
      cases hts
      obtain ⟨ps, hps, htext⟩ := Literal.scans_of_create rfl hl
      refine ⟨⟨hkey, by simpa using ⟨ps, hps⟩⟩, ?_⟩
      have htoken : l.token.text = v := htext
      simp [KeyValue.text, valueText, Token.textAll, Token.text, Token.identifier,
        Token.symbol, htoken]
  · cases h

theorem accepted_of_mapM {e : Char} {pairs : List (Text × Option Text)} {made : List KeyValue}
    (h : pairs.mapM (fun p => KeyValue.create p.1 p.2 e) = .ok made) :
    (∀ p ∈ pairs, Accepted e p) ∧ (made.flatMap fun p => ' ' :: p.text) = rowText pairs := by
  induction pairs generalizing made with
  | nil =>
    cases h
    exact ⟨by simp, rfl⟩
  | cons p pairs ih =>
    rw [List.mapM_cons] at h
    obtain ⟨q, hq, h⟩ := bind_eq_ok.1 h
    obtain ⟨qs, hqs, h⟩ := bind_eq_ok.1 h
    cases h
    obtain ⟨hp, htext⟩ := accepted_of_build hq
    obtain ⟨hall, hrow⟩ := ih hqs
    refine ⟨List.forall_mem_cons.2 ⟨hp, hall⟩, ?_⟩
    rw [List.flatMap_cons, htext, hrow]
    rfl

/-! ## Where a key begins -/

theorem isBlank_of_isSpace {c : Char} (h : isSpace c = false) :
    isBlank c = false ∧ isLineBreak c = false := by
  constructor
  · refine Bool.eq_false_iff.2 fun hc => ?_
    simp only [isBlank, Bool.or_eq_true, beq_iff_eq] at hc
    rcases hc with rfl | rfl <;> cases h
  · refine Bool.eq_false_iff.2 fun hc => ?_
    simp only [isLineBreak, Bool.or_eq_true, beq_iff_eq] at hc
    rcases hc with rfl | rfl <;> cases h

/-- A word: neither white space nor an equals sign is in it, and it is not empty. -/
structure IsWord (k : Text) : Prop where
  ne_nil : k ≠ []
  plain : ∀ c ∈ k, isBlank c = false ∧ isLineBreak c = false ∧ c ≠ '='

theorem Accepted.isWord {e : Char} {p : Text × Option Text} (h : Accepted e p) : IsWord p.1 := by
  have hkey := h.key
  simp only [KeyValue.isKey, Bool.and_eq_true, Bool.not_eq_true', List.isEmpty_eq_false_iff,
    List.any_eq_false, Bool.or_eq_true, beq_iff_eq, not_or, Bool.not_eq_true] at hkey
  exact ⟨hkey.1, fun c hc => ⟨(isBlank_of_isSpace (hkey.2 c hc).1).1,
    (isBlank_of_isSpace (hkey.2 c hc).1).2, (hkey.2 c hc).2⟩⟩

/-- What stands behind a word is no line end, and begins with no character of a name. -/
structure Closes (p : Char → Bool) (x : Text) : Prop where
  line : ¬ ∃ ts r, newline (x.dropWhile isBlank) = .ok ts r
  head : x.head?.any p = false

section

variable {e : Char} {p : Char → Bool} {k x : Text}

/-- No separator begins with a word. -/
theorem IsWord.gap_stuck (hk : IsWord k) (hx : Closes p x) : ∃ m, gap e (k ++ x) = .stuck m := by
  obtain ⟨c, k, rfl⟩ := List.exists_cons_of_ne_nil hk.ne_nil
  obtain ⟨hc, hk'⟩ := List.forall_mem_cons.1 hk.plain
  refine gap_stuck_iff.2 ⟨by simpa using hc.1, continuation_stuck_iff.2 ?_⟩
  rintro ⟨ts, r, h⟩
  rw [List.cons_append] at h
  obtain ⟨s', hs⟩ := eq_cons_of_continuation h
  obtain ⟨rfl, -⟩ := List.cons.inj hs
  obtain ⟨ns, m, hn⟩ := continuation_cons_eq_ok.1 ⟨ts, r, h⟩
  cases k with
  | nil => exact hx.line ⟨ns, m, hn⟩
  | cons d k =>
    have hd := hk' d (by simp)
    rw [List.cons_append, List.dropWhile_cons_of_neg (by simp [hd.1])] at hn
    have hend := atLineEnd_of_newline hn
    rw [Text.atLineEnd_eq_false hd.2.1] at hend
    cases hend

/-- No instruction ends before a word, with or without a separator. -/
theorem IsWord.not_finish (hk : IsWord k) (hx : Closes p x) {b r : Text} {ts : List Token}
    (hb : ∀ c ∈ b, isBlank c = true) : finish e (b ++ (k ++ x)) ≠ .ok ts r := by
  intro h
  obtain ⟨us, m, hgaps, hend⟩ := finish_eq_ok.1 h
  rw [gaps_of_blanks hb (hk.gap_stuck hx)] at hgaps
  cases hgaps
  obtain ⟨c, k, rfl⟩ := List.exists_cons_of_ne_nil hk.ne_nil
  rcases hend with ⟨hnil, -⟩ | ⟨ns, hn, -⟩
  · cases hnil
  · have hend := atLineEnd_of_newline hn
    rw [List.cons_append, Text.atLineEnd_eq_false (hk.plain c (by simp)).2.1] at hend
    cases hend

/-- The characters of a class at the start of a word are the word, or leave a word. -/
theorem IsWord.rest_of_run {k₁ m : Text} (hk : IsWord k) (hx : Closes p x) (h : k ++ x = k₁ ++ m)
    (hall : ∀ c ∈ k₁, p c = true) : k₁ = k ∧ m = x ∨ ∃ k', IsWord k' ∧ m = k' ++ x := by
  rcases List.append_eq_append_iff.1 h with ⟨y, rfl, hy⟩ | ⟨y, rfl, rfl⟩
  · cases y with
    | nil => exact .inl ⟨List.append_nil k, hy.symm⟩
    | cons c y =>
      have hc := hx.head
      rw [hy, List.cons_append, List.head?_cons, Option.any_some, hall c (by simp)] at hc
      cases hc
  · cases y with
    | nil => exact .inl ⟨(List.append_nil k₁).symm, rfl⟩
    | cons c y =>
      exact .inr
        ⟨c :: y, ⟨List.cons_ne_nil c y, fun d hd => hk.plain d (List.mem_append_right _ hd)⟩, rfl⟩

theorem closes_rowText (hp : p ' ' = false) {rest : List (Text × Option Text)}
    (hrest : ∀ q ∈ rest, Accepted e q) : Closes p (rowText rest) := by
  cases rest with
  | nil =>
    refine ⟨?_, rfl⟩
    rintro ⟨ts, r, h⟩
    cases h
  | cons q rest =>
    have hq := (hrest q (by simp)).isWord
    obtain ⟨c, k, hk⟩ := List.exists_cons_of_ne_nil hq.ne_nil
    obtain ⟨hc, hb, -⟩ := hq.plain c (by simp [hk])
    have htext : rowText (q :: rest) = ' ' :: c :: (k ++ valueText q.2 ++ rowText rest) := by
      simp [rowText, hk]
    rw [htext]
    exact ⟨not_newline_of_argument hc (Text.atLineEnd_eq_false hb), hp⟩

theorem closes_value (hp : p ' ' = false) (hequals : p '=' = false) (value : Option Text)
    {rest : List (Text × Option Text)} (hrest : ∀ q ∈ rest, Accepted e q) :
    Closes p (valueText value ++ rowText rest) := by
  cases value with
  | none => exact closes_rowText hp hrest
  | some v =>
    refine ⟨?_, hequals⟩
    rintro ⟨ts, r, h⟩
    cases h

end

/-! ## Reading a row of pairs -/

namespace Lexeme

variable {e : Char} {s r : Text} {ts : List Token}

theorem length_lt_of_separator (h : separator e s = .ok ts r) : r.length < s.length :=
  advances_separator e s ts r h

theorem not_separator (h : ∃ m, gap e s = .stuck m) (ts : List Token) (r : Text) :
    separator e s ≠ .ok ts r := by
  intro hsep
  obtain ⟨hgaps, hne⟩ := separator_eq_ok.1 hsep
  have hnone : many (gap e) s = .ok [] s := many_eq_ok.2 (.inr (.inr ⟨h, rfl, rfl⟩))
  cases hnone.symm.trans hgaps
  exact hne rfl

end Lexeme

namespace KeyValue

/-- Reads a key of the characters of a class with its value, which may be left out if `bare`
holds. -/
def reader (e : Char) (p : Char → Bool) (bare : Bool) : Grammar :=
  if bare then declaration e p else pair e p

theorem reader_eq_ok {e : Char} {p : Char → Bool} {bare : Bool} {s r : Text} {ts : List Token}
    (h : reader e p bare s = .ok ts r) :
    ∃ q : KeyValue, ts = [q.token] ∧ named e p s = .ok q.parts r := by
  cases bare with
  | true =>
    obtain ⟨us, hu, rfl⟩ := node_eq_ok.1 h
    exact ⟨⟨us⟩, rfl, hu⟩
  | false =>
    obtain ⟨us, hu, rfl⟩ := node_eq_ok.1 h
    obtain ⟨vs, ws, m, hv, hw, rfl⟩ := seq_eq_ok.1 hu
    exact ⟨⟨vs ++ ws⟩, rfl, seq_eq_ok.2 ⟨vs, ws, m, hv, optional_eq_ok.2 (.inl hw), rfl⟩⟩

/-- What is read is the text of the key and the value. -/
theorem text_of_named {e : Char} {p : Char → Bool} {q : KeyValue} {s r : Text}
    (h : named e p s = .ok q.parts r) : q.written.1 ++ valueText q.written.2 ++ r = s := by
  obtain ⟨parts⟩ := q
  obtain ⟨k, m, rfl, -, -, -, ⟨-, rfl, rfl⟩ | ⟨m', ls, rfl, hbody, rfl⟩⟩ := named_eq_ok.1 h
  · exact congrArg (· ++ r) (List.append_nil k)
  · have htext := Literal.lossless_body _ _ _ _ _ hbody
    change k ++ '=' :: Token.textAll ls ++ r = k ++ '=' :: m'
    rw [← htext, List.append_assoc, List.cons_append]

/-- A key is read whole, or it is cut at a character that begins no value. -/
theorem named_of_isWord {e : Char} {p : Char → Bool} {q : KeyValue} {k x r : Text} (hk : IsWord k)
    (hx : Closes p x) (h : named e p (k ++ x) = .ok q.parts r) :
    (∀ c ∈ k, p c = true) ∨ ∃ k', IsWord k' ∧ r = k' ++ x := by
  obtain ⟨k₁, m, heq, -, hall, hhead, hrest⟩ := named_eq_ok.1 h
  rcases hk.rest_of_run hx heq hall with ⟨rfl, -⟩ | ⟨k', hk', rfl⟩
  · exact .inl hall
  · rcases hrest with ⟨-, rfl, -⟩ | ⟨m', ls, hm, -⟩
    · exact .inr ⟨k', hk', rfl⟩
    · obtain ⟨c, k', rfl⟩ := List.exists_cons_of_ne_nil hk'.ne_nil
      obtain ⟨rfl, -⟩ := List.cons.inj hm
      exact absurd rfl (hk'.plain '=' (by simp)).2.2

/-- A key before something else than an equals sign has no value. -/
theorem named_bare {e : Char} {p : Char → Bool} {k x r : Text} {ts : List Token} (hne : k ≠ [])
    (hall : ∀ c ∈ k, p c = true) (hx : x.head?.any p = false) (hequals : x.head? ≠ some '=')
    (h : named e p (k ++ x) = .ok ts r) : r = x ∧ ts = [.identifier k] := by
  have hbare : named e p (k ++ x) = .ok [.identifier k] x :=
    named_eq_ok.2 ⟨k, x, rfl, hne, hall, hx, .inl ⟨hequals, rfl, rfl⟩⟩
  cases hbare.symm.trans h
  exact ⟨rfl, rfl⟩

/-- The value behind a key is read from its text. -/
theorem scans_of_named {e : Char} {p : Char → Bool} {q : KeyValue} {s r v : Text}
    (h : named e p s = .ok q.parts r) (hv : q.written.2 = some v) :
    ∃ ps, Literal.Scans e .value none (v ++ r) ps r := by
  obtain ⟨parts⟩ := q
  obtain ⟨k, m, rfl, -, -, -, ⟨-, rfl, rfl⟩ | ⟨m', ls, rfl, hbody, rfl⟩⟩ := named_eq_ok.1 h
  · cases hv
  · obtain ⟨ps, hps, -⟩ := (Literal.body_of_trimsEnd rfl).1 hbody
    have hls : Token.textAll ls = v := Option.some.inj hv
    have htext := Literal.lossless_body _ _ _ _ _ hbody
    rw [hls] at htext
    exact ⟨ps, htext ▸ hps⟩

end KeyValue

/-- Keys and values that are read one behind another, each behind a separator. -/
inductive Row (e : Char) (p : Char → Bool) : Text → List KeyValue → Text → Prop where
  | nil (s : Text) : Row e p s [] s
  | cons {s m m' r : Text} {ss : List Token} {q : KeyValue} {qs : List KeyValue}
      (hsep : separator e s = .ok ss m) (hpair : KeyValue.named e p m = .ok q.parts m')
      (hrest : Row e p m' qs r) : Row e p s (q :: qs) r

namespace Row

variable {e : Char} {p : Char → Bool} {s r : Text} {qs : List KeyValue}
  {pairs : List (Text × Option Text)}

theorem of_many {bare : Bool} {ts : List Token}
    (h : many (argument e (KeyValue.reader e p bare)) s = .ok ts r) :
    Row e p s (ts.filterMap Token.keyValue?) r := by
  refine many_induction (motive := fun s ts r => Row e p s (ts.filterMap Token.keyValue?) r)
    (fun s => .nil s) ?_ s ts r h
  intro s us m vs r hu hm
  obtain ⟨ss, ws, k, hsep, hw, rfl⟩ := seq_eq_ok.1 (Instruction.argument_eq_ok.1 hu)
  obtain ⟨q, rfl, hq⟩ := KeyValue.reader_eq_ok hw
  have hframe := (frame_of_separator hsep).filterMap_keyValue?
  simpa [List.filterMap_append, hframe, KeyValue.token, Token.keyValue?] using Row.cons hsep hq hm

/-- A row takes at least the text of its pairs. -/
theorem length_le (h : Row e p s qs r) :
    (rowText (qs.map KeyValue.written)).length + r.length ≤ s.length := by
  induction h with
  | nil s => simp [rowText]
  | @cons s m m' r ss q qs hsep hpair _ ih =>
    have hlt := length_lt_of_separator hsep
    have htext := congrArg List.length (KeyValue.text_of_named hpair)
    simp only [List.length_append, List.map_cons, rowText, List.flatMap_cons, List.length_cons] at *
    omega

/-- No pair is read where no separator begins. -/
theorem eq_of_isWord {k x : Text} (h : Row e p (k ++ x) qs r) (hk : IsWord k) (hx : Closes p x) :
    r = k ++ x := by
  cases h with
  | nil => rfl
  | cons hsep _ _ => exact absurd hsep (not_separator (hk.gap_stuck hx) _ _)

/-- A value is read up to the next pair exactly if it is kept apart from its key. -/
theorem scans_rowText_iff {rest : List (Text × Option Text)} {v : Text} {ps : List Literal.Piece}
    (he : IsEscape e) (hv : Literal.Scans e .value none v ps [])
    (hrest : ∀ q ∈ rest, Accepted e q) :
    (∃ us, Literal.Scans e .value none (v ++ rowText rest) us (rowText rest)) ↔
      ∀ q ∈ rest.head?, EndsBefore e v (' ' :: q.1) := by
  cases rest with
  | nil =>
    have hv' : Literal.Scans e .value none (v ++ rowText []) ps (rowText []) := by
      simpa [rowText] using hv
    exact ⟨fun _ q hq => absurd hq (by simp), fun _ => ⟨ps, hv'⟩⟩
  | cons q rest =>
    have hq := (hrest q (by simp)).isWord
    obtain ⟨c, k, hk⟩ := List.exists_cons_of_ne_nil hq.ne_nil
    obtain ⟨hblank, hbreak, -⟩ := hq.plain c (by simp [hk])
    have htext : rowText (q :: rest) = ' ' :: c :: (k ++ valueText q.2 ++ rowText rest) := by
      simp [rowText, hk]
    have hstyle : Style.value.Plain := ⟨rfl, rfl⟩
    rw [htext, Literal.scans_before_iff he hblank (Text.atLineEnd_eq_false hbreak) hstyle rfl,
      endsBefore_argument_iff hblank v _ k, ← hk, and_iff_right ⟨ps, hv⟩]
    simp

/-- Pairs that are kept apart are read as they were given. -/
theorem written_of_keptApart (h : Row e p (rowText pairs) qs r) (he : IsEscape e)
    (hspace : p ' ' = false) (hequals : p '=' = false) {fin : List Token}
    (hfin : finish e r = .ok fin []) (hpairs : ∀ q ∈ pairs, Accepted e q)
    (hkept : KeptApart e pairs) :
    qs.map KeyValue.written = pairs := by
  induction pairs generalizing qs with
  | nil =>
    cases h with
    | nil => rfl
    | cons hsep _ _ =>
      obtain ⟨c, k, hnil, -⟩ := exists_cons_of_separator hsep
      cases hnil
  | cons pair rest ih =>
    obtain ⟨hpair, hrest⟩ := List.forall_mem_cons.1 hpairs
    obtain ⟨hends, hkept⟩ := List.isChain_cons.1 hkept
    have hword := hpair.isWord
    have hx := closes_value hspace hequals pair.2 hrest
    have htext :
        rowText (pair :: rest) = ' ' :: (pair.1 ++ (valueText pair.2 ++ rowText rest)) := by
      simp [rowText]
    rw [htext] at h
    cases h with
    | nil =>
      exact absurd hfin (hword.not_finish (b := [' ']) hx (List.forall_mem_singleton.2 rfl))
    | @cons _ m m' _ ss q qs hsep hnamed hrow =>
      cases (separator_of_space (hword.gap_stuck hx)).symm.trans hsep
      have hall : ∀ c ∈ pair.1, p c = true := by
        refine (KeyValue.named_of_isWord hword hx hnamed).resolve_right ?_
        rintro ⟨k', hk', rfl⟩
        rw [hrow.eq_of_isWord hk' hx] at hfin
        exact hk'.not_finish (b := []) hx nofun hfin
      suffices hq : q.written = pair ∧ m' = rowText rest by
        obtain ⟨hq, rfl⟩ := hq
        rw [List.map_cons, hq, ih hrow hrest hkept]
      obtain ⟨key, value⟩ := pair
      obtain ⟨parts⟩ := q
      cases value with
      | none =>
        have hhead := (closes_rowText (p := (· == '=')) rfl hrest).head
        obtain ⟨rfl, rfl⟩ := KeyValue.named_bare hword.ne_nil hall hx.head
          (fun heq => by rw [valueText, List.nil_append] at heq; simp [heq] at hhead) hnamed
        exact ⟨rfl, rfl⟩
      | some v =>
        obtain ⟨ls, hbody, rfl⟩ :=
          (KeyValue.named_assigned_iff hequals hword.ne_nil hall).1 hnamed
        obtain ⟨ps, hv⟩ := hpair.value v rfl
        obtain ⟨us, hus⟩ := (scans_rowText_iff he hv hrest).2 fun q hq => hends q hq v rfl
        obtain ⟨ws, hws, -⟩ := (Literal.body_of_trimsEnd rfl).1 hbody
        obtain ⟨-, rfl⟩ := hws.unique hus
        have hls := List.append_cancel_right (Literal.lossless_body _ _ _ _ _ hbody)
        refine ⟨?_, rfl⟩
        change (key, some (Token.textAll ls)) = (key, some v)
        rw [hls]

/-- Pairs that are read as they were given are kept apart. -/
theorem keptApart_of_written (h : Row e p (rowText pairs) qs r) (he : IsEscape e)
    (hpairs : ∀ q ∈ pairs, Accepted e q) (hwritten : qs.map KeyValue.written = pairs) :
    KeptApart e pairs := by
  induction pairs generalizing qs with
  | nil => exact .nil
  | cons pair rest ih =>
    obtain ⟨hpair, hrest⟩ := List.forall_mem_cons.1 hpairs
    cases h with
    | nil => cases hwritten
    | @cons _ m m' _ ss q qs hsep hnamed hrow =>
      obtain ⟨hq, hqs⟩ := List.cons.inj hwritten
      -- the separator is one blank, because the rest of the row needs all else of the text
      have hm' : m' = rowText rest := by
        have hlt := length_lt_of_separator hsep
        have hle := hrow.length_le
        have htext := KeyValue.text_of_named hnamed
        have hseparator := (arrayReaders_lossless e).separator _ _ _ hsep
        rw [hq] at htext
        rw [hqs] at hle
        have hall :
            rowText (pair :: rest) = (' ' :: (pair.1 ++ valueText pair.2)) ++ rowText rest := by
          simp [rowText]
        rw [hall] at hlt
        rw [hall, ← htext, ← List.append_assoc] at hseparator
        refine List.append_inj_right' hseparator ?_
        have hlength := congrArg List.length htext
        simp only [List.length_append, List.length_cons] at hlt hlength
        omega
      subst hm'
      refine List.isChain_cons.2 ⟨fun q' hq' v hv => ?_, ih hrow hrest hqs⟩
      obtain ⟨ps, hps⟩ := hpair.value v hv
      obtain ⟨us, hus⟩ := KeyValue.scans_of_named hnamed (v := v) (by rw [hq]; exact hv)
      exact (scans_rowText_iff he hps hrest).1 ⟨us, hus⟩ q' hq'

end Row

/-! ## The instructions -/

namespace Instruction

variable {e : Char} {p : Char → Bool} {bare : Bool} {k : Keyword}
  {pairs : List (Text × Option Text)}
  {ts : List Token}

theorem head?_rowText (pairs : List (Text × Option Text)) :
    (rowText pairs).head?.any isNameChar = false := by
  cases pairs <;> rfl

/-- The pairs of an instruction of which the first must be there. -/
theorem row_of_body {first : Grammar} (bare : Bool)
    (hfirst : ∀ us m, first (rowText pairs) = .ok us m →
      (separator e ++ KeyValue.reader e p bare) (rowText pairs) = .ok us m)
    (h : (start k.name ++ first ++ many (argument e (KeyValue.reader e p bare)) ++ finish e)
      (k.name ++ rowText pairs) = .ok ts []) :
    ∃ r fin, Row e p (rowText pairs) (ts.filterMap Token.keyValue?) r ∧
      finish e r = .ok fin [] := by
  obtain ⟨_, fin, r, hcontent, hfin, rfl⟩ := seq_eq_ok.1 h
  obtain ⟨_, vs, m, hhead, hvs, rfl⟩ := seq_eq_ok.1 hcontent
  obtain ⟨st, us, m', hst, hus, rfl⟩ := seq_eq_ok.1 hhead
  cases (start_name k (head?_rowText pairs)).symm.trans hst
  obtain ⟨ss, ws, m', hsep, hws, rfl⟩ := seq_eq_ok.1 (hfirst us m hus)
  obtain ⟨q, rfl, hq⟩ := KeyValue.reader_eq_ok hws
  refine ⟨r, fin, ?_, hfin⟩
  have hframe := (frame_of_separator hsep).filterMap_keyValue?
  have hframe' := (frame_of_finish hfin).filterMap_keyValue?
  have hrow := Row.cons hsep hq (Row.of_many hvs)
  simp only [List.filterMap_append, hframe, hframe', List.append_nil]
  exact hrow

/-- A variable with an equals sign behind it is not the one variable of the older form. -/
theorem not_legacy {key v : Text} {rest : List (Text × Option Text)} (he : IsEscape e)
    (hpairs : ∀ q ∈ (key, some v) :: rest, Accepted e q) (r : Text) :
    (required e "variable name" (identifier isStageChar)
      ++ required e "variable value" (Literal.grammar .line e)) (rowText ((key, some v) :: rest)) ≠
        .ok ts r := by
  intro h
  obtain ⟨hpair, hrest⟩ := List.forall_mem_cons.1 hpairs
  have hx : Closes isStageChar ('=' :: v ++ rowText rest) := closes_value rfl rfl (some v) hrest
  obtain ⟨_, _, m, hname, hvalue, -⟩ := seq_eq_ok.1 h
  obtain ⟨_, _, m', hsep, hrun, -⟩ := seq_eq_ok.1 (required_eq_ok.1 hname)
  obtain ⟨_, _, m'', hsep', -, -⟩ := seq_eq_ok.1 (required_eq_ok.1 hvalue)
  have htext : rowText ((key, some v) :: rest) = ' ' :: (key ++ ('=' :: v ++ rowText rest)) := by
    simp [rowText, valueText]
  rw [htext] at hsep
  cases (separator_of_space (hpair.isWord.gap_stuck hx)).symm.trans hsep
  obtain ⟨k₁, heq, -, hall, -, -⟩ := run_shape.1 hrun
  have hstuck : ∃ l, gap e m = .stuck l := by
    rcases hpair.isWord.rest_of_run hx heq hall with ⟨-, rfl⟩ | ⟨k', hk', rfl⟩
    · refine gap_stuck rfl ?_ _
      rintro rfl
      rcases he with he | he <;> cases he
    · exact hk'.gap_stuck hx
  exact not_separator hstuck _ _ hsep'

theorem row_of_env (he : IsEscape e) (hpairs : ∀ q ∈ pairs, Accepted e q)
    (hvalues : ∀ q ∈ pairs, q.2.isSome) (hne : pairs ≠ [])
    (h : envBody e (Keyword.ENV.name ++ rowText pairs) = .ok ts []) :
    ∃ r fin, Row e isStageChar (rowText pairs) (ts.filterMap Token.keyValue?) r ∧
      finish e r = .ok fin [] := by
  obtain ⟨_, fin, r, hcontent, hfin, rfl⟩ := seq_eq_ok.1 h
  obtain ⟨st, us, m, hst, hus, rfl⟩ := seq_eq_ok.1 hcontent
  cases (start_name Keyword.ENV (head?_rowText pairs)).symm.trans hst
  rcases either_eq_ok.1 hus with hus | ⟨-, hlegacy⟩
  · obtain ⟨vs, ws, m', hvs, hws, rfl⟩ := seq_eq_ok.1 hus
    refine row_of_body (k := .ENV) false (fun us m h => argument_eq_ok.1 h)
      (seq_eq_ok.2 ⟨_, _, _, seq_eq_ok.2 ⟨_, _, _, seq_eq_ok.2 ⟨_, _, _, hst, hvs, rfl⟩, hws, rfl⟩,
        hfin, ?_⟩)
    simp
  · obtain ⟨⟨key, value⟩, rest, rfl⟩ := List.exists_cons_of_ne_nil hne
    obtain ⟨v, rfl⟩ := Option.isSome_iff_exists.1 (hvalues (key, value) (by simp))
    exact absurd hlegacy (not_legacy he hpairs r)

/-- What is read of pairs that are accepted and written one behind another. -/
theorem body_of_createPairs {name what : String} {i : Instruction}
    (h : createPairs k name what pairs e = .ok i) :
    pairs ≠ [] ∧ (∀ q ∈ pairs, Accepted e q) ∧
      formBody e k.form (k.name ++ rowText pairs) = .ok i.parts [] := by
  unfold createPairs at h
  split at h
  · cases h
  · rename_i hne
    obtain ⟨made, hmade, h⟩ := bind_eq_ok.1 h
    obtain ⟨hpairs, htext⟩ := accepted_of_mapM hmade
    unfold compose at h
    split at h
    · rename_i i' hparse
      cases h
      obtain ⟨ts, hts, rfl⟩ := Outcome.map_eq_ok.1 (Outcome.complete_eq_ok.1 hparse)
      rw [renderPairs, htext] at hts
      exact ⟨by simpa using hne, hpairs, hts⟩
    · cases h

theorem written_iff_keptApart {i : Instruction} (he : IsEscape e) (hspace : p ' ' = false)
    (hequals : p '=' = false) (hpairs : ∀ q ∈ pairs, Accepted e q)
    (h : ∃ r fin, Row e p (rowText pairs) i.keyValues r ∧ finish e r = .ok fin []) :
    i.keyValues.map KeyValue.written = pairs ↔ KeptApart e pairs := by
  obtain ⟨r, fin, hrow, hfin⟩ := h
  exact ⟨hrow.keptApart_of_written he hpairs,
    hrow.written_of_keptApart he hspace hequals hfin hpairs⟩

/-- The pairs of an instruction are those that it was made from exactly if their values are kept
apart from the keys behind them. -/
theorem written_of_create {e : Char} (he : IsEscape e) :
    (∀ declarations i, createArg declarations e = .ok i →
      (i.keyValues.map KeyValue.written = declarations ↔ KeptApart e declarations)) ∧
    (∀ assignments i, createEnv assignments e = .ok i →
      (i.keyValues.map KeyValue.written = valued assignments ↔ KeptApart e (valued assignments))) ∧
    (∀ labels i, createLabel labels e = .ok i →
      (i.keyValues.map KeyValue.written = valued labels ↔ KeptApart e (valued labels))) := by
  refine ⟨fun declarations i h => ?_, fun assignments i h => ?_, fun labels i h => ?_⟩
  · obtain ⟨-, hpairs, hbody⟩ := body_of_createPairs h
    exact written_iff_keptApart he rfl rfl hpairs
      (row_of_body true (fun _ _ => required_eq_ok.1) hbody)
  · obtain ⟨hne, hpairs, hbody⟩ := body_of_createPairs h
    refine written_iff_keptApart he rfl rfl hpairs (row_of_env he hpairs ?_ hne hbody)
    intro q hq
    obtain ⟨v, -, rfl⟩ := List.mem_map.1 hq
    rfl
  · obtain ⟨-, hpairs, hbody⟩ := body_of_createPairs h
    exact written_iff_keptApart he rfl rfl hpairs
      (row_of_body false (fun _ _ => required_eq_ok.1) hbody)

/-- Escape characters that are escaped, quoted blanks and comments that are ended do no harm. -/
theorem written_of_create_escaped :
    (∃ i, createArg [(['A'], some "x\\\\".toList), (['B'], none)] '\\' = .ok i ∧
      i.keyValues.map KeyValue.written = [(['A'], some "x\\\\".toList), (['B'], none)]) ∧
    (∃ i, createLabel [(['a'], "$\x7bb:-\\\n#\x7d\n\x7d\" c\"".toList), ("#d".toList, [])] '\\' =
      .ok i ∧
      i.keyValues.map KeyValue.written =
        valued [(['a'], "$\x7bb:-\\\n#\x7d\n\x7d\" c\"".toList), ("#d".toList, [])]) := by
  obtain ⟨i, hi, j, hj, -⟩ :
      ∃ i ∈ (createArg [(['A'], some "x\\\\".toList), (['B'], none)] '\\').toOption,
        ∃ j ∈ (createLabel [(['a'], "$\x7bb:-\\\n#\x7d\n\x7d\" c\"".toList), ("#d".toList, [])]
          '\\').toOption, True := by
    decide +kernel
  rw [mem_toOption] at hi hj
  obtain ⟨harg, -, hlabel⟩ := written_of_create (.inl rfl)
  exact ⟨⟨i, hi, (harg _ i hi).2 (by decide)⟩, ⟨j, hj, (hlabel _ j hj).2 (by decide)⟩⟩

/-- A value that ends with an escape character takes the next pair with it, and a key that begins a
comment is lost behind a continued line. -/
theorem written_of_create_merged :
    (∃ i, createArg [(['A'], some "x\\".toList), (['B'], some ['y'])] '\\' = .ok i ∧
      i.keyValues.map KeyValue.written = [(['A'], some "x\\ B=y".toList)]) ∧
    (∃ i, createEnv [(['A'], "x`".toList), (['B'], ['y'])] '`' = .ok i ∧
      i.keyValues.map KeyValue.written = [(['A'], some "x` B=y".toList)]) ∧
    (∃ i, createLabel [(['a'], "x\\\n".toList), ("#b".toList, ['y'])] '\\' = .ok i ∧
      i.keyValues.map KeyValue.written = [(['a'], some "x\\\n #b=y".toList)]) := by
  simp only [← mem_toOption]
  decide +kernel

end Instruction

end Containerfile
