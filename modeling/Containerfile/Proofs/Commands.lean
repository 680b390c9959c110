import Containerfile.Instruction.Command
import Containerfile.Proofs.Dispatch
import Containerfile.Proofs.WrittenArrays

/-!
# Commands on one line

A command that is written on one line is always accepted.  It is an array exactly if an array is
written there, with nothing but blanks behind it; anything else, also what merely begins like an
array, is a line for a shell.  Nothing in that line is a reference, and all of it is kept but the
blanks at its end, as far as these are not escaped.

## Main definitions

* `Text.escapesNext` — whether the character behind a text is escaped.
* `Text.Trimmed` — a text without the blanks at its end that are not escaped.

## Main results

* `Literal.body_of_line` — the line of a shell is read to its end.
* `Instruction.command_of_line` — commands on one line.
-/

namespace Containerfile

open Grammar Lexeme

/-! ## Blanks at the end of a line -/

namespace Text

/-- Whether the character behind a text is escaped: the text ends with an escape character that is
not itself escaped. -/
def escapesNext (escape : Char) (s : Text) : Bool :=
  s.foldl (fun escaped c => !escaped && c == escape) false

/-- The text is `kept` and the blanks at the end that are not escaped. -/
structure Trimmed (escape : Char) (s kept blanks : Text) : Prop where
  eq_append : s = kept ++ blanks
  isBlank : ∀ c ∈ blanks, isBlank c = true
  unescaped : blanks ≠ [] → escapesNext escape kept = false
  /-- A blank at the end of what is kept is escaped. -/
  escaped : ∀ p c, kept = p ++ [c] → Containerfile.isBlank c = true → escapesNext escape p = true

variable {escape : Char} {s t kept blanks : Text}

theorem escapesNext_append (ht : escapesNext escape t = false) (p : Text) :
    escapesNext escape (t ++ p) = escapesNext escape p := by
  unfold escapesNext at *
  rw [List.foldl_append, ht]

/-- Nothing is trimmed from a unit of the text that escapes nothing behind it, unless it is a blank
before blanks. -/
theorem Trimmed.append (h : Trimmed escape s kept blanks) (ht : escapesNext escape t = false)
    (hkept : kept = [] → Trimmed escape t t []) : Trimmed escape (t ++ s) (t ++ kept) blanks where
  eq_append := by rw [h.eq_append, List.append_assoc]
  isBlank := h.isBlank
  unescaped hne := by rw [escapesNext_append ht, h.unescaped hne]
  escaped p c hp hc := by
    rcases List.eq_nil_or_concat kept with hnil | ⟨p', c', hlast⟩
    · rw [hnil, List.append_nil] at hp
      exact (hkept hnil).escaped p c hp hc
    · rw [hlast, List.concat_eq_append, ← List.append_assoc] at hp
      obtain ⟨rfl, hcc⟩ := List.append_inj' hp rfl
      cases hcc
      rw [escapesNext_append ht]
      exact h.escaped p' c (by rw [hlast, List.concat_eq_append]) hc

theorem Trimmed.nil : Trimmed escape [] [] [] :=
  ⟨rfl, nofun, nofun, by simp⟩

theorem Trimmed.blank {c : Char} (h : Trimmed escape s [] blanks)
    (hc : Containerfile.isBlank c = true) : Trimmed escape (c :: s) [] (c :: blanks) where
  eq_append := by rw [h.eq_append]; rfl
  isBlank := List.forall_mem_cons.2 ⟨hc, h.isBlank⟩
  unescaped _ := rfl
  escaped := by simp

/-- A character that is no blank is not trimmed. -/
theorem Trimmed.single {c : Char} (hc : Containerfile.isBlank c = false) :
    Trimmed escape [c] [c] [] where
  eq_append := rfl
  isBlank := nofun
  unescaped := nofun
  escaped p d hp hd := by
    obtain ⟨-, hcd⟩ := List.append_inj' (show [] ++ [c] = p ++ [d] from hp) rfl
    cases hcd
    rw [hc] at hd
    cases hd

/-- A character that is escaped is not trimmed. -/
theorem Trimmed.pair (c : Char) : Trimmed escape [escape, c] [escape, c] [] where
  eq_append := rfl
  isBlank := nofun
  unescaped := nofun
  escaped p d hp _ := by
    obtain ⟨rfl, -⟩ := List.append_inj' (show [escape] ++ [c] = p ++ [d] from hp) rfl
    simp [escapesNext]

end Text

/-! ## Lines for a shell -/

namespace Literal

/-- The style of a line in which a dollar sign is nothing special. -/
def lineStyle : Style :=
  Style.line.withReferences false

/-- A piece that is text as it stands. -/
def Piece.IsText : Piece → Prop
  | .text s => s ≠ []
  | .blank _ => True
  | .token _ => False

section

variable {escape c : Char} {s : Text} {ps : List Piece}

theorem valueOfPieces_of_isText (h : ∀ p ∈ ps, p.IsText) : valueOfPieces ps = sourceOf ps := by
  induction ps with
  | nil => rfl
  | cons p ps ih =>
    obtain ⟨hp, hps⟩ := List.forall_mem_cons.1 h
    have hvalue : p.value = p.source := by
      cases p with
      | text | blank => rfl
      | token => cases hp
    change p.value ++ valueOfPieces ps = p.source ++ sourceOf ps
    rw [hvalue, ih hps]

theorem step_line_escape (hs : '\n' ∉ s) :
    step lineStyle escape none (escape :: s) =
      .take [.text (escape :: s.take 1)] none (s.drop 1) := by
  obtain ⟨m, hm⟩ := @continuation_stuck escape _ hs
  cases s with
  | nil => simp [step, stepEscape, stepEscaped, hm]
  | cons d s => simp [step, stepEscape, stepEscaped, hm, Text.atLineEnd_cons_of_notMem hs]

theorem step_line_char (hs : Text.atLineEnd (c :: s) = false) (hc : c ≠ escape) :
    step lineStyle escape none (c :: s) = .take [charPiece c] none s := by
  by_cases hblank : isBlank c = true <;>
    simp [step, stepUnquoted, stepChar, lineStyle, Style.line, Style.withReferences,
      charPiece, hblank, hc, hs]

theorem sourceOf_eq_nil (h : ∀ p ∈ ps, p.IsText) : sourceOf ps = [] ↔ ps = [] := by
  cases ps with
  | nil => simp [sourceOf]
  | cons p ps =>
    obtain ⟨hp, -⟩ := List.forall_mem_cons.1 h
    cases p with
    | text t => simpa [sourceOf, Piece.source] using fun ht => absurd ht hp
    | blank c => simp [sourceOf, Piece.source]
    | token => cases hp

theorem isText_charPiece (c : Char) : (charPiece c).IsText := by
  unfold charPiece
  split
  · trivial
  · exact List.cons_ne_nil c []

/-- The scan of a line takes all of it, character by character. -/
theorem scans_line (he : IsEscape escape) (hs : '\n' ∉ s) :
    ∃ ps, Scans escape lineStyle none s ps [] ∧ (∀ p ∈ ps, p.IsText) ∧
      Text.Trimmed escape s (sourceOf (trimEnd ps).1) (trimEnd ps).2 := by
  -- an escaped character is taken with the escape, so the induction is on the length
  induction hn : s.length using Nat.strongRecOn generalizing s with
  | ind n ih =>
    cases s with
    | nil => exact ⟨[], .stop rfl, nofun, .nil⟩
    | cons c s =>
      have hs' : '\n' ∉ s := fun hmem => hs (List.mem_cons_of_mem _ hmem)
      by_cases hc : c = escape
      · subst hc
        cases s with
        | nil =>
          have hblank : isBlank c = false := by rcases he with rfl | rfl <;> rfl
          refine ⟨_, .take (step_line_escape hs') (.stop rfl), ?_, .single hblank⟩
          exact List.forall_mem_singleton.2 (List.cons_ne_nil _ _)
        | cons d s =>
          have hshorter : s.length < n := by simp only [List.length_cons] at hn; omega
          obtain ⟨ps, hps, htext, htrim⟩ :=
            ih s.length hshorter (fun hmem => hs' (List.mem_cons_of_mem _ hmem)) rfl
          refine ⟨_, .take (step_line_escape hs') hps, ?_, ?_⟩
          · exact List.forall_mem_cons.2 ⟨List.cons_ne_nil _ _, htext⟩
          · exact htrim.append (t := [c, d]) (by simp [Text.escapesNext]) fun _ => .pair d
      · have hshorter : s.length < n := by simp only [List.length_cons] at hn; omega
        obtain ⟨ps, hps, htext, htrim⟩ := ih s.length hshorter hs' rfl
        refine ⟨_, .take (step_line_char (Text.atLineEnd_cons_of_notMem hs) hc) hps, ?_, ?_⟩
        · exact List.forall_mem_cons.2 ⟨isText_charPiece c, htext⟩
        have hnext : Text.escapesNext escape [c] = false := by simpa [Text.escapesNext] using hc
        unfold charPiece
        split
        · rename_i hblank
          rw [List.singleton_append, trimEnd_blank_cons]
          split
          · rename_i hkept
            rw [hkept] at htrim
            exact htrim.blank hblank
          · rename_i hkept
            refine htrim.append (t := [c]) hnext fun hnil => absurd ?_ hkept
            exact (sourceOf_eq_nil fun p hp => htext p (trimEnd_subset ps hp)).1 hnil
        · rename_i hblank
          exact htrim.append (t := [c]) hnext fun _ => .single (by simpa using hblank)

/-- **A line is read to its end**, except for the blanks that are not escaped there.  There is
nothing but text in it. -/
theorem body_of_line (he : IsEscape escape) (hs : '\n' ∉ s)
    (hhead : s.head?.any (!isBlank ·) = true) :
    ∃ ts blanks, body lineStyle escape s = .ok ts blanks ∧ (∀ t ∈ ts, ∃ u, t = .fragment u) ∧
      Text.Trimmed escape s (valueOf ts) blanks := by
  obtain ⟨ps, hps, htext, htrim⟩ := scans_line he hs
  have hkept : ∀ p ∈ (trimEnd ps).1, p.IsText := fun p hp => htext p (trimEnd_subset ps hp)
  have hne : sourceOf (trimEnd ps).1 ≠ [] := by
    intro hnil
    have hblanks := htrim.eq_append
    rw [hnil, List.nil_append] at hblanks
    cases s with
    | nil => cases hhead
    | cons c s =>
      have hblank := htrim.isBlank c (hblanks ▸ List.mem_cons_self)
      simp [hblank] at hhead
  have hassemble : assemble (trimEnd ps).1 ≠ [] := by
    intro hnil
    rw [← textAll_assemble, hnil] at hne
    exact hne rfl
  refine ⟨assemble (trimEnd ps).1, (trimEnd ps).2, ?_, ?_, ?_⟩
  · exact body_eq_ok.2 ⟨ps, [], hps, rfl, (List.append_nil _).symm, .inl hassemble⟩
  · refine forall_mem_assemble (fun u => ⟨u, rfl⟩) fun p hp => ?_
    cases p with
    | text | blank => trivial
    | token => exact (hkept _ hp).elim
  · rwa [valueOf_assemble, valueOfPieces_of_isText hkept]

end

end Literal

/-! ## Commands -/

namespace Instruction

variable {escape : Char} {k : Keyword}

/-- Where the text behind the blanks is no flag, the keyword opens the instruction. -/
theorem opening_of_blanks {b r : Text} (hne : b ≠ []) (hb : ∀ c ∈ b, isBlank c = true)
    (hr : ∃ m, gap escape r = .stuck m) (hflag : ¬ "--".toList <+: r) :
    opening escape k (k.name ++ (b ++ r)) = .ok [.leaf .keyword k.name] (b ++ r) := by
  have hhead : (b ++ r).head?.any isNameChar = false := by
    cases b with
    | nil => exact absurd rfl hne
    | cons c b =>
      have hc := hb c List.mem_cons_self
      simp only [isBlank, Bool.or_eq_true, beq_iff_eq] at hc
      rcases hc with rfl | rfl <;> rfl
  refine seq_eq_ok.2 ⟨_, [], _, start_name k hhead, ?_, List.append_nil _⟩
  refine many_eq_ok.2 (.inr (.inr ⟨?_, rfl, rfl⟩))
  refine (argument_stuck_iff (separator_of_blanks hne hb hr)).2 (node_stuck_iff.2 ?_)
  refine seq_stuck_iff.2 (.inl (seq_stuck_iff.2 (.inl (exactly_stuck_iff.2 ?_))))
  rintro ⟨m, rfl⟩
  exact hflag (List.prefix_append _ _)

theorem gaps_of_blanks_end {b : Text} (hb : ∀ c ∈ b, isBlank c = true) :
    many (gap escape) b = .ok (runTokens .blank b) [] := by
  have hgaps := gaps_of_blanks (e := escape) (r := []) hb ⟨[], rfl⟩
  rwa [List.append_nil] at hgaps

theorem finish_of_blanks {b : Text} (hb : ∀ c ∈ b, isBlank c = true) :
    finish escape b = .ok (runTokens .blank b) [] :=
  finish_eq_ok.2 ⟨_, _, gaps_of_blanks_end hb, .inl ⟨rfl, rfl, rfl⟩⟩

/-- Where no line ends, an instruction is at its end before blanks only. -/
theorem atFinish_iff {s : Text} (hs : '\n' ∉ s) :
    atFinish escape s = true ↔ ∀ c ∈ s, isBlank c = true := by
  unfold atFinish
  rw [optional_separator_eq]
  constructor
  · intro hend
    obtain ⟨b, hsplit, hb, hgaps⟩ := gaps_of_line (e := escape) hs
    rw [hgaps] at hend
    cases hrest : s.dropWhile isBlank with
    | nil => rwa [hsplit, hrest, List.append_nil]
    | cons c r =>
      rw [hrest] at hend hsplit
      have hmem : '\n' ∉ c :: r := fun hmem => hs (hsplit ▸ List.mem_append_right b hmem)
      exact absurd hend (Bool.eq_false_iff.1 (Text.atLineEnd_cons_of_notMem hmem))
  · intro hblank
    rw [gaps_of_blanks_end hblank]
    rfl

/-- The text is an array, with nothing but blanks behind it. -/
def IsArray (escape : Char) (c : Text) : Prop :=
  ∃ a qs b, c = a ++ b ∧ ExecForm.Written escape a qs ∧ ∀ d ∈ b, isBlank d = true

section

variable {c : Text} (he : IsEscape escape) (hline : '\n' ∉ c)
  (hsep : separator escape (' ' :: c) = .ok [.blank [' ']] c)
include he hline hsep

/-- Where an array is written, it is read. -/
theorem wholeArray_of_isArray (harray : IsArray escape c) :
    ∃ ts b, wholeArray escape false (' ' :: c) = .ok [.blank [' '], .node .execForm ts] b ∧
      ∀ d ∈ b, isBlank d = true := by
  obtain ⟨a, qs, b, rfl, ha, hb⟩ := harray
  have ha' : '\n' ∉ a := fun h => hline (List.mem_append_left b h)
  have hb' : '\n' ∉ b := fun h => hline (List.mem_append_right a h)
  obtain ⟨ts, hts, -⟩ := ExecForm.body_of_written he ha ha' b
  have hfinish : atFinish escape b = true := (atFinish_iff hb').2 hb
  refine ⟨ts, b, wholeArray_eq_ok.2 ⟨?_, hfinish⟩, hb⟩
  exact seq_eq_ok.2 ⟨_, _, _, hsep, node_eq_ok.2 ⟨ts, hts, rfl⟩, rfl⟩

/-- Where none is written, the reader of arrays goes back to the start, whatever it has seen. -/
theorem wholeArray_stuck (harray : ¬ IsArray escape c) :
    ∃ m, wholeArray escape false (' ' :: c) = .stuck m := by
  cases hread : wholeArray escape false (' ' :: c) with
  | stuck m => exact ⟨m, rfl⟩
  | failed f => exact absurd hread (unfailing_wholeArray escape false _ _)
  | ok ts r =>
    obtain ⟨hseq, hfinish⟩ := wholeArray_eq_ok.1 hread
    obtain ⟨us, vs, m, hu, hv, -⟩ := seq_eq_ok.1 hseq
    cases hsep.symm.trans hu
    obtain ⟨ws, hbody, -⟩ := node_eq_ok.1 hv
    obtain ⟨a, qs, rfl, ha⟩ := ExecForm.written_of_body he hbody hline
    have hr : '\n' ∉ r := fun h => hline (List.mem_append_right a h)
    exact absurd ⟨a, qs, r, rfl, ha, (atFinish_iff hr).1 hfinish⟩ harray

/-- The arguments of a command on one line: an array, or else a line for a shell. -/
theorem commandArguments_of_line (hfirst : c.head?.any (!isBlank ·) = true) :
    ∃ t b, commandArguments escape (' ' :: c) = .ok [.blank [' '], t] b ∧
      (∀ d ∈ b, isBlank d = true) ∧
      ((∃ ts, t = .node .execForm ts) ∧ IsArray escape c ∨
        ∃ ts, t = .node (.literal false) ts ∧ ¬ IsArray escape c ∧
          (∀ u ∈ ts, ∃ v, u = .fragment v) ∧ Text.Trimmed escape c (Literal.valueOf ts) b) := by
  by_cases harray : IsArray escape c
  · obtain ⟨ts, b, hread, hb⟩ := wholeArray_of_isArray he hline hsep harray
    exact ⟨_, b, either_eq_ok.2 (.inl hread), hb, .inl ⟨⟨ts, rfl⟩, harray⟩⟩
  · obtain ⟨ts, b, hbody, htext, htrim⟩ := Literal.body_of_line he hline hfirst
    refine ⟨_, b, either_eq_ok.2 (.inr ⟨wholeArray_stuck he hline hsep harray, ?_⟩), htrim.isBlank,
      .inr ⟨ts, rfl, harray, htext, htrim⟩⟩
    exact required_eq_ok.2 (seq_eq_ok.2 ⟨_, _, _, hsep, node_eq_ok.2 ⟨ts, hbody, rfl⟩, rfl⟩)

end

/-- The parts of a command: the keyword, a space, the argument, and perhaps blanks. -/
def commandParts (k : Keyword) (t : Token) (b : Text) : List Token :=
  [.leaf .keyword k.name, .blank [' '], t] ++ runTokens .blank b

theorem parseAs_command (hk : k.form = .command) {c b : Text} {t : Token}
    (hopen : opening escape k (k.name ++ ' ' :: c) = .ok [.leaf .keyword k.name] (' ' :: c))
    (harguments : commandArguments escape (' ' :: c) = .ok [.blank [' '], t] b)
    (hb : ∀ d ∈ b, isBlank d = true) :
    parseAs .command (k.name ++ ' ' :: c) escape =
      .ok ⟨.command, escape, commandParts k t b⟩ := by
  have hbody : commandBody escape k (k.name ++ ' ' :: c) = .ok (commandParts k t b) [] := by
    rw [commandBody_eq]
    have hcontent := seq_eq_ok.2 ⟨_, _, _, hopen, harguments, rfl⟩
    exact seq_eq_ok.2 ⟨_, _, _, hcontent, finish_of_blanks hb, rfl⟩
  have hown : body escape (read escape) k = commandBody escape k := by
    cases k with
    | RUN | CMD | ENTRYPOINT => rfl
    | _ => cases hk
  rw [← hk]
  exact (parse_of_body (start_name k rfl) (hown ▸ hbody)).2

/-- A view of the parts of a command sees its argument only. -/
theorem findSome?_command {α : Type} {f : Token → Option α}
    (hleaf : ∀ kind s, f (.leaf kind s) = none) (t : Token) (b : Text) :
    (commandParts k t b).findSome? f = f t := by
  have hend : (runTokens .blank b).findSome? f = none := by
    unfold runTokens
    split
    · rfl
    · simp only [List.findSome?_cons, hleaf, List.findSome?_nil]
  rw [commandParts, List.findSome?_append, hend, Option.or_none]
  simp only [List.findSome?_cons, Token.blank, hleaf, List.findSome?_nil]
  cases f t <;> rfl

theorem execForm?_command (t : Token) (b : Text) :
    execForm? ⟨.command, escape, commandParts k t b⟩ = t.execForm? :=
  findSome?_command (fun _ _ => rfl) t b

theorem literal?_command (t : Token) (b : Text) :
    literal? ⟨.command, escape, commandParts k t b⟩ = t.literal? :=
  @findSome?_command k _ Token.literal? (fun _ _ => rfl) t b

/-- **A command on one line is accepted, and is either an array or a line for a shell.**  It is an
array exactly if one is written there; a line for a shell is kept as it stands, but for the blanks
at its end that are not escaped. -/
theorem command_of_line (hk : k.form = .command) (he : IsEscape escape) {c : Text}
    (hline : '\n' ∉ c) (hfirst : c.head?.any (!isBlank ·) = true) (hflag : ¬ "--".toList <+: c) :
    ∃ i, parseAs .command (k.name ++ ' ' :: c) escape = .ok i ∧
      i.execForm?.isSome = !i.shellCommand?.isSome ∧
      (i.execForm?.isSome = true ↔ IsArray escape c) ∧
      ∀ line, i.shellCommand? = some line →
        line.referenceList = [] ∧ ∃ blanks, Text.Trimmed escape c i.command blanks := by
  have hgap : ∃ m, gap escape c = .stuck m := by
    refine gap_stuck_of_line hline ?_
    cases c with
    | nil => rfl
    | cons d c => simpa using hfirst
  have hblank : ∀ d ∈ [' '], isBlank d = true := List.forall_mem_singleton.2 rfl
  have hopen := @opening_of_blanks escape k [' '] c (List.cons_ne_nil _ _) hblank hgap hflag
  obtain ⟨t, b, harguments, hb, hcases⟩ :=
    commandArguments_of_line he hline (separator_of_space hgap) hfirst
  refine ⟨_, parseAs_command hk hopen harguments hb, ?_⟩
  simp only [command, shellCommand?, literal?_command, execForm?_command]
  rcases hcases with ⟨⟨ts, rfl⟩, harray⟩ | ⟨ts, rfl, harray, htext, htrim⟩
  · exact ⟨rfl, iff_of_true rfl harray, nofun⟩
  · refine ⟨rfl, iff_of_false nofun harray, ?_⟩
    rintro _ ⟨⟩
    refine ⟨List.filterMap_eq_nil_iff.2 fun u hu => ?_, b, htrim⟩
    obtain ⟨v, rfl⟩ := htext u hu
    rfl

/-- Between quotes neither a bracket nor an escaped quote ends anything. -/
theorem command_of_line_quoted :
    ∃ i, parseAs .command "CMD [\"a]\" ,\"\\\"\"] ".toList '`' = .ok i ∧
      i.execForm?.isSome = true := by
  have hpair : ExecForm.Content '`' "\\\"".toList := .pair (.inr rfl) .nil
  have hplain : ExecForm.Content '`' "a]".toList :=
    .plain (by decide) (by decide) (by decide) (.plain (by decide) (by decide) (by decide) .nil)
  have hlast := @ExecForm.Elements.last '`' [] _ [] nofun hpair nofun
  have hblank : ∀ d ∈ [' '], isBlank d = true := List.forall_mem_singleton.2 rfl
  have hfirst := @ExecForm.Elements.cons '`' [] _ [' '] _ _ nofun hplain hblank hlast
  have harray : IsArray '`' "[\"a]\" ,\"\\\"\"] ".toList :=
    ⟨_, _, [' '], rfl, .elements hfirst, hblank⟩
  obtain ⟨i, hi, -, hiff, -⟩ :=
    @command_of_line '`' .CMD rfl (.inr rfl) "[\"a]\" ,\"\\\"\"] ".toList (by decide) (by decide)
      (by decide)
  exact ⟨i, hi, hiff.2 harray⟩

end Instruction

end Containerfile
