import Containerfile.Proofs.Cutting
import Containerfile.Proofs.Rereading

/-!
# The reader of any instruction and the readers of the forms

A text can be read as an instruction, or as an instruction of a given form.  The first way looks
up the word that the text begins with; the second goes straight to the form, tries one keyword
after another, or looks the word up once more.  Both come to the same reader of one keyword.

What makes this so is that a reader of a keyword can be stuck at the keyword only.  Behind it every
reader is committed: what is missing there is an error, and no other keyword is tried.

## Main definitions

* `Committed` — a reader that is never stuck.
* `Instruction.Guarded` — a reader that is stuck where its keyword is not, and nowhere else.
* `Instruction.Obtained` — the instruction was read, in one of the ways there are.

## Main results

* `Lexeme.start_iff` — a keyword is read exactly where it is the first word.
* `Instruction.committed_read` — the reader of any instruction is committed.
* `Instruction.readAs_eq_read` — the reader of a form, where the first word is one of its keywords.
* `Instruction.keyword_of_read` — the keyword of an instruction is the first word of its text.
* `Instruction.parseAs_agrees` — both ways of reading a text give the same answer.
-/

namespace Containerfile

open Grammar Lexeme

/-! ## Committed readers -/

/-- The reader succeeds or fails, and leaves no other reader to be tried. -/
def Committed {α : Type} (f : Text → Outcome α) : Prop :=
  ∀ s r, f s ≠ .stuck r

namespace Committed

variable {g h : Grammar}

theorem seq (hg : Committed g) (hh : Committed h) : Committed (g ++ h) := by
  intro s r e
  obtain ⟨m, hm⟩ | ⟨ts, m, -, k, hk⟩ := seq_stuck_iff.1 ⟨r, e⟩
  · exact hg s m hm
  · exact hh m k hk

theorem optional (g : Grammar) : Committed (Grammar.optional g) :=
  fun _ r => optional_ne_stuck r

theorem commit (what : String) (g : Grammar) : Committed (Grammar.commit what g) := by
  intro s r
  unfold Grammar.commit
  cases g s <;> nofun

/-- Two readings one of which is tried first are committed if the other one is. -/
theorem either (g : Grammar) (hh : Committed h) : Committed (Grammar.either g h) := by
  intro s r
  unfold Grammar.either
  cases g s with
  | ok | failed => nofun
  | stuck => exact hh s r

theorem many (g : Grammar) : Committed (Grammar.many g) := by
  intro s
  fun_induction Grammar.many g s with
  | case2 s ts m hs hlt r' hm ih => exact absurd hm (ih r')
  | case1 | case3 | case4 | case5 | case6 =>
    intro r e
    cases e

theorem required (escape : Char) (what : String) (g : Grammar) :
    Committed (required escape what g) :=
  (Committed.commit _ _).seq (.commit _ _)

theorem finish (escape : Char) : Committed (finish escape) :=
  (Committed.optional _).seq (.commit _ _)

end Committed

/-! ## Keywords -/

namespace Keyword

theorem ofWord?_name (k : Keyword) : ofWord? k.name = some k := by
  cases k <;> decide

/-- No word is two keywords. -/
theorem ofWord?_eq_some {word : Text} {k : Keyword} :
    ofWord? word = some k ↔ k.matchesWord word = true := by
  refine ⟨fun h => @List.find?_some _ (matchesWord · word) k all h, fun h => ?_⟩
  have hlower : k.name.map Char.toLower = word.map Char.toLower := eq_of_beq h
  rw [← ofWord?_name k]
  unfold ofWord? matchesWord Text.sameLetters
  rw [hlower]

end Keyword

namespace Lexeme

variable {k : Keyword} {s r : Text} {ts : List Token}

theorem matchesWord_of_start (h : start k.name s = .ok ts r) :
    k.matchesWord (Instruction.firstWord s) = true := by
  have hword := firstWord_of_start h
  obtain ⟨b, word, -, -, hw, -, rfl⟩ := start_shape.1 h
  have hfirst : Children.firstLeaf? .keyword
      ((if b = [] then [] else [.blank b]) ++ [.leaf .keyword word]) = some word := by
    split <;> rfl
  obtain rfl := Option.some.inj (hfirst.symm.trans hword)
  unfold Keyword.matchesWord
  rwa [Text.sameLetters, Bool.beq_comm]

/-- **A keyword is read exactly where it is the first word.** -/
theorem start_iff :
    (∃ ts r, start k.name s = .ok ts r) ↔ k.matchesWord (Instruction.firstWord s) = true := by
  refine ⟨fun ⟨ts, r, h⟩ => matchesWord_of_start h, fun h => ?_⟩
  obtain ⟨b, hb, hblank⟩ := Text.eq_append_dropWhile isBlank s
  have hs :
      s = b ++ (Instruction.firstWord s ++ (Instruction.fromFirstWord s).dropWhile isNameChar) := by
    unfold Instruction.firstWord
    rw [List.takeWhile_append_dropWhile]
    exact hb
  have hrest : ((Instruction.fromFirstWord s).dropWhile isNameChar).head?.any isNameChar =
      false := by
    cases hr : (Instruction.fromFirstWord s).dropWhile isNameChar with
    | nil => rfl
    | cons c m => exact Text.eq_false_of_dropWhile hr
  refine ⟨_, _, start_shape.2 ⟨b, _, hs, hblank, ?_, hrest, rfl⟩⟩
  rwa [Text.sameLetters, Bool.beq_comm]

/-- The keyword as it is spelled by itself. -/
theorem start_name (k : Keyword) (hr : r.head?.any isNameChar = false) :
    start k.name (k.name ++ r) = .ok [.leaf .keyword k.name] r :=
  start_shape.2 ⟨[], k.name, rfl, nofun, beq_self_eq_true _, hr, rfl⟩

theorem unfailing_keyword (name : Text) : Unfailing (keyword name) := by
  intro s f hf
  obtain ⟨ts, r, e⟩ | e := keyword_eq_ok_or_stuck name s <;> rw [e] at hf <;> cases hf

theorem unfailing_start (k : Keyword) : Unfailing (start k.name) :=
  (Unfailing.run _ _).optional.seq (unfailing_keyword k.name)

/-- Where another word comes first, the keyword is not read. -/
theorem start_stuck_iff :
    (∃ m, start k.name s = .stuck m) ↔ k.matchesWord (Instruction.firstWord s) = false := by
  rw [← Bool.not_eq_true, ← start_iff]
  cases h : start k.name s with
  | ok ts r => simp
  | stuck m => simp
  | failed f => exact absurd h (unfailing_start k s f)

end Lexeme

/-! ## The reader of a keyword -/

namespace Instruction

variable {escape : Char} {f : Text → Outcome Instruction} {s : Text} {k : Keyword}

theorem committed_argumentsBody (escape : Char) (arguments : Arguments) :
    Committed (argumentsBody escape arguments) := by
  have hwords : Committed (words escape) := (Committed.required _ _ _).seq (.many _)
  cases arguments with
  | words execForm =>
    cases execForm with
    | true => exact .either _ hwords
    | false => exact hwords
  | line => exact .required _ _ _
  | array => exact .required _ _ _

/-- The reader is stuck where the keyword is not the first word, and there only. -/
def Guarded (k : Keyword) (g : Grammar) : Prop :=
  ∀ s, (∃ m, g s = .stuck m) ↔ k.matchesWord (firstWord s) = false

theorem guarded_start (k : Keyword) : Guarded k (start k.name) :=
  fun _ => start_stuck_iff

theorem Guarded.seq {g h : Grammar} (hg : Guarded k g) (hh : Committed h) : Guarded k (g ++ h) := by
  intro s
  rw [seq_stuck_iff, ← hg s]
  refine ⟨?_, .inl⟩
  rintro (hstuck | ⟨ts, r, -, m, hm⟩)
  · exact hstuck
  · exact absurd hm (hh r m)

theorem guarded_commandBody (escape : Char) (k : Keyword) : Guarded k (commandBody escape k) :=
  (((guarded_start k).seq (.many _)).seq (.either _ (.required _ _ _))).seq (.finish escape)

/-- All that an instruction holds behind its keyword is read by committed readers. -/
theorem guarded_body (escape : Char) (f : Text → Outcome Instruction) (hk : k ≠ .ONBUILD) :
    Guarded k (body escape f k) := by
  have hstart := guarded_start k
  have hfinish := Committed.finish escape
  cases k with
  | FROM => exact (((hstart.seq (.optional _)).seq (.required _ _ _)).seq (.optional _)).seq hfinish
  | ARG | LABEL => exact ((hstart.seq (.required _ _ _)).seq (.many _)).seq hfinish
  | ENV =>
    have hlegacy := (Committed.required escape "variable name" (identifier isStageChar)).seq
      (.required escape "variable value" (Literal.grammar .line escape))
    exact (hstart.seq (.either _ hlegacy)).seq hfinish
  | RUN | CMD | ENTRYPOINT => exact guarded_commandBody escape _
  | ONBUILD => exact absurd rfl hk
  | ADD | COPY | VOLUME | EXPOSE | STOPSIGNAL | USER | WORKDIR | HEALTHCHECK | MAINTAINER | SHELL =>
    exact ((hstart.seq (.many _)).seq (committed_argumentsBody escape _)).seq hfinish

theorem guarded_deferral (escape : Char) : Guarded .ONBUILD (deferral escape) :=
  (guarded_start .ONBUILD).seq (.commit _ _)

/-- A deferral is stuck where its keyword is not the first word, or where the deferred instruction
is. -/
theorem onBuildBody_stuck_iff :
    (∃ m, onBuildBody escape f s = .stuck m) ↔
      Keyword.ONBUILD.matchesWord (firstWord s) = false ∨
        ∃ ts r, deferral escape s = .ok ts r ∧ ∃ m, f r = .stuck m := by
  have htrigger (r : Text) : (∃ m, trigger f r = .stuck m) ↔ ∃ m, f r = .stuck m := by
    unfold trigger
    cases f r with
    | ok i m => by_cases hi : i.isForbiddenTrigger = true <;> simp [hi]
    | stuck m => simp
    | failed e => simp
  rw [onBuildBody_eq, seq_stuck_iff, guarded_deferral escape s]
  simp only [htrigger]

/-! ## Any instruction -/

theorem readWith_of_matchesWord (hk : k.matchesWord (firstWord s) = true) :
    readWith escape f s = (body escape f k s).map fun ts => ⟨k.form, escape, ts⟩ := by
  have hword := Keyword.ofWord?_eq_some.2 hk
  unfold readWith
  cases hw : firstWord s with
  | nil =>
    rw [hw] at hword
    cases hword
  | cons c cs =>
    rw [hw] at hword
    simp only [hword]

/-- A text whose first word is no keyword is refused at that word. -/
theorem readWith_of_none (hnone : Keyword.ofWord? (firstWord s) = none) :
    readWith escape f s = .failed ⟨if firstWord s = [] then .expected "instruction"
      else .malformed .unknownInstruction, fromFirstWord s⟩ := by
  unfold readWith
  cases hw : firstWord s with
  | nil => rfl
  | cons c cs =>
    rw [hw] at hnone
    simp [hnone]

theorem read_of_matchesWord (hk : k.matchesWord (firstWord s) = true) :
    read escape s = (body escape (read escape) k s).map fun ts => ⟨k.form, escape, ts⟩ := by
  rw [read_eq, readWith_of_matchesWord hk]

/-- **The reader of any instruction is committed**, so a text that is none always comes with a
reason. -/
theorem committed_read (escape : Char) : Committed (read escape) := by
  intro s
  induction hn : s.length using Nat.strongRecOn generalizing s with
  | ind n ih =>
    intro r hr
    cases hword : Keyword.ofWord? (firstWord s) with
    | none =>
      rw [read_eq, readWith_of_none hword] at hr
      cases hr
    | some k =>
      have hk := Keyword.ofWord?_eq_some.1 hword
      have hbody : ∃ m, body escape (read escape) k s = .stuck m := by
        rw [read_of_matchesWord hk] at hr
        cases hs : body escape (read escape) k s with
        | stuck m => exact ⟨m, rfl⟩
        | ok | failed => rw [hs] at hr; cases hr
      by_cases hdeferral : k = .ONBUILD
      · subst hdeferral
        obtain hnone | ⟨ts, m, hm, m', hm'⟩ := onBuildBody_stuck_iff.1 hbody
        · rw [hk] at hnone
          cases hnone
        · exact ih m.length (hn ▸ advances_deferral escape _ _ _ hm) m rfl m' hm'
      · rw [(guarded_body escape _ hdeferral s).1 hbody] at hk
        cases hk

/-! ## The keyword -/

/-- The first keyword among the tokens that are read is the first word of the text. -/
def Headed (g : Grammar) : Prop :=
  ∀ s ts r, g s = .ok ts r → Children.firstLeaf? .keyword ts = some (firstWord s)

theorem Headed.seq {g h : Grammar} (hg : Headed g) : Headed (g ++ h) := by
  intro s ts r e
  obtain ⟨us, vs, m, hu, -, rfl⟩ := seq_eq_ok.1 e
  unfold Children.firstLeaf?
  rw [List.findSome?_append]
  have hus := hg s us m hu
  unfold Children.firstLeaf? at hus
  rw [hus]
  rfl

theorem headed_body (escape : Char) (f : Text → Outcome Instruction) (k : Keyword) :
    Headed (body escape f k) := by
  have hstart : Headed (start k.name) := fun s ts r h => firstWord_of_start h
  cases k with
  | FROM => exact hstart.seq.seq.seq.seq
  | ARG | LABEL | RUN | CMD | ENTRYPOINT => exact hstart.seq.seq.seq
  | ENV | ONBUILD => exact hstart.seq.seq
  | ADD | COPY | VOLUME | EXPOSE | STOPSIGNAL | USER | WORKDIR | HEALTHCHECK | MAINTAINER | SHELL =>
    exact hstart.seq.seq.seq

theorem keyword_of_read {r : Text} {i : Instruction} (h : read escape s = .ok i r) :
    i.keyword = firstWord s := by
  obtain ⟨k, ts, -, hbody, rfl⟩ := read_eq_ok.1 h
  unfold keyword
  rw [headed_body escape _ k s ts r hbody]
  rfl

/-! ## One form -/

theorem attempt_of_ne_stuck {g : Grammar} (hg : ∀ m, g s ≠ .stuck m) : attempt g s = g s := by
  unfold attempt
  cases hs : g s with
  | ok | failed => rfl
  | stuck m => exact absurd hs (hg m)

theorem either_of_ne_stuck {g : Grammar} (hg : ∀ m, g s ≠ .stuck m) (h : Grammar) :
    either g h s = g s := by
  unfold either
  cases hs : g s with
  | ok | failed => rfl
  | stuck m => exact absurd hs (hg m)

theorem either_of_stuck {g : Grammar} (hg : ∃ m, g s = .stuck m) (h : Grammar) :
    either g h s = h s := by
  obtain ⟨m, hm⟩ := hg
  unfold either
  rw [hm]

/-- A command is read by the reader of the keyword that it begins with, wherever that stands in the
order in which the keywords are tried. -/
theorem anyCommandBody_eq (hform : k.form = .command) (hk : k.matchesWord (firstWord s) = true) :
    anyCommandBody escape s = commandBody escape k s := by
  have hother (k' : Keyword) (hne : k' ≠ k) : ∃ m, commandBody escape k' s = .stuck m := by
    refine (guarded_commandBody escape k' s).2 (Bool.eq_false_iff.2 fun hk' => hne ?_)
    exact Option.some.inj
      ((Keyword.ofWord?_eq_some.2 hk').symm.trans (Keyword.ofWord?_eq_some.2 hk))
  have hown (m : Text) : commandBody escape k s ≠ .stuck m := by
    intro hm
    rw [(guarded_commandBody escape k s).1 ⟨m, hm⟩] at hk
    cases hk
  have hfirst : either (commandBody escape .RUN) (either (commandBody escape .CMD)
      (commandBody escape .ENTRYPOINT)) s = commandBody escape k s := by
    cases k with
    | RUN => exact either_of_ne_stuck hown _
    | CMD => rw [either_of_stuck (hother .RUN nofun), either_of_ne_stuck hown]
    | ENTRYPOINT => rw [either_of_stuck (hother .RUN nofun), either_of_stuck (hother .CMD nofun)]
    | _ => cases hform
  unfold anyCommandBody
  rw [attempt_of_ne_stuck, hfirst]
  rwa [hfirst]

/-- **The reader of a form**, where the first word is one of its keywords, is the reader of that
keyword. -/
theorem formBody_eq_body (hk : k.matchesWord (firstWord s) = true) :
    formBody escape k.form s = body escape (read escape) k s := by
  have hword := Keyword.ofWord?_eq_some.2 hk
  cases k with
  | FROM | ARG | ENV | LABEL | ONBUILD => rfl
  | RUN | CMD | ENTRYPOINT => exact anyCommandBody_eq rfl hk
  | ADD | COPY | VOLUME | EXPOSE | STOPSIGNAL | USER | WORKDIR | HEALTHCHECK | MAINTAINER | SHELL =>
    change anyGenericBody escape s = _
    unfold anyGenericBody
    rw [hword]
    rfl

/-- Where the first word is no keyword of the form, its reader is stuck. -/
theorem formBody_stuck {form : Form}
    (hnone : ∀ k : Keyword, k.matchesWord (firstWord s) = true → k.form ≠ form) :
    ∃ m, formBody escape form s = .stuck m := by
  have hstuck (k : Keyword) (hk : k.form = form) : k.matchesWord (firstWord s) = false :=
    Bool.eq_false_iff.2 fun hmatches => hnone k hmatches hk
  cases form with
  | stage => exact (guarded_body (k := .FROM) escape (read escape) nofun s).2 (hstuck .FROM rfl)
  | arg => exact (guarded_body (k := .ARG) escape (read escape) nofun s).2 (hstuck .ARG rfl)
  | env => exact (guarded_body (k := .ENV) escape (read escape) nofun s).2 (hstuck .ENV rfl)
  | label => exact (guarded_body (k := .LABEL) escape (read escape) nofun s).2 (hstuck .LABEL rfl)
  | onBuild => exact onBuildBody_stuck_iff.2 (.inl (hstuck .ONBUILD rfl))
  | command =>
    have hcommand (k : Keyword) (hk : k.form = .command) :=
      (guarded_commandBody escape k s).2 (hstuck k hk)
    refine attempt_stuck_iff.2 ?_
    rw [either_of_stuck (hcommand .RUN rfl), either_of_stuck (hcommand .CMD rfl)]
    exact hcommand .ENTRYPOINT rfl
  | generic =>
    change ∃ m, anyGenericBody escape s = .stuck m
    unfold anyGenericBody
    split
    · rename_i k arguments h
      obtain ⟨k', hk', h⟩ := Option.bind_eq_some_iff.1 h
      obtain ⟨a, ha, -⟩ := Option.map_eq_some_iff.1 h
      refine absurd ?_ (hnone k' (Keyword.ofWord?_eq_some.1 hk'))
      cases k' <;> first | rfl | cases ha
    · exact ⟨s, rfl⟩

/-- Where the first word is a keyword, reading an instruction is reading one of the keyword's
form. -/
theorem readAs_eq_read (hk : k.matchesWord (firstWord s) = true) :
    readAs k.form escape s = read escape s := by
  rw [readAs, formBody_eq_body hk, read_of_matchesWord hk]

theorem readAs_eq_ok {form : Form} {r : Text} {i : Instruction} :
    readAs form escape s = .ok i r ↔ read escape s = .ok i r ∧ i.form = form := by
  constructor
  · intro h
    obtain ⟨ts, hts, rfl⟩ := Outcome.map_eq_ok.1 h
    refine ⟨?_, rfl⟩
    by_cases hform : ∃ k : Keyword, k.matchesWord (firstWord s) = true ∧ k.form = form
    · obtain ⟨k, hk, rfl⟩ := hform
      rwa [← readAs_eq_read hk]
    · obtain ⟨m, hm⟩ := @formBody_stuck escape s form fun k hk hkform =>
        hform ⟨k, hk, hkform⟩
      rw [hm] at hts
      cases hts
  · rintro ⟨h, rfl⟩
    obtain ⟨k, ts, hk, -, rfl⟩ := read_eq_ok.1 h
    rwa [readAs_eq_read (Keyword.ofWord?_eq_some.1 hk)]

/-- **Both ways of reading a text agree.**  A text is an instruction of a form exactly if it is an
instruction and has that form, so it is one of at most one form.  Where its first word is a
keyword of the form and the text is no instruction, both ways give the same error at the same
place. -/
theorem parseAs_agrees (s : Text) (escape : Char) :
    (∀ form i, parseAs form s escape = .ok i ↔ parse s escape = .ok i ∧ i.form = form) ∧
      (∀ form form' i i', parseAs form s escape = .ok i → parseAs form' s escape = .ok i' →
        form = form') ∧
      ∀ k : Keyword, k.matchesWord (firstWord s) = true → ∀ error,
        parse s escape = .error error ↔ parseAs k.form s escape = .error error := by
  have hok (form : Form) (i : Instruction) :
      parseAs form s escape = .ok i ↔ parse s escape = .ok i ∧ i.form = form := by
    unfold parseAs parse
    rw [Outcome.complete_eq_ok, Outcome.complete_eq_ok, readAs_eq_ok]
  refine ⟨hok, fun form form' i i' h h' => ?_, fun k hk error => ?_⟩
  · obtain ⟨hi, rfl⟩ := (hok form i).1 h
    obtain ⟨hi', rfl⟩ := (hok form' i').1 h'
    rw [Except.ok.inj (hi.symm.trans hi')]
  · unfold parseAs parse
    rw [readAs_eq_read hk]

/-- An instruction whose reader comes to the end of the text is read in both ways. -/
theorem parse_of_body {m : Text} {us ts : List Token} (hstart : start k.name s = .ok us m)
    (hbody : body escape (read escape) k s = .ok ts []) :
    parse s escape = .ok ⟨k.form, escape, ts⟩ ∧
    parseAs k.form s escape = .ok ⟨k.form, escape, ts⟩ := by
  have hk := matchesWord_of_start hstart
  have hread : read escape s = .ok ⟨k.form, escape, ts⟩ [] := by
    rw [read_of_matchesWord hk, hbody]
    rfl
  unfold parse parseAs
  rw [readAs_eq_read hk, hread]
  exact ⟨rfl, rfl⟩

/-! ## Where instructions come from -/

/-- The instruction was read: alone, as one of a form, as an item of a file, or as what another one
defers. -/
inductive Obtained : Instruction → Prop where
  | parse {s : Text} {escape : Char} {i : Instruction} (h : Instruction.parse s escape = .ok i) :
      Obtained i
  | parseAs {form : Form} {s : Text} {escape : Char} {i : Instruction}
      (h : Instruction.parseAs form s escape = .ok i) : Obtained i
  | item {s : Text} {d : Document} {i : Instruction} (h : Document.parse s = .ok d)
      (hi : i ∈ d.instructions) : Obtained i
  | trigger {i t : Instruction} (h : Obtained i) (hi : i.form = .onBuild)
      (ht : i.trigger? = some t) : Obtained t

/-- However an instruction was read, the reader of any instruction gives it. -/
theorem Obtained.exists_read {i : Instruction} (h : Obtained i) :
    ∃ escape s r, read escape s = .ok i r := by
  induction h with
  | @parse s escape i h => exact ⟨escape, s, [], Outcome.complete_eq_ok.1 h⟩
  | @parseAs form s escape i h =>
    exact ⟨escape, s, [], (readAs_eq_ok.1 (Outcome.complete_eq_ok.1 h)).1⟩
  | @item s d i h hi =>
    obtain ⟨ds, seen, r, items, rfl, hlayout⟩ := Document.parse_iff.1 h
    obtain ⟨item, hitem, heq⟩ := List.mem_filterMap.1 hi
    obtain ⟨before, after, hsplit⟩ := List.append_of_mem hitem
    cases item <;> cases heq
    obtain ⟨first, -, rfl⟩ := Document.Layout.exists_of_eq hsplit
    exact ⟨_, _, _, hlayout.items.instruction_eq⟩
  | @trigger i t _ hi ht ih =>
    obtain ⟨escape, s, r, hread⟩ := ih
    obtain ⟨k, ts, -, hbody, rfl⟩ := read_eq_ok.1 hread
    have hk : k = .ONBUILD := by cases k <;> first | rfl | cases hi
    subst hk
    obtain ⟨ds, m, u, hd, hu, -, rfl⟩ := onBuildBody_eq_ok.1 hbody
    obtain rfl := Option.some.inj ((trigger?_of_deferral hd u).symm.trans ht)
    exact ⟨escape, m, r, hu⟩

end Instruction

end Containerfile
