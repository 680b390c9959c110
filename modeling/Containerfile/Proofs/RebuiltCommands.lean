import Containerfile.Proofs.ArrayReferences
import Containerfile.Proofs.StageEdits

/-!
# Commands that are made again from their strings

The strings of an array are what its elements say, decoded.  Decoding knows an escaped line feed
and an escaped tabulator, which writing a string does not know: there a tabulator stands for
itself, and a line feed would end the line.  So the command of an instruction can be replaced by
an array of the strings of the old one unless one of the old elements has an escaped line feed.  A
line feed can come into a string in no other way, since an element that goes on in the next line
leaves the line end out.

## Main results

* `ExecForm.newline_mem_decode` — where decoding makes a line feed.
* `Instruction.newline_notMem_elements` — the elements of a command have none.
* `Instruction.execForm?_replaceCommand` — the array that replaces a command is its array.
* `Instruction.setExecForm_values` — when a command can be made again.
-/

namespace Containerfile

open Grammar Lexeme

/-! ## Line feeds in strings -/

namespace ExecForm

open Literal

theorem unescape_eq_newline {d : Char} (hd : d ≠ '\n') : unescape d = '\n' ↔ d = 'n' := by
  unfold unescape
  split
  · simp
  · simp
  · rename_i hn _
    exact iff_of_false hd hn

/-- Decoding makes a line feed of an escaped letter. -/
theorem newline_mem_decode {s : Text} (hs : '\n' ∉ s) :
    '\n' ∈ decode s ↔ ∃ a b, s = a ++ '\\' :: 'n' :: b ∧ a.escapesNext '\\' = false := by
  fun_induction decode s with
  | case1 => simp
  | case2 c =>
    refine ⟨fun hc => absurd hc hs, ?_⟩
    rintro ⟨a, b, h, -⟩
    have := congrArg List.length h
    simp only [List.length_append, List.length_cons, List.length_nil] at this
    omega
  | case3 d s ih =>
    simp only [List.mem_cons, not_or] at hs
    rw [List.mem_cons, eq_comm, unescape_eq_newline (Ne.symm hs.2.1), ih hs.2.2]
    constructor
    · rintro (rfl | ⟨a, b, rfl, ha⟩)
      · exact ⟨[], s, rfl, rfl⟩
      · exact ⟨'\\' :: d :: a, b, rfl, (Text.escapesNext_pair d a).trans ha⟩
    · rintro ⟨a, b, h, ha⟩
      match a with
      | [] =>
        obtain ⟨rfl, -⟩ := List.cons.inj (List.cons.inj h).2
        exact .inl rfl
      | [_] =>
        obtain ⟨rfl, -⟩ := List.cons_eq_cons.1 h
        cases ha
      | _ :: _ :: a =>
        simp only [List.cons_append, List.cons.injEq] at h
        obtain ⟨rfl, rfl, rfl⟩ := h
        exact .inr ⟨a, b, rfl, (Text.escapesNext_pair d a).symm.trans ha⟩
  | case4 c d s hc ih =>
    simp only [List.mem_cons, not_or] at hs
    rw [List.mem_cons, or_iff_right hs.1, ih (by simp [hs.2.1, hs.2.2])]
    constructor
    · rintro ⟨a, b, h, ha⟩
      exact ⟨c :: a, b, by rw [h]; rfl, (Text.escapesNext_cons hc a).trans ha⟩
    · rintro ⟨a, b, h, ha⟩
      cases a with
      | nil => exact absurd (List.cons.inj h).1 hc
      | cons x a =>
        simp only [List.cons_append, List.cons.injEq] at h
        obtain ⟨rfl, h⟩ := h
        exact ⟨a, b, h, (Text.escapesNext_cons hc a).symm.trans ha⟩

/-- What an element without references says is on one line. -/
theorem Run.newline_notMem {e : Char} {s v r : Text} (he : IsEscape e) (h : Run e false s v r) :
    '\n' ∉ v := by
  induction h with
  | close => exact List.not_mem_nil
  | pair hc hd _ ih =>
    have hne : ∀ {c : Char}, c = e ∨ c = '\\' → '\n' ≠ c := by
      rintro c (rfl | rfl)
      · exact he.ne_newline.symm
      · decide
    simpa using ⟨hne hc, hd.symm, ih⟩
  | plain _ _ _ hline _ ih => simpa using ⟨hline.symm, ih⟩
  | reference hreferences => cases hreferences
  | continuation _ _ ih => exact ih

/-- A token that is no literal with a line feed in what it says. -/
def OneLine (t : Token) : Prop :=
  ∀ l, t.literal? = some l → '\n' ∉ l.value

theorem separatorReaders_oneLine (e : Char) : SeparatorReaders (Yields OneLine) e := by
  refine separatorReaders_yields (fun _ _ => nofun) (fun _ _ hkind _ => ?_) e
  rcases hkind with rfl | rfl <;> exact nofun

theorem oneLine_element {e : Char} (he : IsEscape e) : Yields OneLine (element e false) := by
  have hreaders := separatorReaders_oneLine e
  intro s ts r h
  obtain ⟨s', ps, m, us, -, hscan, hsep, rfl⟩ := (element_eq_ok he).1 h
  refine List.forall_mem_cons.2 ⟨?_, hreaders.optional hreaders.separator _ _ _ hsep⟩
  rintro l ⟨⟩
  change '\n' ∉ valueOf (assemble ps)
  rw [valueOf_assemble]
  exact (Run.of_scans he rfl hscan).newline_notMem he

theorem oneLine_body {e : Char} (he : IsEscape e) : Yields OneLine (body e false) :=
  (separatorReaders_oneLine e).arrayBody (.exactly nofun) (.exactly nofun) (.exactly nofun)
    (oneLine_element he)

/-! ## Arrays that are made of strings -/

theorem newline_notMem_of_create {vs : List Text} {array : ExecForm}
    (h : create vs '\\' false = .ok array) : ∀ v ∈ vs, '\n' ∉ v := by
  have hwalks : ArrayReaders (Walks '\\' false) '\\' := arrayReaders_walks (.inl rfl) (.inr rfl)
  have hwalk := hwalks.array false _ _ _ (node_eq_ok.2 ⟨_, create_eq_ok.1 h, rfl⟩)
  exact notMem_of_walk_join (Walk.tail_of_ne (by decide) hwalk).2

theorem create_of_newline_notMem {vs : List Text} (h : ∀ v ∈ vs, '\n' ∉ v) :
    ∃ array, create vs '\\' false = .ok array ∧ array.values = vs := by
  have hline : '\n' ∉ render vs := by simp [render_eq, newline_notMem_join h]
  obtain ⟨ts, hts, hsaid⟩ := body_of_written (.inl rfl) (written_render vs) hline []
  rw [List.append_nil] at hts
  exact ⟨⟨ts⟩, create_eq_ok.2 hts, hsaid.values⟩

end ExecForm

/-! ## Commands -/

namespace Instruction

variable {e : Char} {s r : Text} {i : Instruction} {array : ExecForm}

theorem isExecForm_iff {t : Token} : t.isExecForm = true ↔ ∃ array, t.execForm? = some array := by
  unfold Token.isExecForm Token.execForm?
  split <;> simp

/-- The array that replaces the command is the array of the instruction. -/
theorem execForm?_replaceCommand (harray : i.execForm? = some array) (other : ExecForm) :
    (i.replaceCommand other.token).execForm? = some other := by
  obtain habsent | ⟨us, x, vs, hparts, hus, hx⟩ :=
    Children.absent_or_first (fun t => t.isLiteral || t.isExecForm) i.parts
  · obtain ⟨t, ht, hform⟩ := List.exists_of_findSome?_eq_some harray
    have hkind := isExecForm_iff.2 ⟨array, hform⟩
    have hnone := habsent t ht
    simp [hkind] at hnone
  · have hbefore : us.findSome? Token.execForm? = none := by
      refine List.findSome?_eq_none_iff.2 fun u hu => ?_
      cases hform : u.execForm? with
      | none => rfl
      | some found =>
        have hkind := isExecForm_iff.2 ⟨found, hform⟩
        simpa [hkind] using hus u hu
    unfold execForm? replaceCommand setPart withParts
    rw [hparts, Children.set_first _ _ hus hx, List.findSome?_append, hbefore]
    rfl

/-- The elements of a command that is read say nothing with a line feed. -/
theorem newline_notMem_elements (he : IsEscape e) (h : read e s = .ok i r) (hi : i.form = .command)
    (harray : i.execForm? = some array) : ∀ l ∈ array.elements, '\n' ∉ l.value := by
  let Q : Token → Prop := fun t =>
    ∀ array, t.execForm? = some array → ∀ l ∈ array.elements, '\n' ∉ l.value
  have hreaders : SeparatorReaders (Yields Q) e := by
    refine separatorReaders_yields (fun _ _ => nofun) (fun _ _ hkind _ => ?_) e
    rcases hkind with rfl | rfl <;> exact nofun
  have hwhole : Yields Q (ExecForm.grammar e false) := by
    refine .node (ExecForm.oneLine_body he) ?_
    rintro ts hts _ ⟨⟩ l hl
    obtain ⟨t, ht, hliteral⟩ := List.mem_filterMap.1 hl
    exact hts t ht l hliteral
  have hcommand (k : Keyword) : Yields Q (commandBody e k) := by
    refine hreaders.seq (hreaders.seq (hreaders.seq (hreaders.start k) ?_) ?_)
      (hreaders.finish (.when _) (yields_newline fun _ _ => nofun))
    · exact hreaders.many (hreaders.argument (.node (.trivial _) fun _ _ => nofun))
    · exact hreaders.either (hreaders.seq (hreaders.argument hwhole) (.when _))
        (hreaders.required _ (.node (.trivial _) fun _ _ => nofun))
  obtain ⟨k, ts, -, hbody, rfl⟩ := read_eq_ok.1 h
  obtain ⟨t, ht, hform⟩ := List.exists_of_findSome?_eq_some harray
  cases k with
  | RUN | CMD | ENTRYPOINT => exact hcommand _ _ _ _ hbody t ht array hform
  | _ => cases hi

theorem setExecForm_eq_ok {vs : List Text} {i' : Instruction} :
    i.setExecForm vs = .ok i' ↔
      ∃ other, ExecForm.create vs i.escape false = .ok other ∧
        i' = i.replaceCommand other.token := by
  unfold setExecForm
  rw [bind_eq_ok]
  simp [pure, Except.pure, eq_comm]

/-- **Commands made again.**  An array of its own strings can be the command of an instruction
exactly if no element has an escaped line feed, and then the strings are the same. -/
theorem setExecForm_values (h : read '\\' s = .ok i r) (hi : i.form = .command)
    (harray : i.execForm? = some array) :
    ((∃ i', i.setExecForm array.values = .ok i') ↔ ∀ l ∈ array.elements, ∀ a b,
        l.value = a ++ '\\' :: 'n' :: b → a.escapesNext '\\' = true) ∧
      ∀ i', i.setExecForm array.values = .ok i' →
        i'.execForm?.map ExecForm.values = some array.values := by
  have hescape : i.escape = '\\' := by
    obtain ⟨k, ts, -, -, rfl⟩ := read_eq_ok.1 h
    rfl
  have hfeed := newline_notMem_elements (.inl rfl) h hi harray
  have hcondition : (∀ l ∈ array.elements, ∀ a b, l.value = a ++ '\\' :: 'n' :: b →
      a.escapesNext '\\' = true) ↔ ∀ v ∈ array.values, '\n' ∉ v := by
    simp only [ExecForm.values, List.forall_mem_map]
    refine forall₂_congr fun l hl => ?_
    rw [ExecForm.newline_mem_decode (hfeed l hl)]
    simp
  simp only [setExecForm_eq_ok, hescape, hcondition]
  refine ⟨⟨?_, fun hvalues => ?_⟩, ?_⟩
  · rintro ⟨-, other, hother, -⟩
    exact ExecForm.newline_notMem_of_create hother
  · obtain ⟨other, hother, -⟩ := ExecForm.create_of_newline_notMem hvalues
    exact ⟨_, other, hother, rfl⟩
  · rintro _ ⟨other, hother, rfl⟩
    obtain ⟨other', hother', hvalues⟩ :=
      ExecForm.create_of_newline_notMem (ExecForm.newline_notMem_of_create hother)
    obtain rfl := Except.ok.inj (hother'.symm.trans hother)
    rw [execForm?_replaceCommand harray, Option.map_some, hvalues]

/-- A backslash before the letter, a tabulator and a quote can be written again, and so can an
array over two lines. -/
theorem setExecForm_values_escaped :
    ∃ i i', parse "CMD [\"\\\\n\\t\", \\\n\"\\\"x\"]".toList '\\' = .ok i ∧
      i.setExecForm ["\\n\t".toList, "\"x".toList] = .ok i' ∧
      i'.execForm?.map ExecForm.values = some ["\\n\t".toList, "\"x".toList] := by
  obtain ⟨i, hi, hform, array, harray, hvalues, i', hset, -⟩ :
      ∃ i ∈ (parse "CMD [\"\\\\n\\t\", \\\n\"\\\"x\"]".toList '\\').toOption, i.form = .command ∧
        ∃ array ∈ i.execForm?, array.values = ["\\n\t".toList, "\"x".toList] ∧
          ∃ i' ∈ (i.setExecForm array.values).toOption, True := by
    decide +kernel
  rw [mem_toOption] at hi hset
  rw [← hvalues]
  exact ⟨i, i', hi, hset, (setExecForm_values (parse_eq_ok.1 hi) hform harray).2 i' hset⟩

/-- An escaped line feed cannot be written again. -/
theorem setExecForm_values_newline :
    ∃ i array, parse "RUN [\"a\\nb\"]".toList '\\' = .ok i ∧ i.execForm? = some array ∧
      array.values = ["a\nb".toList] ∧ (i.setExecForm array.values).toOption = none := by
  obtain ⟨i, hi, array, harray, hvalues, hset⟩ :
      ∃ i ∈ (parse "RUN [\"a\\nb\"]".toList '\\').toOption, ∃ array ∈ i.execForm?,
        array.values = ["a\nb".toList] ∧ (i.setExecForm array.values).toOption = none := by
    decide +kernel
  exact ⟨i, array, mem_toOption.1 hi, harray, hvalues, hset⟩

end Instruction

end Containerfile
