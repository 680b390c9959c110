import Containerfile.Proofs.Absorption

/-!
# Removing an argument

The removal of a declared name or of the name of a stage takes the separators before the argument
with it, and leaves those behind it.  Where the argument before it ends with a value, they are
read with that value if nothing keeps them apart: a continuation or an escaped blank at the end of
a value then takes in the line end of its instruction, and with it the next one.
`Removal.Separable` says that nothing of the kind happens, and this is all that can go wrong with
the instruction itself.

## Main definitions

* `Removal` — the two edits, with the parts they keep before and behind the argument.
* `Removal.Separable` — what is behind the argument stays apart from a value before it.
* `Removal.Keeps` — two instructions say the same but for the argument.
* `Instruction.Undeclares`, `Instruction.Unnames` — the parts of an instruction around the argument.
* `Document.Restores` — reading the edited document gives back all other items as they were.

## Main results

* `Removal.exists_read`, `Removal.separable_of_read` — the edited instruction alone.
* `Document.restores_iff_separable` — the edited document.
* `Document.not_restores_of_removal` — layouts in which the removal takes more than the argument.
-/

namespace Containerfile

open Grammar Lexeme

/-! ## Where no arguments are -/

namespace Lexeme

variable {e : Char} {s r : Text} {ts : List Token}

theorem frame_of_start {k : Keyword} (h : start k.name s = .ok ts r) : Frame ts := by
  obtain ⟨b, word, -, -, -, -, rfl⟩ := start_shape.1 h
  refine Frame.append (Frame.of_isTrivia ?_) (Frame.keyword word)
  split
  · nofun
  · simp [Token.blank, Token.isTrivia, Token.isSeparator]

theorem isTrivia_of_finish (h : finish e s = .ok ts r) : ∀ t ∈ ts, t.isTrivia = true := by
  obtain ⟨us, m, hus, ⟨-, -, rfl⟩ | ⟨ns, hn, rfl⟩⟩ := finish_eq_ok.1 h
  · exact onlyTrivia_gaps e _ _ _ hus
  · intro t ht
    rcases List.mem_append.1 ht with ht | ht
    · exact onlyTrivia_gaps e _ _ _ hus t ht
    · exact onlyTrivia_newline _ _ _ hn t ht

theorem frame_of_finish (h : finish e s = .ok ts r) : Frame ts :=
  .of_isTrivia (isTrivia_of_finish h)

end Lexeme

namespace Children

variable {p : Token → Bool} {us vs : List Token} {t : Token}

theorem firstLeaf?_eq_none (h : ∀ u ∈ us, u.isLeaf .identifier = false) :
    firstLeaf? .identifier us = none := by
  refine List.findSome?_eq_none_iff.2 fun u hu => ?_
  have hleaf := h u hu
  cases u with
  | leaf kind text => cases kind <;> first | rfl | cases hleaf
  | node kind ts => rfl

theorem firstLiteral?_append_cons (h : ∀ u ∈ us, u.isLiteral = false) (references : Bool)
    (ls vs : List Token) :
    firstLiteral? (us ++ .node (.literal references) ls :: vs) = some ⟨references, ls⟩ := by
  have hnone : firstLiteral? us = none := by
    refine List.findSome?_eq_none_iff.2 fun u hu => ?_
    have hliteral := h u hu
    cases u with
    | leaf kind text => rfl
    | node kind ts => cases kind <;> first | rfl | cases hliteral
  unfold firstLiteral? at hnone ⊢
  rw [List.findSome?_append, hnone]
  rfl

theorem findIdx?_append_cons (hus : ∀ u ∈ us, p u = false) (ht : p t = true) :
    (us ++ t :: vs).findIdx? p = some us.length := by
  rw [List.findIdx?_append, List.findIdx?_eq_none_iff.2 hus, List.findIdx?_cons, ht]
  simp

theorem afterLast_append_cons (ht : p t = true) :
    afterLast p (us ++ t :: vs) = us.length + 1 + afterLast p vs := by
  induction us with
  | nil =>
    cases h : afterLast p vs with
    | zero => simp [afterLast, h, ht]
    | succ n =>
      simp only [List.nil_append, afterLast, h, List.length_nil]
      omega
  | cons u us ih =>
    have hpos : us.length + 1 + afterLast p vs = us.length + afterLast p vs + 1 := by omega
    simp only [List.cons_append, afterLast, ih, hpos, List.length_cons]
    omega

theorem afterLast_append (ht : p t = true) (hvs : ∀ v ∈ vs, p v = false) :
    afterLast p (us ++ t :: vs) = us.length + 1 := by
  have hnone : afterLast p vs = 0 := by
    induction vs with
    | nil => rfl
    | cons v vs ih =>
      have hv := hvs v List.mem_cons_self
      simp [afterLast, ih fun w hw => hvs w (List.mem_cons_of_mem _ hw), hv]
  rw [afterLast_append_cons ht, hnone]

theorem drop_append_cons (us ws : List Token) (t : Token) :
    (us ++ t :: ws).drop (us.length + 1) = ws := by
  have hlen : us.length + 1 = (us ++ [t]).length := by simp
  rw [List.append_cons us t ws, hlen, List.drop_left]

theorem removeBetween_append (us vs ws : List Token) (t : Token) :
    removeBetween us.length (us ++ vs).length (us ++ vs ++ t :: ws) = us ++ ws := by
  have hmax : max us.length ((us ++ vs).length + 1) = (us ++ vs).length + 1 := by
    rw [List.length_append]
    omega
  unfold removeBetween
  rw [hmax, drop_append_cons, List.append_assoc, List.take_left]

/-- The content of a list goes up to the last token that is neither a separator nor a line end. -/
theorem contentEnd_append {ss : List Token} (hus : ∃ vs u, us = vs ++ [u] ∧ u.isTrivia = false)
    (hss : ∀ t ∈ ss, t.isTrivia = true) : contentEnd (us ++ ss) = us.length := by
  obtain ⟨vs, u, rfl, hu⟩ := hus
  unfold contentEnd
  rw [List.append_assoc, List.singleton_append,
    afterLast_append (by simpa using hu) (by simpa using hss)]
  simp

/-- An argument is removed with the separators before it. -/
theorem removeArgument_append {ss : List Token} (hus : ∃ vs u, us = vs ++ [u] ∧ u.isTrivia = false)
    (hss : ∀ t ∈ ss, t.isTrivia = true) (t : Token) (ws : List Token) :
    removeArgument (us ++ ss).length (us ++ ss ++ t :: ws) = us ++ ws := by
  unfold removeArgument
  rw [List.take_left, contentEnd_append hus hss, removeBetween_append]

theorem set_none {n : Nat} {ts : List Token} (hn : n < ts.length)
    (add : Token → List Token → List Token) (remove : Nat → List Token → List Token) :
    set (some n) none add remove ts = remove n ts := by
  unfold set
  rw [Option.filter_some_pos (by simpa using hn)]

end Children

/-! ## The removals -/

/-- The removal of an argument: of a declared name, or of the name of a stage. -/
inductive Removal where
  | declaration (name : Text)
  | stageName
deriving DecidableEq, Repr

/-- Whether a token ends with a literal: it is one, or it is a key with a value. -/
def Token.holdsValue : Token → Bool
  | .node (.literal _) _ => true
  | .node .keyValue ts => ts.any Token.isLiteral
  | _ => false

namespace Removal

/-- The instruction without the argument. -/
def apply (i : Instruction) : Removal → Except Error Instruction
  | declaration name => i.removeDeclaration name
  | stageName => i.setStageName none

/-- The argument is there, and no name is declared twice that is removed. -/
def Applies (i : Instruction) : Removal → Prop
  | declaration name => i.form = .arg ∧ i.declaredNames.count name = 1
  | stageName => i.form = .stage ∧ i.stageName?.isSome = true

instance (r : Removal) (i : Instruction) : Decidable (r.Applies i) :=
  match r with
  | declaration _ => inferInstanceAs (Decidable (_ ∧ _))
  | stageName => inferInstanceAs (Decidable (_ ∧ _))

/-- The index of the argument. -/
def index (i : Instruction) : Removal → Nat
  | declaration name => (Children.keyIndex? name i.parts).getD 0
  | stageName => (Children.indexOfLeaf? .identifier i.parts).getD 0

/-- The number of parts that stay before the argument, which takes its separators with it, and the
name of a stage its keyword too. -/
def first (i : Instruction) : Removal → Nat
  | declaration name => Children.contentEnd (i.parts.take ((declaration name).index i))
  | stageName => (i.parts.findIdx? Token.isLiteral).getD 0 + 1

/-- The parts that stay before the argument. -/
def kept (r : Removal) (i : Instruction) : List Token :=
  i.parts.take (r.first i)

/-- The parts behind the argument. -/
def behind (r : Removal) (i : Instruction) : List Token :=
  i.parts.drop (r.index i + 1)

/-- What is behind the argument does not become a part of a value that is before it. -/
def Separable (r : Removal) (i : Instruction) : Prop :=
  (r.kept i).getLast?.any Token.holdsValue = true →
    Detached i.escape (Token.textAll (r.kept i)) (Token.textAll (r.behind i))

instance (r : Removal) (i : Instruction) : Decidable (r.Separable i) :=
  inferInstanceAs (Decidable (_ → _))

/-- All that `i` says but for the argument, `j` says too, and no more. -/
def Keeps (i j : Instruction) : Removal → Prop
  | declaration name => j.form = .arg ∧
      j.keyValues.map KeyValue.field =
        (i.keyValues.filter fun p => p.key != name).map KeyValue.field
  | stageName => j.form = .stage ∧ j.imageName = i.imageName ∧ j.platform? = i.platform? ∧
      j.stageName? = none

instance (r : Removal) (i j : Instruction) : Decidable (r.Keeps i j) :=
  match r with
  | declaration _ => inferInstanceAs (Decidable (_ ∧ _))
  | stageName => inferInstanceAs (Decidable (_ ∧ _))

end Removal

/-! ## Reading without the argument -/

namespace Instruction

variable {e : Char} {s r : Text} {i i' : Instruction} {k : Keyword} {g : Grammar}

/-- The instructions of a form with one keyword only. -/
theorem read_form_iff (hbody : ∀ f, body e f k = g ++ finish e)
    (honly : ∀ k' : Keyword, k'.form = k.form → k' = k) :
    read e s = .ok i r ∧ i.form = k.form ↔
      ∃ ts fin m, Keyword.ofWord? (firstWord s) = some k ∧ g s = .ok ts m ∧ finish e m = .ok fin r ∧
        i = ⟨k.form, e, ts ++ fin⟩ := by
  constructor
  · rintro ⟨h, hform⟩
    obtain ⟨k', ts, hk, hts, rfl⟩ := read_eq_ok.1 h
    obtain rfl := honly k' hform
    rw [hbody] at hts
    obtain ⟨us, fin, m, hus, hfin, rfl⟩ := seq_eq_ok.1 hts
    exact ⟨us, fin, m, hk, hus, hfin, rfl⟩
  · rintro ⟨ts, fin, m, hk, hts, hfin, rfl⟩
    refine ⟨read_eq_ok.2 ⟨k, ts ++ fin, hk, ?_, rfl⟩, rfl⟩
    rw [hbody]
    exact seq_eq_ok.2 ⟨ts, fin, m, hts, hfin, rfl⟩

theorem endsLine_append_iff (hg : Settled g) {ts fin : List Token} {m : Text} (hts : g s = .ok ts m)
    (form : Form) : endsLine ⟨form, e, ts ++ fin⟩ = true ↔
      Token.lineStateAll fin .within = .ended := by
  unfold endsLine
  rw [beq_iff_eq, Token.lineStateAll_append, hg _ _ _ hts]

/-- An instruction without arrays holds none, whatever is behind it. -/
theorem not_startsArray (hk : Keyword.ofWord? (firstWord s) = some k)
    (hnone : k.arrayReferences? = none) (hne : k ≠ .ONBUILD) : ¬ StartsArray e s := by
  intro h
  cases h with
  | here hk' harray =>
    rw [hk] at hk'
    cases hk'
    exact not_holdsArray hnone _ harray
  | deferred hk' =>
    rw [hk] at hk'
    cases hk'
    exact hne rfl

end Instruction

namespace Declarations

variable {e : Char} {s r : Text} {ds : List (List Token × KeyValue)}

theorem keyValues (h : Declarations e s ds r) :
    (tokens ds).filterMap Token.keyValue? = ds.map Prod.snd := by
  induction h with
  | nil => rfl
  | @cons s m m' r ss p ds hsep _ _ ih =>
    have hcons : tokens ((ss, p) :: ds) = ss ++ ([p.token] ++ tokens ds) := by simp [tokens]
    rw [hcons, List.filterMap_append, List.filterMap_append, ih,
      (frame_of_separator hsep).filterMap_keyValue?]
    rfl

/-- The declaration of a name that is declared once. -/
theorem exists_of_count {name : Text} (h : (ds.map fun d => d.2.key).count name = 1) :
    ∃ ds₁ d ds₂, ds = ds₁ ++ d :: ds₂ ∧ d.2.key = name ∧
      ∀ d' ∈ ds₁ ++ ds₂, d'.2.key ≠ name := by
  have hmem : name ∈ ds.map fun d => d.2.key := List.count_pos_iff.1 (by omega)
  obtain ⟨d, hd, hname⟩ := List.mem_map.1 hmem
  obtain ⟨ds₁, ds₂, rfl⟩ := List.append_of_mem hd
  refine ⟨ds₁, d, ds₂, rfl, hname, fun d' hd' hname' => ?_⟩
  have hpos : 0 < ((ds₁ ++ ds₂).map fun d => d.2.key).count name :=
    List.count_pos_iff.2 (List.mem_map.2 ⟨d', hd', hname'⟩)
  simp only [List.map_append, List.map_cons, List.count_append, hname,
    List.count_cons_self] at h hpos
  omega

/-- All declarations but the one of a name. -/
theorem filter_key {name : Text} {ds₁ ds₂ : List (List Token × KeyValue)}
    {d : List Token × KeyValue} (hname : d.2.key = name)
    (hothers : ∀ d' ∈ ds₁ ++ ds₂, d'.2.key ≠ name) :
    ((ds₁ ++ d :: ds₂).map Prod.snd).filter (fun q => q.key != name) =
      (ds₁ ++ ds₂).map Prod.snd := by
  rw [List.map_append, List.map_cons, List.filter_append,
    List.filter_cons_of_neg (by simpa using hname), ← List.filter_append, ← List.map_append]
  refine List.filter_eq_self.2 fun q hq => ?_
  obtain ⟨d', hd', rfl⟩ := List.mem_map.1 hq
  simpa using hothers d' hd'

/-- The index of the declaration of a name that is not declared before. -/
theorem keyIndex?_eq {name : Text} {us ss ws : List Token} {p : KeyValue}
    (h : Declarations e s ds r) (hus : Frame us) (hss : Frame ss) (hname : p.key = name)
    (hothers : ∀ d ∈ ds, d.2.key ≠ name) :
    Children.keyIndex? name (us ++ tokens ds ++ ss ++ p.token :: ws) =
      some (us ++ tokens ds ++ ss).length := by
  refine Children.findIdx?_append_cons (fun u hu => ?_)
    (by simp [KeyValue.token, Token.keyValue?, hname])
  cases hq : u.keyValue? with
  | none => rfl
  | some q =>
    have hmem := List.mem_filterMap.2 ⟨u, hu, hq⟩
    rw [List.filterMap_append, List.filterMap_append, h.keyValues, hus.filterMap_keyValue?,
      hss.filterMap_keyValue?, List.nil_append, List.append_nil] at hmem
    obtain ⟨d, hd, rfl⟩ := List.mem_map.1 hmem
    simpa using hothers d hd

/-- What is before a declaration ends with a token that is neither a separator nor a line end. -/
theorem exists_concat {k : Keyword} {m : Text} {st : List Token} (hst : start k.name m = .ok st s) :
    ∃ us t, st ++ tokens ds = us ++ [t] ∧ t.isTrivia = false := by
  by_cases hnil : ds = []
  · subst hnil
    obtain ⟨b, word, -, -, -, -, rfl⟩ := start_shape.1 hst
    exact ⟨_, _, List.append_nil _, rfl⟩
  · obtain ⟨ds, d, rfl⟩ : ∃ ds' d, ds = ds' ++ [d] :=
      ⟨_, _, (List.dropLast_concat_getLast hnil).symm⟩
    exact ⟨st ++ tokens ds ++ d.1, d.2.token, by simp [tokens], rfl⟩

theorem holdsValue_getLast? {k : Keyword} {m : Text} {st : List Token}
    (hst : start k.name m = .ok st s) :
    (st ++ tokens ds).getLast?.any Token.holdsValue = endsValued ds := by
  by_cases hnil : ds = []
  · subst hnil
    obtain ⟨b, word, -, -, -, -, rfl⟩ := start_shape.1 hst
    simp [tokens, endsValued, Token.holdsValue]
  · obtain ⟨ds, d, rfl⟩ : ∃ ds' d, ds = ds' ++ [d] :=
      ⟨_, _, (List.dropLast_concat_getLast hnil).symm⟩
    simp [tokens, endsValued, KeyValue.token, Token.holdsValue]

end Declarations

namespace Instruction

variable {e : Char} {s r : Text} {i i' : Instruction}

theorem read_arg_iff : read e s = .ok i r ∧ i.form = .arg ↔
    ∃ ts fin m, Keyword.ofWord? (firstWord s) = some .ARG ∧ argContent e s = .ok ts m ∧
      finish e m = .ok fin r ∧ i = ⟨.arg, e, ts ++ fin⟩ :=
  read_form_iff (k := .ARG) (fun _ => argBody_eq e) fun k h => by
    cases k <;> first | rfl | cases h

/-- A declaration is removed with the separators before it. -/
theorem parts_of_removeDeclaration {name : Text} {us ss ws : List Token} {t : Token}
    (hparts : i.parts = us ++ ss ++ t :: ws) (hus : ∃ vs u, us = vs ++ [u] ∧ u.isTrivia = false)
    (hss : ∀ t ∈ ss, t.isTrivia = true)
    (hindex : Children.keyIndex? name i.parts = some (us ++ ss).length) :
    (Removal.declaration name).kept i = us ∧ (Removal.declaration name).behind i = ws ∧
      ∀ i', i.removeDeclaration name = .ok i' →
        2 ≤ i.keyValues.length ∧ i' = i.withParts (us ++ ws) := by
  have hend : Children.contentEnd (i.parts.take (us ++ ss).length) = us.length := by
    rw [hparts, List.take_left, Children.contentEnd_append hus hss]
  have hat : (Removal.declaration name).index i = (us ++ ss).length := by
    change (Children.keyIndex? name i.parts).getD 0 = _
    rw [hindex, Option.getD_some]
  have hkept : (Removal.declaration name).kept i = us := by
    change i.parts.take (Children.contentEnd (i.parts.take ((Removal.declaration name).index i))) =
      us
    rw [hat, hend, hparts, List.append_assoc, List.take_left]
  have hbehind : (Removal.declaration name).behind i = ws := by
    unfold Removal.behind
    rw [hat, hparts, Children.drop_append_cons]
  refine ⟨hkept, hbehind, fun i' h => ?_⟩
  unfold removeDeclaration at h
  rw [hindex] at h
  split at h
  · cases h
  · rename_i hlen
    refine ⟨Nat.le_of_not_lt hlen, ?_⟩
    have hlt : (us ++ ss).length < i.parts.length := by
      rw [hparts]
      simp
    dsimp only [setPart] at h
    rw [Children.set_none hlt, hparts, Children.removeArgument_append hus hss] at h
    exact (Except.ok.inj h).symm

/-- What an instruction that declares arguments reads as key and value. -/
theorem keyValues_of_declarations {form : Form} {m m₀ m₁ r' : Text} {k : Keyword}
    {st fin : List Token} {ds : List (List Token × KeyValue)} (hst : start k.name s = .ok st m)
    (hds : Declarations e m₀ ds m₁) (hfin : finish e r = .ok fin r') :
    keyValues ⟨form, e, st ++ Declarations.tokens ds ++ fin⟩ = ds.map Prod.snd := by
  unfold keyValues
  rw [List.filterMap_append, List.filterMap_append, hds.keyValues,
    (frame_of_start hst).filterMap_keyValue?, (frame_of_finish hfin).filterMap_keyValue?]
  simp

/-- The declaration of `name` between the other ones of an `ARG`, and what its removal leaves. -/
structure Undeclares (e : Char) (s : Text) (i i' : Instruction) (name : Text) (st : List Token)
    (ds₁ : List (List Token × KeyValue)) (d : List Token × KeyValue)
    (ds₂ : List (List Token × KeyValue)) (fin : List Token) (m r : Text) : Prop where
  keyword : Keyword.ofWord? (firstWord s) = some .ARG
  start : start Keyword.ARG.name s = .ok st m
  declarations : Declarations e m (ds₁ ++ d :: ds₂) r
  stuck : ∃ k, argument e (KeyValue.declaration e isStageChar) r = .stuck k
  finish : finish e r = .ok fin []
  ended : Token.lineStateAll fin .within = .ended
  others : ds₁ ++ ds₂ ≠ []
  text : i'.text = Token.textAll (st ++ Declarations.tokens ds₁ ++ (Declarations.tokens ds₂ ++ fin))
  separable : (Removal.declaration name).Separable i ↔ (Declarations.endsValued ds₁ = true →
    Detached e (Token.textAll (st ++ Declarations.tokens ds₁))
      (Token.textAll (Declarations.tokens ds₂ ++ fin)))
  fields : (i.keyValues.filter fun p => p.key != name).map KeyValue.field =
    Declarations.fields (ds₁ ++ ds₂)

theorem exists_undeclares (hi : read e s = .ok i []) (hend : i.endsLine = true) {name : Text}
    (happlies : (Removal.declaration name).Applies i) (h : i.removeDeclaration name = .ok i') :
    ∃ st ds₁ d ds₂ fin m r, Undeclares e s i i' name st ds₁ d ds₂ fin m r := by
  obtain ⟨hform, hcount⟩ := happlies
  obtain ⟨_, fin, m, hk, hts, hfin, rfl⟩ := read_arg_iff.1 ⟨hi, hform⟩
  have hended := (endsLine_append_iff (settled_argContent e) hts _).1 hend
  obtain ⟨st, m₀, ds, hst, hds, -, rfl, hstuck⟩ := argContent_eq_ok.1 hts
  have hkeyValues := @keyValues_of_declarations e s m .arg m₀ m₀ m [] .ARG st fin ds hst hds hfin
  have hcount' : (ds.map fun d => d.2.key).count name = 1 := by
    unfold declaredNames at hcount
    rw [hkeyValues, List.map_map] at hcount
    exact hcount
  obtain ⟨ds₁, d, ds₂, rfl, hname, hothers⟩ := Declarations.exists_of_count hcount'
  obtain ⟨k, hds₁, hd⟩ := Declarations.append_iff.1 hds
  cases hd with
  | @cons _ _ _ _ ss p _ hss hp hds₂ =>
    have hparts : st ++ Declarations.tokens (ds₁ ++ (ss, p) :: ds₂) ++ fin =
        (st ++ Declarations.tokens ds₁) ++ ss ++ p.token :: (Declarations.tokens ds₂ ++ fin) := by
      simp [Declarations.tokens]
    have hindex : Children.keyIndex? name
        (st ++ Declarations.tokens (ds₁ ++ (ss, p) :: ds₂) ++ fin) =
          some (st ++ Declarations.tokens ds₁ ++ ss).length := by
      rw [hparts]
      exact hds₁.keyIndex?_eq (frame_of_start hst) (frame_of_separator hss) hname fun d' hd' =>
        hothers d' (List.mem_append_left _ hd')
    obtain ⟨hkept, hbehind, hremove⟩ := parts_of_removeDeclaration
      (i := ⟨.arg, e, st ++ Declarations.tokens (ds₁ ++ (ss, p) :: ds₂) ++ fin⟩) hparts
      (Declarations.exists_concat hst) (isTrivia_of_separator hss) hindex
    obtain ⟨hlen, rfl⟩ := hremove i' h
    refine ⟨st, ds₁, (ss, p), ds₂, fin, m₀, m, hk, hst, hds, hstuck, hfin, hended, ?_, rfl, ?_, ?_⟩
    · intro hnil
      obtain ⟨rfl, rfl⟩ := List.append_eq_nil_iff.1 hnil
      rw [hkeyValues] at hlen
      exact absurd hlen (by simp)
    · unfold Removal.Separable
      rw [hkept, hbehind, Declarations.holdsValue_getLast? hst]
    · rw [hkeyValues, Declarations.filter_key hname hothers, List.map_map]
      rfl

namespace Undeclares

variable {name m : Text} {st fin : List Token} {ds₁ ds₂ : List (List Token × KeyValue)}
  {d : List Token × KeyValue} (h : Undeclares e s i i' name st ds₁ d ds₂ fin m r) (he : IsEscape e)
include h he

/-- An instruction that declares arguments is read without one of them with the others as they
were. -/
theorem exists_read (hsep : (Removal.declaration name).Separable i) :
    ∃ j, read e i'.text = .ok j [] ∧ j.endsLine = true ∧ (Removal.declaration name).Keeps i j ∧
      Keyword.ofWord? (firstWord i'.text) = some .ARG := by
  obtain ⟨m', ds', hst', hds', hfields⟩ :=
    declarations_removed he h.start h.declarations h.finish h.ended (h.separable.1 hsep)
  rw [← h.text] at hst'
  have hne' : ds' ≠ [] := by
    rintro rfl
    exact h.others (List.map_eq_nil_iff.1 hfields.symm)
  have hts' := argContent_eq_ok.2 ⟨st, m', ds', hst', hds', hne', rfl, h.stuck⟩
  have hword : firstWord i'.text = firstWord s :=
    Option.some.inj ((firstWord_of_start hst').symm.trans (firstWord_of_start h.start))
  have hk' := hword ▸ h.keyword
  refine ⟨_, (read_arg_iff.2 ⟨_, fin, r, hk', hts', h.finish, rfl⟩).1,
    (endsLine_append_iff (settled_argContent e) hts' _).2 h.ended, ⟨rfl, ?_⟩, hk'⟩
  rw [keyValues_of_declarations hst' hds' h.finish, h.fields, List.map_map]
  exact hfields

/-- If the others are read as they were, the declaration was separable. -/
theorem separable_of_read {j : Instruction} (hj : read e i'.text = .ok j [])
    (hend : j.endsLine = true) (hkeeps : (Removal.declaration name).Keeps i j) :
    (Removal.declaration name).Separable i := by
  obtain ⟨hform, hfields⟩ := hkeeps
  obtain ⟨_, fin', r', -, hts, hfin', rfl⟩ := read_arg_iff.1 ⟨hj, hform⟩
  have hended' := (endsLine_append_iff (settled_argContent e) hts _).1 hend
  obtain ⟨st', m', ds', hst', hds', -, rfl, -⟩ := argContent_eq_ok.1 hts
  rw [keyValues_of_declarations hst' hds' hfin', h.fields, List.map_map] at hfields
  rw [h.text] at hst'
  exact h.separable.2 fun hvalued => detached_of_declarations he h.start h.declarations
    h.finish h.ended
    hvalued hst' hds' hfields hfin' hended'

end Undeclares

end Instruction

namespace KeyValue

variable {e : Char} {s r : Text} {fs : List Token}

/-- The flag before an image is no literal and no name of its own. -/
theorem isLiteral_of_oneFlag (h : oneFlag e s = .ok fs r) :
    ∀ t ∈ fs, t.isLiteral = false ∧ t.isLeaf .identifier = false := by
  rcases oneFlag_eq_ok.1 h with ⟨-, rfl, -⟩ | ⟨ss, m, us, hss, -, rfl⟩
  · nofun
  · intro t ht
    rcases List.mem_append.1 ht with ht | ht
    · exact ⟨(frame_of_separator hss).isLiteral t ht, (frame_of_separator hss).isLeaf t ht⟩
    · obtain rfl := List.mem_singleton.1 ht
      exact ⟨rfl, rfl⟩

theorem isFlag_of_oneFlag (h : oneFlag e s = .ok fs r) :
    ∀ p ∈ fs.filterMap Token.keyValue?, p.isFlag = true := by
  rcases oneFlag_eq_ok.1 h with ⟨-, rfl, -⟩ | ⟨ss, m, us, hss, -, rfl⟩
  · nofun
  · rw [List.filterMap_append, (frame_of_separator hss).filterMap_keyValue?]
    intro p hp
    obtain rfl := List.mem_singleton.1 hp
    rfl

end KeyValue

namespace Instruction

variable {e : Char} {s r m m₁ m₂ t : Text} {i i' : Instruction} {st fs ss ls : List Token}

theorem read_stage_iff : read e s = .ok i r ∧ i.form = .stage ↔
    ∃ ts fin m, Keyword.ofWord? (firstWord s) = some .FROM ∧ stageContent e s = .ok ts m ∧
      finish e m = .ok fin r ∧ i = ⟨.stage, e, ts ++ fin⟩ :=
  read_form_iff (k := .FROM) (fun _ => stageBody_eq e) fun k h => by
    cases k <;> first | rfl | cases h

/-- The name of a stage is the last token of what names it. -/
theorem naming_eq_ok {ns : List Token} (h : naming e t = .ok ns r) :
    ∃ cs name, ns = cs ++ [.identifier name] ∧ Frame cs := by
  obtain ⟨_, _, _, has, hname, rfl⟩ := seq_eq_ok.1 h
  obtain ⟨ss, _, _, hss, hkeyword, rfl⟩ := seq_eq_ok.1 (argument_eq_ok.1 has)
  obtain ⟨word, -, -, -, rfl⟩ := keyword_eq_ok.1 hkeyword
  obtain ⟨ss', _, _, hss', hrun, rfl⟩ := seq_eq_ok.1 (required_eq_ok.1 hname)
  obtain ⟨-, rfl, -⟩ := run_eq_ok.1 hrun
  exact ⟨ss ++ [.leaf .keyword word] ++ ss', _, (List.append_assoc ..).symm,
    ((frame_of_separator hss).append (.keyword word)).append (frame_of_separator hss')⟩

theorem removeStageName_append {us cs ws : List Token} {l x : Token}
    (hus : ∀ t ∈ us, t.isLiteral = false) (hl : l.isLiteral = true) :
    removeStageName (us ++ [l] ++ cs).length (us ++ [l] ++ cs ++ x :: ws) = us ++ [l] ++ ws := by
  have himage : (us ++ [l] ++ cs ++ x :: ws).findIdx? Token.isLiteral = some us.length := by
    rw [List.append_assoc, List.append_assoc]
    exact Children.findIdx?_append_cons hus hl
  have hfirst : us.length + 1 = (us ++ [l]).length := by simp
  rw [removeStageName, himage, Option.getD_some, hfirst, Children.removeBetween_append]

/-- The name of a stage is removed with all that is between it and the image. -/
theorem parts_of_setStageName {us cs ws : List Token} {l x : Token}
    (hparts : i.parts = us ++ [l] ++ cs ++ x :: ws)
    (hus : ∀ t ∈ us, t.isLiteral = false ∧ t.isLeaf .identifier = false) (hl : l.isLiteral = true)
    (hcs : Frame cs) (hx : x.isLeaf .identifier = true) :
    Removal.stageName.kept i = us ++ [l] ∧ Removal.stageName.behind i = ws ∧
      i.setStageName none = .ok (i.withParts (us ++ [l] ++ ws)) := by
  have himage : i.parts.findIdx? Token.isLiteral = some us.length := by
    rw [hparts, List.append_assoc, List.append_assoc]
    exact Children.findIdx?_append_cons (fun t ht => (hus t ht).1) hl
  have hleaf : l.isLeaf .identifier = false := by
    cases l with
    | leaf kind text => cases hl
    | node kind ts => rfl
  have hindex : Children.indexOfLeaf? .identifier i.parts = some (us ++ [l] ++ cs).length := by
    rw [hparts]
    refine Children.findIdx?_append_cons (fun t ht => ?_) hx
    simp only [List.mem_append, List.mem_singleton] at ht
    rcases ht with (ht | rfl) | ht
    · exact (hus t ht).2
    · exact hleaf
    · exact hcs.isLeaf t ht
  have hfirst : us.length + 1 = (us ++ [l]).length := by simp
  refine ⟨?_, ?_, ?_⟩
  · change i.parts.take ((i.parts.findIdx? Token.isLiteral).getD 0 + 1) = _
    rw [himage, Option.getD_some, hfirst, hparts, List.append_assoc, List.take_left]
  · change i.parts.drop ((Children.indexOfLeaf? .identifier i.parts).getD 0 + 1) = _
    rw [hindex, Option.getD_some, hparts, Children.drop_append_cons]
  · have hlt : (us ++ [l] ++ cs).length < i.parts.length := by
      rw [hparts]
      simp
    change Except.ok (i.setPart _ none _ _) = _
    unfold setPart
    rw [hindex, Children.set_none hlt, hparts, removeStageName_append (fun t ht => (hus t ht).1) hl]

/-- The keys with values of a stage are its flags. -/
theorem keyValues_of_stage {ns : List Token} (hst : start Keyword.FROM.name s = .ok st m)
    (hss : separator e m₁ = .ok ss m₂) (hns : ∀ t ∈ ns, t.keyValue? = none) :
    keyValues ⟨.stage, e, st ++ fs ++ ss ++ .node (.literal true) ls :: ns⟩ =
      fs.filterMap Token.keyValue? := by
  have hns' : (Token.node (.literal true) ls :: ns).filterMap Token.keyValue? = [] :=
    List.filterMap_eq_nil_iff.2 (List.forall_mem_cons.2 ⟨rfl, hns⟩)
  unfold keyValues
  rw [List.filterMap_append, List.filterMap_append, List.filterMap_append, hns',
    (frame_of_start hst).filterMap_keyValue?, (frame_of_separator hss).filterMap_keyValue?]
  simp

section

variable (hst : start Keyword.FROM.name s = .ok st m) (hfs : KeyValue.oneFlag e m = .ok fs m₁)
  (hss : separator e m₁ = .ok ss m₂)
include hst hfs hss

/-- Before the image of a stage there is no literal and no name. -/
theorem isLiteral_of_mem :
    ∀ t ∈ st ++ fs ++ ss, t.isLiteral = false ∧ t.isLeaf .identifier = false := by
  intro t ht
  simp only [List.mem_append] at ht
  rcases ht with (ht | ht) | ht
  · exact ⟨(frame_of_start hst).isLiteral t ht, (frame_of_start hst).isLeaf t ht⟩
  · exact KeyValue.isLiteral_of_oneFlag hfs t ht
  · exact ⟨(frame_of_separator hss).isLiteral t ht, (frame_of_separator hss).isLeaf t ht⟩

/-- The image and the platform of a stage, from what is read. -/
theorem stage_fields {ns : List Token} (hns : ∀ t ∈ ns, t.keyValue? = none) :
    imageName ⟨.stage, e, st ++ fs ++ ss ++ .node (.literal true) ls :: ns⟩ = Literal.valueOf ls ∧
      platform? ⟨.stage, e, st ++ fs ++ ss ++ .node (.literal true) ls :: ns⟩ =
        (((fs.filterMap Token.keyValue?).map KeyValue.field).find? fun f =>
          Text.sameLetters f.1 platformFlag).bind Prod.snd := by
  constructor
  · have hnone := fun t ht => (isLiteral_of_mem hst hfs hss t ht).1
    unfold imageName image? literal?
    rw [Children.firstLiteral?_append_cons hnone]
    rfl
  · unfold platform? platformFlag? flag? flags
    rw [keyValues_of_stage hst hss hns, List.filter_eq_self.2 (KeyValue.isFlag_of_oneFlag hfs),
      List.find?_map, Option.bind_map]
    rfl

theorem stageName?_eq_none {fin : List Token} (hfin : Frame fin) :
    stageName? ⟨.stage, e, st ++ fs ++ ss ++ .node (.literal true) ls :: fin⟩ = none := by
  refine Children.firstLeaf?_eq_none fun t ht => ?_
  rcases List.mem_append.1 ht with ht | ht
  · exact (isLiteral_of_mem hst hfs hss t ht).2
  · rcases List.mem_cons.1 ht with rfl | ht
    · rfl
    · exact hfin.isLeaf t ht

end

/-- The name of a stage behind its image, and what its removal leaves. -/
structure Unnames (e : Char) (s : Text) (i i' : Instruction) (st fs ss ls ns fin : List Token)
    (m m₁ m₂ t r : Text) : Prop where
  keyword : Keyword.ofWord? (firstWord s) = some .FROM
  start : start Keyword.FROM.name s = .ok st m
  flag : KeyValue.oneFlag e m = .ok fs m₁
  separator : separator e m₁ = .ok ss m₂
  image : Literal.body .word e m₂ = .ok ls t
  naming : naming e t = .ok ns r
  finish : finish e r = .ok fin []
  ended : Token.lineStateAll fin .within = .ended
  text : i'.text = Token.textAll (st ++ fs ++ ss ++ [.node (.literal true) ls] ++ fin)
  separable : Removal.stageName.Separable i ↔
    Detached e (Token.textAll (st ++ fs ++ ss ++ [.node (.literal true) ls])) (Token.textAll fin)
  imageName : i.imageName = Literal.valueOf ls
  platform? : i.platform? = (((fs.filterMap Token.keyValue?).map KeyValue.field).find? fun f =>
    Text.sameLetters f.1 platformFlag).bind Prod.snd

theorem exists_unnames (hi : read e s = .ok i []) (hend : i.endsLine = true)
    (happlies : Removal.stageName.Applies i) (h : i.setStageName none = .ok i') :
    ∃ st fs ss ls ns fin m m₁ m₂ t r, Unnames e s i i' st fs ss ls ns fin m m₁ m₂ t r := by
  obtain ⟨hform, hname⟩ := happlies
  obtain ⟨_, fin, r, hk, hts, hfin, rfl⟩ := read_stage_iff.1 ⟨hi, hform⟩
  have hended := (endsLine_append_iff (settled_stageContent e) hts _).1 hend
  have hframe := frame_of_finish hfin
  obtain ⟨st, m, fs, m₁, ss, m₂, ls, t, ns, hst, hfs, hss, hls, hns, rfl⟩ :=
    stageContent_eq_ok.1 hts
  rcases optional_eq_ok.1 hns with hns | ⟨-, rfl, rfl⟩
  · obtain ⟨cs, name, rfl, hcs⟩ := naming_eq_ok hns
    have hparts : st ++ fs ++ ss ++ .node (.literal true) ls :: (cs ++ [.identifier name]) ++ fin =
        st ++ fs ++ ss ++ [.node (.literal true) ls] ++ cs ++ .identifier name :: fin := by simp
    have hns' : ∀ t ∈ cs ++ [.identifier name] ++ fin, t.keyValue? = none := by
      intro t ht
      simp only [List.mem_append, List.mem_singleton] at ht
      rcases ht with (ht | rfl) | ht
      · exact hcs.keyValue? t ht
      · rfl
      · exact hframe.keyValue? t ht
    obtain ⟨hkept, hbehind, hset⟩ := parts_of_setStageName
      (i := ⟨.stage, e, st ++ fs ++ ss ++ .node (.literal true) ls :: (cs ++ [.identifier name]) ++
        fin⟩) hparts (isLiteral_of_mem hst hfs hss) rfl hcs rfl
    obtain rfl := Except.ok.inj (hset.symm.trans h)
    obtain ⟨himage, hplatform⟩ := @stage_fields e s m m₁ m₂ st fs ss ls hst hfs hss _ hns'
    refine ⟨st, fs, ss, ls, _, fin, m, m₁, m₂, t, r, hk, hst, hfs, hss, hls, hns, hfin, hended,
      rfl, ?_, ?_, ?_⟩
    · unfold Removal.Separable
      rw [hkept, hbehind]
      simp [Token.holdsValue]
    · rwa [List.append_assoc _ _ fin]
    · rwa [List.append_assoc _ _ fin]
  · have hnone := @stageName?_eq_none e s m m₁ m₂ st fs ss ls hst hfs hss fin hframe
    rw [List.append_cons] at hnone
    rw [hnone] at hname
    cases hname

namespace Unnames

variable {ns fin : List Token} (h : Unnames e s i i' st fs ss ls ns fin m m₁ m₂ t r)
  (he : IsEscape e)
include h he

/-- A stage is read without its name with its image and its platform as they were. -/
theorem exists_read (hsep : Removal.stageName.Separable i) :
    ∃ j, read e i'.text = .ok j [] ∧ j.endsLine = true ∧ Removal.stageName.Keeps i j ∧
      Keyword.ofWord? (firstWord i'.text) = some .FROM := by
  have hframe := frame_of_finish h.finish
  obtain ⟨m', m₁', m₂', hst', hfs', hss', hls', hnone⟩ :=
    naming_removed he h.start h.flag h.separator h.image h.naming h.finish h.ended
      (h.separable.1 hsep)
  rw [← h.text] at hst'
  have hts' := stageContent_eq_ok.2
    ⟨st, m', fs, m₁', ss, m₂', ls, r, [], hst', hfs', hss', hls', hnone, rfl⟩
  have hword : firstWord i'.text = firstWord s :=
    Option.some.inj ((firstWord_of_start hst').symm.trans (firstWord_of_start h.start))
  have hk' := hword ▸ h.keyword
  obtain ⟨himage, hplatform⟩ :=
    @stage_fields e _ m' m₁' m₂' st fs ss ls hst' hfs' hss' fin hframe.keyValue?
  have hname := @stageName?_eq_none e _ m' m₁' m₂' st fs ss ls hst' hfs' hss' fin hframe
  rw [List.append_cons] at himage hplatform hname
  refine ⟨_, (read_stage_iff.2 ⟨_, fin, r, hk', hts', h.finish, rfl⟩).1,
    (endsLine_append_iff (settled_stageContent e) hts' _).2 h.ended, ⟨rfl, ?_, ?_, hname⟩, hk'⟩
  · rw [himage, h.imageName]
  · rw [hplatform, h.platform?]

/-- If the image is read as it was, the name of the stage was separable. -/
theorem separable_of_read {j : Instruction} (hj : read e i'.text = .ok j [])
    (hend : j.endsLine = true) (hkeeps : Removal.stageName.Keeps i j) :
    Removal.stageName.Separable i := by
  obtain ⟨hform, himage, -, hname⟩ := hkeeps
  obtain ⟨_, fin', r', -, hts, hfin', rfl⟩ := read_stage_iff.1 ⟨hj, hform⟩
  have hended' := (endsLine_append_iff (settled_stageContent e) hts _).1 hend
  obtain ⟨st', m', fs', m₁', ss', m₂', ls', t', ns', hst', hfs', hss', hls', hns', rfl⟩ :=
    stageContent_eq_ok.1 hts
  rcases optional_eq_ok.1 hns' with hns' | ⟨-, rfl, rfl⟩
  · obtain ⟨cs, name, rfl, -⟩ := naming_eq_ok hns'
    have hnone := List.findSome?_eq_none_iff.1 hname (.identifier name) (by simp)
    cases hnone
  · obtain ⟨himage', -⟩ := @stage_fields e _ m' m₁' m₂' st' fs' ss' ls' hst' hfs' hss' fin'
      (frame_of_finish hfin').keyValue?
    rw [List.append_cons] at himage'
    rw [h.imageName, himage'] at himage
    rw [h.text] at hst'
    exact h.separable.2 (detached_of_naming he h.start h.flag h.separator h.image h.naming h.finish
      h.ended ⟨⟨st', m', fs', m₁', ss', hst', hfs', hss'⟩, hls'⟩ hfin' hended' himage)

end Unnames

end Instruction

/-! ## Documents -/

/-- Without the argument, the text of an instruction is read as one instruction with its own line
end, which keeps all else and becomes no array. -/
theorem Removal.exists_read {e : Char} {s : Text} {i i' : Instruction} {r : Removal}
    (he : IsEscape e) (hi : Instruction.read e s = .ok i []) (hend : i.endsLine = true)
    (happlies : r.Applies i) (h : r.apply i = .ok i') (hsep : r.Separable i) :
    ∃ j, r.Keeps i j ∧ ∀ x, Instruction.read e (i'.text ++ x) = .ok j x := by
  obtain ⟨j, k, hj, hjend, hkeeps, hk, hnone, hne⟩ : ∃ j k, Instruction.read e i'.text = .ok j [] ∧
      j.endsLine = true ∧ r.Keeps i j ∧ Keyword.ofWord? (Instruction.firstWord i'.text) = some k ∧
      k.arrayReferences? = none ∧ k ≠ .ONBUILD := by
    cases r with
    | declaration name =>
      obtain ⟨st, ds₁, d, ds₂, fin, m, r, hremoved⟩ :=
        Instruction.exists_undeclares hi hend happlies h
      obtain ⟨j, hj, hjend, hkeeps, hk⟩ := hremoved.exists_read he hsep
      exact ⟨j, .ARG, hj, hjend, hkeeps, hk, rfl, by decide⟩
    | stageName =>
      obtain ⟨st, fs, ss, ls, ns, fin, m, m₁, m₂, t, r, hremoved⟩ :=
        Instruction.exists_unnames hi hend happlies h
      obtain ⟨j, hj, hjend, hkeeps, hk⟩ := hremoved.exists_read he hsep
      exact ⟨j, .FROM, hj, hjend, hkeeps, hk, rfl, by decide⟩
  have htext : j.text = i'.text := by simpa using Instruction.lossless_read _ _ _ _ hj
  refine ⟨j, hkeeps, fun x => ?_⟩
  have hnewline := (Instruction.delimited_of_endsLine he hj hjend).closed.hasNewline
  rw [htext] at hnewline
  rw [← htext, Instruction.read_append_iff he hj hjend, htext]
  rintro ⟨-, harray⟩
  refine Instruction.not_startsArray ?_ hnone hne harray
  rwa [Instruction.firstWord_append hnewline]

/-- If the text without the argument is read as one instruction with its own line end that keeps all
else, the argument was separable. -/
theorem Removal.separable_of_read {e : Char} {s : Text} {i i' j : Instruction} {r : Removal}
    (he : IsEscape e) (hi : Instruction.read e s = .ok i []) (hend : i.endsLine = true)
    (happlies : r.Applies i) (h : r.apply i = .ok i') (hj : Instruction.read e i'.text = .ok j [])
    (hjend : j.endsLine = true) (hkeeps : r.Keeps i j) : r.Separable i := by
  cases r with
  | declaration name =>
    obtain ⟨st, ds₁, d, ds₂, fin, m, r, hremoved⟩ :=
      Instruction.exists_undeclares hi hend happlies h
    exact hremoved.separable_of_read he hj hjend hkeeps
  | stageName =>
    obtain ⟨st, fs, ss, ls, ns, fin, m, m₁, m₂, t, r, hremoved⟩ :=
      Instruction.exists_unnames hi hend happlies h
    exact hremoved.separable_of_read he hj hjend hkeeps

namespace Document

open Instruction

/-- Without the argument, which makes `i'` of the instruction `i` at `n`, the document is read
again with the same items in all other places, and at `n` with an instruction that keeps all else
of `i`. -/
def Restores (d : Document) (n : Nat) (r : Removal) (i i' : Instruction) : Prop :=
  ∃ j, r.Keeps i j ∧
    parse (Document.mk (d.items.set n (.instruction i'))).text =
      .ok ⟨d.items.set n (.instruction j)⟩

theorem mem_instruction? {items : List Item} {n : Nat} {i : Instruction} :
    i ∈ items[n]?.bind Item.instruction? ↔ items[n]? = some (.instruction i) := by
  cases items[n]? with
  | none => simp
  | some item => cases item <;> simp [Item.instruction?]

theorem eq_cons_of_first {items : List Item} {item : Item} (h : items[0]? = some item) :
    items = [] ++ item :: items.tail := by
  cases items with
  | nil => cases h
  | cons item' items =>
    cases h
    rfl

/-- The directives of a document are before its instructions. -/
theorem leadingDirectives_instruction (before after : List Item) (i j : Instruction) :
    leadingDirectives (before ++ .instruction i :: after) =
      leadingDirectives (before ++ .instruction j :: after) := by
  induction before with
  | nil => rfl
  | cons item before ih =>
    cases item with
    | directive d => exact congrArg (d :: ·) ih
    | _ => rfl

section

variable {s : Text} {d : Document} {before after : List Item} {i i' : Instruction} {r : Removal}
  (hd : parse s = .ok d) (hitems : d.items = before ++ .instruction i :: after)
include hd hitems

/-- An instruction of a document is read from its own text, and has a line end of its own unless
it is the last item. -/
theorem read_of_parse : IsEscape d.escape ∧ Instruction.read d.escape i.text = .ok i [] ∧
    (after ≠ [] → i.endsLine = true) := by
  obtain ⟨ds, seen, m, items, rfl, hlayout⟩ := parse_iff.1 hd
  obtain ⟨first, rfl, rfl⟩ := Layout.exists_of_eq hitems
  obtain ⟨-, hreads⟩ := hlayout.endsLine_and_reads
  have hread := hlayout.items.instruction_eq
  rw [List.append_nil] at hread
  rw [hlayout.escape_eq]
  exact ⟨hlayout.isEscape, read_text hlayout.isEscape hread, fun hafter =>
    endsLine_of_read hlayout.isEscape hread (hreads.ne_nil hafter)⟩

/-- With the backslash for the escape character, no instruction becomes an array. -/
theorem not_becomesArray_before (hescape : d.escape = '\\') {first mid : List Item}
    {k : Instruction} (hk : before = first ++ .instruction k :: mid) (x : Text) :
    ¬ BecomesArray d.escape k.text x := by
  obtain ⟨ds, seen, m, items, rfl, hlayout⟩ := parse_iff.1 hd
  obtain ⟨before, rfl, rfl⟩ := Layout.exists_of_eq hitems
  obtain ⟨hends, -⟩ := hlayout.endsLine_and_reads
  rw [hlayout.escape_eq] at hescape ⊢
  exact hlayout.not_becomesArray hends hescape hk x

variable (hafter : after ≠ []) (happlies : r.Applies i) (h : r.apply i = .ok i')
include hafter happlies h

/-- Where a document is restored, what is behind the argument stays apart from a value before it. -/
theorem Restores.separable (hrestores : d.Restores before.length r i i') : r.Separable i := by
  obtain ⟨j, hkeeps, hj⟩ := hrestores
  rw [text_set hitems, hitems, List.set_append_right _ _ (Nat.le_refl _), Nat.sub_self,
    List.set_cons_zero] at hj
  have htext := text_of_parse hj
  rw [text, textOf_append, textOf_cons] at htext
  have hjtext : j.text = i'.text := List.append_cancel_right (List.append_cancel_left htext)
  have hescape : escape ⟨before ++ .instruction j :: after⟩ = d.escape := by
    unfold escape directives
    rw [hitems, leadingDirectives_instruction]
  obtain ⟨he, hread, hend⟩ := read_of_parse hd hitems
  obtain ⟨-, hread', hend'⟩ := read_of_parse hj rfl
  rw [hescape, hjtext] at hread'
  exact Removal.separable_of_read he hread (hend hafter) happlies h hread' (hend' hafter) hkeeps

/-- Where what is behind the argument stays apart from a value before it, a document is restored
unless an instruction before it becomes an array. -/
theorem restores_iff_of_separable (hsep : r.Separable i) :
    d.Restores before.length r i i' ↔
      ∀ first k mid, before = first ++ .instruction k :: mid →
        ¬ BecomesArray d.escape k.text (textOf mid ++ (i'.text ++ textOf after)) := by
  have hset : ∀ j : Instruction, d.items.set before.length (.instruction j) =
      before ++ .instruction j :: after := by simp [hitems]
  unfold Restores
  rw [text_set hitems]
  simp only [hset]
  obtain ⟨he, hread, hend⟩ := read_of_parse hd hitems
  obtain ⟨j, hkeeps, hj⟩ := Removal.exists_read he hread (hend hafter) happlies h hsep
  obtain ⟨ds, seen, m, items, rfl, hlayout⟩ := parse_iff.1 hd
  obtain ⟨first, rfl, rfl⟩ := Layout.exists_of_eq hitems
  obtain ⟨hends, hreads⟩ := hlayout.endsLine_and_reads
  have hword := firstWord_of_read (hj (textOf after))
  have hiff := hlayout.replace_iff (by simp) hends (directivesEnd_of_firstWord hword seen)
    (blankLines_stuck_of_firstWord hword)
  rw [hlayout.escape_eq] at hj ⊢
  simp only [List.append_assoc _ first, hiff]
  exact ⟨fun ⟨_, _, harray, _⟩ => harray,
    fun harray => ⟨j, hkeeps, harray, .cons (readItem_of_read (hj _)) hreads⟩⟩

end

/-- An argument that is removed leaves the neighbours of its instruction, which is not the last
item, and its other arguments as they are exactly if what is behind the argument stays apart from
a value before it.  With the backtick for the escape character, no instruction before it may
become an array either. -/
theorem restores_iff_separable {s : Text} {d : Document} {before after : List Item}
    {i i' : Instruction} {r : Removal} (hd : parse s = .ok d)
    (hitems : d.items = before ++ .instruction i :: after) (hafter : after ≠ [])
    (happlies : r.Applies i) (h : r.apply i = .ok i') :
    (d.Restores before.length r i i' ↔ r.Separable i ∧
        ∀ first k mid, before = first ++ .instruction k :: mid →
          ¬ BecomesArray d.escape k.text (textOf mid ++ (i'.text ++ textOf after))) ∧
      (d.escape = '\\' → (d.Restores before.length r i i' ↔ r.Separable i)) := by
  have hiff := restores_iff_of_separable hd hitems hafter happlies h
  have hrestored := Restores.separable hd hitems hafter happlies h
  constructor
  · constructor
    · intro hrestores
      exact ⟨hrestored hrestores, (hiff (hrestored hrestores)).1 hrestores⟩
    · rintro ⟨hsep, harray⟩
      exact (hiff hsep).2 harray
  · intro hescape
    exact ⟨hrestored, fun hsep => (hiff hsep).2 fun first k mid hk =>
      not_becomesArray_before hd hitems hescape hk _⟩

/-- The value before the removed name takes the line continuation behind it, and says the same. -/
theorem restores_iff_separable_continued :
    ∃ d i i', parse "ARG A=1 B\\\n C\nRUN x\n".toList = .ok d ∧
      d.items[0]? = some (.instruction i) ∧ (Removal.declaration ['B']).Applies i ∧
      (Removal.declaration ['B']).apply i = .ok i' ∧ (Removal.declaration ['B']).Separable i ∧
      d.Restores 0 (.declaration ['B']) i i' := by
  obtain ⟨d, hd, i, hi, i', h, happlies, hsep, hafter, hescape⟩ :
      ∃ d ∈ (parse "ARG A=1 B\\\n C\nRUN x\n".toList).toOption,
        ∃ i ∈ d.items[0]?.bind Item.instruction?,
          ∃ i' ∈ ((Removal.declaration ['B']).apply i).toOption,
            (Removal.declaration ['B']).Applies i ∧ (Removal.declaration ['B']).Separable i ∧
            d.items.tail ≠ [] ∧ d.escape = '\\' := by
    decide +kernel
  rw [mem_toOption] at hd h
  rw [mem_instruction?] at hi
  exact ⟨d, i, i', hd, hi, happlies, h, hsep,
    ((restores_iff_separable hd (eq_cons_of_first hi) hafter happlies h).2 hescape).2 hsep⟩

/-- The argument of the first instruction is removed, and the document, which has more items, is not
restored. -/
def Damages (r : Removal) (s : Text) : Prop :=
  ∃ d i i', parse s = .ok d ∧ d.items[0]? = some (.instruction i) ∧ 1 < d.items.length ∧
    r.Applies i ∧ r.apply i = .ok i' ∧ ¬ d.Restores 0 r i i'

/-- What is not restored is found by reading. -/
theorem damages_of_parse {s : Text} {r : Removal}
    (h : ∃ d ∈ (parse s).toOption, ∃ i ∈ d.items[0]?.bind Item.instruction?,
      ∃ i' ∈ (r.apply i).toOption, r.Applies i ∧ 1 < d.items.length ∧
        ¬ ∃ d' ∈ (parse (Document.mk (d.items.set 0 (.instruction i'))).text).toOption,
          ∃ j ∈ d'.items[0]?.bind Item.instruction?, r.Keeps i j ∧
            d'.items = d.items.set 0 (.instruction j)) :
    Damages r s := by
  obtain ⟨d, hd, i, hi, i', h, happlies, hlen, hnot⟩ := h
  rw [mem_toOption] at hd h
  rw [mem_instruction?] at hi
  refine ⟨d, i, i', hd, hi, hlen, happlies, h, fun ⟨j, hkeeps, hj⟩ => hnot ?_⟩
  refine ⟨_, mem_toOption.2 hj, j, mem_instruction?.2 ?_, hkeeps, rfl⟩
  exact List.getElem?_set_self (List.getElem?_eq_some_iff.1 hi).1

/-- A continuation, an escaped blank or a carriage return at the end of the value before the
argument, or a name right behind the continuation that follows the argument, and what is behind
the argument becomes a part of that value. -/
theorem not_restores_of_removal :
    Damages (.declaration ['B']) "ARG A=1\\\n    B\nRUN x\n".toList ∧
      Damages (.declaration ['B']) "ARG A=1\\  B\nRUN x\n".toList ∧
      Damages (.declaration ['B']) "ARG A=1\r B\nRUN x\n".toList ∧
      Damages (.declaration ['B']) "ARG A=1 B\\\nC\nRUN x\n".toList ∧
      Damages .stageName "FROM a\\\n AS b\nRUN x\n".toList := by
  refine ⟨damages_of_parse ?_, damages_of_parse ?_, damages_of_parse ?_, damages_of_parse ?_,
    damages_of_parse ?_⟩ <;> decide +kernel

end Document

end Containerfile
