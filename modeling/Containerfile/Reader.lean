import Containerfile.Error
import Containerfile.Token

/-!
# Readers

A reader takes a text and either reads something from its start, leaving the rest, or is stuck, or
fails.  A reader that is stuck has merely met something else, and another one may be tried in its
place.  A reader that fails has committed to a construct, and the failure is final.

Readers do not count characters.  A fault holds the text that remains at the culprit, and the
offset is computed once, at the top, as what is missing from the whole (`Text.offsetOf`).  A reader
is therefore the same function wherever in a file it is applied.

## Main definitions

* `Outcome` — what a reader answers.
* `Grammar` — a reader of tokens; `++` reads two in a row.
* `Grammar.optional`, `Grammar.either`, `Grammar.many`, `Grammar.commit`, … — the combinators.
* `Grammar.Advances`, `Grammar.Shrinks` — a success leaves less text, or at least not more.
* `Outcome.complete` — the answer for a text that has to be read to its end.
-/

namespace Containerfile

/-- A final failure: what is wrong, and the text from the culprit on. -/
structure Fault where
  complaint : Complaint
  rest : Text
deriving DecidableEq, Repr

/-- What a reader answers about a text. -/
inductive Outcome (α : Type) where
  /-- It read `value` and left `rest`. -/
  | ok (value : α) (rest : Text)
  /-- It met something else; `rest` is the text from where it could not go on. -/
  | stuck (rest : Text)
  /-- It had committed to a construct that is not there or is malformed. -/
  | failed (fault : Fault)
deriving DecidableEq, Repr

namespace Outcome

variable {α β : Type}

/-- The outcome with a function applied to the value. -/
def map (f : α → β) : Outcome α → Outcome β
  | ok a r => ok (f a) r
  | stuck r => stuck r
  | failed e => failed e

/-- The outcome of a reader on the whole of `source`, where a rest that is not empty is an error
too. -/
def complete (source : Text) : Outcome α → Except ParseError α
  | ok a [] => .ok a
  | ok _ (c :: cs) => .error (.located source (source.offsetOf (c :: cs)) .trailing)
  | stuck r => .error (.located source (source.offsetOf r) .unexpected)
  | failed e => .error (.located source (source.offsetOf e.rest) (.complaint e.complaint))

end Outcome

/-- A reader of tokens. -/
abbrev Grammar := Text → Outcome (List Token)

namespace Grammar

/-! ## Combinators -/

/-- Reads one construct and then another.  When the second is stuck, so is the whole, at the place
of the second. -/
def seq (g h : Grammar) : Grammar := fun s =>
  match g s with
  | .ok ts r =>
    match h r with
    | .ok us r' => .ok (ts ++ us) r'
    | .stuck r' => .stuck r'
    | .failed e => .failed e
  | .stuck r => .stuck r
  | .failed e => .failed e

instance : Append Grammar :=
  ⟨seq⟩

/-- Reads with `g`, or nothing where `g` is stuck. -/
def optional (g : Grammar) : Grammar := fun s =>
  match g s with
  | .ok ts r => .ok ts r
  | .stuck _ => .ok [] s
  | .failed e => .failed e

/-- Reads with `g`, or with `h` where `g` is stuck. -/
def either (g h : Grammar) : Grammar := fun s =>
  match g s with
  | .ok ts r => .ok ts r
  | .stuck _ => h s
  | .failed e => .failed e

/-- Reads with `g`, and where `g` is stuck, is stuck without having read anything. -/
def attempt (g : Grammar) : Grammar := fun s =>
  match g s with
  | .ok ts r => .ok ts r
  | .stuck _ => .stuck s
  | .failed e => .failed e

/-- Reads with `g`, and is stuck without having read anything also where `g` fails. -/
def tentative (g : Grammar) : Grammar := fun s =>
  match g s with
  | .ok ts r => .ok ts r
  | .stuck _ => .stuck s
  | .failed _ => .stuck s

/-- Reads with `g` as often as it can.  A round that takes no text is the last one, so the number of
rounds is bounded by the length of the text. -/
def many (g : Grammar) (s : Text) : Outcome (List Token) :=
  match g s with
  | .ok ts r =>
    if r.length < s.length then
      match many g r with
      | .ok us r' => .ok (ts ++ us) r'
      | .stuck r' => .stuck r'
      | .failed e => .failed e
    else .ok ts r
  | .stuck _ => .ok [] s
  | .failed e => .failed e
termination_by s.length

/-- Reads with `g`, and is stuck where that gives no token. -/
def nonempty (g : Grammar) : Grammar := fun s =>
  match g s with
  | .ok [] _ => .stuck s
  | .ok (t :: ts) r => .ok (t :: ts) r
  | .stuck r => .stuck r
  | .failed e => .failed e

/-- Commits to `g`: where it is stuck, what it reads was expected, at the place where it began. -/
def commit (what : String) (g : Grammar) : Grammar := fun s =>
  match g s with
  | .ok ts r => .ok ts r
  | .stuck _ => .failed ⟨.expected what, s⟩
  | .failed e => .failed e

/-- Makes one node of what `g` reads. -/
def node (kind : NodeKind) (g : Grammar) : Grammar := fun s =>
  (g s).map fun ts => [.node kind ts]

/-- The reader that `f` describes in terms of itself.  It may apply itself only to a shorter text,
and is stuck where it would apply itself to another. -/
def fix {α : Type} (f : (Text → Outcome α) → Text → Outcome α) (s : Text) : Outcome α :=
  f (fun r => if r.length < s.length then fix f r else .stuck r) s
termination_by s.length

/-- Reads nothing where the text satisfies `p`, and is stuck elsewhere. -/
def when (p : Text → Bool) : Grammar := fun s =>
  if p s then .ok [] s else .stuck s

/-! ## Leaves -/

/-- Reads exactly the text `start` as a leaf. -/
def exactly (kind : LeafKind) (start : Text) : Grammar := fun s =>
  match Text.after? start s with
  | some r => .ok [.leaf kind start] r
  | none => .stuck s

/-- Reads a symbol. -/
def symbol (start : String) : Grammar :=
  exactly .symbol start.toList

/-- Reads the longest run of characters of a class as a leaf; the run must not be empty. -/
def run (kind : LeafKind) (p : Char → Bool) : Grammar := fun s =>
  match s.takeWhile p with
  | [] => .stuck s
  | c :: cs => .ok [.leaf kind (c :: cs)] (s.dropWhile p)

/-! ## Progress -/

/-- A success of the grammar leaves less text than there was. -/
def Advances (g : Grammar) : Prop :=
  ∀ s ts r, g s = .ok ts r → r.length < s.length

/-- A success of the grammar leaves no more text than there was. -/
def Shrinks (g : Grammar) : Prop :=
  ∀ s ts r, g s = .ok ts r → r.length ≤ s.length

theorem Advances.shrinks {g : Grammar} (hg : Advances g) : Shrinks g :=
  fun s ts r h => Nat.le_of_lt (hg s ts r h)

/-- A sequence succeeds exactly when its two parts do, one behind the other. -/
theorem seq_eq_ok {g h : Grammar} {s r : Text} {ts : List Token} :
    (g ++ h) s = .ok ts r ↔
      ∃ us vs m, g s = .ok us m ∧ h m = .ok vs r ∧ us ++ vs = ts := by
  change seq g h s = .ok ts r ↔ _
  constructor
  · intro e
    unfold seq at e
    cases hs : g s with
    | ok us m =>
      rw [hs] at e
      cases hm : h m with
      | ok vs r' =>
        simp only [hm] at e
        cases e
        exact ⟨us, vs, m, rfl, hm, rfl⟩
      | stuck r' => simp [hm] at e
      | failed f => simp [hm] at e
    | stuck r' => simp [hs] at e
    | failed f => simp [hs] at e
  · rintro ⟨us, vs, m, hu, hv, rfl⟩
    simp [seq, hu, hv]

theorem Advances.seq {g h : Grammar} (hg : Advances g) (hh : Shrinks h) : Advances (g ++ h) := by
  intro s ts r e
  obtain ⟨us, vs, m, hu, hv, -⟩ := seq_eq_ok.1 e
  have := hg _ _ _ hu
  have := hh _ _ _ hv
  omega

theorem Shrinks.seq_advances {g h : Grammar} (hg : Shrinks g) (hh : Advances h) :
    Advances (g ++ h) := by
  intro s ts r e
  obtain ⟨us, vs, m, hu, hv, -⟩ := seq_eq_ok.1 e
  have := hg _ _ _ hu
  have := hh _ _ _ hv
  omega

theorem Shrinks.optional {g : Grammar} (hg : Shrinks g) : Shrinks (optional g) := by
  intro s ts r e
  unfold Grammar.optional at e
  cases h : g s with
  | ok us m => rw [h] at e; cases e; exact hg _ _ _ h
  | stuck m => rw [h] at e; cases e; exact Nat.le_refl _
  | failed f => rw [h] at e; cases e

theorem Advances.either {g h : Grammar} (hg : Advances g) (hh : Advances h) :
    Advances (either g h) := by
  intro s ts r e
  unfold Grammar.either at e
  cases hs : g s with
  | ok us m => rw [hs] at e; cases e; exact hg _ _ _ hs
  | stuck m => rw [hs] at e; exact hh _ _ _ e
  | failed f => rw [hs] at e; cases e

theorem Advances.node {g : Grammar} (kind : NodeKind) (hg : Advances g) :
    Advances (node kind g) := by
  intro s ts r e
  unfold Grammar.node at e
  cases hs : g s with
  | ok us m => rw [hs] at e; cases e; exact hg _ _ _ hs
  | stuck m => rw [hs] at e; cases e
  | failed f => rw [hs] at e; cases e

theorem Shrinks.many {g : Grammar} (hg : Shrinks g) : Shrinks (many g) := by
  intro s
  fun_induction Grammar.many g s with
  | case1 s ts r hs hlt us r' hm ih =>
    intro _ _ e
    cases e
    have := ih _ _ hm
    omega
  | case2 => intro _ _ e; cases e
  | case3 => intro _ _ e; cases e
  | case4 s ts r hs hlt =>
    intro _ _ e
    cases e
    exact hg _ _ _ hs
  | case5 s r hs => intro _ _ e; cases e; exact Nat.le_refl _
  | case6 => intro _ _ e; cases e

/-- What follows a text that starts with `start` is as much shorter as `start` is long. -/
theorem length_of_after? {start s r : Text} (h : Text.after? start s = some r) :
    s.length = start.length + r.length := by
  fun_induction Text.after? start s with
  | case1 s => cases h; simp
  | case2 => cases h
  | case3 cs d ds ih =>
    have := ih h
    simp only [List.length_cons]
    omega
  | case4 => cases h

theorem advances_exactly (kind : LeafKind) {start : Text} (hs : start ≠ []) :
    Advances (exactly kind start) := by
  intro s ts r e
  unfold exactly at e
  cases h : Text.after? start s with
  | none => rw [h] at e; cases e
  | some m =>
    rw [h] at e
    cases e
    have := length_of_after? h
    have := List.length_pos_iff.2 hs
    omega

theorem advances_run (kind : LeafKind) (p : Char → Bool) : Advances (run kind p) := by
  intro s ts r e
  unfold run at e
  cases h : s.takeWhile p with
  | nil => rw [h] at e; cases e
  | cons c cs =>
    rw [h] at e
    cases e
    have := congrArg List.length (List.takeWhile_append_dropWhile (p := p) (l := s))
    rw [h] at this
    simp only [List.cons_append, List.length_cons, List.length_append] at this
    omega

end Grammar

end Containerfile
