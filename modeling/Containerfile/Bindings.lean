import Containerfile.Text

/-!
# Values of variables

A variable can be absent, declared without a value, or set.  The order of declaration is kept and
shows in listings: a later value replaces an earlier one in its place.

## Main definitions

* `Bindings` — names with their values, in order.
* `Bindings.find?`, `Bindings.insert`, `Bindings.extend` — looking up and adding.
* `Bindings.value?` — the value of a variable that is set.
-/

namespace Containerfile

/-- Names with their values, in the order of their first declaration.  A name without a value is
declared but unset. -/
structure Bindings where
  entries : List (Text × Option Text)
deriving DecidableEq, Repr

namespace Bindings

/-- No variables at all. -/
def empty : Bindings :=
  ⟨[]⟩

/-- The value found under a name in a list of entries. -/
def lookup (name : Text) : List (Text × Option Text) → Option (Option Text)
  | [] => none
  | (n, v) :: es => if n = name then some v else lookup name es

/-- What is known of a name: nothing if it is not declared, otherwise its value if it has one. -/
def find? (b : Bindings) (name : Text) : Option (Option Text) :=
  lookup name b.entries

/-- The value of a name that is set. -/
def value? (b : Bindings) (name : Text) : Option Text :=
  (b.find? name).join

/-- The entries with a value under a name: in place of the one that was there, or at the end. -/
def put (name : Text) (value : Option Text) :
    List (Text × Option Text) → List (Text × Option Text)
  | [] => [(name, value)]
  | (n, v) :: es => if n = name then (n, value) :: es else (n, v) :: put name value es

/-- The bindings with a value under a name. -/
def insert (b : Bindings) (name : Text) (value : Option Text) : Bindings :=
  ⟨put name value b.entries⟩

/-- The bindings with all the entries of a list inserted in turn. -/
def extend (b : Bindings) (entries : List (Text × Option Text)) : Bindings :=
  entries.foldl (fun b e => b.insert e.1 e.2) b

/-- The bindings of a list of entries, in which the last entry of a name counts. -/
def ofList (entries : List (Text × Option Text)) : Bindings :=
  empty.extend entries

end Bindings

end Containerfile
