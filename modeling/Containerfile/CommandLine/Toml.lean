import Containerfile.Text

/-!
# Configuration files

The part of TOML that configurations use: tables, bare and quoted keys, strings on one line,
booleans and integers.  Every construct ends with its line, so a file is read line by line, and what
it says is a list of full key paths, with what stands at each of them.

A key is given once.  A table is there because a header opens it, because the header of another
table leads through it, or because the dots of a key make it.  A header opens a table that is not
there yet, or one that other headers led through.  A dotted key leads through any table that no
header has opened, but it puts its value only into a table that dots have made.

## Main definitions

* `Toml.Scalar`, `Toml.Origin`, `Toml.Node`, `Toml` — what a file says.
* `Toml.openTable?`, `Toml.assign?` — what headers and keys add to it.
* `Toml.parse?` — the file that a text is.
-/

namespace Containerfile

namespace Toml

/-- A value. -/
inductive Scalar where
  | string (s : Text)
  | boolean (b : Bool)
  | integer (n : Int)
deriving DecidableEq, Repr

/-- Why a table is there. -/
inductive Origin where
  /-- A header opens it. -/
  | opened
  /-- The header of a table below leads through it. -/
  | passed
  /-- The dots of a key make it. -/
  | dotted
deriving DecidableEq, Repr

/-- What stands at a key path. -/
inductive Node where
  | value (value : Scalar)
  | table (origin : Origin)
deriving DecidableEq, Repr

end Toml

/-- What a file says: the key paths, in the order in which they come up, and what stands there. -/
structure Toml where
  nodes : List (List Text × Toml.Node)
deriving DecidableEq, Repr

namespace Toml

/-! ## Characters -/

/-- Whether a character may stand in a comment or a string. -/
def isPrintable (c : Char) : Bool :=
  c == '\t' || (c.toNat ≥ 0x20 && c.toNat != 0x7F)

/-- Whether a character may stand in a key without quotes. -/
def isBareKeyChar (c : Char) : Bool :=
  c.isAlphanum || c == '_' || c == '-'

/-- The text without blanks at its start. -/
def skipBlanks (s : Text) : Text :=
  s.dropWhile isBlank

/-- Whether a line may end here: nothing is left but blanks and a comment. -/
def atEnd (s : Text) : Bool :=
  match skipBlanks s with
  | [] => true
  | '#' :: comment => comment.all isPrintable
  | _ => false

/-! ## Strings -/

/-- The value of a hexadecimal digit. -/
def hexDigit? (c : Char) : Option Nat :=
  if c.isDigit then some (c.toNat - '0'.toNat)
  else if 'a' ≤ c && c ≤ 'f' then some (c.toNat - 'a'.toNat + 10)
  else if 'A' ≤ c && c ≤ 'F' then some (c.toNat - 'A'.toNat + 10)
  else none

/-- The number that digits of a base write. -/
def digits? (base : Nat) : Nat → Text → Option Nat
  | n, [] => some n
  | n, c :: s =>
    match hexDigit? c with
    | some d => if d < base then digits? base (n * base + d) s else none
    | none => none

/-- The character with a code point. -/
def ofCodePoint? (n : Nat) : Option Char :=
  if n.isValidChar then some (Char.ofNat n) else none

/-- The character that `n` hexadecimal digits write, and what follows them. -/
def codePoint? (n : Nat) (s : Text) : Option (Char × Text) :=
  if (s.take n).length = n then do
    let c ← digits? 16 0 (s.take n)
    let c ← ofCodePoint? c
    return (c, s.drop n)
  else none

/-- The character that an escape stands for, given the text behind the backslash. -/
def escape? : Text → Option (Char × Text)
  | 'b' :: s => some ('\x08', s)
  | 't' :: s => some ('\t', s)
  | 'n' :: s => some ('\n', s)
  | 'f' :: s => some ('\x0c', s)
  | 'r' :: s => some ('\r', s)
  | 'e' :: s => some ('\x1b', s)
  | '"' :: s => some ('"', s)
  | '\\' :: s => some ('\\', s)
  | 'x' :: s => codePoint? 2 s
  | 'u' :: s => codePoint? 4 s
  | 'U' :: s => codePoint? 8 s
  | _ => none

/-- The rest of a string between double quotes, and what follows it. -/
def basicString? (s : Text) : Option (Text × Text) :=
  match s with
  | [] => none
  | '"' :: r => some ([], r)
  | '\\' :: r =>
    match escape? r with
    | some (c, r') =>
      if r'.length < r.length then (basicString? r').map fun p => (c :: p.1, p.2) else none
    | none => none
  | c :: r => if isPrintable c then (basicString? r).map fun p => (c :: p.1, p.2) else none
termination_by s.length
decreasing_by
  all_goals simp only [List.length_cons]
  all_goals omega

/-- The rest of a string between single quotes, and what follows it. -/
def literalString? : Text → Option (Text × Text)
  | [] => none
  | c :: r =>
    if c = '\'' then some ([], r)
    else if isPrintable c then (literalString? r).map fun p => (c :: p.1, p.2)
    else none

/-! ## Keys and values -/

/-- A simple key, and what follows it. -/
def simpleKey? : Text → Option (Text × Text)
  | '"' :: s => basicString? s
  | '\'' :: s => literalString? s
  | s =>
    match s.takeWhile isBareKeyChar with
    | [] => none
    | c :: cs => some (c :: cs, s.dropWhile isBareKeyChar)

/-- A dotted key, and what follows it, without blanks. -/
def key? (s : Text) : Option (List Text × Text) :=
  match simpleKey? (skipBlanks s) with
  | none => none
  | some (first, r) =>
    match skipBlanks r with
    | '.' :: r' =>
      if r'.length < s.length then (key? r').map fun p => (first :: p.1, p.2) else none
    | r' => some ([first], r')
termination_by s.length

/-- Digits without the underscores between them; an underscore must have a digit on both sides. -/
def plainDigits? : Text → Option Text
  | [] => some []
  | [c] => if c = '_' then none else some [c]
  | c :: d :: s =>
    if c = '_' then none
    else if d = '_' then
      match s with
      | [] => none
      | e :: s' => if e = '_' then none else (plainDigits? (e :: s')).map (c :: ·)
    else (plainDigits? (d :: s)).map (c :: ·)

/-- A number in a base. -/
def natural? (base : Nat) (s : Text) : Option Nat := do
  let plain ← plainDigits? s
  if plain.isEmpty then none else digits? base 0 plain

/-- A decimal number, which has no needless zero at its start. -/
def decimal? (s : Text) : Option Nat :=
  match s with
  | '0' :: _ :: _ => none
  | s => natural? 10 s

/-- An integer, as it is written. -/
def integer? : Text → Option Int
  | '0' :: 'x' :: s => (natural? 16 s).map Int.ofNat
  | '0' :: 'o' :: s => (natural? 8 s).map Int.ofNat
  | '0' :: 'b' :: s => (natural? 2 s).map Int.ofNat
  | '+' :: s => (decimal? s).map Int.ofNat
  | '-' :: s => (decimal? s).map fun n => -Int.ofNat n
  | s => (decimal? s).map Int.ofNat

/-- A value that is a word: a boolean, or an integer of any size. -/
def word? (s : Text) : Option Scalar :=
  if s = "true".toList then some (.boolean true)
  else if s = "false".toList then some (.boolean false)
  else (integer? s).map .integer

/-- Whether a character can belong to a word. -/
def isWordChar (c : Char) : Bool :=
  c.isAlphanum || c == '_' || c == '+' || c == '-'

/-- A value, and what follows it. -/
def value? : Text → Option (Scalar × Text)
  | '"' :: s => (basicString? s).map fun p => (.string p.1, p.2)
  | '\'' :: s => (literalString? s).map fun p => (.string p.1, p.2)
  | s => (word? (s.takeWhile isWordChar)).map fun v => (v, s.dropWhile isWordChar)

/-! ## Files -/

/-- What stands at a key path. -/
def find? (f : Toml) (path : List Text) : Option Node :=
  (f.nodes.find? fun n => n.1 == path).map Prod.snd

/-- The file with a node at a key path, in place of the one that is there. -/
def put (f : Toml) (path : List Text) (node : Node) : Toml :=
  ⟨(f.nodes.filter fun n => n.1 != path) ++ [(path, node)]⟩

/-- Leads from the table `above` along names.  A table that is missing is made, of the given origin;
one that is there must have an origin that `allows` accepts. -/
def lead? (made : Origin) (allows : Origin → Bool) :
    Toml → List Text → List Text → Option Toml
  | f, _, [] => some f
  | f, above, name :: names =>
    let path := above ++ [name]
    match f.find? path with
    | none => lead? made allows (f.put path (.table made)) path names
    | some (.table origin) => if allows origin then lead? made allows f path names else none
    | some (.value _) => none

/-- The file with one more table opened by a header, if that is allowed. -/
def openTable? (f : Toml) (path : List Text) : Option Toml := do
  let f ← lead? .passed (fun _ => true) f [] path.dropLast
  match f.find? path with
  | none | some (.table .passed) => some (f.put path (.table .opened))
  | some _ => none

/-- Whether a key with these names before its last one may put its value behind them. -/
def takesValue (f : Toml) (table names : List Text) : Bool :=
  names.isEmpty || f.find? (table ++ names) == some (.table .dotted)

/-- The file with one more value, under a key within a table, if that is allowed. -/
def assign? (f : Toml) (table key : List Text) (value : Scalar) : Option Toml := do
  let f ← lead? .dotted (· != .opened) f table key.dropLast
  if f.takesValue table key.dropLast && (f.find? (table ++ key)).isNone then
    some (f.put (table ++ key) (.value value))
  else none

/-- The file with one more line, and the table in which the next line stands. -/
def addLine? (f : Toml) (table : List Text) (line : Text) : Option (Toml × List Text) :=
  if atEnd line then some (f, table)
  else
    match skipBlanks line with
    | '[' :: s =>
      match key? s with
      | some (path, ']' :: r) =>
        if atEnd r then (openTable? f path).map fun f => (f, path) else none
      | _ => none
    | s =>
      match key? s with
      | some (path, '=' :: r) =>
        match value? (skipBlanks r) with
        | some (value, r') =>
          if atEnd r' then (assign? f table path value).map fun f => (f, table) else none
        | none => none
      | _ => none

/-- The file with more lines. -/
def addLines? : Toml → List Text → List Text → Option Toml
  | f, _, [] => some f
  | f, table, line :: lines =>
    match addLine? f table line with
    | some (f, table) => addLines? f table lines
    | none => none

/-- The lines of a text, without their line ends. -/
def lines : Text → List Text
  | [] => [[]]
  | '\n' :: s => [] :: lines s
  | '\r' :: '\n' :: s => [] :: lines s
  | c :: s =>
    match lines s with
    | [] => [[c]]
    | first :: rest => (c :: first) :: rest

/-- The text without a byte order mark at its start. -/
def withoutMark : Text → Text
  | '\uFEFF' :: s => s
  | s => s

/-- The file that a text is. -/
def parse? (s : Text) : Option Toml :=
  addLines? ⟨[]⟩ [] (lines (withoutMark s))

end Toml

end Containerfile
