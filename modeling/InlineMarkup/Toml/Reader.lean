import InlineMarkup.Toml.Moment
import InlineMarkup.Toml.Value

/-! Reading a TOML document: statements line by line, each of which adds to one table. -/

namespace InlineMarkup.Toml

def isBareKeyChar (c : Char) : Bool := c.isAlphanum || c == '_' || c == '-'

/-- One part of a key. -/
def simpleKey? (rest : List Char) : Option (Key × List Char) :=
  match rest.span isBareKeyChar with
  | ([], rest) => lineString? rest
  | (key, rest) => some (key, rest)

/-- The parts of a key, at most `count` of them, which are joined by points, after those in
`seen`. -/
def keyParts? : Nat → List Key → List Char → Option (List Key × List Char)
  | 0, _, _ => none
  | count + 1, seen, rest => do
    let (key, rest) ← simpleKey? (skipBlanks rest)
    match skipBlanks rest with
    | '.' :: rest => keyParts? count (key :: seen) rest
    | rest => return ((key :: seen).reverse, rest)

/-- A key may have this many parts. -/
def keyPartsLimit : Nat := 80

/-- A key, and what follows it and the blanks after it. -/
def key? (rest : List Char) : Option (List Key × List Char) := keyParts? keyPartsLimit [] rest

/-- Whether `c` may stand in a number, a date, a time or a boolean. -/
def isAtomChar (c : Char) : Bool := isBareKeyChar c || c == '+' || c == '.' || c == ':'

/-- The text of a number, a moment or a boolean, and what follows it. One space may stand
between a date and a time. -/
def splitAtom (rest : List Char) : List Char × List Char :=
  let (atom, after) := rest.span isAtomChar
  match date? atom, after with
  | some [], ' ' :: c :: after =>
    if c.isDigit then
      let (more, after) := (c :: after).span isAtomChar
      (atom ++ ' ' :: more, after)
    else (atom, ' ' :: c :: after)
  | _, after => (atom, after)

def atom? (text : List Char) : Option Value :=
  if text = "true".toList then some (.boolean true)
  else if text = "false".toList then some (.boolean false)
  else if isMoment text then some (.moment text)
  else if isFloat text then some (.float text)
  else (integer? text).map .integer

/-- The items of an array after those in `seen`, up to the closing bracket. A comma may follow
the last one. -/
def items? (item? : List Char → Option (Value × List Char)) :
    Nat → List Value → List Char → Option (List Value × List Char)
  | 0, _, _ => none
  | fuel + 1, seen, rest =>
    match skipSpace rest with
    | ']' :: rest => some (seen.reverse, rest)
    | rest => do
      let (item, rest) ← item? rest
      match skipSpace rest with
      | ',' :: rest => items? item? fuel (item :: seen) rest
      | ']' :: rest => return ((item :: seen).reverse, rest)
      | _ => none

/-- A key with its value, and what follows. `skip` passes over what may stand on either side of
the equals sign. -/
def assignment? (skip : List Char → List Char)
    (value? : List Char → Option (Value × List Char)) (rest : List Char) :
    Option ((List Key × Value) × List Char) := do
  let (path, rest) ← key? rest
  match skip rest with
  | '=' :: rest =>
    let (value, rest) ← value? (skip rest)
    return ((path, value), rest)
  | _ => none

/-- Gives a dotted key its value. -/
def Value.assignPath (path : List Key) (value table : Value) : Option Value := do
  Value.assign path.dropLast (← path.getLast?) value table

/-- The entries of a table in braces after those in `table`, up to the closing brace. Lines may
break anywhere but inside a key, and a comma may follow the last entry. -/
def entries? (value? : List Char → Option (Value × List Char)) :
    Nat → Value → List Char → Option (Value × List Char)
  | 0, _, _ => none
  | fuel + 1, table, rest =>
    match skipSpace rest with
    | '\x7d' :: rest => some (table, rest)
    | rest => do
      let ((path, value), rest) ← assignment? skipSpace value? rest
      let table ← Value.assignPath path value table
      match skipSpace rest with
      | ',' :: rest => entries? value? fuel table rest
      | '\x7d' :: rest => return (table, rest)
      | _ => none

/-- A value that holds no others: a string, a number, a moment or a boolean. -/
def scalar? (rest : List Char) : Option (Value × List Char) :=
  match rest with
  | '"' :: _ | '\'' :: _ => (string? rest).map fun (text, rest) => (.string text, rest)
  | rest =>
    let (atom, rest) := splitAtom rest
    (atom? atom).map fun value => (value, rest)

/-- A value that opens at most `levels` brackets and braces within one another, and what follows
it. -/
def valueWithin? : Nat → List Char → Option (Value × List Char)
  | levels + 1, '[' :: rest =>
    (items? (valueWithin? levels) (rest.length + 1) [] rest).map fun (items, rest) =>
      (.array items, rest)
  | levels + 1, '\x7b' :: rest =>
    entries? (valueWithin? levels) (rest.length + 1) (Value.emptyTable .braces) rest
  | _, rest => scalar? rest

/-- Arrays and tables in braces may hold one another this many deep. -/
def nestingLimit : Nat := 80

def value? (rest : List Char) : Option (Value × List Char) := valueWithin? nestingLimit rest

inductive Statement
  /-- A key with its value, in the table of the last header. -/
  | assign (path : List Key) (value : Value)
  | header (path : List Key)
  /-- A header in double brackets. -/
  | arrayHeader (path : List Key)
deriving Repr

/-- The statement that starts here, and what follows on the same line. -/
def statement? (rest : List Char) : Option (Statement × List Char) :=
  match rest with
  | '[' :: '[' :: rest => do
    let (path, rest) ← key? rest
    match rest with
    | ']' :: ']' :: rest => return (.arrayHeader path, rest)
    | _ => none
  | '[' :: rest => do
    let (path, rest) ← key? rest
    match rest with
    | ']' :: rest => return (.header path, rest)
    | _ => none
  | rest =>
    (assignment? skipBlanks value? rest).map fun ((path, value), rest) => (.assign path value, rest)

/-- The statements after those in `seen`, each of which ends its line. -/
def statementsFrom? : Nat → List Statement → List Char → Option (List Statement)
  | 0, _, _ => none
  | fuel + 1, seen, rest =>
    match skipSpace rest with
    | [] => some seen.reverse
    | rest => do
      let (statement, rest) ← statement? rest
      statementsFrom? fuel (statement :: seen) (← endLine? rest)

def statements? (text : List Char) : Option (List Statement) :=
  statementsFrom? (text.length + 1) [] text

/-- Carries out a statement on the table of the whole document. `current` is the last header. -/
def Statement.run (state : List Key × Value) : Statement → Option (List Key × Value)
  | assign path value => do
    let (current, root) := state
    return (current, ← Value.update false current (Value.assignPath path value) root)
  | header path => do
    let declare := Value.declareTable (← path.getLast?)
    return (path, ← Value.update false path.dropLast declare state.2)
  | arrayHeader path => do
    let append := Value.appendTable (← path.getLast?)
    return (path, ← Value.update false path.dropLast append state.2)

/-- The table that a document says. -/
def parse? (text : List Char) : Option Value := do
  let statements ← statements? (← normalize? text)
  let (_, root) ← statements.foldlM Statement.run ([], Value.emptyTable .header)
  return root

end InlineMarkup.Toml
