/-! The values of TOML. -/

namespace InlineMarkup.Toml

/-- How a table came to be, which decides how it may still grow. -/
inductive Origin
  /-- A header names it, or it is the root. -/
  | header
  /-- It lies on the way to a table that a header names. -/
  | implied
  /-- It lies on the way of a dotted key. -/
  | dotted
  /-- It stands in braces, and is complete. -/
  | braces
deriving DecidableEq, Repr

/-- Whether a table of that origin was never written down itself. -/
def Origin.isImplicit : Origin → Bool
  | implied | dotted => true
  | header | braces => false

abbrev Key := List Char

inductive Value
  | string (text : List Char)
  | integer (n : Int)
  /-- A float, as it is written. -/
  | float (text : List Char)
  | boolean (b : Bool)
  /-- A date, a time or both, as it is written. -/
  | moment (text : List Char)
  | array (items : List Value)
  /-- The tables that headers in double brackets name, the last one first. -/
  | tables (items : List Value)
  | table (origin : Origin) (entries : List (Key × Value))
deriving Repr

namespace Value

def emptyTable (origin : Origin) : Value := table origin []

/-- The value of a key. -/
def get? (key : Key) : Value → Option Value
  | table _ entries => entries.lookup key
  | _ => none

end Value

/-- Puts a value in the place of the one that the key has. -/
def replaceEntry (key : Key) (value : Value) (entries : List (Key × Value)) :
    List (Key × Value) :=
  entries.map fun entry => if entry.1 == key then (key, value) else entry

namespace Value

/-- Changes the table at the end of `path`, making the tables on the way that are not there.
A dotted key may not lead through a table that was written down itself. Of tables in double
brackets the last one counts. -/
def update (dotted : Bool) (path : List Key) (f : Value → Option Value) : Value → Option Value
  | table origin entries =>
    if origin = .braces ∧ !dotted then none
    else
      match path with
      | [] => f (table origin entries)
      | key :: path =>
        match entries.lookup key with
        | none => do
          let child ← update dotted path f (emptyTable (if dotted then .dotted else .implied))
          return table origin (entries ++ [(key, child)])
        | some (tables (last :: items)) => do
          let last ← update dotted path f last
          return table origin (replaceEntry key (tables (last :: items)) entries)
        | some (table childOrigin children) => do
          if dotted ∧ !childOrigin.isImplicit then none
          let child ← update dotted path f (table childOrigin children)
          return table origin (replaceEntry key child entries)
        | some _ => none
  | _ => none

/-- Gives a new key a value. -/
def insert (key : Key) (value : Value) : Value → Option Value
  | table origin entries =>
    if (entries.lookup key).isSome then none else some (table origin (entries ++ [(key, value)]))
  | _ => none

/-- Gives the dotted key `path` followed by `key` a value. A table that a header leads through
may not be added to by a dotted key. -/
def assign (path : List Key) (key : Key) (value : Value) : Value → Option Value :=
  update true path fun
    | table origin entries =>
      if !path.isEmpty ∧ origin ≠ .dotted then none else insert key value (table origin entries)
    | _ => none

/-- Names the table `key`, which may so far only lie on the way to others. -/
def declareTable (key : Key) : Value → Option Value
  | table origin entries =>
    match entries.lookup key with
    | none => some (table origin (entries ++ [(key, emptyTable .header)]))
    | some (table .implied children) =>
      some (table origin (replaceEntry key (table .header children) entries))
    | some _ => none
  | _ => none

/-- Adds one more to the tables `key`. -/
def appendTable (key : Key) : Value → Option Value
  | table origin entries =>
    match entries.lookup key with
    | none => some (table origin (entries ++ [(key, tables [emptyTable .header])]))
    | some (tables items) =>
      some (table origin (replaceEntry key (tables (emptyTable .header :: items)) entries))
    | some _ => none
  | _ => none

end Value

end InlineMarkup.Toml
