import InlineMarkup.Config
import InlineMarkup.Toml.Reader

/-! Settings as TOML. A setting that the text does not name keeps its default. -/

namespace InlineMarkup.Config

/-- The least size that cannot be counted. -/
def sizeBound : Nat := Nat.pow 2 64

/-- A number of bytes. -/
def size? : Toml.Value → Option Nat
  | .integer n => if 0 ≤ n ∧ n < sizeBound then some n.toNat else none
  | _ => none

def flag? : Toml.Value → Option Bool
  | .boolean b => some b
  | _ => none

/-- A policy by its name, or by a table with its name as the only key and nothing in it. -/
def policy? : Toml.Value → Option Utf8Policy
  | .string name => Utf8Policy.ofName? (String.ofList name)
  | .table _ [(name, .table _ [])] => Utf8Policy.ofName? (String.ofList name)
  | .table _ [(name, .array [])] => Utf8Policy.ofName? (String.ofList name)
  | _ => none

/-- The value of a setting: its default if the table does not name it, and none if what it
names cannot be read. -/
def setting? (table : Toml.Value) (key : String) (default : α) (read? : Toml.Value → Option α) :
    Option α :=
  match table.get? key.toList with
  | none => some default
  | some value => read? value

/-- The settings in a table. Other keys are passed over. -/
def ofTable? (table : Toml.Value) : Option Config := do
  let default : Config := {}
  return {
    maxInputBytes := ← setting? table "max_input_bytes" default.maxInputBytes size?
    bareUrls := ← setting? table "bare_urls" default.bareUrls flag?
    invalidUtf8 := ← setting? table "invalid_utf8" default.invalidUtf8 policy? }

/-- The settings that a text says. -/
def ofText? (text : List Char) : Option Config := (Toml.parse? text).bind ofTable?

/-- The text that says the settings, each on a line of its own. -/
def toText (config : Config) : List Char :=
  "max_input_bytes = ".toList ++ Nat.toDigits 10 config.maxInputBytes ++ ['\n'] ++
    "bare_urls = ".toList ++ (if config.bareUrls then "true" else "false").toList ++ ['\n'] ++
    "invalid_utf8 = \"".toList ++ config.invalidUtf8.name.toList ++ ['"', '\n']

end InlineMarkup.Config
