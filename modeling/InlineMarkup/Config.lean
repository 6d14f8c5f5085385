/-! The settings of the engine. -/

namespace InlineMarkup

/-- What to do with input bytes that are not UTF-8. -/
inductive Utf8Policy
  /-- Put U+FFFD in place of each ill-formed sequence. -/
  | replace
  /-- Refuse the input. -/
  | reject
deriving DecidableEq, Repr

namespace Utf8Policy

def all : List Utf8Policy := [replace, reject]

def name : Utf8Policy → String
  | replace => "replace"
  | reject => "reject"

def ofName? (name : String) : Option Utf8Policy := all.find? (·.name == name)

theorem ofName?_name (policy : Utf8Policy) : ofName? policy.name = some policy := by
  cases policy <;> rfl

end Utf8Policy

structure Config where
  /-- Longer inputs are refused. -/
  maxInputBytes : Nat := 1048576
  /-- Whether an address that stands in the text as it is becomes a link. -/
  bareUrls : Bool := false
  invalidUtf8 : Utf8Policy := .replace
deriving DecidableEq, Repr

/-- Where the settings of a user with the given home directory are kept. -/
def Config.path (home : String) : String := home ++ "/.config/tagmark/config.toml"

end InlineMarkup
