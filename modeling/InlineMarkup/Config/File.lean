import InlineMarkup.Config.Text
import InlineMarkup.Text.Utf8

/-! Settings kept in a file. -/

namespace InlineMarkup.Config

/-- What there is at the path of a file. -/
inductive Place
  /-- Nothing, and a file can be made there. -/
  | vacant
  /-- Nothing, and no file can be made, because a file stands where its directory should be. -/
  | blocked
  | directory
  | file (content : ByteArray)

/-- Why settings cannot be loaded. -/
inductive LoadError
  | isDirectory
  | notUtf8
  /-- The content is not TOML, or a setting in it cannot be read. -/
  | malformed
deriving DecidableEq, Repr

/-- Why settings cannot be saved. -/
inductive SaveError
  | blocked
  | isDirectory
deriving DecidableEq, Repr

/-- The settings at a place, if there are any. -/
def load : Place → Except LoadError (Option Config)
  | .vacant | .blocked => .ok none
  | .directory => .error .isDirectory
  | .file content =>
    match Utf8.decode content with
    | .error _ => .error .notUtf8
    | .ok text =>
      match ofText? text with
      | none => .error .malformed
      | some config => .ok (some config)

/-- What is at a place once the settings have been saved there. -/
def save (config : Config) : Place → Except SaveError Place
  | .vacant | .file _ => .ok (.file (String.ofList config.toText).toUTF8)
  | .blocked => .error .blocked
  | .directory => .error .isDirectory

/-- The settings at a place, or the default ones where there are none. -/
def loadOrDefault (place : Place) : Except LoadError Config := do
  return (← load place).getD {}

end InlineMarkup.Config
