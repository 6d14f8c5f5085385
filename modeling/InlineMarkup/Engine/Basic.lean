import InlineMarkup.Config
import InlineMarkup.Document.Markdown
import InlineMarkup.Engine.Log
import InlineMarkup.Text.Utf8

/-! The engine: input within its limits becomes canonical markdown. -/

namespace InlineMarkup

/-- Why an input is not parsed at all. -/
inductive EngineError
  | inputTooLarge (len limit : Nat)
  /-- The input is UTF-8 for no more than its first `validUpTo` bytes. -/
  | invalidUtf8 (validUpTo : Nat)
deriving DecidableEq, Repr

def EngineError.message : EngineError → String
  | inputTooLarge len limit => s!"Input is {len} bytes, the limit is {limit}"
  | invalidUtf8 validUpTo => s!"Input is not valid UTF-8 after byte {validUpTo}"

/-- What comes of an input. -/
structure Parsed where
  /-- The canonical markdown of the document. -/
  output : List Char
  /-- The number of scalar values that a reader sees. -/
  textLength : Nat
  warnings : Array Warning
  document : Document
deriving DecidableEq, Repr

/-- What an engine answers, and the log lines it writes on the way. -/
structure Outcome where
  result : Except EngineError Parsed
  log : List LogLine

structure Engine where
  config : Config := {}
deriving DecidableEq, Repr

namespace Engine

/-- The name and the version that every answer carries. -/
def name : String := "tagmark"

def version : String := "0.1.0"

variable (engine : Engine)

/-- Parses a text of any length. -/
def run (text : List Char) : Parsed × List LogLine :=
  let parse := parseWith ⟨engine.config.bareUrls⟩ text
  let textLength := parse.document.textLength Document.rootId
  ({ output := parse.document.markdown Document.rootId
     textLength
     warnings := parse.warnings
     document := parse.document },
    parse.findings.toList.map LogLine.ofFinding ++ parse.recoveries.toList.map LogLine.ofRecovery
      ++ [.parsed (byteSize text) parse.findings.size textLength])

/-- The answer to a text within the limit, after the log lines `before`. -/
def answer (before : List LogLine) (text : List Char) : Outcome :=
  let (parsed, log) := engine.run text
  ⟨.ok parsed, before ++ log⟩

/-- The answer to an input of `len` bytes, which are too many. -/
def tooLarge (len : Nat) : Outcome :=
  ⟨.error (.inputTooLarge len engine.config.maxInputBytes), []⟩

def parse (text : List Char) : Outcome :=
  if engine.config.maxInputBytes < byteSize text then engine.tooLarge (byteSize text)
  else engine.answer [] text

/-- Parses bytes that should be UTF-8, and treats them by the policy if they are not. -/
def parseBytes (bytes : ByteArray) : Outcome :=
  if engine.config.maxInputBytes < bytes.size then engine.tooLarge bytes.size
  else
    match Utf8.decode bytes, engine.config.invalidUtf8 with
    | .ok text, _ => engine.answer [] text
    | .error offset, .reject => ⟨.error (.invalidUtf8 offset), [.rejectedUtf8 offset]⟩
    | .error offset, .replace => engine.answer [.replacedUtf8 offset] (Utf8.decodeLossy bytes)

end Engine

end InlineMarkup
