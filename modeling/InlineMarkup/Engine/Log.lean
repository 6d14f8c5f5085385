import InlineMarkup.Parse

/-! The log lines of a parse. -/

namespace InlineMarkup

inductive LogLevel
  | trace | debug | warn
deriving DecidableEq, Repr

def LogLevel.name : LogLevel → String
  | trace => "TRACE"
  | debug => "DEBUG"
  | warn => "WARN"

inductive LogLine
  /-- A trigger made a token of another kind, or not without a warning. -/
  | degraded (trigger : Trigger) (pos : Nat) (kind : TokenKind)
  /-- A delimiter came where no more tags may be open. -/
  | nestingLimit (tag : Tag) (pos : Nat)
  /-- A delimiter opened a tag that was never closed. -/
  | demoted (tag : Tag) (delimiter : List Char)
  /-- The input was refused because of the byte after its first `offset` ones. -/
  | rejectedUtf8 (offset : Nat)
  /-- The input was mended from the byte after its first `offset` ones on. -/
  | replacedUtf8 (offset : Nat)
  | parsed (bytes warnings textLength : Nat)
deriving DecidableEq, Repr

namespace LogLine

def ofFinding (finding : Finding) : LogLine := degraded finding.trigger finding.pos finding.kind

def ofRecovery : Recovery → LogLine
  | .nestingLimit tag pos => nestingLimit tag pos
  | .demoted tag delimiter => demoted tag delimiter

def level : LogLine → LogLevel
  | degraded _ _ _ => .trace
  | nestingLimit _ _ | demoted _ _ | parsed _ _ _ => .debug
  | rejectedUtf8 _ | replacedUtf8 _ => .warn

def message : LogLine → String
  | degraded trigger pos kind => s!"degraded {trigger.name} at byte {pos} to {kind.name}"
  | nestingLimit tag pos =>
    s!"nesting limit {Assembly.maxDepth} reached, {tag.name} at byte {pos} stays text"
  | demoted tag delimiter =>
    let opener := String.ofList delimiter
    s!"demoting unmatched {tag.name} opened by \"{opener}\" to text"
  | rejectedUtf8 offset => s!"Rejecting input: invalid UTF-8 after byte {offset}"
  | replacedUtf8 offset =>
    s!"Input has invalid UTF-8 after byte {offset}, replacing with U+FFFD"
  | parsed bytes warnings textLength =>
    s!"Parsed {bytes} bytes: {warnings} warnings, {textLength} text length"

end LogLine

end InlineMarkup
