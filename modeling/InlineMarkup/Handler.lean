import InlineMarkup.Reading.Rule

/-! Handlers: the rules as they are carried out on the bytes of a text. A handler is given the whole text,
the byte of its trigger and the warnings so far. There is no result where it would look beyond the end of
the text, or cut the text there or inside a scalar value. -/

namespace InlineMarkup

/-- The bytes of a text in UTF-8. -/
def utf8Bytes (text : List Char) : List UInt8 := text.flatMap String.utf8EncodeChar

/-- The scalar value that starts at byte `index`. -/
def charAt? (text : List Char) (index : Nat) : Option Char := do (← dropBytes? index text).head?

/-- The warning of a construct that lacks what is expected next: `found` stands there, or the
text ends. -/
def Warning.unexpectedIn (kind : TokenKind) (text : List Char) (index : Nat) (expected : String)
    (found : Option Char) (suggestion : Option String) : Warning :=
  match found with
  | none => .inText kind .unexpectedEndOfInput text index
      s!"expected {expected}, found end of input" suggestion
  | some c => .inText kind .unexpectedSymbol text index
      s!"expected {expected}, found `{c}`" suggestion

/-- What comes of a trigger: one token, the bytes to go on by, and all warnings, the new one last. -/
structure Handled where
  token : Token
  stride : Nat
  warnings : Array Warning
deriving DecidableEq, Repr

namespace Handler

/-- The number of bytes at the start of `bytes` that are backticks. -/
def tickRun (bytes : List UInt8) : Nat := (bytes.takeWhile (· == '`'.toUInt8)).length

/-- The byte after the first run of exactly `fence` backticks, looked for from byte `index` on, where
`bytes` stand. -/
def closingRun? (fence index : Nat) : List UInt8 → Option Nat
  | [] => none
  | byte :: bytes =>
    if byte ≠ '`'.toUInt8 then closingRun? fence (index + 1) bytes
    else
      let run := tickRun (byte :: bytes)
      if run = fence then some (index + run)
      else closingRun? fence (index + run) ((byte :: bytes).drop run)
termination_by bytes => bytes.length
decreasing_by
  · simp
  · have hrun : 0 < tickRun (byte :: bytes) := by simp_all [tickRun]
    simp only [List.length_drop, List.length_cons]
    omega

/-- The bytes before the first `)` that stands from byte `start` on and no later than at byte `lastParen`,
which must not lie beyond the end. -/
def parenAfter? (bytes : List UInt8) (start : Nat) (lastParen : Option Nat) : Option (Option Nat) :=
  match lastParen.filter (start ≤ ·) with
  | none => some none
  | some last =>
    if last < bytes.length then
      some (((bytes.drop start).take (last + 1 - start)).findIdx? (· == ')'.toUInt8))
    else none

variable (text : List Char) (index : Nat) (warnings : Array Warning)

/-- One token of `len` bytes at byte `index`. -/
def take? (kind : TokenKind) (len : Nat) : Option Handled :=
  (Token.cut? kind text index len).map (⟨·, len, warnings⟩)

def star : Option Handled :=
  if (utf8Bytes text)[index + 1]? = some '*'.toUInt8 then take? text index warnings .bold 2
  else take? text index warnings .italic 1

def tilde : Option Handled :=
  if (utf8Bytes text)[index + 1]? = some '~'.toUInt8 then take? text index warnings .strikethrough 2
  else
    let warning := .unexpectedIn .strikethrough text index "`~~`" (charAt? text (index + 1))
      "use `~~` for strikethrough or escape the tilde as `\\~`"
    take? text index (warnings.push warning) .text 1

def underscore : Option Handled := take? text index warnings .underline 1

def bang : Option Handled :=
  let next := charAt? text (index + 1)
  if next = some '[' then take? text index warnings .imageStart 2
  else
    let warning := .unexpectedIn .imageStart text index "`[` after `!`" next
      "start an image with `![` or escape the mark as `\\!`"
    take? text index (warnings.push warning) .text 1

def openBracket : Option Handled :=
  if index + 1 < (utf8Bytes text).length then take? text index warnings .linkStart 1
  else
    let warning := .unexpectedIn .linkStart text index "link text after `[`" none none
    take? text index (warnings.push warning) .text 1

def closeBracketBefore (lastParen : Option Nat) : Option Handled :=
  match (utf8Bytes text)[index + 1]? with
  | none =>
    let warning := .unexpectedIn .address text index "`(` after `]`" none none
    take? text index (warnings.push warning) .text 1
  | some byte =>
    if byte ≠ '('.toUInt8 then
      let warning := .unexpectedIn .address text index "`(` after `]`" (charAt? text (index + 1))
        "follow the link text with `(url)` or escape it as `\\]`"
      take? text index (warnings.push warning) .text 1
    else do
      match ← parenAfter? (utf8Bytes text) (index + 2) lastParen with
      | none =>
        let warning := .unexpectedIn .address text index "`)` closing the address" none
          "close the link address with `)`"
        take? text index (warnings.push warning) .text 2
      | some offset =>
        let warning := .inText .address .malformedLink text (index + 1) "link address is empty"
          "put the target between the parentheses"
        take? text index (if offset = 0 then warnings.push warning else warnings) .address (offset + 3)

def code : Option Handled := do
  let bytes := utf8Bytes text
  guard (index ≤ bytes.length)
  let fence := tickRun (bytes.drop index)
  let start := index + fence
  if start = bytes.length then
    let warning := .inText .codeInline .malformedCodeSequence text index
      s!"a run of {fence} backtick(s) with no content" "escape the backticks with `\\``"
    take? text index (warnings.push warning) .text fence
  else
    match closingRun? fence start (bytes.drop start) with
    | some stop =>
      let kind := if Backtick.blockFence ≤ fence then .codeBlock else .codeInline
      take? text index warnings kind (stop - index)
    | none =>
      let closer := String.ofList (List.replicate fence '`')
      if fence < Backtick.blockFence then
        let warning := .inText .codeInline .unclosedTag text index
          s!"no closing run of exactly {fence} backtick(s)" s!"close the code span with {closer}"
        take? text index (warnings.push warning) .text fence
      else
        let warning := .inText .codeBlock .unclosedTag text index
          s!"code block fenced with {fence} backticks is never closed"
          s!"close the code block with {closer}"
        take? text index (warnings.push warning) .codeBlock (bytes.length - index)

def escape : Option Handled :=
  match charAt? text (index + 1) with
  | none =>
    let warning := .inText .escape .redundantEscape text index
      "backslash at end of input escapes nothing" "remove the trailing backslash or write `\\\\`"
    take? text index (warnings.push warning) .text 1
  | some c =>
    let warning := .inText .escape .redundantEscape text index
      s!"`{c}` has no special meaning and does not need escaping" s!"write `{c}` without the backslash"
    take? text index (if isTrigger c then warnings else warnings.push warning) .escape (1 + c.utf8Size)

end Handler

/-- What the rule makes of the trigger at byte `index` of `text`, whatever the byte there is. -/
def Rule.handle? (rule : Rule) (text : List Char) (index : Nat) (warnings : Array Warning) :
    Option Handled :=
  match rule with
  | star => Handler.star text index warnings
  | tilde => Handler.tilde text index warnings
  | underscore => Handler.underscore text index warnings
  | code => Handler.code text index warnings
  | escape => Handler.escape text index warnings
  | bang => Handler.bang text index warnings
  | openBracket => Handler.openBracket text index warnings
  | closeBracket => Handler.closeBracketBefore text index warnings (lastOffset? ')' text)
  | closeBracketBefore lastParen => Handler.closeBracketBefore text index warnings lastParen

/-- The trigger whose byte is at `index` of `text`. -/
def Trigger.atByte? (text : List Char) (index : Nat) : Option Trigger := do
  Trigger.ofByte? (← (utf8Bytes text)[index]?)

end InlineMarkup
