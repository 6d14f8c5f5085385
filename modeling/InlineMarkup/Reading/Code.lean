import InlineMarkup.Backtick
import InlineMarkup.Reading.Basic

/-! Code spans and code blocks. -/

namespace InlineMarkup.Reading

open Backtick

/-- Code runs from a fence of backticks to the next run of the same length. Where there is
none, a fence of three or more makes a block of all that follows, and a shorter one is text. -/
def code (index : Nat) (rest : List Char) : Reading :=
  let fence := runLength rest
  let body := rest.drop fence
  if body.isEmpty then
    degraded fence <| .before .codeInline .malformedCodeSequence index rest
      s!"a run of {fence} backtick(s) with no content" "escape the backticks with `\\``"
  else
    match closing? fence body with
    | some len => clean (if blockFence ≤ fence then .codeBlock else .codeInline) (fence + len)
    | none =>
      let closer := String.ofList (List.replicate fence '`')
      if fence < blockFence then
        degraded fence <| .before .codeInline .unclosedTag index rest
          s!"no closing run of exactly {fence} backtick(s)"
          s!"close the code span with {closer}"
      else
        ⟨.codeBlock, rest.length, some <| .before .codeBlock .unclosedTag index rest
          s!"code block fenced with {fence} backticks is never closed"
          s!"close the code block with {closer}"⟩

end InlineMarkup.Reading
