import InlineMarkup.Reading.Basic
import InlineMarkup.Trigger

/-! Backslash escapes. -/

namespace InlineMarkup.Reading

/-- A backslash takes the scalar value after it. It is of use only before a trigger. -/
def escape (index : Nat) (rest : List Char) : Reading :=
  match rest with
  | _ :: c :: _ =>
    if isTrigger c then clean .escape 2
    else
      ⟨.escape, 2, some <| .before .escape .redundantEscape index rest
        s!"`{c}` has no special meaning and does not need escaping"
        s!"write `{c}` without the backslash"⟩
  | _ =>
    degraded 1 <| .before .escape .redundantEscape index rest
      "backslash at end of input escapes nothing"
      "remove the trailing backslash or write `\\\\`"

end InlineMarkup.Reading
