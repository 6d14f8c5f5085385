import InlineMarkup.Reading.Basic
import InlineMarkup.Unicode.Alphanumeric

/-! The delimiters that stand for themselves: stars, tildes, underscores and the openers of
links and images. Each rule is given the text from its trigger on, at byte `index`. -/

namespace InlineMarkup.Reading

/-- Two stars make bold and one makes italic, with one scalar value of lookahead. -/
def star (rest : List Char) : Reading :=
  match rest with
  | _ :: '*' :: _ => clean .bold 2
  | _ => clean .italic 1

/-- Strikethrough takes two tildes. -/
def tilde (index : Nat) (rest : List Char) : Reading :=
  match rest with
  | _ :: '~' :: _ => clean .strikethrough 2
  | _ => degraded 1 <| .unexpected .strikethrough index rest "`~~`" rest[1]?
      "use `~~` for strikethrough or escape the tilde as `\\~`"

/-- Whether an underscore between the two neighbours is a tag and not part of a word. An
underscore beside it, or a word on both sides, makes it text. -/
def underlineAllowed (prev next : Option Char) : Bool :=
  prev != some '_' && next != some '_' &&
    !(prev.any Unicode.isAlphanumeric && next.any Unicode.isAlphanumeric)

/-- Where `underlineAllowed` has been asked before, an underscore is a tag. -/
def underscore : Reading := clean .underline 1

def bang (index : Nat) (rest : List Char) : Reading :=
  match rest with
  | _ :: '[' :: _ => clean .imageStart 2
  | _ => degraded 1 <| .unexpected .imageStart index rest "`[` after `!`" rest[1]?
      "start an image with `![` or escape the mark as `\\!`"

def openBracket (index : Nat) (rest : List Char) : Reading :=
  match rest with
  | _ :: _ :: _ => clean .linkStart 1
  | _ => degraded 1 <| .unexpected .linkStart index rest "link text after `[`" none none

end InlineMarkup.Reading
