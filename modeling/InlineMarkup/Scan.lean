import InlineMarkup.Reading.Rule

/-! Scanning: a text is cut into tokens from left to right. -/

namespace InlineMarkup

structure ScanOptions where
  /-- Whether an address that stands in the text as it is becomes a token of its own. -/
  bareUrls : Bool := false
deriving DecidableEq, Repr

/-- A trigger that did not make what it stands for, or not without a warning: the byte where it
is, the kind of token that it made and the warning. -/
structure Finding where
  trigger : Trigger
  pos : Nat
  kind : TokenKind
  warning : Warning
deriving DecidableEq, Repr

/-- The tokens of a text and what was wrong with them, both in the order of the text. -/
structure Scanned where
  tokens : Array Token := #[]
  findings : Array Finding := #[]
deriving DecidableEq, Repr

namespace Scanned

def warnings (scanned : Scanned) : Array Warning := scanned.findings.map (·.warning)

/-- Adds the plain text that ends at byte `stop`; `plain` holds it backwards. -/
def addPlain (out : Scanned) (stop : Nat) (plain : List Char) : Scanned :=
  if plain.isEmpty then out
  else { out with tokens := out.tokens.push ⟨.text, stop - byteSize plain, plain.reverse⟩ }

def add (out : Scanned) (token : Token) : Option Finding → Scanned
  | none => { out with tokens := out.tokens.push token }
  | some finding => ⟨out.tokens.push token, out.findings.push finding⟩

end Scanned

/-- What starts at a scalar value that is not plain text. -/
inductive Construct
  | owned (trigger : Trigger) (reading : Reading)
  | bareUrl (len : Nat)
deriving DecidableEq, Repr

namespace Construct

def reading : Construct → Reading
  | owned _ reading => reading
  | bareUrl len => .clean .bareUrl len

def finding? (pos : Nat) : Construct → Option Finding
  | owned trigger reading => reading.warning.map (⟨trigger, pos, reading.kind, ·⟩)
  | bareUrl _ => none

end Construct

namespace Scan

/-- The trigger that counts at `c`, which stands between `prev` and `next`. -/
def trigger? (prev : Option Char) (c : Char) (next : Option Char) : Option Trigger :=
  (Trigger.ofChar? c).filter fun trigger =>
    trigger != .underscore || Reading.underlineAllowed prev next

/-- The rule for a trigger in a text whose last `)` is at byte `lastParen`. -/
def ruleFor (lastParen : Option Nat) : Trigger → Rule
  | .closeBracket => .closeBracketBefore lastParen
  | trigger => trigger.rule

/-- The construct that starts at `c`, if one does. An address that stands alone must not continue
a word. -/
def construct? (options : ScanOptions) (lastParen : Option Nat) (prev : Option Char)
    (index : Nat) (c : Char) (after : List Char) : Option Construct :=
  match trigger? prev c after.head? with
  | some trigger => some (.owned trigger ((ruleFor lastParen trigger).read index (c :: after)))
  | none =>
    if options.bareUrls && c == 'h' && !prev.any Unicode.isAlphanumeric then
      (Reading.bareUrl? (c :: after)).map .bareUrl
    else none

/-- Scans the text that stands at byte `index` after `prev`. `plain` holds, backwards, the plain
text before it that is not yet a token. -/
def scanFrom (options : ScanOptions) (lastParen : Option Nat) (prev : Option Char)
    (index : Nat) (plain : List Char) (out : Scanned) : List Char → Scanned
  | [] => out.addPlain index plain
  | c :: after =>
    match construct? options lastParen prev index c after with
    | some construct =>
      let token := construct.reading.token index (c :: after)
      scanFrom options lastParen token.raw.getLast? token.stop []
        ((out.addPlain index plain).add token (construct.finding? index))
        (after.drop (construct.reading.len - 1))
    | none => scanFrom options lastParen (some c) (index + c.utf8Size) (c :: plain) out after
termination_by text => text.length
decreasing_by
  · simp only [List.length_drop, List.length_cons]; omega
  · simp

end Scan

/-- The tokens of a text, with a finding for each construct that is not as it should be. -/
def scan (options : ScanOptions) (text : List Char) : Scanned :=
  Scan.scanFrom options (lastOffset? ')' text) none 0 [] {} text

end InlineMarkup
