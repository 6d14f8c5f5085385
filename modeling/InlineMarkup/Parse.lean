import InlineMarkup.Assembly.Basic
import InlineMarkup.Scan

/-! Parsing: from a text to its document or its syntax tree. Every text has both. -/

namespace InlineMarkup

structure Parse where
  document : Document
  findings : Array Finding
  recoveries : Array Recovery
deriving DecidableEq, Repr

def Parse.warnings (parse : Parse) : Array Warning := parse.findings.map (·.warning)

def parseWith (options : ScanOptions) (text : List Char) : Parse :=
  let scanned := scan options text
  let assembly := assemble scanned.tokens.toList
  ⟨assembly.document, scanned.findings, assembly.recoveries⟩

def parse (text : List Char) : Parse := parseWith {} text

/-- The syntax tree of a text, which covers all of it. -/
def syntaxTree? (options : ScanOptions) (text : List Char) : Option SyntaxTree :=
  let tokens := (scan options text).tokens.toList
  SyntaxTree.ofEvents? tokens (assemble tokens).trace.events.toList

end InlineMarkup
