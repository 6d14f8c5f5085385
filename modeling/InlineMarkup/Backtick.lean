/-! Runs of backticks: code is fenced by runs of one length, and runs of any other length may
stand inside it. -/

namespace InlineMarkup.Backtick

/-- The number of backticks that `rest` starts with. -/
def runLength (rest : List Char) : Nat := (rest.takeWhile (· == '`')).length

/-- The scalar values up to the end of the first run of exactly `fence` backticks. A run is
maximal: no backtick stands before or after it. -/
def closing? (fence : Nat) (rest : List Char) : Option Nat :=
  go rest 0 0
where
  /-- Continues after `passed` scalar values, the last `run` of which are one run. -/
  go : List Char → Nat → Nat → Option Nat
    | [], run, passed => if run ≠ 0 ∧ run = fence then some passed else none
    | c :: rest, run, passed =>
      if c = '`' then go rest (run + 1) (passed + 1)
      else if run ≠ 0 ∧ run = fence then some passed
      else go rest 0 (passed + 1)

/-- The lengths of the maximal runs of backticks in `content`, the last one first. -/
def runs (content : List Char) : List Nat :=
  go content 0 []
where
  /-- Continues after a run of `run` backticks and the runs `found`. -/
  go : List Char → Nat → List Nat → List Nat
    | [], run, found => if run = 0 then found else run :: found
    | c :: content, run, found =>
      if c = '`' then go content (run + 1) found
      else go content 0 (if run = 0 then found else run :: found)

/-- The shortest fence of at least `least` backticks that differs from every run in `content`.
Among one more candidates than there are runs, one is free. -/
def shortestFence (content : List Char) (least : Nat) : Nat :=
  let taken := runs content
  ((List.range' least (taken.length + 1)).find? fun n => !taken.contains n).getD least

/-- Fences of this length or longer make a block. -/
def blockFence : Nat := 3

/-- The fence and the content of a code token, which may have lost its closing fence. -/
def parts (raw : List Char) : Nat × List Char :=
  let fence := runLength raw
  let body := raw.drop fence
  if 2 * fence < raw.length ∧ runLength body.reverse = fence then
    (fence, body.take (body.length - fence))
  else (fence, body)

end InlineMarkup.Backtick
