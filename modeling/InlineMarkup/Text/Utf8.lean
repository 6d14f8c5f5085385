/-! Reading bytes as UTF-8, strictly or with U+FFFD in place of what is ill-formed. -/

namespace InlineMarkup.Utf8

/-- The scalar values from byte `i` on, up to the end or to the first ill-formed byte, and the
offset where reading stopped. `seen` holds the scalar values read before, last one first. -/
def readFrom (bytes : ByteArray) (i : Nat) (seen : List Char) : List Char × Nat :=
  match _h : bytes.utf8DecodeChar? i with
  | some c => readFrom bytes (i + c.utf8Size) (c :: seen)
  | none => (seen.reverse, i)
termination_by bytes.size - i
decreasing_by
  have := ByteArray.le_size_of_utf8DecodeChar?_eq_some _h
  have := c.utf8Size_pos
  omega

/-- The text that `bytes` encodes, or the length of their longest well-formed beginning. -/
def decode (bytes : ByteArray) : Except Nat (List Char) :=
  let (text, stop) := readFrom bytes 0 []
  if stop = bytes.size then .ok text else .error stop

/-- For a byte that leads a form of two or more bytes: the least and the greatest second byte,
and the length of the form. -/
def secondByte? (lead : UInt8) : Option (UInt8 × UInt8 × Nat) :=
  if lead < 0xC2 then none
  else if lead < 0xE0 then some (0x80, 0xBF, 2)
  else if lead = 0xE0 then some (0xA0, 0xBF, 3)
  else if lead = 0xED then some (0x80, 0x9F, 3)
  else if lead < 0xF0 then some (0x80, 0xBF, 3)
  else if lead = 0xF0 then some (0x90, 0xBF, 4)
  else if lead < 0xF4 then some (0x80, 0xBF, 4)
  else if lead = 0xF4 then some (0x80, 0x8F, 4)
  else none

/-- Whether byte `i` exists and lies between `least` and `greatest`. -/
def byteBetween (bytes : ByteArray) (i : Nat) (least greatest : UInt8) : Bool :=
  if h : i < bytes.size then decide (least ≤ bytes[i]) && decide (bytes[i] ≤ greatest) else false

/-- The length of the maximal subpart of an ill-formed sequence at byte `i`: the longest
beginning of a well-formed sequence that stands there, or one byte. -/
def maximalSubpart (bytes : ByteArray) (i : Nat) : Nat :=
  match (bytes[i]?).bind secondByte? with
  | none => 1
  | some (least, greatest, len) =>
    if !byteBetween bytes (i + 1) least greatest then 1
    else if len = 4 && byteBetween bytes (i + 2) 0x80 0xBF then 3
    else 2

theorem maximalSubpart_pos (bytes : ByteArray) (i : Nat) : 0 < maximalSubpart bytes i := by
  unfold maximalSubpart
  repeat' split
  all_goals decide

/-- The scalar values from byte `i` on, one U+FFFD standing for each maximal ill-formed
subpart. -/
def lossyFrom (bytes : ByteArray) (i : Nat) (seen : List Char) : List Char :=
  if i < bytes.size then
    match bytes.utf8DecodeChar? i with
    | some c => lossyFrom bytes (i + c.utf8Size) (c :: seen)
    | none => lossyFrom bytes (i + maximalSubpart bytes i) ('\ufffd' :: seen)
  else seen.reverse
termination_by bytes.size - i
decreasing_by
  · have := c.utf8Size_pos
    omega
  · have := maximalSubpart_pos bytes i
    omega

def decodeLossy (bytes : ByteArray) : List Char := lossyFrom bytes 0 []

end InlineMarkup.Utf8
