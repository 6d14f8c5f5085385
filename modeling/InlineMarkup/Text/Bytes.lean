/-! Byte offsets into a text, which is a list of scalar values. -/

namespace InlineMarkup

/-- The number of bytes of a text in UTF-8. -/
def byteSize (text : List Char) : Nat := text.foldr (fun c size => c.utf8Size + size) 0

@[simp] theorem byteSize_nil : byteSize [] = 0 := rfl

@[simp] theorem byteSize_cons (c : Char) (text : List Char) :
    byteSize (c :: text) = c.utf8Size + byteSize text := rfl

@[simp] theorem byteSize_append (s t : List Char) :
    byteSize (s ++ t) = byteSize s + byteSize t := by
  induction s with
  | nil => simp
  | cons c s ih => simp [ih, Nat.add_assoc]

@[simp] theorem byteSize_reverse (s : List Char) : byteSize s.reverse = byteSize s := by
  induction s with
  | nil => rfl
  | cons c s ih => simp [ih, Nat.add_comm]

/-- What is left of a text after its first `n` bytes. There is nothing to give if the text is
shorter or the offset falls inside a scalar value. -/
def dropBytes? : Nat → List Char → Option (List Char)
  | 0, text => some text
  | _ + 1, [] => none
  | n + 1, c :: text =>
    if c.utf8Size ≤ n + 1 then dropBytes? (n + 1 - c.utf8Size) text else none

theorem dropBytes?_append (s t : List Char) : dropBytes? (byteSize s) (s ++ t) = some t := by
  induction s with
  | nil => simp [dropBytes?]
  | cons c s ih =>
    have := c.utf8Size_pos
    obtain ⟨n, hn⟩ : ∃ n, byteSize (c :: s) = n + 1 := ⟨byteSize (c :: s) - 1, by simp; omega⟩
    rw [hn, List.cons_append, dropBytes?, if_pos (by simp at hn; omega)]
    rw [show n + 1 - c.utf8Size = byteSize s by simp at hn; omega, ih]

/-- The `len` bytes that start at byte `start`. -/
def slice? (text : List Char) (start len : Nat) : Option (List Char) := do
  let rest ← dropBytes? start text
  let after ← dropBytes? len rest
  return rest.take (rest.length - after.length)

/-- A text is found at its bytes. -/
theorem slice?_append (before raw after : List Char) :
    slice? (before ++ (raw ++ after)) (byteSize before) (byteSize raw) = some raw := by
  have hlen : (raw ++ after).length - after.length = raw.length := by simp
  simp only [slice?, dropBytes?_append, Option.bind_eq_bind, Option.bind_some, hlen, List.take_left',
    Option.pure_def]

/-- The byte offset of the last occurrence of `c`. -/
def lastOffset? (c : Char) (text : List Char) : Option Nat :=
  go text 0 none
where
  /-- Continues at byte `index`, having last met the scalar value at `found`. -/
  go : List Char → Nat → Option Nat → Option Nat
    | [], _, found => found
    | d :: text, index, found => go text (index + d.utf8Size) (if d = c then some index else found)

end InlineMarkup
