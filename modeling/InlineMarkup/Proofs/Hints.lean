import InlineMarkup.Proofs.HandlerContract
import Mathlib.Order.Bounds.Basic

/-! Hints: how far the end of an address is looked for. A hint that does not lie before the first `)` of the
address changes nothing, wherever it points. -/

namespace InlineMarkup

variable {text address url rest : List Char} {index paren : Nat} {hint : Option Nat}

/-! ### Closing parentheses -/

/-- The bytes from byte `start` of a text on that are closing parentheses. -/
def parensFrom (text : List Char) (start : Nat) : Set Nat :=
  {paren | start ≤ paren ∧ (utf8Bytes text)[paren]? = some ')'.toUInt8}

theorem mem_parensFrom_append_iff (before rest : List Char) :
    paren ∈ parensFrom (before ++ rest) (byteSize before) ↔
      byteSize before ≤ paren ∧ (utf8Bytes rest)[paren - byteSize before]? = some ')'.toUInt8 := by
  refine and_congr_right fun hstart => ?_
  rw [utf8Bytes_append, List.getElem?_append_right (by rwa [length_utf8Bytes]), length_utf8Bytes]

theorem parensFrom_eq_empty (before : List Char) (hfree : ')' ∉ rest) :
    parensFrom (before ++ rest) (byteSize before) = ∅ := by
  rw [Set.eq_empty_iff_forall_notMem]
  intro paren hparen
  obtain ⟨-, hbyte⟩ := (mem_parensFrom_append_iff before rest).1 hparen
  exact hfree ((toUInt8_mem_utf8Bytes_iff rfl).1 (List.mem_of_getElem? hbyte))

/-- The first `)` stands behind a stretch without one. -/
theorem isLeast_parensFrom (before after : List Char) (hurl : ')' ∉ url) :
    IsLeast (parensFrom (before ++ (url ++ ')' :: after)) (byteSize before))
      (byteSize before + byteSize url) := by
  constructor
  · rw [mem_parensFrom_append_iff]
    refine ⟨Nat.le_add_right _ _, ?_⟩
    rw [Nat.add_sub_cancel_left, utf8Bytes_append, List.getElem?_append_right (by rw [length_utf8Bytes]),
      length_utf8Bytes, Nat.sub_self]
    rfl
  · intro paren hparen
    obtain ⟨hstart, hbyte⟩ := (mem_parensFrom_append_iff before _).1 hparen
    by_contra hlt
    rw [utf8Bytes_append, List.getElem?_append_left (by rw [length_utf8Bytes]; omega)] at hbyte
    exact hurl ((toUInt8_mem_utf8Bytes_iff rfl).1 (List.mem_of_getElem? hbyte))

/-- The first `)` behind the brackets that open an address. -/
theorem isLeast_address (before after : List Char) (hurl : ')' ∉ url) :
    IsLeast (parensFrom (before ++ ']' :: '(' :: (url ++ ')' :: after)) (byteSize before + 2))
      (byteSize before + 2 + byteSize url) := by
  have hleast := isLeast_parensFrom (before ++ [']', '(']) after hurl
  rwa [byteSize_append_two before rfl rfl, List.append_assoc] at hleast

theorem parensFrom_address_eq_empty (before : List Char) (hfree : ')' ∉ address) :
    parensFrom (before ++ ']' :: '(' :: address) (byteSize before + 2) = ∅ := by
  have hempty := parensFrom_eq_empty (before ++ [']', '(']) hfree
  rwa [byteSize_append_two before rfl rfl, List.append_assoc] at hempty

/-- Whether a hint lies in the text, and not before the first `)` from byte `start` on. Where no `)` follows,
it may lie anywhere in the text, or be missing. -/
structure Hints (text : List Char) (start : Nat) (hint : Option Nat) : Prop where
  inside : ∀ last ∈ hint, last < (utf8Bytes text).length
  reaches : ∀ paren, IsLeast (parensFrom text start) paren → ∃ last ∈ hint, paren ≤ last

/-- The last `)` of a text is a hint for every address in it. -/
theorem hints_lastOffset? (text : List Char) (start : Nat) :
    Hints text start (lastOffset? ')' text) := by
  constructor
  · intro last hlast
    rw [length_utf8Bytes]
    exact lt_of_lastOffset? hlast
  · intro paren hparen
    obtain ⟨before, after, hsplit, hbefore⟩ := exists_of_getElem?_utf8Bytes rfl hparen.1.2
    obtain ⟨last, hlast, hle⟩ := covers_lastOffset? text before after hsplit
    rw [Nat.zero_add, hbefore] at hle
    exact ⟨last, hlast, hle⟩

/-! ### What is made of an address -/

namespace Handled

/-- The address `url`, which ends. Nothing but its being empty is wrong with it. -/
def closedAddress (before url after : List Char) (warnings : Array Warning) : Handled where
  token := ⟨.address, byteSize before, (Mark.address url).written⟩
  stride := byteSize url + 3
  warnings :=
    if url = [] then
      warnings.push (.inText .address .malformedLink (before ++ ']' :: '(' :: (url ++ ')' :: after))
        (byteSize before + 1) "link address is empty" "put the target between the parentheses")
    else warnings

/-- The start of an address that does not end. -/
def openAddress (text : List Char) (index : Nat) (warnings : Array Warning) : Handled where
  token := ⟨.text, index, [']', '(']⟩
  stride := 2
  warnings := warnings.push (.inText .address .unexpectedEndOfInput text index
    "expected `)` closing the address, found end of input" "close the link address with `)`")

/-- Whether the address was taken that starts at byte `index` and ends at the `)` at byte `paren`. -/
structure IsAddress (handled : Handled) (text : List Char) (index paren : Nat)
    (warnings : Array Warning) : Prop where
  kind : handled.token.kind = .address
  pos : handled.token.pos = index
  stride : index + handled.stride = paren + 1
  raw : slice? text index handled.stride = some handled.token.raw
  /-- What is read as its target is what stands between the parentheses. -/
  target : slice? text (index + 2) (paren - (index + 2)) = some (Reading.addressOf handled.token.raw)
  free : ')' ∉ Reading.addressOf handled.token.raw
  /-- An empty one gives one warning, and no other gives any. -/
  warned : handled.warnings =
    if Reading.addressOf handled.token.raw = [] then
      warnings.push (.inText .address .malformedLink text (index + 1) "link address is empty"
        "put the target between the parentheses")
    else warnings

end Handled

namespace Handler

open Reading

theorem byteSize_written_address (url : List Char) :
    byteSize (Mark.address url).written = byteSize url + 3 := by
  rw [Mark.written, byteSize_append, byteSize_append, Nat.add_comm (byteSize _) (byteSize url)]
  rfl

theorem append_written_address (before url after : List Char) :
    before ++ ']' :: '(' :: (url ++ ')' :: after) = before ++ ((Mark.address url).written ++ after) := by
  simp [Mark.written]

/-- An address ends at its first `)`, be the hint at it or behind it. -/
theorem closeBracketBefore_closed (before after : List Char) (warnings : Array Warning) (hurl : ')' ∉ url)
    (hhint : Hints (before ++ ']' :: '(' :: (url ++ ')' :: after)) (byteSize before + 2) hint) :
    closeBracketBefore (before ++ ']' :: '(' :: (url ++ ')' :: after)) (byteSize before) warnings hint =
      some (.closedAddress before url after warnings) := by
  obtain ⟨last, rfl, hreaches⟩ := hhint.reaches _ (isLeast_address before after hurl)
  have hwindow : byteSize url < last + 1 - (byteSize before + 2) := by omega
  rw [closeBracketBefore_append before _ warnings rfl fun last hlast =>
    length_utf8Bytes _ ▸ hhint.inside last hlast]
  simp only [Option.elim_some, parenWithin?, parenWithin?_go hurl hwindow, Nat.zero_add,
    List.take_left' rfl, byteSize_eq_zero_iff]
  rw [append_written_address, ← byteSize_written_address, take?_append, Handled.closedAddress,
    inText_next before _ rfl, byteSize_written_address]

/-- An address without a `)` does not end, wherever the hint is. -/
theorem closeBracketBefore_unclosed (before : List Char) (warnings : Array Warning)
    (hfree : ')' ∉ address) (hhint : Hints (before ++ ']' :: '(' :: address) index hint) :
    closeBracketBefore (before ++ ']' :: '(' :: address) (byteSize before) warnings hint =
      some (.openAddress (before ++ ']' :: '(' :: address) (byteSize before) warnings) := by
  have htake (warnings : Array Warning) : take? (before ++ ']' :: '(' :: address) (byteSize before)
      warnings .text 2 = some ⟨⟨.text, byteSize before, [']', '(']⟩, 2, warnings⟩ :=
    take?_append warnings .text before [']', '('] address
  rw [closeBracketBefore_append before address warnings rfl fun last hlast =>
    length_utf8Bytes _ ▸ hhint.inside last hlast, parenWithin?_eq_none hfree]
  dsimp only
  rw [htake, Handled.openAddress, inText_append]
  rfl

end Handler

theorem Handled.isAddress_closedAddress (before after : List Char) (warnings : Array Warning)
    (hurl : ')' ∉ url) :
    (closedAddress before url after warnings).IsAddress (before ++ ']' :: '(' :: (url ++ ')' :: after))
      (byteSize before) (byteSize before + 2 + byteSize url) warnings where
  kind := rfl
  pos := rfl
  stride := by
    change byteSize before + (byteSize url + 3) = byteSize before + 2 + byteSize url + 1
    omega
  raw := by
    rw [Handler.append_written_address, closedAddress, ← Handler.byteSize_written_address, slice?_append]
  target := by
    have hsize : byteSize (before ++ [']', '(']) = byteSize before + 2 :=
      byteSize_append_two before rfl rfl
    have hslice := slice?_append (before ++ [']', '(']) url (')' :: after)
    rw [closedAddress, Reading.addressOf_written, Nat.add_sub_cancel_left, ← hsize, ← hslice]
    simp
  free := by
    rw [closedAddress, Reading.addressOf_written]
    exact hurl
  warned := by
    rw [closedAddress, Reading.addressOf_written]

/-- A closing bracket before an address is handled in the same way with every hint, and as if the whole rest
of the text were looked through: the address ends at its first `)`, and is text where there is none. -/
theorem Hints.handle?_closeBracketBefore (hbracket : (utf8Bytes text)[index]? = some ']'.toUInt8)
    (hopen : (utf8Bytes text)[index + 1]? = some '('.toUInt8) (hhint : Hints text (index + 2) hint)
    (warnings : Array Warning) :
    ∃ handled, (Rule.closeBracketBefore hint).handle? text index warnings = some handled ∧
      Rule.closeBracket.handle? text index warnings = some handled ∧
      (∀ paren, IsLeast (parensFrom text (index + 2)) paren →
        handled.IsAddress text index paren warnings) ∧
      (parensFrom text (index + 2) = ∅ → handled = .openAddress text index warnings) := by
  obtain ⟨before, after, rfl, rfl⟩ := exists_of_getElem?_utf8Bytes rfl hbracket
  rw [getElem?_next before after rfl, head?_utf8Bytes_iff rfl, List.head?_eq_some_iff] at hopen
  obtain ⟨address, rfl⟩ := hopen
  have hglobal := hints_lastOffset? (before ++ ']' :: '(' :: address) (byteSize before + 2)
  by_cases hparen : ')' ∈ address
  · obtain ⟨url, after, rfl, hurl⟩ := List.eq_append_cons_of_mem hparen
    have hleast := isLeast_address before after hurl
    refine ⟨.closedAddress before url after warnings,
      Handler.closeBracketBefore_closed before after warnings hurl hhint,
      Handler.closeBracketBefore_closed before after warnings hurl hglobal, ?_, ?_⟩
    · intro paren hother
      obtain rfl := hleast.unique hother
      exact Handled.isAddress_closedAddress before after warnings hurl
    · intro hempty
      exact absurd hleast.1 (hempty ▸ Set.notMem_empty _)
  · have hempty := parensFrom_address_eq_empty before hparen
    refine ⟨.openAddress _ _ warnings, Handler.closeBracketBefore_unclosed before warnings hparen hhint,
      Handler.closeBracketBefore_unclosed before warnings hparen hglobal, ?_, fun _ => rfl⟩
    intro paren hleast
    exact absurd hleast.1 (hempty ▸ Set.notMem_empty _)

/-- An address with an accent, and a letter of two bytes and another `)` behind it. -/
def addressBeforeUmlaut : List Char := "x](é)ü)".toList

/-- A hint in the middle of the last letter. -/
theorem Hints.handle?_closeBracketBefore_addressBeforeUmlaut :
    (utf8Bytes addressBeforeUmlaut)[1]? = some ']'.toUInt8 ∧
    (utf8Bytes addressBeforeUmlaut)[2]? = some '('.toUInt8 ∧ Hints addressBeforeUmlaut 3 (some 7) ∧
    ∃ handled, (Rule.closeBracketBefore (some 7)).handle? addressBeforeUmlaut 1 #[] = some handled ∧
      Rule.closeBracket.handle? addressBeforeUmlaut 1 #[] = some handled ∧
      handled.IsAddress addressBeforeUmlaut 1 5 #[] := by
  have hbracket : (utf8Bytes addressBeforeUmlaut)[1]? = some ']'.toUInt8 := by decide +kernel
  have hopen : (utf8Bytes addressBeforeUmlaut)[2]? = some '('.toUInt8 := by decide +kernel
  have hurl : ')' ∉ ['é'] := by decide
  have hleast : IsLeast (parensFrom addressBeforeUmlaut 3) 5 := isLeast_address ['x'] ['ü', ')'] hurl
  have hhint : Hints addressBeforeUmlaut 3 (some 7) := by
    refine ⟨fun last hlast => ?_, fun paren hparen => ⟨7, rfl, ?_⟩⟩
    · obtain rfl := Option.some.inj hlast
      decide +kernel
    · rw [hparen.unique hleast]
      decide
  obtain ⟨handled, hhinted, hplain, haddress, -⟩ := hhint.handle?_closeBracketBefore hbracket hopen #[]
  exact ⟨hbracket, hopen, hhint, handled, hhinted, hplain, haddress 5 hleast⟩

end InlineMarkup
