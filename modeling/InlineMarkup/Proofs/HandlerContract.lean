import InlineMarkup.Proofs.Faults
import InlineMarkup.Proofs.Handlers

/-! The contract of the handlers: at a trigger, one takes a token from the text there and nothing else, and
adds at most one warning to those before. -/

namespace InlineMarkup

variable {c : Char} {text : List Char} {index : Nat}

/-! ### Triggers -/

namespace Trigger

theorem utf8Size_char (trigger : Trigger) : trigger.char.utf8Size = 1 := by
  cases trigger <;> rfl

theorem ofByte?_of_le {byte : UInt8} (h : 128 ≤ byte.toNat) : ofByte? byte = none := by
  rw [Option.eq_none_iff_forall_ne_some]
  intro trigger htrigger
  have hchar := char_of_ofChar? htrigger
  have hvalid : byte.toNat.isValidChar := .inl (Nat.lt_trans byte.toNat_lt (by decide))
  have hnat : (Char.ofNat byte.toNat).toNat = byte.toNat := by
    rw [Char.ofNat, dif_pos hvalid]
    rfl
  have hnarrow := lt_of_narrow trigger.utf8Size_char
  rw [toNat_toUInt8_of_narrow trigger.utf8Size_char, hchar, hnat] at hnarrow
  omega

theorem ofByte?_toUInt8 (h : c.utf8Size = 1) : ofByte? c.toUInt8 = ofChar? c := by
  rw [ofByte?, toNat_toUInt8_of_narrow h, Char.ofNat_toNat]

theorem ofChar?_of_wide (h : c.utf8Size ≠ 1) : ofChar? c = none := by
  rw [Option.eq_none_iff_forall_ne_some]
  rintro trigger htrigger
  exact h (char_of_ofChar? htrigger ▸ trigger.utf8Size_char)

/-- The byte of a trigger stands for it, and no other byte of a text does for anything. -/
theorem atByte?_eq (text : List Char) (index : Nat) : atByte? text index = at? text index := by
  simp only [atByte?, at?, Option.bind_eq_bind]
  induction text generalizing index with
  | nil => cases index <;> rfl
  | cons c text ih =>
    rw [utf8Bytes_cons]
    have hlength := String.length_utf8EncodeChar c
    have hpos := c.utf8Size_pos
    by_cases hin : index < c.utf8Size
    · -- a byte of the first character, which starts at the first one only
      have hlt : index < (String.utf8EncodeChar c).length := hlength.symm ▸ hin
      rw [List.getElem?_append_left hlt, List.getElem?_eq_getElem hlt, Option.bind_some]
      by_cases hc : c.utf8Size = 1
      · obtain rfl : index = 0 := by omega
        have hbyte : (String.utf8EncodeChar c)[0] = c.toUInt8 := by
          simp only [utf8EncodeChar_of_narrow hc, List.getElem_cons_zero]
        rw [hbyte, ofByte?_toUInt8 hc]
        rfl
      · rw [ofByte?_of_le (le_of_mem_utf8EncodeChar hc _ (List.getElem_mem _))]
        cases index with
        | zero => exact (ofChar?_of_wide hc).symm
        | succ index => rw [dropBytes?, if_neg (by omega)]; rfl
    · obtain ⟨k, rfl⟩ : ∃ k, index = k + 1 := ⟨index - 1, by omega⟩
      rw [List.getElem?_append_right (by omega), hlength, ih, dropBytes?, if_pos (by omega)]

end Trigger

/-! ### What is read at a trigger -/

namespace Reading

/-- Whether a reading takes anything, and comes with a warning if it is text. -/
structure Explained (reading : Reading) : Prop where
  taken : 0 < reading.len
  warned : reading.kind = .text → reading.warning.isSome

/-- A reading that has a shape takes something, and one that is text is a fault. -/
theorem explained_of_shapes {reading : Reading} {after : List Char}
    (hshapes : reading.Shapes {} [] (c :: after)) (haccounts : reading.Accounts index (c :: after))
    (hc : ['~', '`', '\\', '!', '[', ']'].contains c) : reading.Explained := by
  obtain ⟨raw, rest, -, hlen, hlexeme⟩ := hshapes
  have htaken : 0 < reading.len := hlen ▸ List.length_pos_iff.2 hlexeme.raw_ne_nil
  refine ⟨htaken, fun hkind => ?_⟩
  cases haccounts with
  | faulty hwarning => exact Option.isSome_iff_exists.2 ⟨_, hwarning⟩
  | sound _ htoken =>
    obtain ⟨n, hn⟩ := Nat.exists_eq_succ_of_ne_zero (Nat.ne_of_gt htaken)
    have hfaulty : (reading.token index (c :: after)).isFaulty := by
      rw [Reading.token, hkind, hn]
      exact hc
    exact absurd hfaulty htoken

theorem explained_trigger (trigger : Trigger) (index : Nat) (after : List Char) :
    (trigger.rule.read index (trigger.char :: after)).Explained := by
  cases trigger with
  | star =>
    by_cases hnext : after.head? = some '*'
    · obtain ⟨t, rfl⟩ := List.head?_eq_some_iff.1 hnext
      exact ⟨Nat.two_pos, nofun⟩
    · have hread : Rule.star.read index ('*' :: after) = clean .italic 1 := read_star hnext
      exact hread ▸ ⟨Nat.one_pos, nofun⟩
  | underscore => exact ⟨Nat.one_pos, nofun⟩
  | tilde => exact explained_of_shapes (shapes_tilde after) (accounts_tilde after) rfl
  | backtick => exact explained_of_shapes (shapes_code after) (accounts_code after) rfl
  | backslash => exact explained_of_shapes (shapes_escape after) (accounts_escape after) rfl
  | bang => exact explained_of_shapes (shapes_bang after) (accounts_bang after) rfl
  | openBracket => exact explained_of_shapes (shapes_openBracket after) (accounts_openBracket after) rfl
  | closeBracket =>
    have hcovers : Covers (lastOffset?.go ')' (']' :: after) index none) index (']' :: after) :=
      covers_lastOffset?_go none
    have hread : Rule.closeBracket.read index (']' :: after) = _ := Handler.closeBracket_eq rfl hcovers
    exact hread ▸ explained_of_shapes (shapes_closeBracketBefore after hcovers)
      (accounts_closeBracketBefore after hcovers) rfl

end Reading

/-- The handler that a scan calls, which knows the last `)` of the text, does what the owner of the trigger
does. -/
theorem Scan.handle?_ruleFor (trigger : Trigger) (text : List Char) (index : Nat)
    (warnings : Array Warning) :
    (ruleFor (lastOffset? ')' text) trigger).handle? text index warnings =
      trigger.rule.handle? text index warnings := by
  cases trigger with
  | closeBracket =>
    rw [Rule.handle?_eq, Rule.handle?_eq]
    cases hrest : dropBytes? index text with
    | none =>
      rw [Rule.readAt?, Rule.readAt?, hrest]
      rfl
    | some rest =>
      obtain ⟨before, rfl, rfl⟩ := exists_of_dropBytes?_eq_some hrest
      exact congrArg _ (Handler.readAt?_closeBracket before rest).symm
  | star | tilde | backtick | backslash | underscore | bang | openBracket => rfl

/-- At every trigger of a text, be it one that a scan comes to or not, the handler that owns it takes a
piece of the text that starts there and ends at a boundary, keeps the warnings that it is given, and adds at
most one to them, and always one if the piece is text. So does the handler that a scan would call. -/
theorem Trigger.exists_handled {trigger : Trigger} (h : atByte? text index = some trigger)
    (warnings : Array Warning) : ∃ handled, trigger.rule.handle? text index warnings = some handled ∧
      (Scan.ruleFor (lastOffset? ')' text) trigger).handle? text index warnings = some handled ∧
      handled.token.pos = index ∧ handled.token.byteLen = handled.stride ∧ 1 ≤ handled.stride ∧
      slice? text index handled.stride = some handled.token.raw ∧
      (∃ after, dropBytes? (index + handled.stride) text = some after) ∧
      index + handled.stride ≤ byteSize text ∧
      ∃ more : Option Warning, handled.warnings = warnings ++ more.toArray ∧
        (handled.token.kind = .text → more.isSome) := by
  rw [atByte?_eq, at?, Option.bind_eq_bind, Option.bind_eq_some_iff] at h
  obtain ⟨rest, hrest, hhead⟩ := h
  obtain ⟨c, hc, hchar⟩ := Option.bind_eq_some_iff.1 hhead
  obtain ⟨after, rfl⟩ := List.head?_eq_some_iff.1 hc
  obtain rfl := char_of_ofChar? hchar
  obtain ⟨before, rfl, rfl⟩ := exists_of_dropBytes?_eq_some hrest
  have happlies : trigger.rule.applies (byteSize before) (trigger.char :: after) := by
    cases trigger <;> rfl
  obtain ⟨htaken, hwarned⟩ := Reading.explained_trigger trigger (byteSize before) after
  generalize hreading : trigger.rule.read (byteSize before) (trigger.char :: after) = reading
    at htaken hwarned
  have hsplit := List.take_append_drop reading.len (trigger.char :: after)
  have hraw : (trigger.char :: after).take reading.len ≠ [] := by
    simp [Nat.ne_of_gt htaken]
  have hhandle : trigger.rule.handle? (before ++ trigger.char :: after) (byteSize before) warnings =
      some (.ofRead warnings (reading.token (byteSize before) (trigger.char :: after),
        reading.warning)) := by
    rw [Rule.handle?_eq, Rule.readAt?_append _ before _ happlies, hreading, Option.map_some]
  refine ⟨_, hhandle, (Scan.handle?_ruleFor ..).trans hhandle, rfl, rfl, byteSize_pos hraw, ?_,
    ⟨(trigger.char :: after).drop reading.len, ?_⟩, ?_, reading.warning, rfl, hwarned⟩
  · have hslice := slice?_append before ((trigger.char :: after).take reading.len)
      ((trigger.char :: after).drop reading.len)
    rwa [hsplit] at hslice
  · have hdrop := dropBytes?_append ((trigger.char :: after).take reading.len)
      ((trigger.char :: after).drop reading.len)
    rw [hsplit] at hdrop
    exact (dropBytes?_append_add before _ _).trans hdrop
  · have hsize := congrArg byteSize hsplit
    rw [byteSize_append] at hsize
    rw [byteSize_append, ← hsize, ← Nat.add_assoc]
    exact Nat.le_add_right _ _

/-- A letter of two bytes and a run of two backticks, of which a scan comes to the first only. -/
def accentedTicks : List Char := "é``".toList

theorem Trigger.exists_handled_accentedTicks : atByte? accentedTicks 3 = some .backtick ∧
    ∃ handled, Trigger.backtick.rule.handle? accentedTicks 3 #[] = some handled ∧
      handled.token = ⟨.text, 3, ['`']⟩ ∧ handled.stride = 1 ∧ handled.warnings.size = 1 := by
  have htrigger : atByte? accentedTicks 3 = some .backtick := by decide +kernel
  obtain ⟨handled, hhandled, -, -, hstride, -, -, -, -, more, hmore, hwarned⟩ :=
    exists_handled htrigger #[]
  have htoken : handled.token = ⟨.text, 3, ['`']⟩ := by
    rw [Rule.handle?_eq] at hhandled
    obtain ⟨read, hread, rfl⟩ := Option.map_eq_some_iff.1 hhandled
    obtain rfl := Option.some.inj hread
    rfl
  rw [htoken] at hstride hwarned
  obtain ⟨warning, rfl⟩ := Option.isSome_iff_exists.1 (hwarned rfl)
  exact ⟨htrigger, handled, hhandled, htoken, hstride.symm, by rw [hmore]; rfl⟩

end InlineMarkup
