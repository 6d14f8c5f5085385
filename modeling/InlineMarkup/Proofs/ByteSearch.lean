import InlineMarkup.Handler
import InlineMarkup.Proofs.Backticks

/-! Search in bytes: a character of one byte is found among the bytes of a text just where it stands in the
text, since all other characters are made of bytes of their own. -/

namespace InlineMarkup

variable {c d : Char} {text rest : List Char}

@[simp] theorem utf8Bytes_nil : utf8Bytes [] = [] := rfl

@[simp] theorem utf8Bytes_cons (c : Char) (text : List Char) :
    utf8Bytes (c :: text) = String.utf8EncodeChar c ++ utf8Bytes text := List.flatMap_cons

@[simp] theorem utf8Bytes_append (s t : List Char) : utf8Bytes (s ++ t) = utf8Bytes s ++ utf8Bytes t :=
  List.flatMap_append

@[simp] theorem length_utf8Bytes (text : List Char) : (utf8Bytes text).length = byteSize text := by
  induction text with
  | nil => rfl
  | cons c text ih =>
    rw [utf8Bytes_cons, List.length_append, String.length_utf8EncodeChar, ih, byteSize_cons]

theorem drop_utf8Bytes (s t : List Char) : (utf8Bytes (s ++ t)).drop (byteSize s) = utf8Bytes t := by
  rw [utf8Bytes_append, List.drop_left' (length_utf8Bytes s)]

/-! ### Characters of one byte -/

theorem utf8EncodeChar_of_narrow (h : c.utf8Size = 1) : String.utf8EncodeChar c = [c.toUInt8] :=
  String.utf8EncodeChar_eq_singleton h

theorem toNat_toUInt8_of_narrow (h : c.utf8Size = 1) : c.toUInt8.toNat = c.toNat := by
  have hle : c.val ≤ 127 := Char.utf8Size_eq_one_iff.1 h
  have hlt : c.toNat < 256 := Nat.lt_of_le_of_lt (UInt32.le_iff_toNat_le.1 hle) (by decide)
  exact Nat.mod_eq_of_lt hlt

theorem lt_of_narrow (h : c.utf8Size = 1) : c.toUInt8.toNat < 128 := by
  rw [toNat_toUInt8_of_narrow h]
  exact Nat.lt_of_le_of_lt (UInt32.le_iff_toNat_le.1 (Char.utf8Size_eq_one_iff.1 h)) (by decide)

/-- The bytes of a wider character are those of no narrow one. -/
theorem le_of_mem_utf8EncodeChar (h : c.utf8Size ≠ 1) :
    ∀ byte ∈ String.utf8EncodeChar c, 128 ≤ byte.toNat := by
  have hwide : ¬c.val.toNat ≤ 127 := fun hle =>
    h (Char.utf8Size_eq_one_iff.2 (UInt32.le_iff_toNat_le.2 hle))
  have hbyte (n base : Nat) (hbase : 128 ≤ base) (hlt : n + base < 256) :
      128 ≤ (UInt8.ofNat (n + base)).toNat := by
    rw [UInt8.toNat_ofNat', Nat.mod_eq_of_lt hlt]
    exact Nat.le_add_left_of_le hbase
  simp only [String.utf8EncodeChar, if_neg hwide]
  split
  · simp only [List.forall_mem_cons]
    exact ⟨hbyte _ _ (by decide) (by omega), hbyte _ _ (by decide) (by omega), nofun⟩
  split
  · simp only [List.forall_mem_cons]
    exact ⟨hbyte _ _ (by decide) (by omega), hbyte _ _ (by decide) (by omega),
      hbyte _ _ (by decide) (by omega), nofun⟩
  · simp only [List.forall_mem_cons]
    exact ⟨hbyte _ _ (by decide) (by omega), hbyte _ _ (by decide) (by omega),
      hbyte _ _ (by decide) (by omega), hbyte _ _ (by decide) (by omega), nofun⟩

/-- The byte of a narrow character is in the form of that character only. -/
theorem toUInt8_mem_utf8EncodeChar_iff (hd : d.utf8Size = 1) :
    d.toUInt8 ∈ String.utf8EncodeChar c ↔ c = d := by
  constructor
  · intro hmem
    by_cases hc : c.utf8Size = 1
    · rw [utf8EncodeChar_of_narrow hc, List.mem_singleton] at hmem
      have hnat : c.toNat = d.toNat := by
        rw [← toNat_toUInt8_of_narrow hc, ← toNat_toUInt8_of_narrow hd, hmem]
      exact Char.toNat_inj.1 hnat
    · have hle := le_of_mem_utf8EncodeChar hc _ hmem
      have hlt := lt_of_narrow hd
      omega
  · rintro rfl
    rw [utf8EncodeChar_of_narrow hd]
    exact List.mem_singleton_self _

theorem utf8EncodeChar_eq_cons (c : Char) : ∃ byte bytes, String.utf8EncodeChar c = byte :: bytes := by
  refine List.exists_cons_of_ne_nil fun hnil => ?_
  have hlength := String.length_utf8EncodeChar c
  have hpos := c.utf8Size_pos
  rw [hnil, List.length_nil] at hlength
  omega

/-- A text starts with a narrow character if its bytes start with that of the character. -/
theorem head?_utf8Bytes_iff (hd : d.utf8Size = 1) :
    (utf8Bytes text).head? = some d.toUInt8 ↔ text.head? = some d := by
  cases text with
  | nil => simp
  | cons c text =>
    obtain ⟨byte, bytes, hbytes⟩ := utf8EncodeChar_eq_cons c
    rw [utf8Bytes_cons, hbytes, List.cons_append, List.head?_cons, List.head?_cons, Option.some_inj,
      Option.some_inj]
    constructor
    · rintro rfl
      exact (toUInt8_mem_utf8EncodeChar_iff hd).1 (hbytes ▸ List.mem_cons_self)
    · rintro rfl
      rw [utf8EncodeChar_of_narrow hd] at hbytes
      exact (List.cons_eq_cons.1 hbytes).1.symm

theorem toUInt8_mem_utf8Bytes_iff (hd : d.utf8Size = 1) : d.toUInt8 ∈ utf8Bytes text ↔ d ∈ text := by
  simp only [utf8Bytes, List.mem_flatMap, toUInt8_mem_utf8EncodeChar_iff hd, exists_eq_right]

/-- The byte of a narrow character stands where the character does. -/
theorem exists_of_getElem?_utf8Bytes {index : Nat} (hd : d.utf8Size = 1)
    (h : (utf8Bytes text)[index]? = some d.toUInt8) :
    ∃ before after, text = before ++ d :: after ∧ byteSize before = index := by
  induction text generalizing index with
  | nil => cases h
  | cons c text ih =>
    rw [utf8Bytes_cons] at h
    have hlength := String.length_utf8EncodeChar c
    by_cases hin : index < c.utf8Size
    · rw [List.getElem?_append_left (by omega)] at h
      obtain rfl := (toUInt8_mem_utf8EncodeChar_iff hd).1 (List.mem_of_getElem? h)
      exact ⟨[], text, rfl, by rw [byteSize_nil]; omega⟩
    · rw [List.getElem?_append_right (by omega), hlength] at h
      obtain ⟨before, after, rfl, hbefore⟩ := ih h
      exact ⟨c :: before, after, rfl, by rw [byteSize_cons]; omega⟩

/-! ### The bytes after the first -/

theorem dropBytes?_append_add (before rest : List Char) (n : Nat) :
    dropBytes? (byteSize before + n) (before ++ rest) = dropBytes? n rest := by
  induction before with
  | nil => rw [byteSize_nil, Nat.zero_add, List.nil_append]
  | cons c before ih =>
    have hpos := c.utf8Size_pos
    obtain ⟨k, hk⟩ : ∃ k, byteSize (c :: before) + n = k + 1 :=
      ⟨byteSize (c :: before) + n - 1, by rw [byteSize_cons]; omega⟩
    rw [byteSize_cons] at hk
    rw [byteSize_cons, hk, List.cons_append, dropBytes?, if_pos (by omega), ← ih]
    congr 1
    omega

theorem dropBytes?_next (before after : List Char) (hc : c.utf8Size = 1) :
    dropBytes? (byteSize before + 1) (before ++ c :: after) = some after := by
  rw [dropBytes?_append_add, dropBytes?, if_pos (Nat.le_of_eq hc), hc, dropBytes?]

theorem byteSize_append_two (before : List Char) (hc : c.utf8Size = 1) (hd : d.utf8Size = 1) :
    byteSize (before ++ [c, d]) = byteSize before + 2 := by
  rw [byteSize_append, byteSize_cons, byteSize_cons, hc, hd, byteSize_nil]

theorem getElem?_next (before after : List Char) (hc : c.utf8Size = 1) :
    (utf8Bytes (before ++ c :: after))[byteSize before + 1]? = (utf8Bytes after).head? := by
  rw [utf8Bytes_append, List.getElem?_append_right (by simp), length_utf8Bytes, Nat.add_sub_cancel_left,
    utf8Bytes_cons, utf8EncodeChar_of_narrow hc, List.singleton_append, List.getElem?_cons_succ,
    List.head?_eq_getElem?]

theorem charAt?_next (before after : List Char) (hc : c.utf8Size = 1) :
    charAt? (before ++ c :: after) (byteSize before + 1) = after.head? := by
  rw [charAt?, dropBytes?_next before after hc]
  rfl

/-- Where no narrow character starts, one byte is not to be taken. -/
theorem dropBytes?_one (h : ¬Rule.startsNarrow rest) : dropBytes? 1 rest = none := by
  cases rest with
  | nil => rfl
  | cons c after =>
    have hc : c.utf8Size ≠ 1 := by simpa [Rule.startsNarrow] using h
    have hpos := c.utf8Size_pos
    rw [dropBytes?, if_neg (by omega)]

theorem charAt?_of_not_startsNarrow (before : List Char) (h : ¬Rule.startsNarrow rest) :
    charAt? (before ++ rest) (byteSize before + 1) = none := by
  rw [charAt?, dropBytes?_append_add, dropBytes?_one h]
  rfl

theorem getElem?_of_not_startsNarrow (before : List Char) (h : ¬Rule.startsNarrow rest)
    (hd : d.utf8Size = 1) : (utf8Bytes (before ++ rest))[byteSize before + 1]? ≠ some d.toUInt8 := by
  rw [utf8Bytes_append, List.getElem?_append_right (by simp), length_utf8Bytes, Nat.add_sub_cancel_left]
  cases rest with
  | nil => simp
  | cons c after =>
    have hc : c.utf8Size ≠ 1 := by simpa [Rule.startsNarrow] using h
    have hpos := c.utf8Size_pos
    have hlt : 1 < (String.utf8EncodeChar c).length := by
      rw [String.length_utf8EncodeChar]
      omega
    rw [utf8Bytes_cons, List.getElem?_append_left hlt]
    intro hbyte
    have hle := le_of_mem_utf8EncodeChar hc _ (List.mem_of_getElem? hbyte)
    have hlow := lt_of_narrow hd
    omega

theorem exists_of_startsNarrow (h : Rule.startsNarrow rest) :
    ∃ c after, rest = c :: after ∧ c.utf8Size = 1 := by
  cases rest with
  | nil => cases h
  | cons c after => exact ⟨c, after, rfl, by simpa [Rule.startsNarrow] using h⟩

/-! ### Backticks -/

namespace Handler

open Backtick

theorem utf8Bytes_replicate (n : Nat) :
    utf8Bytes (List.replicate n '`') = List.replicate n '`'.toUInt8 := by
  induction n with
  | zero => rfl
  | succ n ih => rw [List.replicate_succ, utf8Bytes_cons, ih]; rfl

theorem tickRun_replicate_append (n : Nat) {bytes : List UInt8} (h : bytes.head? ≠ some '`'.toUInt8) :
    tickRun (List.replicate n '`'.toUInt8 ++ bytes) = n := by
  induction n with
  | zero =>
    cases bytes with
    | nil => rfl
    | cons byte bytes =>
      have hbyte : byte ≠ '`'.toUInt8 := by simpa using h
      simp [tickRun, hbyte]
  | succ n ih =>
    rw [tickRun] at ih ⊢
    rw [List.replicate_succ, List.cons_append, List.takeWhile_cons_of_pos (by rfl), List.length_cons, ih]

theorem head?_utf8Bytes_ne (h : text.head? ≠ some '`') : (utf8Bytes text).head? ≠ some '`'.toUInt8 :=
  mt (head?_utf8Bytes_iff rfl).1 h

/-- A run of backticks has as many bytes as characters. -/
theorem tickRun_utf8Bytes (text : List Char) : tickRun (utf8Bytes text) = runLength text := by
  obtain ⟨rest, htext, hrest⟩ := exists_run text
  generalize runLength text = n at htext ⊢
  rw [htext, utf8Bytes_append, utf8Bytes_replicate]
  exact tickRun_replicate_append n (head?_utf8Bytes_ne hrest)

/-- Bytes that are no backticks are passed over. -/
theorem closingRun?_append {bytes : List UInt8} (fence index : Nat) (more : List UInt8)
    (h : '`'.toUInt8 ∉ bytes) :
    closingRun? fence index (bytes ++ more) = closingRun? fence (index + bytes.length) more := by
  induction bytes generalizing index with
  | nil => rfl
  | cons byte bytes ih =>
    obtain ⟨hbyte, hbytes⟩ := not_or.1 (mt List.mem_cons.2 h)
    rw [List.cons_append, closingRun?, if_pos (Ne.symm hbyte), ih _ hbytes, List.length_cons]
    congr 1
    omega

/-- A run of backticks closes the fence if it has its length, and is passed over otherwise. -/
theorem closingRun?_replicate_append (fence index : Nat) {n : Nat} (hn : n ≠ 0) {bytes : List UInt8}
    (h : bytes.head? ≠ some '`'.toUInt8) :
    closingRun? fence index (List.replicate n '`'.toUInt8 ++ bytes) =
      if n = fence then some (index + n) else closingRun? fence (index + n) bytes := by
  have hrun := tickRun_replicate_append n h
  have hdrop : (List.replicate n '`'.toUInt8 ++ bytes).drop n = bytes :=
    List.drop_left' (List.length_replicate ..)
  obtain ⟨k, rfl⟩ := Nat.exists_eq_succ_of_ne_zero hn
  rw [List.replicate_succ, List.cons_append] at hrun hdrop ⊢
  rw [closingRun?, if_neg (not_not_intro rfl), hrun]
  simp only [hdrop]

/-- The bytes are searched as the text is. -/
theorem closingRun?_utf8Bytes (fence index : Nat) (text : List Char) :
    closingRun? fence index (utf8Bytes text) =
      (closing? fence text).map fun len => index + byteSize (text.take len) := by
  -- by the length of the text: a step takes a whole run, or one other character
  induction hlength : text.length using Nat.strongRecOn generalizing text index with
  | ind length ih =>
    subst hlength
    obtain ⟨rest, htext, hrest⟩ := exists_run text
    generalize runLength text = n at htext
    subst htext
    by_cases hn : n = 0
    · subst hn
      rw [List.replicate_zero, List.nil_append]
      cases rest with
      | nil => simp [closingRun?, closing?, closing?.go]
      | cons c rest =>
        have hc : c ≠ '`' := by simpa using hrest
        have htick : '`'.toUInt8 ∉ String.utf8EncodeChar c :=
          mt (toUInt8_mem_utf8EncodeChar_iff rfl).1 hc
        rw [utf8Bytes_cons, closingRun?_append _ _ _ htick, String.length_utf8EncodeChar,
          ih rest.length (by simp) _ _ rfl, closing?, closing?, closing?.go, if_neg hc, if_neg (by simp),
          @go_passed fence 0 (0 + 1), Option.map_map]
        congr 1
        funext len
        simp [Nat.add_comm 1 len, Nat.add_assoc]
    · rw [utf8Bytes_append, utf8Bytes_replicate,
        closingRun?_replicate_append fence index hn (head?_utf8Bytes_ne hrest), closing?,
        go_replicate_append hrest, Nat.zero_add]
      by_cases hfence : n = fence
      · rw [if_pos hfence, if_pos ⟨hn, hfence⟩, Option.map_some,
          List.take_left' (List.length_replicate ..), byteSize_replicate]
      · have hshorter : rest.length < (List.replicate n '`' ++ rest).length := by
          rw [List.length_append, List.length_replicate]
          omega
        rw [if_neg hfence, if_neg (not_and_of_not_right _ hfence), ih _ hshorter _ _ rfl,
          @go_passed fence 0 n, Option.map_map, closing?]
        congr 1
        funext len
        have htake : (List.replicate n '`' ++ rest).take (n + len) =
            List.replicate n '`' ++ rest.take len := by
          rw [List.take_append, List.take_of_length_le (by simp), List.length_replicate,
            Nat.add_sub_cancel_left]
        rw [Function.comp_apply, htake, byteSize_append, byteSize_replicate, Nat.add_assoc]

/-! ### Parentheses -/

open Reading

theorem parenWithin?_go_passed (window : Nat) (address : List Char) (passed : Nat) :
    parenWithin?.go window address passed = (parenWithin?.go window address 0).map (passed + ·) := by
  induction address generalizing window passed with
  | nil => cases window <;> simp [parenWithin?.go]
  | cons c address ih =>
    cases window with
    | zero => simp [parenWithin?.go]
    | succ window =>
      simp only [parenWithin?.go]
      split
      · rfl
      · rw [ih, ih _ (0 + 1), Option.map_map]
        congr 1
        funext len
        simp only [Function.comp_apply]
        omega

/-- The first `)` among so many bytes is the first one that starts within them. -/
theorem findIdx?_take_utf8Bytes (window : Nat) (address : List Char) :
    ((utf8Bytes address).take window).findIdx? (· == ')'.toUInt8) =
      (parenWithin? window address).map fun len => byteSize (address.take len) := by
  rw [parenWithin?]
  induction address generalizing window with
  | nil => cases window <;> simp [parenWithin?.go]
  | cons c address ih =>
    cases window with
    | zero => simp [parenWithin?.go]
    | succ window =>
      by_cases hc : c = ')'
      · subst hc
        rfl
      · have hnone : ((String.utf8EncodeChar c).take (window + 1)).findIdx? (· == ')'.toUInt8) =
            none := by
          rw [List.findIdx?_eq_none_iff]
          intro byte hmem
          rw [beq_eq_false_iff_ne]
          rintro rfl
          exact hc ((toUInt8_mem_utf8EncodeChar_iff rfl).1 (List.mem_of_mem_take hmem))
        simp only [parenWithin?.go, if_neg hc]
        rw [utf8Bytes_cons, List.take_append, List.findIdx?_append, hnone, Option.none_or,
          String.length_utf8EncodeChar, ih, parenWithin?_go_passed _ _ (0 + 1), Option.map_map,
          Option.map_map]
        by_cases hwide : window + 1 ≤ c.utf8Size
        · rw [Nat.sub_eq_zero_of_le hwide]
          simp [parenWithin?.go]
        · congr 1
          funext len
          have hlength : ((String.utf8EncodeChar c).take (window + 1)).length = c.utf8Size := by
            rw [List.length_take, String.length_utf8EncodeChar]
            omega
          simp only [Function.comp_apply, hlength, Nat.zero_add, Nat.add_comm 1 len, List.take_succ_cons,
            byteSize_cons]
          omega

theorem parenWithin?_zero (address : List Char) : parenWithin? 0 address = none := by
  rw [parenWithin?, parenWithin?.go]

/-- The first `)` of an address, where the last one of the text is known. -/
theorem parenAfter?_append (before address : List Char) {lastParen : Option Nat}
    (hlast : ∀ last ∈ lastParen, last < byteSize (before ++ address)) :
    parenAfter? (utf8Bytes (before ++ address)) (byteSize before) lastParen =
      some ((parenWithin? (lastParen.elim 0 (· + 1 - byteSize before)) address).map fun len =>
        byteSize (address.take len)) := by
  cases lastParen with
  | none => simp [parenAfter?, parenWithin?_zero]
  | some last =>
    rw [parenAfter?]
    by_cases hstart : byteSize before ≤ last
    · rw [Option.filter_some, if_pos (decide_eq_true hstart)]
      simp only [length_utf8Bytes, if_pos (hlast last rfl), drop_utf8Bytes, findIdx?_take_utf8Bytes,
        Option.elim_some]
    · have hwindow : last + 1 - byteSize before = 0 := by omega
      rw [Option.filter_some, if_neg (by simpa using hstart), Option.elim_some, hwindow,
        parenWithin?_zero]
      rfl

/-- A last `)` beyond the end of the text is an error. -/
theorem parenAfter?_eq_none {before address : List Char} {last : Nat}
    (hlast : byteSize (before ++ address) ≤ last) :
    parenAfter? (utf8Bytes (before ++ address)) (byteSize before) (some last) = none := by
  have hstart : byteSize before ≤ last := by
    rw [byteSize_append] at hlast
    omega
  rw [parenAfter?, Option.filter_some, if_pos (decide_eq_true hstart)]
  simp only [length_utf8Bytes, if_neg (Nat.not_lt.2 hlast)]

end Handler

end InlineMarkup
