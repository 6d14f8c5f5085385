import InlineMarkup.Proofs.Lookahead
import InlineMarkup.Proofs.RootTable

/-! Fragments: a document reads piece by piece, so that a line with a new key changes that key alone. -/

namespace InlineMarkup.Toml

variable {s t lines : List Char} {statement : Statement} {statements : List Statement}

/-! ### The statements of lines -/

/-- The statements that stand in a text, whatever number there may be. -/
inductive Reads : List Char → List Statement → Prop
  | nil {s : List Char} (h : skipSpace s = []) : Reads s []
  | cons {s rest after : List Char} {statement : Statement} {statements : List Statement}
      (hne : skipSpace s ≠ []) (hread : statement? (skipSpace s) = some (statement, rest))
      (hend : endLine? rest = some after) (h : Reads after statements) :
      Reads s (statement :: statements)

theorem statementsFrom?_eq_some_iff {fuel : Nat} {seen : List Statement} :
    statementsFrom? fuel seen s = some statements ↔
      ∃ found, Reads s found ∧ found.length < fuel ∧ statements = seen.reverse ++ found := by
  induction fuel generalizing seen s with
  | zero => simp [statementsFrom?]
  | succ fuel ih =>
    rw [statementsFrom?]
    split
    · rename_i hnil
      constructor
      · intro h
        cases h
        exact ⟨[], .nil hnil, by simp, by simp⟩
      · rintro ⟨found, ⟨-⟩ | ⟨hne, -, -, -⟩, -, rfl⟩
        · simp
        · exact absurd hnil hne
    · rename_i hne
      constructor
      · intro h
        obtain ⟨⟨statement, rest⟩, hread, h⟩ := Option.bind_eq_some_iff.mp h
        obtain ⟨after, hend, h⟩ := Option.bind_eq_some_iff.mp h
        obtain ⟨found, hfound, hlt, rfl⟩ := ih.1 h
        exact ⟨statement :: found, .cons hne hread hend hfound, by simpa using hlt, by simp⟩
      · rintro ⟨found, hnil | ⟨-, hread, hend, hfound⟩, hlt, rfl⟩
        · exact absurd hnil hne
        · simp only [hread, hend, Option.bind_eq_bind, Option.bind_some]
          exact ih.2 ⟨_, hfound, by simpa using hlt, by simp⟩

theorem statements?_eq_some_iff :
    statements? s = some statements ↔ Reads s statements ∧ statements.length ≤ s.length := by
  rw [statements?, statementsFrom?_eq_some_iff]
  constructor
  · rintro ⟨found, hreads, hlt, rfl⟩
    exact ⟨hreads, Nat.le_of_lt_succ hlt⟩
  · rintro ⟨hreads, hle⟩
    exact ⟨statements, hreads, Nat.lt_succ_of_le hle, rfl⟩

theorem Reads.congr (h : Reads s statements) (hspace : skipSpace t = skipSpace s) :
    Reads t statements := by
  cases h with
  | nil hnil => exact .nil (hspace.trans hnil)
  | cons hne hread hend hrest => exact .cons (hspace ▸ hne) (hspace ▸ hread) hend hrest

/-- Reading does not notice where complete lines end and other text begins. -/
theorem Reads.append_iff {found : List Statement} (h : Reads s found) (hs : Lines s) :
    Reads (s ++ t) statements ↔ ∃ more, statements = found ++ more ∧ Reads t more := by
  induction h generalizing statements with
  | @nil s hnil =>
    have hspace : skipSpace (s ++ t) = skipSpace t := by
      obtain ⟨-, ⟨-, hmore⟩ | ⟨hne, -⟩⟩ := skipSpace_cases hs
      · exact hmore t
      · exact absurd hnil hne
    simp only [List.nil_append, exists_eq_left']
    exact ⟨fun h => h.congr hspace.symm, fun h => h.congr hspace⟩
  | @cons s rest after statement found hne hread hend hfound ih =>
    obtain ⟨hlines, hmore⟩ := passes_skipSpace hs
    obtain ⟨hrest, hrestLines, hreadMore⟩ := local_statement? hlines hread
    obtain ⟨hafter, hendMore⟩ := endLine?_append hrestLines hrest hend
    have hspace := hmore hne t
    constructor
    · intro h
      cases h with
      | nil hnil =>
        rw [hspace] at hnil
        exact absurd (List.append_eq_nil_iff.mp hnil).1 hne
      | cons _ hread' hend' h =>
        rw [hspace, hreadMore] at hread'
        cases hread'
        rw [hendMore] at hend'
        cases hend'
        obtain ⟨more, rfl, hmore⟩ := (ih hafter).1 h
        exact ⟨more, rfl, hmore⟩
    · rintro ⟨more, rfl, h⟩
      refine .cons ?_ (by rw [hspace, hreadMore]) (hendMore t) ((ih hafter).2 ⟨more, rfl, h⟩)
      rw [hspace]
      exact fun hnil => hne (List.append_eq_nil_iff.mp hnil).1

/-! ### Line breaks -/

theorem normalizeFrom_cons {c : Char} (h : ∀ rest, c = '\r' → s = '\n' :: rest → False)
    (seen : List Char) :
    normalizeFrom seen (c :: s) = if isPermitted c then normalizeFrom (c :: seen) s else none := by
  rw [normalizeFrom]
  exact h

theorem normalizeFrom_seen (first seen s : List Char) :
    normalizeFrom (first ++ seen) s = (normalizeFrom first s).map (seen.reverse ++ ·) := by
  induction first, s using normalizeFrom.induct with
  | case1 first => simp [normalizeFrom]
  | case2 first rest ih =>
    rw [normalizeFrom, normalizeFrom]
    exact ih
  | case3 first c rest hbreak hc ih =>
    rw [normalizeFrom_cons hbreak, normalizeFrom_cons hbreak, if_pos hc, if_pos hc]
    exact ih
  | case4 first c rest hbreak hc =>
    rw [normalizeFrom_cons hbreak, normalizeFrom_cons hbreak, if_neg hc, if_neg hc]
    rfl

theorem normalizeFrom_append (hs : Lines s) (seen : List Char) :
    normalizeFrom seen (s ++ t) = (normalizeFrom seen s).bind fun lines =>
      (normalizeFrom [] t).map (lines ++ ·) := by
  induction seen, s using normalizeFrom.induct with
  | case1 seen =>
    rw [List.nil_append, normalizeFrom, Option.bind_some, ← normalizeFrom_seen, List.nil_append]
  | case2 seen rest ih =>
    simp only [List.cons_append, normalizeFrom]
    exact ih hs.tail.tail
  | case3 seen c rest hbreak hc ih =>
    have hcarriage (h : c = '\r') : False := by
      rw [h] at hc
      exact absurd hc (by decide)
    rw [List.cons_append, normalizeFrom_cons hbreak, normalizeFrom_cons fun _ h _ => hcarriage h,
      if_pos hc, if_pos hc, ih hs.tail]
  | case4 seen c rest hbreak hc =>
    have hmore : ∀ after, c = '\r' → rest ++ t = '\n' :: after → False := by
      rintro after rfl heq
      obtain ⟨d, rest, rfl⟩ := List.exists_cons_of_ne_nil (hs.ne_nil (by decide))
      exact hbreak rest rfl (by rw [(List.cons.inj heq).1])
    rw [List.cons_append, normalizeFrom_cons hbreak, normalizeFrom_cons hmore, if_neg hc, if_neg hc]
    rfl

theorem Lines.of_normalizeFrom (hs : Lines s) {seen : List Char} (hseen : s = [] → Lines seen.reverse)
    (h : normalizeFrom seen s = some lines) : Lines lines := by
  induction seen, s using normalizeFrom.induct with
  | case1 seen =>
    cases h
    exact hseen rfl
  | case2 seen rest ih =>
    rw [normalizeFrom] at h
    exact ih hs.tail.tail (fun _ => by simp [Lines]) h
  | case3 seen c rest hbreak hc ih =>
    rw [normalizeFrom_cons hbreak, if_pos hc] at h
    refine ih hs.tail (fun hnil => ?_) h
    subst hnil
    obtain rfl := hs c rfl
    simp [Lines]
  | case4 seen c rest hbreak hc =>
    rw [normalizeFrom_cons hbreak, if_neg hc] at h
    cases h

theorem Lines.normalized (hs : Lines s) (h : normalizeFrom [] s = some lines) : Lines lines :=
  hs.of_normalizeFrom (fun _ => by simp [Lines]) h

/-! ### Fragments of documents -/

/-- The statements of a text that may stand anywhere in a document. -/
def fragment? (text : List Char) : Option (List Statement) := (normalizeFrom [] text).bind statements?

theorem fragment?_eq_some_iff : fragment? s = some statements ↔ ∃ lines,
    normalizeFrom [] s = some lines ∧ Reads lines statements ∧ statements.length ≤ lines.length := by
  simp only [fragment?, Option.bind_eq_some_iff, statements?_eq_some_iff]

/-- The pieces of a document: a fragment of complete lines, and what follows it. -/
theorem fragment?_append_eq_some {found : List Statement} (hs : Lines s)
    (hfound : fragment? s = some found) (h : fragment? (s ++ t) = some statements) :
    ∃ lines more moreLines, statements = found ++ more ∧
      normalizeFrom [] s = some lines ∧ Reads lines found ∧ Lines lines ∧
      normalizeFrom [] t = some moreLines ∧ Reads moreLines more ∧
      found.length + more.length ≤ lines.length + moreLines.length := by
  obtain ⟨lines, hlines, hreads, -⟩ := fragment?_eq_some_iff.1 hfound
  obtain ⟨whole, hwhole, hall, hlen⟩ := fragment?_eq_some_iff.1 h
  have hcomplete := hs.normalized hlines
  rw [normalizeFrom_append hs, hlines, Option.bind_some] at hwhole
  obtain ⟨moreLines, hmoreLines, rfl⟩ := Option.map_eq_some_iff.mp hwhole
  obtain ⟨more, rfl, hmore⟩ := (hreads.append_iff hcomplete).1 hall
  refine ⟨lines, more, moreLines, rfl, hlines, hreads, hcomplete, hmoreLines, hmore, ?_⟩
  simpa using hlen

theorem fragment?_append {found more : List Statement} (hs : Lines s) (hfound : fragment? s = some found)
    (hmore : fragment? t = some more) : fragment? (s ++ t) = some (found ++ more) := by
  obtain ⟨lines, hlines, hreads, hlen⟩ := fragment?_eq_some_iff.1 hfound
  obtain ⟨moreLines, hmoreLines, hmoreReads, hmoreLen⟩ := fragment?_eq_some_iff.1 hmore
  have hcomplete := hs.normalized hlines
  refine fragment?_eq_some_iff.2 ⟨lines ++ moreLines, ?_,
    (hreads.append_iff hcomplete).2 ⟨more, rfl, hmoreReads⟩, ?_⟩
  · rw [normalizeFrom_append hs, hlines, Option.bind_some, hmoreLines]
    rfl
  · rw [List.length_append, List.length_append]
    omega

/-- Another line between two pieces of a document is another statement between theirs. -/
theorem fragment?_insert {line : List Char} {before : List Statement} (hs : Lines s)
    (hbefore : fragment? s = some before) (hline : Lines line)
    (hstatement : fragment? line = some [statement]) (h : fragment? (s ++ t) = some statements) :
    ∃ after, statements = before ++ after ∧
      fragment? (s ++ (line ++ t)) = some (before ++ statement :: after) := by
  obtain ⟨lines, after, afterLines, rfl, hlines, hreads, hcomplete, hafterLines, hafter, hlen⟩ :=
    fragment?_append_eq_some hs hbefore h
  obtain ⟨middle, hmiddle, hmiddleReads, hpos⟩ := fragment?_eq_some_iff.1 hstatement
  have hmiddleLines := hline.normalized hmiddle
  have hrest := (hmiddleReads.append_iff hmiddleLines).2 ⟨after, rfl, hafter⟩
  refine ⟨after, rfl, fragment?_eq_some_iff.2 ⟨lines ++ (middle ++ afterLines), ?_,
    (hreads.append_iff hcomplete).2 ⟨_, rfl, hrest⟩, ?_⟩⟩
  · rw [normalizeFrom_append hs, hlines, Option.bind_some, normalizeFrom_append hline, hmiddle,
      Option.bind_some, hafterLines]
    rfl
  · -- The line brings at least one character for its one statement.
    simp only [List.length_append, List.length_cons, List.length_nil] at hpos ⊢
    omega

/-! ### The line of a key -/

theorem toNat_of_isAlphanum {c : Char} (h : c.isAlphanum) : 48 ≤ c.toNat ∧ c.toNat ≤ 122 := by
  have hranges : ((decide (c.val ≥ 65 ∧ c.val ≤ 90) || (decide (c.val ≥ 97) && decide (c.val ≤ 122))) ||
      (decide (c.val ≥ 48) && decide (c.val ≤ 57))) = true := h
  simp only [Bool.or_eq_true, Bool.and_eq_true, decide_eq_true_eq, ge_iff_le, UInt32.le_iff_toNat_le,
    UInt32.reduceToNat] at hranges
  have hc : c.toNat = c.val.toNat := rfl
  omega

theorem isPermitted_of_isBareKeyChar {c : Char} (h : isBareKeyChar c) : isPermitted c := by
  simp only [isBareKeyChar, Bool.or_eq_true, beq_iff_eq] at h
  obtain (h | rfl) | rfl := h
  · obtain ⟨hlow, hhigh⟩ := toNat_of_isAlphanum h
    have hrange : 32 ≤ c.toNat ∧ c.toNat ≠ 127 := ⟨by omega, by omega⟩
    simp [isPermitted, hrange]
  · decide
  · decide

theorem normalizeFrom_of_isPermitted (h : ∀ c ∈ s, isPermitted c) (seen : List Char) :
    normalizeFrom seen s = some (seen.reverse ++ s) := by
  induction s generalizing seen with
  | nil => simp [normalizeFrom]
  | cons c s ih =>
    have hc := h c List.mem_cons_self
    have hcarriage : c ≠ '\r' := by
      rintro rfl
      exact absurd hc (by decide)
    rw [normalizeFrom_cons fun _ heq _ => hcarriage heq, if_pos hc,
      ih fun d hd => h d (List.mem_cons_of_mem c hd)]
    simp

theorem ne_of_isBareKeyChar {c d : Char} (h : isBareKeyChar c) (hd : isBareKeyChar d = false) :
    c ≠ d := by
  rintro rfl
  simp [h] at hd

theorem simpleKey?_append {name : List Char} (h : ∀ c ∈ name, isBareKeyChar c) (hne : name ≠ [])
    {c : Char} (hc : isBareKeyChar c = false) (text : List Char) :
    simpleKey? (name ++ c :: text) = some (name, c :: text) := by
  have hspan : (name ++ c :: text).span isBareKeyChar = (name, c :: text) := by
    have hstop : ¬isBareKeyChar c := by simp [hc]
    rw [List.span_eq_takeWhile_dropWhile, List.takeWhile_append_of_pos h, List.dropWhile_append_of_pos h,
      List.takeWhile_cons_of_neg hstop, List.dropWhile_cons_of_neg hstop, List.append_nil]
  obtain ⟨d, name, rfl⟩ := List.exists_cons_of_ne_nil hne
  rw [simpleKey?, hspan]

theorem skipBlanks_cons_of_ne {c : Char} (h : isBlank c = false) : skipBlanks (c :: s) = c :: s :=
  List.dropWhile_cons_of_neg (by simp [h])

theorem skipBlanks_of_isBareKeyChar {c : Char} (h : isBareKeyChar c) : skipBlanks (c :: s) = c :: s :=
  have hspace : c ≠ ' ' := ne_of_isBareKeyChar h (by decide)
  have htab : c ≠ '\t' := ne_of_isBareKeyChar h (by decide)
  skipBlanks_cons_of_ne (by simp [isBlank, hspace, htab])

theorem skipSpace_of_isBareKeyChar {c : Char} (h : isBareKeyChar c) : skipSpace (c :: s) = c :: s := by
  have hremark : skipRemark (c :: s) = c :: s := by
    rw [skipRemark, skipBlanks_of_isBareKeyChar h,
      skipComment_of_ne (ne_of_isBareKeyChar h (by decide))]
  rw [skipSpace_of_ne, hremark]
  intro rest heq
  rw [hremark] at heq
  exact ne_of_isBareKeyChar h (by decide) (List.cons.inj heq).1

theorem key?_append {name : List Char} (h : ∀ c ∈ name, isBareKeyChar c) (hne : name ≠ [])
    (text : List Char) : key? (name ++ ' ' :: '=' :: text) = some ([name], '=' :: text) := by
  have hsimple := simpleKey?_append h hne (c := ' ') (by decide) ('=' :: text)
  have hblanks : skipBlanks (name ++ ' ' :: '=' :: text) = name ++ ' ' :: '=' :: text := by
    obtain ⟨d, name, rfl⟩ := List.exists_cons_of_ne_nil hne
    exact skipBlanks_of_isBareKeyChar (h d List.mem_cons_self)
  have hrest : skipBlanks (' ' :: '=' :: text) = '=' :: text := rfl
  rw [key?, show keyPartsLimit = 79 + 1 from rfl, keyParts?, hblanks, hsimple]
  simp only [Option.bind_eq_bind, Option.bind_some, hrest]
  rfl

/-- The statement of a line that gives a bare key a value. -/
theorem fragment?_line {name text : List Char} {value : Value} (hname : ∀ c ∈ name, isBareKeyChar c)
    (hne : name ≠ []) (htext : ∀ c ∈ text, isPermitted c)
    (hblank : skipBlanks (text ++ ['\n']) = text ++ ['\n'])
    (hvalue : value? (text ++ ['\n']) = some (value, ['\n'])) :
    fragment? (name ++ " = ".toList ++ text ++ ['\n']) = some [.assign [name] value] := by
  have hpermitted : ∀ c ∈ name ++ " = ".toList ++ text ++ ['\n'], isPermitted c := by
    simp only [List.mem_append]
    rintro c (((h | h) | h) | h)
    · exact isPermitted_of_isBareKeyChar (hname c h)
    · exact List.all_eq_true.mp (by decide : " = ".toList.all isPermitted) c h
    · exact htext c h
    · exact List.all_eq_true.mp (by decide : ['\n'].all isPermitted) c h
  have hassign : assignment? skipBlanks value? (name ++ ' ' :: '=' :: ' ' :: (text ++ ['\n'])) =
      some (([name], value), ['\n']) := by
    refine assignment?_eq_some_iff.2
      ⟨_, _, key?_append hname hne _, skipBlanks_cons_of_ne (by decide), ?_⟩
    rw [← hvalue]
    exact congrArg value? hblank
  have heq : name ++ " = ".toList ++ text ++ ['\n'] =
      name ++ ' ' :: '=' :: ' ' :: (text ++ ['\n']) := by simp
  refine fragment?_eq_some_iff.2 ⟨_, normalizeFrom_of_isPermitted hpermitted [], ?_, by simp; omega⟩
  rw [heq, List.reverse_nil, List.nil_append]
  obtain ⟨c, name, rfl⟩ := List.exists_cons_of_ne_nil hne
  have hc := hname c List.mem_cons_self
  rw [List.cons_append] at hassign ⊢
  have hspace := skipSpace_of_isBareKeyChar hc (s := name ++ ' ' :: '=' :: ' ' :: (text ++ ['\n']))
  have hend : endLine? ['\n'] = some [] := rfl
  refine .cons (by simp [hspace]) ?_ hend (.nil rfl)
  rw [hspace, statement?_of_ne (ne_of_isBareKeyChar hc (by decide)), hassign]
  rfl

/-! ### Documents -/

theorem key?_mark (s : List Char) : key? ('\ufeff' :: s) = none := by
  have hspan : ('\ufeff' :: s).span isBareKeyChar = ([], '\ufeff' :: s) := by
    rw [List.span_eq_takeWhile_dropWhile]
    rfl
  have hkey : simpleKey? (skipBlanks ('\ufeff' :: s)) = none := by
    rw [show skipBlanks ('\ufeff' :: s) = '\ufeff' :: s from rfl, simpleKey?, hspan]
    rfl
  rw [key?, show keyPartsLimit = 79 + 1 from rfl, keyParts?, hkey]
  rfl

/-- A fragment does not start with a byte order mark. -/
theorem head?_ne_of_fragment? (h : fragment? s = some statements) : s.head? ≠ some '\ufeff' := by
  intro hhead
  obtain ⟨s, rfl⟩ := List.head?_eq_some_iff.mp hhead
  obtain ⟨lines, hlines, hreads, -⟩ := fragment?_eq_some_iff.1 h
  rw [normalizeFrom_cons (by simp), if_pos (by decide), ← List.nil_append ['\ufeff'],
    normalizeFrom_seen] at hlines
  obtain ⟨tail, -, rfl⟩ := Option.map_eq_some_iff.mp hlines
  have hremark : skipRemark ('\ufeff' :: tail) = '\ufeff' :: tail := rfl
  have hspace : skipSpace ('\ufeff' :: tail) = '\ufeff' :: tail := skipSpace_of_ne (by simp [hremark])
  cases hreads with
  | nil hnil => simp [hspace] at hnil
  | cons _ hread _ _ =>
    simp [hspace, statement?_of_ne, assignment?, key?_mark] at hread

theorem parse?_eq (h : s.head? ≠ some '\ufeff') : parse? s = (fragment? s).bind fun statements =>
    (statements.foldlM Statement.run ([], Value.emptyTable .header)).map Prod.snd := by
  have hnormal : normalize? s = normalizeFrom [] s := by
    rw [normalize?]
    rintro rest rfl
    exact h rfl
  rw [parse?, hnormal, fragment?, Option.bind_assoc]
  simp only [Option.bind_eq_bind, Option.map_eq_bind]
  rfl

/-- A text of complete lines that gives keys their values and holds no header. -/
def Whole (text : List Char) : Prop :=
  Lines text ∧ ∃ statements ∈ fragment? text, ∀ statement ∈ statements, statement.isAssign

theorem whole_nil : Whole [] := ⟨lines_nil, [], rfl, by simp⟩

theorem Whole.append (hs : Whole s) (ht : Whole t) : Whole (s ++ t) := by
  obtain ⟨hlines, found, hfound, hassign⟩ := hs
  obtain ⟨htlines, more, hmore, hmoreAssign⟩ := ht
  refine ⟨hlines.append htlines, found ++ more, fragment?_append hlines hfound hmore,
    fun statement hmem => ?_⟩
  exact (List.mem_append.mp hmem).elim (hassign statement) (hmoreAssign statement)

theorem Whole.head?_append_ne (hs : Whole s) (ht : t.head? ≠ some '\ufeff') :
    (s ++ t).head? ≠ some '\ufeff' := by
  obtain ⟨-, statements, hstatements, -⟩ := hs
  have hhead := head?_ne_of_fragment? hstatements
  obtain _ | ⟨c, s⟩ := s
  · exact ht
  · exact hhead

/-- A line with a new key among the keys before the first header adds that key and changes no other. -/
theorem parse?_insert {line : List Char} {key : Key} {value root : Value} (hs : Whole s)
    (hline : Lines line) (hstatement : fragment? line = some [.assign [key] value])
    (ht : t.head? ≠ some '\ufeff')
    (h : parse? (s ++ t) = some root) (habsent : root.get? key = none) : ∃ more,
    parse? (s ++ (line ++ t)) = some more ∧ more.get? key = some value ∧
      ∀ other ≠ key, more.get? other = root.get? other := by
  rw [parse?_eq (hs.head?_append_ne ht)] at h
  obtain ⟨hlines, before, hbefore, hassign⟩ := hs
  obtain ⟨statements, hstatements, h⟩ := Option.bind_eq_some_iff.mp h
  obtain ⟨⟨next, root⟩, hrun, heq⟩ := Option.map_eq_some_iff.mp h
  cases heq
  obtain ⟨after, rfl, hmore⟩ := fragment?_insert hlines hbefore hline hstatement hstatements
  obtain ⟨more, hrunMore, hself, hother⟩ := foldlM_insert hassign hrun habsent value
  refine ⟨more, ?_, hself, hother⟩
  rw [parse?_eq (head?_ne_of_fragment? hmore), hmore, Option.bind_some, Value.emptyTable, hrunMore]
  rfl

end InlineMarkup.Toml
