import InlineMarkup.Toml.Reader

/-! The root table: every statement changes one entry of it, by the value that the entry had. -/

namespace InlineMarkup.Toml

variable {key : Key} {value : Value} {entries : List (Key × Value)} {current : List Key}

/-- Gives a key its value, whether it has one or not. -/
def putEntry (key : Key) (value : Value) (entries : List (Key × Value)) : List (Key × Value) :=
  if (entries.lookup key).isSome then replaceEntry key value entries else entries ++ [(key, value)]

theorem putEntry_of_none (h : entries.lookup key = none) :
    putEntry key value entries = entries ++ [(key, value)] := by
  simp [putEntry, h]

theorem putEntry_of_some {old : Value} (h : entries.lookup key = some old) :
    putEntry key value entries = replaceEntry key value entries := by
  simp [putEntry, h]

theorem lookup_replaceEntry_self {old : Value} (h : entries.lookup key = some old) :
    (replaceEntry key value entries).lookup key = some value := by
  induction entries with
  | nil => cases h
  | cons entry entries ih =>
    obtain ⟨k, v⟩ := entry
    by_cases hk : k = key
    · subst hk
      simp [replaceEntry]
    · have hne : (key == k) = false := by simpa using Ne.symm hk
      simp only [List.lookup_cons, hne] at h
      simpa [replaceEntry, List.lookup_cons, hk, hne] using ih h

theorem lookup_replaceEntry_of_ne {other : Key} (hne : other ≠ key) :
    (replaceEntry key value entries).lookup other = entries.lookup other := by
  induction entries with
  | nil => rfl
  | cons entry entries ih =>
    obtain ⟨k, v⟩ := entry
    have hother : (other == key) = false := by simpa using hne
    by_cases hk : k = key
    · subst hk
      simpa [replaceEntry, List.lookup_cons, hother] using ih
    · simp only [replaceEntry, List.map_cons, List.lookup_cons, beq_iff_eq, if_neg hk] at ih ⊢
      rw [ih]

theorem lookup_putEntry_self : (putEntry key value entries).lookup key = some value := by
  cases h : entries.lookup key with
  | none => simp [putEntry_of_none h, List.lookup_append, h]
  | some old => rw [putEntry_of_some h, lookup_replaceEntry_self h]

theorem lookup_putEntry_of_ne {other : Key} (hne : other ≠ key) :
    (putEntry key value entries).lookup other = entries.lookup other := by
  have hother : (other == key) = false := by simpa using hne
  cases h : entries.lookup key with
  | none => simp [putEntry_of_none h, List.lookup_append, List.lookup_cons, hother]
  | some old => rw [putEntry_of_some h, lookup_replaceEntry_of_ne hne]

/-! ### Edits -/

namespace Value

/-- Changes one entry of the root table or fails, by the value that the entry had. -/
def Edits (f : Value → Option Value) : Prop :=
  ∃ (key : Key) (edit? : Option Value → Option Value), ∀ entries, f (table .header entries) =
    (edit? (entries.lookup key)).map fun value => table .header (putEntry key value entries)

theorem edits_none : Edits fun _ => none := ⟨[], fun _ => none, fun _ => rfl⟩

/-- The new value of a key that had `old`. -/
def inserted? (value : Value) (old : Option Value) : Option Value :=
  if old.isSome then none else some value

theorem insert_header (key : Key) (value : Value) (entries : List (Key × Value)) :
    insert key value (table .header entries) =
      (inserted? value (entries.lookup key)).map fun value =>
        table .header (putEntry key value entries) := by
  rw [insert]
  cases h : entries.lookup key with
  | none => simp [inserted?, putEntry_of_none h]
  | some old => simp [inserted?]

/-- The value of a key that a header names and that had `old`. -/
def declared? : Option Value → Option Value
  | none => some (emptyTable .header)
  | some (table .implied children) => some (table .header children)
  | some _ => none

theorem edits_declareTable (key : Key) : Edits (declareTable key) := by
  refine ⟨key, declared?, fun entries => ?_⟩
  rw [declareTable]
  cases h : entries.lookup key with
  | none => simp [declared?, putEntry_of_none h]
  | some old =>
    simp only [putEntry_of_some h]
    unfold declared?
    split <;> simp_all

/-- The value of a key that a header in double brackets names and that had `old`. -/
def appended? : Option Value → Option Value
  | none => some (tables [emptyTable .header])
  | some (tables items) => some (tables (emptyTable .header :: items))
  | some _ => none

theorem edits_appendTable (key : Key) : Edits (appendTable key) := by
  refine ⟨key, appended?, fun entries => ?_⟩
  rw [appendTable]
  cases h : entries.lookup key with
  | none => simp [appended?, putEntry_of_none h]
  | some old =>
    simp only [putEntry_of_some h]
    unfold appended?
    split <;> simp_all

/-- The value of a key that had `old` and through which a change leads to the end of `path`. -/
def updated? (dotted : Bool) (path : List Key) (f : Value → Option Value) : Option Value → Option Value
  | none => update dotted path f (emptyTable (if dotted then .dotted else .implied))
  | some (tables (last :: items)) => (update dotted path f last).map fun last => tables (last :: items)
  | some (table origin children) =>
    if dotted ∧ !origin.isImplicit then none else update dotted path f (table origin children)
  | some _ => none

theorem edits_update_cons (dotted : Bool) (key : Key) (path : List Key) (f : Value → Option Value) :
    Edits (update dotted (key :: path) f) := by
  refine ⟨key, updated? dotted path f, fun entries => ?_⟩
  rw [update, if_neg (by simp)]
  dsimp only
  cases h : entries.lookup key with
  | none =>
    simp only [updated?, putEntry_of_none h]
    cases update dotted path f (emptyTable (if dotted then .dotted else .implied)) <;> rfl
  | some old =>
    simp only [putEntry_of_some h]
    cases old with
    | tables items =>
      obtain _ | ⟨last, items⟩ := items
      · rfl
      · simp only [updated?]
        cases update dotted path f last <;> rfl
    | table origin children =>
      simp only [updated?]
      split
      · rfl
      · cases update dotted path f (table origin children) <;> rfl
    | _ => rfl

theorem edits_update {f : Value → Option Value} (h : Edits f) (path : List Key) :
    Edits (update false path f) := by
  obtain _ | ⟨key, path⟩ := path
  · obtain ⟨key, edit?, hedit⟩ := h
    refine ⟨key, edit?, fun entries => ?_⟩
    rw [update, ← hedit]
    rfl
  · exact edits_update_cons false key path f

theorem assignPath_concat (path : List Key) (key : Key) (value : Value) :
    assignPath (path ++ [key]) value = assign path key value := by
  funext table
  simp [assignPath]

theorem assign_nil (key : Key) (value : Value) (entries : List (Key × Value)) :
    assign [] key value (table .header entries) =
      (inserted? value (entries.lookup key)).map fun value =>
        table .header (putEntry key value entries) := by
  rw [assign, update, ← insert_header]
  rfl

theorem edits_assignPath (path : List Key) (value : Value) : Edits (assignPath path value) := by
  obtain rfl | ⟨init, key, rfl⟩ := path.eq_nil_or_concat
  · exact edits_none
  rw [List.concat_eq_append, assignPath_concat]
  obtain _ | ⟨first, init⟩ := init
  · exact ⟨key, inserted? value, assign_nil key value⟩
  · exact edits_update_cons true first init _

end Value

namespace Statement

/-- Whether the statement gives a key its value, and is no header. -/
def isAssign : Statement → Bool
  | assign _ _ => true
  | header _ | arrayHeader _ => false

/-- A statement edits the root table, whatever that is, and only a header changes which header is the
last. -/
theorem exists_edits (current : List Key) (statement : Statement) : ∃ (next : List Key)
    (f : Value → Option Value), Value.Edits f ∧ (statement.isAssign → next = current) ∧
      ∀ root, statement.run (current, root) = (f root).map (next, ·) := by
  cases statement with
  | assign path value =>
    refine ⟨current, _, Value.edits_update (Value.edits_assignPath path value) current, fun _ => rfl,
      fun root => ?_⟩
    rw [run]
    cases Value.update false current (Value.assignPath path value) root <;> rfl
  | header path =>
    cases h : path.getLast? with
    | none => exact ⟨path, _, Value.edits_none, by simp [isAssign], fun root => by simp [run, h]⟩
    | some key =>
      refine ⟨path, _, Value.edits_update (Value.edits_declareTable key) path.dropLast,
        by simp [isAssign], fun root => ?_⟩
      simp only [run, h, Option.bind_eq_bind, Option.bind_some]
      cases Value.update false path.dropLast (Value.declareTable key) root <;> rfl
  | arrayHeader path =>
    cases h : path.getLast? with
    | none => exact ⟨path, _, Value.edits_none, by simp [isAssign], fun root => by simp [run, h]⟩
    | some key =>
      refine ⟨path, _, Value.edits_update (Value.edits_appendTable key) path.dropLast,
        by simp [isAssign], fun root => ?_⟩
      simp only [run, h, Option.bind_eq_bind, Option.bind_some]
      cases Value.update false path.dropLast (Value.appendTable key) root <;> rfl

/-- A statement gives one key of a root table another value, which the value that the key had decides, or
it fails for that value. -/
theorem exists_edit? (current : List Key) (statement : Statement) : ∃ (next : List Key) (key : Key)
    (edit? : Option Value → Option Value), (statement.isAssign → next = current) ∧
      ∀ entries, statement.run (current, .table .header entries) =
        (edit? (entries.lookup key)).map fun value =>
          (next, .table .header (putEntry key value entries)) := by
  obtain ⟨next, f, ⟨key, edit?, hedit⟩, hnext, hrun⟩ := exists_edits current statement
  refine ⟨next, key, edit?, hnext, fun entries => ?_⟩
  rw [hrun, hedit, Option.map_map]
  rfl

/-- Before any header a new key comes last in the root table. -/
theorem run_assign_of_none (h : entries.lookup key = none) (value : Value) :
    run ([], .table .header entries) (assign [key] value) =
      some ([], .table .header (entries ++ [(key, value)])) := by
  have hassign := Value.assign_nil key value entries
  rw [← Value.assignPath_concat, List.nil_append, h] at hassign
  simp [run, Value.update, hassign, Value.inserted?, putEntry_of_none h]

end Statement

/-! ### A key more -/

/-- The entries `more` are those of `entries` and another one, in whatever order. -/
structure Adds (key : Key) (value : Value) (entries more : List (Key × Value)) : Prop where
  absent : entries.lookup key = none
  self : more.lookup key = some value
  other : ∀ other ≠ key, more.lookup other = entries.lookup other

theorem Adds.concat (h : entries.lookup key = none) :
    Adds key value entries (entries ++ [(key, value)]) := by
  rw [← putEntry_of_none h]
  exact ⟨h, lookup_putEntry_self, fun _ => lookup_putEntry_of_ne⟩

theorem Adds.putEntry {more : List (Key × Value)} (h : Adds key value entries more) {other : Key}
    (hne : key ≠ other) (new : Value) :
    Adds key value (putEntry other new entries) (Toml.putEntry other new more) := by
  refine ⟨?_, ?_, fun k hk => ?_⟩
  · rw [lookup_putEntry_of_ne hne, h.absent]
  · rw [lookup_putEntry_of_ne hne, h.self]
  · by_cases heq : k = other
    · rw [heq, lookup_putEntry_self, lookup_putEntry_self]
    · rw [lookup_putEntry_of_ne heq, lookup_putEntry_of_ne heq, h.other k hk]

/-- No statement takes a key away. -/
theorem lookup_eq_none_of_run {statement : Statement} {next : List Key} {root : Value}
    (h : statement.run (current, .table .header entries) = some (next, root)) :
    ∃ grown, root = .table .header grown ∧
      ∀ key, grown.lookup key = none → entries.lookup key = none := by
  obtain ⟨next, key, edit?, -, hrun⟩ := statement.exists_edit? current
  rw [hrun] at h
  obtain ⟨value, -, heq⟩ := Option.map_eq_some_iff.mp h
  cases heq
  refine ⟨_, rfl, fun other hnone => ?_⟩
  by_cases hne : other = key
  · rw [hne, lookup_putEntry_self] at hnone
    cases hnone
  · rwa [lookup_putEntry_of_ne hne] at hnone

/-- A statement that leaves a key without a value does the same where the key has one. -/
theorem Adds.run {more : List (Key × Value)} (h : Adds key value entries more) {statement : Statement}
    {next : List Key} {grown : List (Key × Value)} (habsent : grown.lookup key = none)
    (hrun : statement.run (current, .table .header entries) = some (next, .table .header grown)) :
    ∃ grownMore, statement.run (current, .table .header more) = some (next, .table .header grownMore) ∧
      Adds key value grown grownMore := by
  obtain ⟨next, other, edit?, -, hedit⟩ := statement.exists_edit? current
  rw [hedit] at hrun
  obtain ⟨new, hnew, heq⟩ := Option.map_eq_some_iff.mp hrun
  cases heq
  have hne : key ≠ other := by
    rintro rfl
    rw [lookup_putEntry_self] at habsent
    cases habsent
  refine ⟨Toml.putEntry other new more, ?_, h.putEntry hne new⟩
  rw [hedit, h.other other hne.symm, hnew]
  rfl

/-! ### Runs of statements -/

variable {statements : List Statement} {next : List Key} {root : Value}

theorem lookup_eq_none_of_foldlM
    (h : statements.foldlM Statement.run (current, .table .header entries) = some (next, root)) :
    ∃ grown, root = .table .header grown ∧
      ∀ key, grown.lookup key = none → entries.lookup key = none := by
  induction statements generalizing current entries with
  | nil =>
    cases h
    exact ⟨entries, rfl, fun _ => id⟩
  | cons statement statements ih =>
    obtain ⟨⟨middle, table⟩, hrun, h⟩ := Option.bind_eq_some_iff.mp h
    obtain ⟨between, rfl, hbefore⟩ := lookup_eq_none_of_run hrun
    obtain ⟨grown, hroot, hafter⟩ := ih h
    exact ⟨grown, hroot, fun key hnone => hbefore key (hafter key hnone)⟩

theorem eq_of_foldlM_assign (hassign : ∀ statement ∈ statements, statement.isAssign)
    (h : statements.foldlM Statement.run (current, .table .header entries) = some (next, root)) :
    next = current := by
  induction statements generalizing current entries with
  | nil =>
    cases h
    rfl
  | cons statement statements ih =>
    obtain ⟨⟨middle, table⟩, hrun, h⟩ := Option.bind_eq_some_iff.mp h
    obtain ⟨between, rfl, -⟩ := lookup_eq_none_of_run hrun
    obtain ⟨middle, key, edit?, hmiddle, hedit⟩ := statement.exists_edit? current
    rw [hedit] at hrun
    obtain ⟨value, -, heq⟩ := Option.map_eq_some_iff.mp hrun
    cases heq
    rw [ih (fun other hother => hassign other (List.mem_cons_of_mem _ hother)) h,
      hmiddle (hassign statement List.mem_cons_self)]

theorem Adds.foldlM {more grown : List (Key × Value)} (h : Adds key value entries more)
    (habsent : grown.lookup key = none)
    (hrun : statements.foldlM Statement.run (current, .table .header entries) =
      some (next, .table .header grown)) :
    ∃ grownMore, statements.foldlM Statement.run (current, .table .header more) =
      some (next, .table .header grownMore) ∧ Adds key value grown grownMore := by
  induction statements generalizing current entries more with
  | nil =>
    cases hrun
    exact ⟨more, rfl, h⟩
  | cons statement statements ih =>
    obtain ⟨⟨middle, table⟩, hstep, hrest⟩ := Option.bind_eq_some_iff.mp hrun
    obtain ⟨between, rfl, -⟩ := lookup_eq_none_of_run hstep
    obtain ⟨last, hlast, hkept⟩ := lookup_eq_none_of_foldlM hrest
    cases hlast
    obtain ⟨betweenMore, hstepMore, hbetween⟩ := h.run (hkept key habsent) hstep
    obtain ⟨grownMore, hrestMore, hgrown⟩ := ih hbetween hrest
    refine ⟨grownMore, ?_, hgrown⟩
    rw [List.foldlM_cons, hstepMore]
    exact hrestMore

/-- A key may be given a value in the root table before any header, if it has none in the end. -/
theorem foldlM_insert {before after : List Statement}
    (hassign : ∀ statement ∈ before, statement.isAssign)
    (h : (before ++ after).foldlM Statement.run ([], .table .header entries) = some (next, root))
    (habsent : root.get? key = none) (value : Value) : ∃ more,
    (before ++ .assign [key] value :: after).foldlM Statement.run ([], .table .header entries) =
      some (next, more) ∧
      more.get? key = some value ∧ ∀ other ≠ key, more.get? other = root.get? other := by
  rw [List.foldlM_append] at h
  obtain ⟨⟨current, table⟩, hbefore, hafter⟩ := Option.bind_eq_some_iff.mp h
  obtain rfl := eq_of_foldlM_assign hassign hbefore
  obtain ⟨between, rfl, -⟩ := lookup_eq_none_of_foldlM hbefore
  obtain ⟨grown, rfl, hkept⟩ := lookup_eq_none_of_foldlM hafter
  have hnone := hkept key habsent
  obtain ⟨more, hmore, hadds⟩ := (Adds.concat hnone).foldlM habsent hafter
  refine ⟨.table .header more, ?_, hadds.self, hadds.other⟩
  rw [List.foldlM_append, hbefore, Option.bind_eq_bind, Option.bind_some, List.foldlM_cons,
    Statement.run_assign_of_none hnone]
  exact hmore

end InlineMarkup.Toml
