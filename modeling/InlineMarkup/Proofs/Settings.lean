import InlineMarkup.Config.File
import InlineMarkup.Engine.Basic
import InlineMarkup.Proofs.Decoding
import InlineMarkup.Proofs.Fragments
import InlineMarkup.Proofs.Scalars

/-! Settings: those that a file holds come from it, whatever else it holds, and all others are the
default. -/

namespace InlineMarkup.Config

inductive Setting
  | maxInputBytes
  | bareUrls
  | invalidUtf8
deriving DecidableEq, Repr

namespace Setting

/-- All settings, in the order in which they are saved. -/
def all : List Setting := [maxInputBytes, bareUrls, invalidUtf8]

def name : Setting → Toml.Key
  | maxInputBytes => "max_input_bytes".toList
  | bareUrls => "bare_urls".toList
  | invalidUtf8 => "invalid_utf8".toList

theorem name_injective : Function.Injective name := by
  intro setting other h
  cases setting <;> cases other <;> first | rfl | exact absurd h (by decide)

/-- How the value of the setting is written. -/
def text (config : Config) : Setting → List Char
  | maxInputBytes => Nat.toDigits 10 config.maxInputBytes
  | bareUrls => (if config.bareUrls then "true" else "false").toList
  | invalidUtf8 => ['"'] ++ config.invalidUtf8.name.toList ++ ['"']

/-- The line on which the setting is saved. -/
def line (config : Config) (setting : Setting) : List Char :=
  setting.name ++ " = ".toList ++ setting.text config ++ ['\n']

def value (config : Config) : Setting → Toml.Value
  | maxInputBytes => .integer config.maxInputBytes
  | bareUrls => .boolean config.bareUrls
  | invalidUtf8 => .string config.invalidUtf8.name.toList

end Setting

variable {config : Config} {settings : List Setting} {table : Toml.Value}

theorem toText_eq (config : Config) : config.toText = Setting.all.flatMap (Setting.line config) := by
  have hsize : "max_input_bytes = ".toList = Setting.maxInputBytes.name ++ " = ".toList := rfl
  have hbare : "bare_urls = ".toList = Setting.bareUrls.name ++ " = ".toList := rfl
  have hpolicy : "invalid_utf8 = \"".toList = Setting.invalidUtf8.name ++ " = ".toList ++ ['"'] := rfl
  have hend : ['"', '\n'] = ['"'] ++ ['\n'] := rfl
  unfold toText
  rw [hsize, hbare, hpolicy, hend]
  simp only [Setting.all, List.flatMap_cons, List.flatMap_nil, Setting.line, Setting.text]
  generalize Setting.maxInputBytes.name = size, Setting.bareUrls.name = bare,
    Setting.invalidUtf8.name = policy, " = ".toList = equals
  simp only [List.append_assoc, List.append_nil]

namespace Setting

theorem isBareKeyChar_of_mem_name (setting : Setting) : ∀ c ∈ setting.name, Toml.isBareKeyChar c :=
  List.all_eq_true.mp (by cases setting <;> decide)

theorem name_ne_nil (setting : Setting) : setting.name ≠ [] := by
  cases setting <;> decide

theorem isPermitted_of_mem_text (config : Config) (setting : Setting) :
    ∀ c ∈ setting.text config, Toml.isPermitted c := by
  cases setting with
  | maxInputBytes =>
    intro c hc
    have hdigit : c.isDigit := Toml.isDigit_of_mem_toDigits hc
    exact Toml.isPermitted_of_isBareKeyChar (by simp [Toml.isBareKeyChar, Char.isAlphanum, hdigit])
  | bareUrls =>
    refine List.all_eq_true.mp ?_
    cases h : config.bareUrls <;> simp only [text, h] <;> decide
  | invalidUtf8 =>
    refine List.all_eq_true.mp ?_
    cases h : config.invalidUtf8 <;> simp only [text, h] <;> decide

theorem skipBlanks_text (config : Config) (setting : Setting) :
    Toml.skipBlanks (setting.text config ++ ['\n']) = setting.text config ++ ['\n'] := by
  cases setting with
  | maxInputBytes =>
    obtain ⟨c, digits, hdigits⟩ :=
      List.exists_cons_of_ne_nil (Nat.toDigits_ne_nil (n := config.maxInputBytes) (b := 10))
    have hc : c.isDigit := Toml.isDigit_of_mem_toDigits (by rw [hdigits]; exact List.mem_cons_self)
    rw [text, hdigits]
    exact Toml.skipBlanks_of_isBareKeyChar (by simp [Toml.isBareKeyChar, Char.isAlphanum, hc])
  | bareUrls => cases h : config.bareUrls <;> simp only [text, h] <;> rfl
  | invalidUtf8 => rfl

theorem value?_text (h : config.maxInputBytes < Nat.pow 2 63) (setting : Setting) :
    Toml.value? (setting.text config ++ ['\n']) = some (setting.value config, ['\n']) := by
  cases setting with
  | maxInputBytes => exact Toml.value?_toDigits (Nat.lt_of_lt_of_le h (by decide)) []
  | bareUrls => cases h : config.bareUrls <;> simp only [text, value, h] <;> rfl
  | invalidUtf8 =>
    have hplain : ∀ c ∈ config.invalidUtf8.name.toList, Toml.isPlain c :=
      List.all_eq_true.mp (by cases config.invalidUtf8 <;> decide)
    have hne : config.invalidUtf8.name.toList ≠ [] := by cases config.invalidUtf8 <;> decide
    rw [text, List.append_assoc]
    exact Toml.value?_quoted hplain hne ['\n']

/-- The line of a setting reads as the setting. -/
theorem fragment?_line (h : config.maxInputBytes < Nat.pow 2 63) (setting : Setting) :
    Toml.fragment? (setting.line config) = some [.assign [setting.name] (setting.value config)] :=
  Toml.fragment?_line setting.isBareKeyChar_of_mem_name setting.name_ne_nil
    (setting.isPermitted_of_mem_text config) (setting.skipBlanks_text config) (setting.value?_text h)

theorem lines_line (config : Config) (setting : Setting) : Toml.Lines (setting.line config) :=
  Toml.lines_of_getLast? (by rw [line, List.getLast?_concat])

theorem whole_line (h : config.maxInputBytes < Nat.pow 2 63) (setting : Setting) :
    Toml.Whole (setting.line config) :=
  ⟨setting.lines_line config, _, setting.fragment?_line h, by simp [Toml.Statement.isAssign]⟩

end Setting

/-! ### Settings in a table -/

/-- The given settings of `config`, and the default of all others. -/
def only (config : Config) (settings : List Setting) : Config :=
  let default : Config := {}
  { maxInputBytes := if .maxInputBytes ∈ settings then config.maxInputBytes else default.maxInputBytes
    bareUrls := if .bareUrls ∈ settings then config.bareUrls else default.bareUrls
    invalidUtf8 := if .invalidUtf8 ∈ settings then config.invalidUtf8 else default.invalidUtf8 }

theorem only_all (config : Config) : config.only Setting.all = config := by
  simp [only, Setting.all]

theorem setting?_of_get? {α : Type} {key : String} {value : Toml.Value} {p : Prop} [Decidable p]
    (h : table.get? key.toList = if p then some value else none) {read? : Toml.Value → Option α} {a : α}
    (hread : read? value = some a) (default : α) :
    setting? table key default read? = some (if p then a else default) := by
  rw [setting?, h]
  split_ifs
  · exact hread
  · rfl

theorem ofTable?_of_get? (hsize : config.maxInputBytes < Nat.pow 2 63)
    (h : ∀ setting : Setting, table.get? setting.name =
      if setting ∈ settings then some (setting.value config) else none) :
    ofTable? table = some (config.only settings) := by
  have hsize? : size? (.integer config.maxInputBytes) = some config.maxInputBytes := by
    have hbound : config.maxInputBytes < sizeBound := Nat.lt_of_lt_of_le hsize (by decide)
    rw [size?, if_pos ⟨Int.natCast_nonneg _, by exact_mod_cast hbound⟩]
    rfl
  have hpolicy : policy? (.string config.invalidUtf8.name.toList) = some config.invalidUtf8 := by
    rw [policy?, String.ofList_toList, Utf8Policy.ofName?_name]
  have hflag : flag? (.boolean config.bareUrls) = some config.bareUrls := rfl
  rw [ofTable?]
  simp only [setting?_of_get? (h .maxInputBytes) hsize?, setting?_of_get? (h .bareUrls) hflag,
    setting?_of_get? (h .invalidUtf8) hpolicy]
  rfl

/-! ### Files -/

/-- A part of a file before its headers: the line of a setting, or whole lines with other keys. -/
inductive Part
  | line (setting : Setting)
  | keys (text : List Char)

namespace Part

/-- The part as it stands in a file with settings of `config`. -/
def text (config : Config) : Part → List Char
  | line setting => setting.line config
  | keys text => text

/-- What is left of the part in a file without settings. -/
def others : Part → List Char
  | line _ => []
  | keys text => text

def setting? : Part → Option Setting
  | line setting => some setting
  | keys _ => none

def IsWhole : Part → Prop
  | line _ => True
  | keys text => Toml.Whole text

variable {parts : List Part}

theorem whole_others (h : ∀ part ∈ parts, part.IsWhole) : Toml.Whole (parts.flatMap others) := by
  induction parts with
  | nil => exact Toml.whole_nil
  | cons part parts ih =>
    rw [List.flatMap_cons]
    refine Toml.Whole.append ?_ (ih fun other hother => h other (List.mem_cons_of_mem part hother))
    cases part with
    | line setting => exact Toml.whole_nil
    | keys text => exact h _ List.mem_cons_self

/-- Lines of settings between other keys add the settings and change no other key. `done` is what stands
before the parts. -/
theorem parse?_parts (hsize : config.maxInputBytes < Nat.pow 2 63) {done rest : List Char}
    (hdone : Toml.Whole done) (hparts : ∀ part ∈ parts, part.IsWhole)
    (hnodup : (parts.filterMap setting?).Nodup) (hrest : rest.head? ≠ some '\ufeff')
    (h : Toml.parse? (done ++ (parts.flatMap others ++ rest)) = some table)
    (habsent : ∀ setting ∈ parts.filterMap setting?, table.get? setting.name = none) : ∃ more,
    Toml.parse? (done ++ (parts.flatMap (text config) ++ rest)) = some more ∧
      (∀ setting ∈ parts.filterMap setting?, more.get? setting.name = some (setting.value config)) ∧
      ∀ key, (∀ setting ∈ parts.filterMap setting?, key ≠ setting.name) →
        more.get? key = table.get? key := by
  induction parts generalizing done table with
  | nil => exact ⟨table, h, by simp, fun _ _ => rfl⟩
  | cons part parts ih =>
    have hmore : ∀ other ∈ parts, other.IsWhole := fun other hother =>
      hparts other (List.mem_cons_of_mem part hother)
    simp only [List.flatMap_cons, List.append_assoc] at h ⊢
    cases part with
    | keys keys =>
      have hkeys : Toml.Whole keys := hparts _ List.mem_cons_self
      simp only [List.filterMap_cons, setting?] at hnodup habsent ⊢
      rw [others, ← List.append_assoc] at h
      rw [text, ← List.append_assoc]
      exact ih (hdone.append hkeys) hmore hnodup h habsent
    | line setting =>
      simp only [List.filterMap_cons, setting?, List.nodup_cons] at hnodup habsent ⊢
      rw [others, List.nil_append] at h
      rw [text, ← List.append_assoc]
      -- The line goes in first, before what the other parts leave; then it belongs to what is done.
      obtain ⟨between, hbetween, hself, hother⟩ := Toml.parse?_insert hdone (setting.lines_line config)
        (setting.fragment?_line hsize) ((whole_others hmore).head?_append_ne hrest) h
        (habsent setting List.mem_cons_self)
      have hname {other : Setting} (hmem : other ∈ parts.filterMap setting?) :
          other.name ≠ setting.name := fun heq => hnodup.1 (Setting.name_injective heq ▸ hmem)
      rw [← List.append_assoc] at hbetween
      have hbetweenAbsent (other : Setting) (hmem : other ∈ parts.filterMap setting?) :
          between.get? other.name = none := by
        rw [hother _ (hname hmem), habsent other (List.mem_cons_of_mem _ hmem)]
      obtain ⟨more, hmoreParse, hmoreSettings, hmoreOther⟩ :=
        ih (hdone.append (setting.whole_line hsize)) hmore hnodup.2 hbetween hbetweenAbsent
      refine ⟨more, hmoreParse, ?_, fun key hkey => ?_⟩
      · rintro other hmem
        obtain rfl | hmem := List.mem_cons.mp hmem
        · rw [hmoreOther _ fun third hthird => (hname hthird).symm, hself]
        · exact hmoreSettings other hmem
      · rw [hmoreOther key fun third hthird => hkey third (List.mem_cons_of_mem _ hthird),
          hother key (hkey setting List.mem_cons_self)]

end Part

theorem load_utf8Encode {text : List Char} (h : ofText? text = some config) :
    load (.file text.utf8Encode) = .ok (some config) := by
  rw [load, Utf8.decode_eq_ok_iff.2 rfl]
  simp only [h]

/-- The settings of a file are those of its lines, and all others are the default. -/
theorem ofText?_parts (hsize : config.maxInputBytes < Nat.pow 2 63) (parts : List Part)
    (rest : List Char) (hparts : ∀ part ∈ parts, part.IsWhole)
    (hnodup : (parts.filterMap Part.setting?).Nodup) (hrest : rest.head? ≠ some '\ufeff')
    (h : Toml.parse? (parts.flatMap Part.others ++ rest) = some table)
    (habsent : ∀ setting : Setting, table.get? setting.name = none) :
    ofText? (parts.flatMap (Part.text config) ++ rest) =
      some (config.only (parts.filterMap Part.setting?)) := by
  obtain ⟨more, hmore, hsettings, hothers⟩ := Part.parse?_parts hsize Toml.whole_nil hparts hnodup hrest
    h fun setting _ => habsent setting
  rw [List.nil_append] at hmore
  rw [ofText?, hmore, Option.bind_some]
  refine ofTable?_of_get? hsize fun setting => ?_
  split_ifs with hmem
  · exact hsettings setting hmem
  · rw [hothers setting.name, habsent]
    intro other hother heq
    exact hmem (Setting.name_injective heq ▸ hother)

theorem ofText?_toText (hsize : config.maxInputBytes < Nat.pow 2 63) :
    ofText? config.toText = some config := by
  have htext : config.toText = (Setting.all.map Part.line).flatMap (Part.text config) ++ [] := by
    rw [toText_eq, List.flatMap_map, List.append_nil]
    rfl
  have hsettings : (Setting.all.map Part.line).filterMap Part.setting? = Setting.all := rfl
  have hparse : Toml.parse? ((Setting.all.map Part.line).flatMap Part.others ++ []) =
      some (.emptyTable .header) := rfl
  have hwhole : ∀ part ∈ Setting.all.map Part.line, part.IsWhole := by simp [Part.IsWhole]
  rw [htext, ofText?_parts hsize _ [] hwhole (by decide) (by simp) hparse fun _ => rfl, hsettings,
    only_all]

/-- A file with some settings as those of `config` are saved, in any order and among any other keys, is
loaded as those settings of `config` and the default of all others; and what is saved is loaded as it
was. -/
theorem load_only (config : Config) (hsize : config.maxInputBytes < Nat.pow 2 63) :
    (∀ (parts : List Part) (rest : List Char) (table : Toml.Value), (∀ part ∈ parts, part.IsWhole) →
      (parts.filterMap Part.setting?).Nodup → rest.head? ≠ some '\ufeff' →
      Toml.parse? (parts.flatMap Part.others ++ rest) = some table →
      (∀ setting : Setting, table.get? setting.name = none) →
      load (.file (parts.flatMap (Part.text config) ++ rest).utf8Encode) =
        .ok (some (config.only (parts.filterMap Part.setting?)))) ∧
    ∀ place saved, config.save place = .ok saved →
      load saved = .ok (some config) ∧ (loadOrDefault saved).map Engine.mk = .ok ⟨config⟩ := by
  constructor
  · intro parts rest table hparts hnodup hrest h habsent
    exact load_utf8Encode (ofText?_parts hsize parts rest hparts hnodup hrest h habsent)
  · intro place saved hsaved
    have hfile : saved = .file config.toText.utf8Encode := by
      cases place <;> cases hsaved <;> simp [String.toUTF8]
    have hload : load saved = .ok (some config) := by
      rw [hfile, load_utf8Encode (ofText?_toText hsize)]
    refine ⟨hload, ?_⟩
    rw [loadOrDefault, hload]
    rfl

theorem load_only_amongOtherKeys :
    load (.file ("color = [1,\n 2] # red\ninvalid_utf8 = \"reject\"\nb.c = 'x'\n" ++
        "max_input_bytes = 70\n[t]\nbare_urls = 1").toList.utf8Encode) =
      .ok (some { maxInputBytes := 70, invalidUtf8 := .reject }) := by
  let config : Config := { maxInputBytes := 70, bareUrls := true, invalidUtf8 := .reject }
  let parts : List Part := [.keys "color = [1,\n 2] # red\n".toList, .line .invalidUtf8,
    .keys "b.c = 'x'\n".toList, .line .maxInputBytes]
  let rest := "[t]\nbare_urls = 1".toList
  have hfirst : Toml.Whole "color = [1,\n 2] # red\n".toList :=
    ⟨Toml.lines_of_getLast? (by decide), by decide +kernel⟩
  have hsecond : Toml.Whole "b.c = 'x'\n".toList :=
    ⟨Toml.lines_of_getLast? (by decide), by decide +kernel⟩
  have hparts : ∀ part ∈ parts, part.IsWhole := by
    simp only [parts, List.forall_mem_cons, Part.IsWhole]
    exact ⟨hfirst, trivial, hsecond, trivial, by simp⟩
  have hparse : (Toml.parse? (parts.flatMap Part.others ++ rest)).isSome := by decide +kernel
  obtain ⟨table, htable⟩ := Option.isSome_iff_exists.mp hparse
  have hget : ∀ setting ∈ Setting.all,
      ((Toml.parse? (parts.flatMap Part.others ++ rest)).bind (·.get? setting.name)).isNone := by
    decide +kernel
  have habsent (setting : Setting) : table.get? setting.name = none := by
    have hnone := hget setting (by cases setting <;> decide)
    rwa [htable, Option.bind_some, Option.isNone_iff_eq_none] at hnone
  have htext : ("color = [1,\n 2] # red\ninvalid_utf8 = \"reject\"\nb.c = 'x'\n" ++
      "max_input_bytes = 70\n[t]\nbare_urls = 1").toList =
        parts.flatMap (Part.text config) ++ rest := by decide +kernel
  rw [htext]
  exact (load_only config (by decide)).1 parts rest table hparts (by decide) (by decide) htable habsent

end InlineMarkup.Config
