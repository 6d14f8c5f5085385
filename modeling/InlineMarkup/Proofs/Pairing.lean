import InlineMarkup.Assembly.Basic
import InlineMarkup.Proofs.Merging

/-! Pairing: which delimiters belong together, apart from documents and events. -/

namespace InlineMarkup

def Style.tokenKind : Style → TokenKind
  | bold => .bold
  | italic => .italic
  | underline => .underline
  | strikethrough => .strikethrough

namespace Tag

/-- The kind of the delimiters that open the tag. -/
def opener : Tag → TokenKind
  | styled style => style.tokenKind
  | link => .linkStart
  | image => .imageStart

/-- The kind of the delimiters that close the tag. -/
def closer : Tag → TokenKind
  | styled style => style.tokenKind
  | link | image => .address

def tree (url : List Char) (children : List Tree) : Tag → Tree
  | styled style => .styled style children
  | link => .link url children
  | image => .image url children

theorem closer_eq_address {tag : Tag} : tag.closer = .address ↔ !tag.isSymmetric := by
  rcases tag with (_ | _ | _ | _) | _ | _ <;> decide

theorem opener_ne_address (tag : Tag) : tag.opener ≠ .address := by
  rcases tag with (_ | _ | _ | _) | _ | _ <;> decide

theorem isDelimiter_opener (tag : Tag) : tag.opener.isDelimiter := by
  rcases tag with (_ | _ | _ | _) | _ | _ <;> rfl

theorem isDelimiter_closer (tag : Tag) : tag.closer.isDelimiter := by
  rcases tag with (_ | _ | _ | _) | _ | _ <;> rfl

/-- A delimiter that opens a tag closes another one only if both are the same symmetric tag. -/
theorem opener_ne_closer {tag other : Tag} (h : tag.isSymmetric → other ≠ tag) :
    tag.opener ≠ other.closer := by
  rcases tag with (_ | _ | _ | _) | _ | _ <;> rcases other with (_ | _ | _ | _) | _ | _ <;>
    simp_all [opener, closer, isSymmetric, Style.tokenKind]

end Tag

/-- What a token by itself says. -/
def Tree.ofToken (kind : TokenKind) (raw : List Char) : Tree :=
  match kind with
  | .codeInline | .codeBlock => .code (Backtick.parts raw).1 (Backtick.parts raw).2
  | .escape => .text (raw.drop 1)
  | .bareUrl => .link raw [.text raw]
  | .bold | .italic | .strikethrough | .underline | .linkStart | .address | .imageStart | .text =>
    .text raw

/-- A token by itself, or two delimiters that belong together with what is between them. -/
inductive Item
  | token (kind : TokenKind) (raw : List Char)
  | pair (tag : Tag) (opener : List Char) (inside : List Item) (closer : List Char)
deriving Repr

namespace Item

mutual

/-- The tokens of an item. -/
def pieces : Item → List (TokenKind × List Char)
  | token kind raw => [(kind, raw)]
  | pair tag opener inside closer =>
    (tag.opener, opener) :: allPieces inside ++ [(tag.closer, closer)]

def allPieces : List Item → List (TokenKind × List Char)
  | [] => []
  | item :: items => pieces item ++ allPieces items

end

mutual

/-- What an item says. A pair of delimiters says nothing itself. -/
def tree : Item → Tree
  | token kind raw => .ofToken kind raw
  | pair tag _ inside closer => tag.tree (Reading.addressOf closer) (Tree.merge (trees inside))

def trees : List Item → List Tree
  | [] => []
  | item :: items => tree item :: trees items

end

@[simp] theorem allPieces_append (items more : List Item) :
    allPieces (items ++ more) = allPieces items ++ allPieces more := by
  induction items with
  | nil => rfl
  | cons item items ih => simp [allPieces, ih]

@[simp] theorem trees_eq_map (items : List Item) : trees items = items.map tree := by
  induction items with
  | nil => rfl
  | cons item items ih => rw [trees, ih, List.map_cons]

end Item

/-- An opener that waits for its closer, and what stands before it on its level. -/
structure Waiting where
  tag : Tag
  raw : List Char
  before : List Item

/-- What has been made of the tokens so far. -/
structure Pairing where
  /-- The openers that wait, the innermost one first. -/
  waiting : List Waiting := []
  /-- What stands on the innermost level. -/
  level : List Item := []

/-- The outermost level, once all openers in `waiting` stand for themselves. -/
def Waiting.demote : List Waiting → List Item → List Item
  | [], level => level
  | w :: waiting, level => demote waiting (w.before ++ .token w.tag.opener w.raw :: level)

namespace Pairing

variable (pairing : Pairing)

def push (item : Item) : Pairing := { pairing with level := pairing.level ++ [item] }

def openTag (tag : Tag) (raw : List Char) : Pairing :=
  if Assembly.maxDepth ≤ pairing.waiting.length then pairing.push (.token tag.opener raw)
  else { waiting := ⟨tag, raw, pairing.level⟩ :: pairing.waiting, level := [] }

/-- Whether an opener of a tag of which `p` holds waits. -/
def isOpen (p : Tag → Bool) : Bool := pairing.waiting.any (p ·.tag)

/-- Closes the innermost tag of which `p` holds. The openers inside it stand for themselves. -/
def closeNearest (p : Tag → Bool) (closer : List Char) : Pairing :=
  match pairing.waiting.dropWhile (!p ·.tag) with
  | [] => pairing
  | w :: waiting =>
    let inside := Waiting.demote (pairing.waiting.takeWhile (!p ·.tag)) pairing.level
    { waiting, level := w.before ++ [.pair w.tag w.raw inside closer] }

def toggle (style : Style) (raw : List Char) : Pairing :=
  if pairing.isOpen (· == .styled style) then pairing.closeNearest (· == .styled style) raw
  else pairing.openTag (.styled style) raw

def closeLink (raw : List Char) : Pairing :=
  if pairing.isOpen (!·.isSymmetric) then pairing.closeNearest (!·.isSymmetric) raw
  else pairing.push (.token .address raw)

def step (kind : TokenKind) (raw : List Char) : Pairing :=
  match kind with
  | .text | .escape | .codeInline | .codeBlock | .bareUrl => pairing.push (.token kind raw)
  | .linkStart => pairing.openTag .link raw
  | .imageStart => pairing.openTag .image raw
  | .address => pairing.closeLink raw
  | .bold => pairing.toggle .bold raw
  | .italic => pairing.toggle .italic raw
  | .underline => pairing.toggle .underline raw
  | .strikethrough => pairing.toggle .strikethrough raw

def run (pieces : List (TokenKind × List Char)) : Pairing :=
  pieces.foldl (fun pairing piece => pairing.step piece.1 piece.2) pairing

/-- The items in the end, when no more closers come. -/
def items : List Item := Waiting.demote pairing.waiting pairing.level

end Pairing

/-- What the tokens make. -/
def pairUp (pieces : List (TokenKind × List Char)) : List Item := (Pairing.run {} pieces).items

namespace Pairing

variable {pairing : Pairing} {kind : TokenKind} {raw : List Char}

/-! ### What a step can do -/

/-- Where the innermost entry of which `p` holds stands. -/
theorem exists_nearest {α : Type} (p : α → Bool) {entries : List α} (h : entries.any p) :
    ∃ above entry rest, entries = above ++ entry :: rest ∧ p entry ∧ (∀ a ∈ above, ¬p a) ∧
      entries.takeWhile (!p ·) = above ∧ entries.dropWhile (!p ·) = entry :: rest := by
  induction entries with
  | nil => simp at h
  | cons a entries ih =>
    by_cases ha : p a
    · exact ⟨[], a, entries, rfl, ha, by simp, by simp [ha], by simp [ha]⟩
    · obtain ⟨above, entry, rest, rfl, he, habove, htake, hdrop⟩ := ih (by simpa [ha] using h)
      refine ⟨a :: above, entry, rest, rfl, he, ?_, by simp [ha, htake], by simp [ha, hdrop]⟩
      exact List.forall_mem_cons.2 ⟨ha, habove⟩

theorem exists_of_isOpen {p : Tag → Bool} (h : pairing.isOpen p) :
    ∃ above w waiting, pairing.waiting = above ++ w :: waiting ∧ p w.tag ∧
      (∀ v ∈ above, ¬p v.tag) ∧ ∀ closer, pairing.closeNearest p closer =
        ⟨waiting, w.before ++ [.pair w.tag w.raw (Waiting.demote above pairing.level) closer]⟩ := by
  obtain ⟨above, w, waiting, hsplit, hp, habove, htake, hdrop⟩ :=
    exists_nearest (fun w : Waiting => p w.tag) h
  exact ⟨above, w, waiting, hsplit, hp, habove,
    fun closer => by simp only [closeNearest, hdrop, htake]⟩

/-- A token stands for itself, opens a tag or closes one. It stands for itself only where it closes
nothing and no more tags may be open, and it closes the innermost tag that it can. -/
inductive Step (pairing : Pairing) (kind : TokenKind) (raw : List Char) : Pairing → Prop
  | push (hstray : ∀ w ∈ pairing.waiting, kind ≠ w.tag.closer)
      (hfull : ∀ tag : Tag, kind = tag.opener → Assembly.maxDepth ≤ pairing.waiting.length) :
      Step pairing kind raw (pairing.push (.token kind raw))
  | opened (tag : Tag) (hkind : kind = tag.opener)
      (hdepth : pairing.waiting.length < Assembly.maxDepth)
      (hfree : tag.isSymmetric → ∀ w ∈ pairing.waiting, w.tag ≠ tag) :
      Step pairing kind raw ⟨⟨tag, raw, pairing.level⟩ :: pairing.waiting, []⟩
  | closed (above : List Waiting) (w : Waiting) (waiting : List Waiting)
      (hsplit : pairing.waiting = above ++ w :: waiting) (hkind : kind = w.tag.closer)
      (habove : ∀ v ∈ above, kind ≠ v.tag.closer) :
      Step pairing kind raw
        ⟨waiting, w.before ++ [.pair w.tag w.raw (Waiting.demote above pairing.level) raw]⟩

theorem step_push_of_not_isDelimiter (h : kind.isDelimiter = false) :
    Step pairing kind raw (pairing.push (.token kind raw)) :=
  .push (fun w _ hkind => by simp [hkind, w.tag.isDelimiter_closer] at h)
    fun tag hkind => by simp [hkind, tag.isDelimiter_opener] at h

theorem step_openTag (tag : Tag) (hfree : tag.isSymmetric → ∀ w ∈ pairing.waiting, w.tag ≠ tag) :
    Step pairing tag.opener raw (pairing.openTag tag raw) := by
  unfold openTag
  split
  · rename_i hfull
    exact .push (fun w hw => Tag.opener_ne_closer fun hs => hfree hs w hw) fun _ _ => hfull
  · exact .opened tag rfl (by omega) hfree

theorem step_toggle (style : Style) :
    Step pairing style.tokenKind raw (pairing.toggle style raw) := by
  unfold toggle
  split
  · rename_i h
    obtain ⟨above, w, waiting, hsplit, hp, habove, hclose⟩ := exists_of_isOpen h
    have htag : w.tag = .styled style := by simpa using hp
    rw [hclose]
    have hstray (v : Waiting) (hv : v ∈ above) : (Tag.styled style).opener ≠ v.tag.closer :=
      Tag.opener_ne_closer fun _ => by simpa using habove v hv
    exact .closed above w waiting hsplit (by rw [htag]; rfl) hstray
  · rename_i h
    exact step_openTag (.styled style) fun _ w hw he => h (List.any_eq_true.2 ⟨w, hw, by simp [he]⟩)

theorem step_closeLink : Step pairing .address raw (pairing.closeLink raw) := by
  unfold closeLink
  split
  · rename_i h
    obtain ⟨above, w, waiting, hsplit, hp, habove, hclose⟩ := exists_of_isOpen h
    rw [hclose]
    refine .closed above w waiting hsplit (Tag.closer_eq_address.2 hp).symm fun v hv hkind => ?_
    exact habove v hv (Tag.closer_eq_address.1 hkind.symm)
  · rename_i h
    refine .push (fun w hw hkind => h ?_) fun tag hkind => absurd hkind.symm tag.opener_ne_address
    exact List.any_eq_true.2 ⟨w, hw, Tag.closer_eq_address.1 hkind.symm⟩

theorem step_spec (pairing : Pairing) (kind : TokenKind) (raw : List Char) :
    Step pairing kind raw (pairing.step kind raw) := by
  cases kind with
  | text | escape | codeInline | codeBlock | bareUrl =>
    exact step_push_of_not_isDelimiter rfl
  | linkStart => exact step_openTag .link (by simp [Tag.isSymmetric])
  | imageStart => exact step_openTag .image (by simp [Tag.isSymmetric])
  | address => exact step_closeLink
  | bold => exact step_toggle .bold
  | italic => exact step_toggle .italic
  | underline => exact step_toggle .underline
  | strikethrough => exact step_toggle .strikethrough

/-! ### No token is lost -/

end Pairing

namespace Waiting

theorem demote_append (waiting : List Waiting) (level more : List Item) :
    demote waiting (level ++ more) = demote waiting level ++ more := by
  induction waiting generalizing level with
  | nil => rfl
  | cons w waiting ih => simp only [demote, ← ih, List.append_assoc, List.cons_append]

theorem demote_above (above waiting : List Waiting) (level : List Item) :
    demote (above ++ waiting) level = demote waiting (demote above level) := by
  induction above generalizing level with
  | nil => rfl
  | cons w above ih => exact ih _

end Waiting

namespace Pairing

variable {pairing : Pairing} {kind : TokenKind} {raw : List Char}

theorem allPieces_step (pairing : Pairing) (kind : TokenKind) (raw : List Char) :
    Item.allPieces (pairing.step kind raw).items =
      Item.allPieces pairing.items ++ [(kind, raw)] := by
  have hstep := step_spec pairing kind raw
  generalize pairing.step kind raw = next at hstep ⊢
  cases hstep with
  | push hstray hfull => simp [items, push, Waiting.demote_append, Item.allPieces, Item.pieces]
  | opened tag hkind hdepth hfree =>
    simp [items, Waiting.demote, Waiting.demote_append, Item.allPieces, Item.pieces, hkind]
  | closed above w waiting hsplit hkind habove =>
    simp [items, hsplit, Waiting.demote_above, Waiting.demote, Waiting.demote_append,
      Item.allPieces, Item.pieces, hkind]

theorem allPieces_run (pairing : Pairing) (pieces : List (TokenKind × List Char)) :
    Item.allPieces (pairing.run pieces).items = Item.allPieces pairing.items ++ pieces := by
  induction pieces generalizing pairing with
  | nil => simp [run]
  | cons piece pieces ih =>
    rw [run, List.foldl_cons, ← run, ih, allPieces_step, List.append_assoc]
    rfl

end Pairing

theorem allPieces_pairUp (pieces : List (TokenKind × List Char)) :
    Item.allPieces (pairUp pieces) = pieces :=
  Pairing.allPieces_run {} pieces

end InlineMarkup
