import InlineMarkup.Proofs.Cutting
import InlineMarkup.Proofs.Marks
import InlineMarkup.Proofs.Pairing

/-! Delimiters: how the two ends of a tag are written. -/

namespace InlineMarkup

namespace Tag

def opening : Tag → Mark
  | styled style => .delimiter style
  | link => .linkStart
  | image => .imageStart

def closing (url : List Char) : Tag → Mark
  | styled style => .delimiter style
  | link | image => .address url

theorem marks_tree (tag : Tag) (url : List Char) (children : List Tree) :
    (tag.tree url children).marks = tag.opening :: Tree.allMarks children ++ [tag.closing url] := by
  cases tag <;> rfl

end Tag

theorem Reading.addressOf_written (url : List Char) :
    addressOf (Mark.address url).written = url := by
  simp [addressOf, Mark.written]

theorem Tree.ofToken_fenced {kind : TokenKind} {fence : Nat} {content : List Char}
    (hkind : kind = .codeInline ∨ kind = .codeBlock) (h : Backtick.Encloses fence content) :
    ofToken kind (Markdown.fenced fence content) = .code fence content := by
  have hparts : Backtick.parts (Markdown.fenced fence content) = (fence, content) := by
    rw [Markdown.fenced, List.append_assoc]
    exact Backtick.parts_fenced h.content_ne_nil h.head h.last
  rcases hkind with rfl | rfl <;> simp only [ofToken, hparts]

namespace Fits

variable {options : ScanOptions} {noted : TokenKind → Issue → Prop} {prev next : Option Char}
  {tag : Tag} {raw : List Char}

theorem eq_delimiter {style : Style} (h : Fits options noted prev style.tokenKind raw next) :
    raw = style.delimiter := by
  generalize hkind : style.tokenKind = kind at h
  cases h with
  | bold | italic | strikethrough | underline => cases style <;> first | rfl | cases hkind
  | escape | linkStart | imageStart | address | unclosed | bareUrl | text =>
    cases style <;> cases hkind
  | code hcode => rcases hcode with rfl | rfl <;> cases style <;> cases hkind

theorem eq_opening (h : Fits options noted prev tag.opener raw next) :
    raw = tag.opening.written := by
  cases tag with
  | styled style => exact eq_delimiter h
  | link =>
    have hlink : Fits options noted prev .linkStart raw next := h
    cases hlink with
    | linkStart => rfl
    | code hkind => simp at hkind
  | image =>
    have himage : Fits options noted prev .imageStart raw next := h
    cases himage with
    | imageStart => rfl
    | code hkind => simp at hkind

theorem eq_address (h : Fits options noted prev .address raw next) :
    ∃ url, raw = (Mark.address url).written ∧ ')' ∉ url ∧
      (url ≠ [] ∨ noted .address .malformedLink) := by
  cases h with
  | @address url next hurl hempty => exact ⟨url, rfl, hurl, hempty⟩
  | code hkind => simp at hkind

theorem eq_closing (h : Fits options noted prev tag.closer raw next) :
    raw = (tag.closing (Reading.addressOf raw)).written := by
  cases tag with
  | styled style => exact eq_delimiter h
  | link | image =>
    obtain ⟨url, hraw, _⟩ := eq_address h
    rw [hraw, Reading.addressOf_written]
    rfl

end Fits

end InlineMarkup
