import InlineMarkup.Proofs.Mirror
import InlineMarkup.Proofs.Nesting
import InlineMarkup.Proofs.Rescan

/-! Reparsing: trees that are written as canonical markdown are read back. -/

namespace InlineMarkup

/-! ### Marks of trees -/

namespace Tree

mutual

/-- Whether no two texts stand side by side anywhere below the tree. -/
def Tidy : Tree → Prop
  | root children | styled _ children | link _ children | image _ children =>
    Merged children ∧ AllTidy children
  | code _ _ | text _ => True

def AllTidy : List Tree → Prop
  | [] => True
  | tree :: trees => Tidy tree ∧ AllTidy trees

end

variable {tree : Tree} {ts us : List Tree} {outer : List Style} {room : Nat}

/-- The marks at both ends of a tree are text where the tree is. -/
theorem exists_ends (h : tree.Nests outer room) : ∃ first last,
    tree.marks.head? = some first ∧ tree.marks.getLast? = some last ∧
      first.isText = tree.isText ∧ last.isText = tree.isText ∧ last ≠ .linkStart := by
  cases tree with
  | root => exact absurd h id
  | styled | link | image =>
    exact ⟨_, _, rfl, by rw [marks, List.getLast?_concat], rfl, rfl, by simp⟩
  | code | text => exact ⟨_, _, rfl, rfl, rfl, rfl, by simp⟩

/-- The marks at both ends of trees are text where the trees there are. -/
theorem ends_allMarks (h : AllNest outer room ts) :
    (allMarks ts).head?.map Mark.isText = ts.head?.map isText ∧
      (allMarks ts).getLast?.map Mark.isText = ts.getLast?.map isText ∧
      (allMarks ts).getLast? ≠ some .linkStart := by
  induction ts with
  | nil => exact ⟨rfl, rfl, by simp [allMarks]⟩
  | cons tree ts ih =>
    obtain ⟨first, last, hfirst, hlast, htext, htext', hne⟩ := exists_ends h.1
    obtain ⟨_, hend, hend'⟩ := ih h.2
    rw [allMarks, List.head?_append, List.getLast?_append, hfirst, hlast]
    refine ⟨congrArg some htext, ?_⟩
    rw [List.getLast?_cons]
    cases hmarks : (allMarks ts).getLast? with
    | none =>
      rw [hmarks, Option.map_none, eq_comm, Option.map_eq_none_iff] at hend
      rw [hend]
      exact ⟨congrArg some htext', by simpa using hne⟩
    | some mark =>
      rw [hmarks] at hend hend'
      obtain ⟨u, hu, htext⟩ := Option.map_eq_some_iff.1 hend.symm
      rw [hu]
      exact ⟨congrArg some htext.symm, hend'⟩

mutual

theorem apart_marks : ∀ (tree : Tree) {outer : List Style} {room : Nat},
    tree.Nests outer room → tree.Tidy → Mark.Apart tree.marks
  | code _ _, _, _, _, _ | text _, _, _, _, _ => List.IsChain.singleton _
  | styled style children, _, _, ⟨_, _, hn⟩, ⟨hm, ht⟩
  | link url children, _, _, ⟨_, hn⟩, ⟨hm, ht⟩ | image url children, _, _, ⟨_, hn⟩, ⟨hm, ht⟩ => by
    have hchildren := apart_allMarks children hn hm ht
    refine List.isChain_append.2 ⟨List.isChain_cons.2 ⟨?_, hchildren⟩, List.IsChain.singleton _, ?_⟩
    · exact fun _ _ hboth => Bool.false_ne_true hboth.1
    · intro a _ b hb hboth
      obtain rfl := Option.some.inj hb
      exact Bool.false_ne_true hboth.2

theorem apart_allMarks : ∀ (trees : List Tree) {outer : List Style} {room : Nat},
    AllNest outer room trees → Merged trees → AllTidy trees → Mark.Apart (allMarks trees)
  | [], _, _, _, _, _ => List.IsChain.nil
  | tree :: trees, _, _, ⟨hn, hns⟩, hm, ⟨ht, hts⟩ => by
    refine List.isChain_append.2 ⟨apart_marks tree hn ht, apart_allMarks trees hns hm.tail hts, ?_⟩
    intro a ha b hb hboth
    obtain ⟨_, last, _, hlast, _, htext, _⟩ := exists_ends hn
    have hhead := congrArg (Option.map Mark.isText) (Option.mem_def.1 hb)
    obtain ⟨u, hu, htext'⟩ := Option.map_eq_some_iff.1 ((ends_allMarks hns).1.symm.trans hhead)
    rw [hlast, Option.mem_some] at ha
    rw [← ha, htext, ← htext'] at hboth
    exact (List.isChain_cons.1 hm).1 u hu hboth

end

end Tree

/-! ### What marks are read as -/

namespace ReadAs

variable {mark : Mark} {ms ns : List Mark} {ps : List (TokenKind × List Char)}

theorem exists_append (h : ReadAs (ms ++ ns) ps) :
    ∃ qs rs, ps = qs ++ rs ∧ ReadAs ms qs ∧ ReadAs ns rs := by
  induction ms generalizing ps with
  | nil => exact ⟨[], ps, rfl, .nil, h⟩
  | cons mark ms ih =>
    cases h with
    | text hcontent hspells h =>
      obtain ⟨qs, rs, rfl, hqs, hrs⟩ := ih h
      exact ⟨_, rs, (List.append_assoc ..).symm, .text hcontent hspells hqs, hrs⟩
    | token hmark hstable h =>
      obtain ⟨qs, rs, rfl, hqs, hrs⟩ := ih h
      exact ⟨_, rs, rfl, .token hmark hstable hqs, hrs⟩

theorem exists_cons (h : ReadAs (mark :: ms) ps) (hmark : ¬mark.isText) :
    ∃ qs, ps = (mark.kind, mark.written) :: qs ∧ ReadAs ms qs ∧
      ∃ prev next, mark.Stable prev next := by
  cases h with
  | text => exact absurd rfl hmark
  | token _ hstable h => exact ⟨_, rfl, h, _, _, hstable⟩

end ReadAs

/-! ### Pairing again -/

namespace Pairing

variable {pairing : Pairing} {ps qs : List (TokenKind × List Char)} {s : List Char}

theorem run_append (pairing : Pairing) (ps qs : List (TokenKind × List Char)) :
    pairing.run (ps ++ qs) = (pairing.run ps).run qs := List.foldl_append

theorem run_cons (pairing : Pairing) (piece : TokenKind × List Char)
    (ps : List (TokenKind × List Char)) :
    pairing.run (piece :: ps) = (pairing.step piece.1 piece.2).run ps := rfl

/-- The items that follow on the innermost level. -/
def extend (pairing : Pairing) (items : List Item) : Pairing :=
  { pairing with level := pairing.level ++ items }

theorem extend_extend (pairing : Pairing) (items more : List Item) :
    (pairing.extend items).extend more = pairing.extend (items ++ more) := by
  simp [extend]

/-- Whether containers of styles that are not in `outer` may follow, `room` around each other. -/
def Admits (pairing : Pairing) (outer : List Style) (room : Nat) : Prop :=
  pairing.waiting.length + room ≤ Assembly.maxDepth ∧
    ∀ w ∈ pairing.waiting, ∀ style ∈ w.tag.styles, style ∈ outer

/-- Text before text that may be empty. -/
theorem before_ite (t s : List Char) (us : List Tree) :
    Tree.before (.text t) (if s = [] then us else Tree.before (.text s) us) =
      Tree.before (.text (t ++ s)) us := by
  split
  · rename_i hs
    rw [hs, List.append_nil]
  · exact Tree.before_before t s us

theorem run_spells (h : Spells ps s) (pairing : Pairing) : ∃ items,
    pairing.run ps = pairing.extend items ∧ ∀ us, (items.map Item.tree).foldr Tree.before us =
      if s = [] then us else Tree.before (.text s) us := by
  induction h generalizing pairing with
  | nil => exact ⟨[], by simp [run, extend], fun _ => rfl⟩
  | @text raw s pieces hraw h ih =>
    obtain ⟨items, hrun, htrees⟩ := ih (pairing.extend [.token .text raw])
    refine ⟨.token .text raw :: items, hrun.trans (extend_extend ..), ?_⟩
    intro us
    have hne : raw ++ s ≠ [] := by simp [hraw]
    rw [List.map_cons, List.foldr_cons, htrees, if_neg hne]
    exact before_ite raw s us
  | @escape c s pieces h ih =>
    obtain ⟨items, hrun, htrees⟩ := ih (pairing.extend [.token .escape ['\\', c]])
    refine ⟨.token .escape ['\\', c] :: items, hrun.trans (extend_extend ..), ?_⟩
    intro us
    rw [List.map_cons, List.foldr_cons, htrees, if_neg (List.cons_ne_nil c s)]
    exact before_ite [c] s us

theorem kind_opening (tag : Tag) : tag.opening.kind = tag.opener := by
  cases tag <;> rfl

theorem kind_closing (tag : Tag) (url : List Char) : (tag.closing url).kind = tag.closer := by
  cases tag <;> rfl

/-- An opener opens its tag where that is not open already and there is room. -/
theorem step_opener {tag : Tag} {outer : List Style} {room : Nat} (raw : List Char)
    (h : pairing.Admits outer room) (hroom : 0 < room)
    (hfresh : ∀ style ∈ tag.styles, style ∉ outer) :
    pairing.step tag.opener raw = ⟨⟨tag, raw, pairing.level⟩ :: pairing.waiting, []⟩ := by
  obtain ⟨hdepth, hopen⟩ := h
  have hfree : ¬Assembly.maxDepth ≤ pairing.waiting.length := by omega
  have hopenTag (tag : Tag) : pairing.openTag tag raw =
      ⟨⟨tag, raw, pairing.level⟩ :: pairing.waiting, []⟩ := if_neg hfree
  cases tag with
  | link | image => exact hopenTag _
  | styled style =>
    have hclosed : pairing.isOpen (· == .styled style) = false := by
      refine List.any_eq_false.2 fun w hw htag => hfresh style (by simp [Tag.styles]) ?_
      exact hopen w hw style (by simp [Tag.styles, eq_of_beq htag])
    have htoggle : pairing.toggle style raw = pairing.openTag (.styled style) raw := by
      simp [toggle, hclosed]
    cases style <;> exact htoggle.trans (hopenTag _)

/-- A closer closes its tag where that is the innermost one. -/
theorem step_closer (tag : Tag) (raw closer : List Char) (before items : List Item)
    (waiting : List Waiting) :
    Pairing.step ⟨⟨tag, raw, before⟩ :: waiting, items⟩ tag.closer closer =
      ⟨waiting, before ++ [.pair tag raw items closer]⟩ := by
  rcases tag with (_ | _ | _ | _) | _ | _ <;>
    simp [step, Tag.closer, Style.tokenKind, toggle, closeLink, isOpen, closeNearest,
      Tag.isSymmetric, Waiting.demote]

theorem Admits.open {tag : Tag} {outer : List Style} {room : Nat} (raw : List Char)
    (h : pairing.Admits outer room) (hroom : 0 < room) :
    Admits ⟨⟨tag, raw, pairing.level⟩ :: pairing.waiting, []⟩ (tag.styles ++ outer) (room - 1) := by
  obtain ⟨hdepth, hopen⟩ := h
  refine ⟨by rw [List.length_cons]; omega, ?_⟩
  intro w hw style hstyle
  rcases List.mem_cons.1 hw with rfl | hw
  · exact List.mem_append_left _ hstyle
  · exact List.mem_append_right _ (hopen w hw style hstyle)

theorem not_isText_opening (tag : Tag) : ¬tag.opening.isText := by
  cases tag <;> exact Bool.false_ne_true

theorem not_isText_closing (tag : Tag) (url : List Char) : ¬(tag.closing url).isText := by
  cases tag <;> exact Bool.false_ne_true

/-- What a pair of delimiters makes of the items between them. -/
theorem tree_pair {items : List Item} {children : List Tree} (tag : Tag) (opener url : List Char)
    (hmerged : Tree.Merged children)
    (hitems : ∀ us, (items.map Item.tree).foldr Tree.before us = children.foldr Tree.before us) :
    (Item.pair tag opener items (tag.closing url).written).tree = tag.tree url children := by
  have hchildren : Tree.merge (items.map Item.tree) = children :=
    (hitems []).trans hmerged.merge_eq
  rw [Item.tree, Item.trees_eq_map, hchildren]
  cases tag with
  | styled style => rfl
  | link | image => rw [Tag.closing, Reading.addressOf_written]

/-- The marks of a container are paired to it if those of its children are to them. -/
theorem run_container {children : List Tree} {outer : List Style} {room : Nat} (tag : Tag)
    (url : List Char) (hnest : (tag.tree url children).Nests outer room)
    (hmerged : Tree.Merged children) (hadmits : pairing.Admits outer room)
    (hread : ReadAs (tag.tree url children).marks ps)
    (hchildren : ∀ {pairing : Pairing} {ps : List (TokenKind × List Char)},
      Tree.AllNest (tag.styles ++ outer) (room - 1) children →
      pairing.Admits (tag.styles ++ outer) (room - 1) → ReadAs (Tree.allMarks children) ps →
      ∃ items, pairing.run ps = pairing.extend items ∧
        ∀ us, (items.map Item.tree).foldr Tree.before us = children.foldr Tree.before us) :
    ∃ items, pairing.run ps = pairing.extend items ∧
      ∀ us, (items.map Item.tree).foldr Tree.before us = Tree.before (tag.tree url children) us := by
  obtain ⟨hfresh, hroom, hnests⟩ := Tag.nests_tree.1 hnest
  rw [Tag.marks_tree] at hread
  obtain ⟨inner, hps, hinner, _⟩ := hread.exists_cons (not_isText_opening tag)
  obtain ⟨qs, rs, rfl, hqs, hrs⟩ := hinner.exists_append
  obtain ⟨ts, rfl, hts, _⟩ := hrs.exists_cons (not_isText_closing tag url)
  cases hts
  obtain ⟨items, hrun, hitems⟩ := hchildren hnests (hadmits.open tag.opening.written hroom) hqs
  refine ⟨[.pair tag tag.opening.written items (tag.closing url).written], ?_, ?_⟩
  · rw [hps, kind_opening, kind_closing, run_cons, step_opener _ hadmits hroom hfresh, run_append,
      hrun]
    exact step_closer ..
  · intro us
    rw [List.map_singleton, List.foldr_cons, List.foldr_nil, tree_pair tag _ url hmerged hitems]

mutual

/-- The marks of a tree are paired to the tree. -/
theorem run_marks : ∀ (tree : Tree) {outer : List Style} {room : Nat} {pairing : Pairing}
    {ps : List (TokenKind × List Char)}, tree.Nests outer room → tree.Tidy →
    pairing.Admits outer room → ReadAs tree.marks ps →
    ∃ items, pairing.run ps = pairing.extend items ∧
      ∀ us, (items.map Item.tree).foldr Tree.before us = Tree.before tree us
  | .text content, _, _, pairing, _, _, _, _, .text hcontent hspells .nil => by
    obtain ⟨items, hrun, hitems⟩ := run_spells hspells pairing
    refine ⟨items, by rw [List.append_nil, hrun], ?_⟩
    intro us
    rw [hitems, if_neg hcontent]
  | .code fence content, _, _, pairing, ps, _, _, _, hread => by
    obtain ⟨qs, rfl, hqs, _, _, hcode, _⟩ := hread.exists_cons Bool.false_ne_true
    cases hqs
    have hkind : (Mark.code fence content).kind = .codeInline ∨
        (Mark.code fence content).kind = .codeBlock := by
      simp only [Mark.kind]
      split <;> simp
    refine ⟨[.token (Mark.code fence content).kind (Mark.code fence content).written], ?_, ?_⟩
    · rcases hkind with hkind | hkind <;> rw [hkind] <;> rfl
    · intro us
      rw [List.map_singleton, List.foldr_cons, List.foldr_nil, Item.tree, Mark.written,
        Tree.ofToken_fenced hkind hcode]
  | .styled style children, _, _, _, _, hnest, htidy, hadmits, hread =>
    run_container (.styled style) [] hnest htidy.1 hadmits hread fun hn ha hr =>
      run_allMarks children hn htidy.2 ha hr
  | .link url children, _, _, _, _, hnest, htidy, hadmits, hread =>
    run_container .link url hnest htidy.1 hadmits hread fun hn ha hr =>
      run_allMarks children hn htidy.2 ha hr
  | .image url children, _, _, _, _, hnest, htidy, hadmits, hread =>
    run_container .image url hnest htidy.1 hadmits hread fun hn ha hr =>
      run_allMarks children hn htidy.2 ha hr

theorem run_allMarks : ∀ (trees : List Tree) {outer : List Style} {room : Nat} {pairing : Pairing}
    {ps : List (TokenKind × List Char)}, Tree.AllNest outer room trees → Tree.AllTidy trees →
    pairing.Admits outer room → ReadAs (Tree.allMarks trees) ps →
    ∃ items, pairing.run ps = pairing.extend items ∧
      ∀ us, (items.map Item.tree).foldr Tree.before us = trees.foldr Tree.before us
  | [], _, _, pairing, _, _, _, _, .nil => ⟨[], by simp [run, extend], fun _ => rfl⟩
  | tree :: trees, outer, room, pairing, ps, ⟨hn, hns⟩, ⟨ht, hts⟩, hadmits, hread => by
    obtain ⟨qs, rs, rfl, hqs, hrs⟩ := hread.exists_append
    obtain ⟨items, hrun, hitems⟩ := run_marks tree hn ht hadmits hqs
    have hadmits' : (pairing.extend items).Admits outer room := hadmits
    obtain ⟨more, hrun', hmore⟩ := run_allMarks trees hns hts hadmits' hrs
    refine ⟨items ++ more, ?_, ?_⟩
    · rw [run_append, hrun, hrun', extend_extend]
    · intro us
      rw [List.map_append, List.foldr_append, hmore, hitems, List.foldr_cons]

end

end Pairing

theorem merge_pairUp {ts : List Tree} {pieces : List (TokenKind × List Char)}
    (hnest : Tree.AllNest [] Assembly.maxDepth ts) (hmerged : Tree.Merged ts)
    (htidy : Tree.AllTidy ts) (hread : ReadAs (Tree.allMarks ts) pieces) :
    Tree.merge ((pairUp pieces).map Item.tree) = ts := by
  have hadmits : Pairing.Admits {} [] Assembly.maxDepth := ⟨Nat.le_of_eq (Nat.zero_add _), by simp⟩
  obtain ⟨items, hrun, hitems⟩ := Pairing.run_allMarks ts hnest htidy hadmits hread
  have hall : pairUp pieces = items := by
    rw [pairUp, hrun]
    rfl
  rw [hall]
  exact (hitems []).trans hmerged.merge_eq

/-- Trees that are written as canonical markdown are read back, and only empty addresses are
complained about. -/
theorem parse_writtenAll {ts : List Tree} (hnest : Tree.AllNest [] Assembly.maxDepth ts)
    (hmerged : Tree.Merged ts) (htidy : Tree.AllTidy ts)
    (hstable : Mark.AllStable none (Tree.allMarks ts) none) :
    (parse (Mark.writtenAll (Tree.allMarks ts))).document = .ofTrees ts ∧
      (parse (Mark.writtenAll (Tree.allMarks ts))).warnings.toList.map (·.issue) =
        (Tree.allMarks ts).flatMap Mark.issues := by
  obtain ⟨hread, hissues⟩ := scan_marks hstable (Tree.apart_allMarks ts hnest hmerged htidy)
  refine ⟨?_, hissues⟩
  rw [document_parse, merge_pairUp hnest hmerged htidy hread]

end InlineMarkup
