import InlineMarkup.Proofs.Construction
import InlineMarkup.Proofs.Reparse

/-! Faithfulness: what is constructed is read back from its canonical markdown. -/

namespace InlineMarkup

namespace Tree

mutual

/-- Whether no text, code or address below the tree is empty, or holds its own delimiter where it
would end too early. -/
def Filled : Tree → Prop
  | root children | styled _ children => AllFilled children
  | link url children | image url children => url ≠ [] ∧ ')' ∉ url ∧ AllFilled children
  | code _ content => content ≠ [] ∧ content.head? ≠ some '`' ∧ content.getLast? ≠ some '`'
  | text content => content ≠ []

def AllFilled : List Tree → Prop
  | [] => True
  | tree :: trees => Filled tree ∧ AllFilled trees

end

/-- Whether every second one of the trees is text. -/
def Alternate (trees : List Tree) : Prop := trees.IsChain fun a b => a.isText ≠ b.isText

mutual

/-- Whether text stands at both ends of each container and between any two other things in it. -/
def Spaced : Tree → Prop
  | root children | styled _ children | link _ children | image _ children =>
    Alternate children ∧ children.head?.any isText ∧ children.getLast?.any isText ∧
      AllSpaced children
  | code _ _ | text _ => True

def AllSpaced : List Tree → Prop
  | [] => True
  | tree :: trees => Spaced tree ∧ AllSpaced trees

end

variable {ts : List Tree}

theorem Alternate.merged (h : Alternate ts) : Merged ts :=
  h.imp fun _ _ hne hboth => hne (hboth.1.trans hboth.2.symm)

mutual

theorem Spaced.tidy : ∀ tree : Tree, tree.Spaced → tree.Tidy
  | code _ _, _ | text _, _ => trivial
  | root children, ⟨ha, _, _, hs⟩ | styled _ children, ⟨ha, _, _, hs⟩
  | link _ children, ⟨ha, _, _, hs⟩ | image _ children, ⟨ha, _, _, hs⟩ =>
    ⟨ha.merged, AllSpaced.allTidy children hs⟩

theorem AllSpaced.allTidy : ∀ trees : List Tree, AllSpaced trees → AllTidy trees
  | [], _ => trivial
  | tree :: trees, ⟨hs, hss⟩ => ⟨Spaced.tidy tree hs, AllSpaced.allTidy trees hss⟩

end

end Tree

/-! ### Marks that are sound and apart -/

namespace Mark

/-- Whether nothing is wrong with a mark, wherever it stands. -/
def Sound : Mark → Prop
  | delimiter _ | linkStart | imageStart => True
  | address url => url ≠ [] ∧ ')' ∉ url
  | code fence content => Backtick.Encloses fence content
  | text content => content ≠ []

/-- Whether every second one of the marks is text. -/
def Alternate (marks : List Mark) : Prop := marks.IsChain fun a b => a.isText ≠ b.isText

/-- Whether no underscore of a delimiter follows an underscore or stands within a word. The first
one of the marks follows `prev`. -/
def UnderscoresApart (prev : Option Char) (marks : List Mark) : Prop :=
  ∀ before after, marks = before ++ .delimiter .underline :: after →
    (writtenAll before).getLast?.or prev ≠ some '_' ∧
      ¬(((writtenAll before).getLast?.or prev).any Unicode.isAlphanumeric ∧
        (writtenAll after).head?.any Unicode.isAlphanumeric)

variable {prev : Option Char} {mark : Mark} {marks : List Mark}

theorem Sound.issues_eq (h : mark.Sound) : mark.issues = [] := by
  cases mark with
  | address url =>
    obtain ⟨c, url, rfl⟩ := List.exists_cons_of_ne_nil h.1
    rfl
  | _ => rfl

theorem sound_between {opening closing : Mark} (hopening : opening.Sound) (hclosing : closing.Sound)
    (h : ∀ m ∈ marks, m.Sound) (hmark : mark ∈ opening :: (marks ++ [closing])) : mark.Sound := by
  rcases List.mem_cons.1 hmark with rfl | hmark
  · exact hopening
  · rcases List.mem_append.1 hmark with hmark | hmark
    · exact h mark hmark
    · exact List.mem_singleton.1 hmark ▸ hclosing

theorem underscoresApart_nil : UnderscoresApart prev [] := by
  intro before after hsplit
  simp at hsplit

theorem underscoresApart_cons : UnderscoresApart prev (mark :: marks) ↔
    (mark = .delimiter .underline → prev ≠ some '_' ∧
      ¬(prev.any Unicode.isAlphanumeric ∧ (writtenAll marks).head?.any Unicode.isAlphanumeric)) ∧
      UnderscoresApart (mark.written.getLast?.or prev) marks := by
  constructor
  · intro h
    refine ⟨fun hmark => h [] marks (congrArg (· :: marks) hmark), ?_⟩
    intro before after hsplit
    have hall := h (mark :: before) after (congrArg (mark :: ·) hsplit)
    rwa [writtenAll_cons, List.getLast?_append, Option.or_assoc] at hall
  · rintro ⟨hmark, hmarks⟩ before after hsplit
    cases before with
    | nil =>
      obtain ⟨rfl, rfl⟩ := List.cons.inj hsplit
      exact hmark rfl
    | cons other before =>
      obtain ⟨rfl, hrest⟩ := List.cons.inj hsplit
      rw [writtenAll_cons, List.getLast?_append, Option.or_assoc]
      exact hmarks before after hrest

/-- What follows a mark that is no text is the start of a text, if anything. -/
theorem Alternate.next (h : Alternate (mark :: marks)) (hmark : ¬mark.isText)
    (hsound : ∀ m ∈ marks, m.Sound) :
    marks = [] ∨ ∃ s, s ≠ [] ∧ (writtenAll marks).head? = (Markdown.escape s).head? := by
  cases marks with
  | nil => exact .inl rfl
  | cons next marks =>
    have hne : mark.isText ≠ next.isText := (List.isChain_cons_cons.1 h).1
    obtain ⟨s, rfl⟩ : ∃ s, next = .text s := by
      cases next with
      | text s => exact ⟨s, rfl⟩
      | _ => exact absurd (Bool.eq_false_iff.2 hmark) hne
    have hs : s ≠ [] := hsound _ List.mem_cons_self
    obtain ⟨c, s, rfl⟩ := List.exists_cons_of_ne_nil hs
    refine .inr ⟨c :: s, hs, ?_⟩
    rw [writtenAll_cons, written, List.head?_append, Markdown.head?_escape, Option.some_or]

/-- A sound mark is read as what it is where texts stand around it. -/
theorem Alternate.stable (h : Alternate (mark :: marks)) (hmark : mark.Sound)
    (hsound : ∀ m ∈ marks, m.Sound) (hlast : mark = .linkStart → marks ≠ [])
    (hunder : mark = .delimiter .underline → prev ≠ some '_' ∧
      ¬(prev.any Unicode.isAlphanumeric ∧ (writtenAll marks).head?.any Unicode.isAlphanumeric)) :
    mark.Stable prev (writtenAll marks).head? := by
  have hnext (hother : ¬mark.isText) {c : Char} (hc : isTrigger c) (hb : c ≠ '\\') :
      (writtenAll marks).head? ≠ some c := by
    rcases h.next hother hsound with rfl | ⟨s, _, hhead⟩
    · simp
    · exact hhead ▸ Markdown.head?_escape_ne hc hb
  cases mark with
  | delimiter style =>
    cases style with
    | bold | strikethrough => trivial
    | italic => exact hnext Bool.false_ne_true (by decide) (by decide)
    | underline =>
      obtain ⟨hprev, hword⟩ := hunder rfl
      have hother : (writtenAll marks).head? ≠ some '_' :=
        hnext Bool.false_ne_true (by decide) (by decide)
      rw [← Bool.and_eq_true, Bool.not_eq_true] at hword
      simp only [Stable, Reading.underlineAllowed, hword, Bool.not_false, Bool.and_true,
        Bool.and_eq_true, bne_iff_ne]
      exact ⟨hprev, hother⟩
  | linkStart =>
    rcases h.next Bool.false_ne_true hsound with rfl | ⟨s, hs, hhead⟩
    · exact absurd rfl (hlast rfl)
    · rw [Stable, hhead, ne_eq, List.head?_eq_none_iff]
      exact Markdown.escapeFrom_ne_nil hs
  | imageStart => trivial
  | address url => exact hmark.2
  | code fence content => exact ⟨hmark, hnext Bool.false_ne_true (by decide) (by decide)⟩
  | text content => exact hmark

theorem Alternate.allStable (h : Alternate marks) (hsound : ∀ m ∈ marks, m.Sound)
    (hlast : marks.getLast? ≠ some .linkStart) (hunder : UnderscoresApart prev marks) :
    AllStable prev marks none := by
  induction marks generalizing prev with
  | nil => trivial
  | cons mark marks ih =>
    obtain ⟨hmark, hmarks⟩ := List.forall_mem_cons.1 hsound
    obtain ⟨hunderscore, hunder⟩ := underscoresApart_cons.1 hunder
    have hfollowed : mark = .linkStart → marks ≠ [] := by
      rintro rfl rfl
      exact hlast rfl
    have hstable := h.stable hmark hmarks hfollowed hunderscore
    rw [getLast?_or hstable.written_ne_nil] at hunder
    refine ⟨(Option.or_none ..).symm ▸ hstable, ih h.tail hmarks ?_ hunder⟩
    cases marks with
    | nil => simp
    | cons next marks => rwa [List.getLast?_cons_cons] at hlast

end Mark

/-! ### The marks of a constructed tree -/

namespace Tree

variable {outer : List Style} {room : Nat}

theorem alternate_between {opening closing : Mark} (hopening : opening.isText = false)
    (hclosing : closing.isText = false) (hn : AllNest outer room ts) (hfirst : ts.head?.any isText)
    (hlast : ts.getLast?.any isText) (h : Mark.Alternate (allMarks ts)) :
    Mark.Alternate (opening :: (allMarks ts ++ [closing])) := by
  obtain ⟨hstart, hend, _⟩ := ends_allMarks hn
  have hends {a : Option Mark} {b : Option Tree} (hab : a.map Mark.isText = b.map isText)
      (hb : b.any isText) : ∃ mark, a = some mark ∧ mark.isText := by
    obtain ⟨u, rfl, hu⟩ := (Option.any_eq_true ..).1 hb
    obtain ⟨mark, hmark, htext⟩ := Option.map_eq_some_iff.1 hab
    exact ⟨mark, hmark, htext.trans hu⟩
  obtain ⟨first, hhead, htext⟩ := hends hstart hfirst
  obtain ⟨last, hback, htext'⟩ := hends hend hlast
  refine List.isChain_cons.2 ⟨?_, List.isChain_append.2 ⟨h, List.IsChain.singleton _, ?_⟩⟩
  · intro mark hmark
    rw [List.head?_append, hhead, Option.some_or, Option.mem_some] at hmark
    rw [hopening, ← hmark, htext]
    exact Bool.false_ne_true
  · intro mark hmark other hother
    rw [hback, Option.mem_some] at hmark
    obtain rfl := Option.some.inj hother
    rw [hclosing, ← hmark, htext']
    exact Bool.false_ne_true.symm

mutual

/-- Texts are as far apart in what is written as they are in the tree. -/
theorem alternate_marks : ∀ (tree : Tree) {outer : List Style} {room : Nat},
    tree.Nests outer room → tree.Spaced → Mark.Alternate tree.marks
  | code _ _, _, _, _, _ | text _, _, _, _, _ => List.IsChain.singleton _
  | styled _ children, _, _, ⟨_, _, hn⟩, ⟨ha, hfirst, hlast, hs⟩
  | link _ children, _, _, ⟨_, hn⟩, ⟨ha, hfirst, hlast, hs⟩
  | image _ children, _, _, ⟨_, hn⟩, ⟨ha, hfirst, hlast, hs⟩ => by
    exact alternate_between rfl rfl hn hfirst hlast (alternate_allMarks children hn ha hs)

theorem alternate_allMarks : ∀ (trees : List Tree) {outer : List Style} {room : Nat},
    AllNest outer room trees → Alternate trees → AllSpaced trees → Mark.Alternate (allMarks trees)
  | [], _, _, _, _, _ => List.IsChain.nil
  | tree :: trees, _, _, ⟨hn, hns⟩, ha, ⟨hs, hss⟩ => by
    refine List.isChain_append.2
      ⟨alternate_marks tree hn hs, alternate_allMarks trees hns ha.tail hss, ?_⟩
    intro a hlast b hfirst
    obtain ⟨_, last, _, hlast', _, htext, _⟩ := exists_ends hn
    have hhead := congrArg (Option.map Mark.isText) (Option.mem_def.1 hfirst)
    obtain ⟨u, hu, htext'⟩ := Option.map_eq_some_iff.1 ((ends_allMarks hns).1.symm.trans hhead)
    rw [hlast', Option.mem_some] at hlast
    rw [← hlast, htext, ← htext']
    exact (List.isChain_cons.1 ha).1 u hu

end

end Tree

namespace Placed

variable {doc : Document}

mutual

/-- What is constructed of sound parts is written with sound marks, whose fences hold. -/
theorem sound_marks (hdoc : doc.Ordered) : ∀ p : Placed, p.StandsIn doc → p.tree.Filled →
    ∀ mark ∈ p.tree.marks, mark.Sound
  | text id content, _, hfilled, mark, hmark => by
    obtain rfl := List.mem_singleton.1 hmark
    exact hfilled
  | code id fence content, h, ⟨hcontent, hhead, hlast⟩, mark, hmark => by
    obtain rfl := List.mem_singleton.1 hmark
    obtain ⟨hfence, hfree⟩ := hdoc.code h
    exact ⟨hfence, hcontent, hhead, hlast, hfree⟩
  | container id shell children, ⟨_, hs⟩, hfilled, mark, hmark => by
    rw [tree, trees_eq_map] at hfilled hmark
    have hchildren := sound_allMarks hdoc children hs
    cases shell with
    | root => exact hchildren hfilled mark hmark
    | styled style =>
      refine Mark.sound_between ?_ ?_ (hchildren hfilled) hmark
      · trivial
      · trivial
    | link url | image inner url =>
      obtain ⟨hurl, hparen, hfilled⟩ := hfilled
      refine Mark.sound_between ?_ ?_ (hchildren hfilled) hmark
      · trivial
      · exact ⟨hurl, hparen⟩

theorem sound_allMarks (hdoc : doc.Ordered) : ∀ ps : List Placed, AllStandIn doc ps →
    Tree.AllFilled (ps.map tree) → ∀ mark ∈ Tree.allMarks (ps.map tree), mark.Sound
  | [], _, _ => by simp [Tree.allMarks]
  | p :: ps, ⟨hp, hps⟩, ⟨hf, hfs⟩ =>
    List.forall_mem_append.2 ⟨sound_marks hdoc p hp hf, sound_allMarks hdoc ps hps hfs⟩

end

end Placed

/-- Whether canonical markdown tells a tree from all others: its texts stand between other things,
no style is within itself, and no underscore is part of a word. -/
structure Tree.Writable (tree : Tree) : Prop where
  filled : tree.Filled
  alternate : Alternate tree.children
  spaced : AllSpaced tree.children
  nest : AllNest [] Assembly.maxDepth tree.children
  underscores : Mark.UnderscoresApart none tree.marks

/-- A writable tree that is constructed is read back from its markdown, and nothing is complained
about. -/
theorem Document.Built.tree_parse_markdown {doc : Document} (h : doc.Built)
    (hwritable : (doc.tree rootId).Writable) :
    (parse (doc.markdown rootId)).document.tree rootId = doc.tree rootId ∧
      (parse (doc.markdown rootId)).warnings = #[] := by
  obtain ⟨ps, htree, hmarkdown, hps⟩ := h.exists_placed
  rw [htree] at hwritable ⊢
  obtain ⟨hfilled, halternate, hspaced, (hnest : Tree.AllNest [] _ (ps.map _)), hunder⟩ := hwritable
  have hsound := Placed.sound_allMarks h.ordered ps hps hfilled
  have hstable : Mark.AllStable none (Tree.allMarks (ps.map Placed.tree)) none :=
    (Tree.alternate_allMarks _ hnest halternate hspaced).allStable hsound
      (Tree.ends_allMarks hnest).2.2 hunder
  obtain ⟨hdocument, hissues⟩ :=
    parse_writtenAll hnest halternate.merged (Tree.AllSpaced.allTidy _ hspaced) hstable
  rw [hmarkdown, hdocument, Document.tree_ofTrees]
  refine ⟨rfl, ?_⟩
  rw [List.flatMap_eq_nil_iff.2 fun mark hmark => (hsound mark hmark).issues_eq,
    List.map_eq_nil_iff] at hissues
  exact Array.toList_eq_nil_iff.1 hissues

namespace Document

/-- An exclamation mark before a link that holds an underlined asterisk. -/
def markedLink : Document :=
  let doc := (empty.addText rootId ['!']).1
  let (doc, link) := doc.addLink rootId ['(', 'x']
  let doc := (doc.addText link ['a']).1
  let (doc, underlined) := doc.addEmpty link (.styled .underline)
  let doc := (doc.addText underlined ['*']).1
  (doc.addText link ['\\']).1

theorem built_markedLink : markedLink.Built :=
  (((((Built.empty.addText (by decide) _).addLink (by decide) _).addText (by decide) _).addStyled
    (by decide) .underline).addText (by decide) _).addText (by decide) _

theorem tree_markedLink : markedLink.tree rootId = .root [.text ['!'],
    .link ['(', 'x'] [.text ['a'], .styled .underline [.text ['*']], .text ['\\']]] := by
  rfl

theorem writable_markedLink : (markedLink.tree rootId).Writable := by
  rw [tree_markedLink]
  refine ⟨?_, ?_, ?_, ?_, ?_⟩
  · simp [Tree.Filled, Tree.AllFilled]
  · simp [Tree.children, Tree.Alternate, Tree.isText]
  · simp [Tree.children, Tree.AllSpaced, Tree.Spaced, Tree.Alternate, Tree.isText]
  · simp [Tree.children, Tree.AllNest, Tree.Nests, Assembly.maxDepth]
  · simp only [Tree.marks, Tree.allMarks, List.cons_append, List.nil_append, List.append_nil,
      Mark.underscoresApart_cons, Mark.underscoresApart_nil, reduceCtorEq, false_imp_iff,
      true_imp_iff, true_and, and_true]
    decide

theorem tree_parse_markdown_markedLink : markedLink.Built ∧ (markedLink.tree rootId).Writable ∧
    (parse (markedLink.markdown rootId)).document.tree rootId = markedLink.tree rootId ∧
      (parse (markedLink.markdown rootId)).warnings = #[] :=
  ⟨built_markedLink, writable_markedLink, built_markedLink.tree_parse_markdown writable_markedLink⟩

end Document

end InlineMarkup
