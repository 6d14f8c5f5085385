import InlineMarkup.Proofs.Cutting
import InlineMarkup.Proofs.Marks
import InlineMarkup.Proofs.Recording

/-! Assembly mirrors pairing: at every moment the document says what has been made of the tokens so
far, as the events record it. -/

namespace InlineMarkup

namespace Shell

variable {shell : Shell} {tag : Tag}

/-- Whether the container is one that the tag makes. -/
def IsFor : Shell → Tag → Prop
  | styled style, .styled style' => style = style'
  | link _, .link | image _ _, .image => True
  | _, _ => False

theorem IsFor.tree_withUrl (h : shell.IsFor tag) (url : List Char) (children : List Tree) :
    (shell.withUrl url).tree children = tag.tree url children := by
  cases shell <;> cases tag <;> simp_all [IsFor, Shell.withUrl, Shell.tree, Tag.tree]

theorem IsFor.tree_of_isSymmetric (h : shell.IsFor tag) (hs : tag.isSymmetric) (url : List Char)
    (children : List Tree) : shell.tree children = tag.tree url children := by
  cases shell <;> cases tag <;> simp_all [IsFor, Tag.isSymmetric, Shell.tree, Tag.tree]

end Shell

/-- Whether the containers under construction are those of the open tags, hold the items of the
openers that wait, and stand around each other as the openers do. -/
inductive Matches : List Site → List OpenTag → List Waiting → List Item → Prop
  | root (children : List Placed) (level : List Item)
      (htrees : children.map Placed.tree = Tree.merge (level.map Item.tree)) :
      Matches [⟨Document.rootId, .root, children⟩] [] [] level
  | inside {sites : List Site} {openTags : List OpenTag} {waiting : List Waiting}
      (site : Site) (opened : OpenTag) (w : Waiting) (level : List Item)
      (htrees : site.children.map Placed.tree = Tree.merge (level.map Item.tree))
      (hshell : site.shell.IsFor w.tag) (hnode : opened.node = site.id)
      (hparent : sites.head?.map Site.id = some opened.parent) (htag : opened.tag = w.tag)
      (hraw : opened.delimiter = w.raw) (houter : Matches sites openTags waiting w.before) :
      Matches (site :: sites) (opened :: openTags) (w :: waiting) level

/-- Whether the document says what has been made of the tokens. -/
def Says (doc : Document) (openTags : List OpenTag) (waiting : List Waiting) (level : List Item) :
    Prop :=
  ∃ sites, doc.Holds [] sites ∧ Matches sites openTags waiting level

variable {doc : Document} {sites : List Site} {opened : OpenTag} {openTags : List OpenTag} {w : Waiting}
  {waiting : List Waiting} {level : List Item} {item : Item}

namespace Matches

/-- Where the next trees go. -/
theorem exists_site (h : Matches sites openTags waiting level) :
    ∃ site outer, sites = site :: outer ∧
      site.id = (openTags.head?.map (·.node)).getD Document.rootId ∧
      site.children.map Placed.tree = Tree.merge (level.map Item.tree) ∧
      ∀ children level', children.map Placed.tree = Tree.merge (level'.map Item.tree) →
        Matches ({ site with children } :: outer) openTags waiting level' := by
  cases h with
  | root children level htrees =>
    exact ⟨_, _, rfl, rfl, htrees, fun children level' h' => .root children level' h'⟩
  | inside site opened w level htrees hshell hnode hparent htag hraw houter =>
    exact ⟨_, _, rfl, hnode.symm, htrees, fun children level' h' =>
      .inside _ opened w level' h' hshell hnode hparent htag hraw houter⟩

end Matches

/-! ### Tokens that stand for themselves -/

theorem Says.pushText (h : Says doc openTags waiting level) {content : List Char}
    (hne : content ≠ []) (hitem : item.tree = .text content) :
    Says (doc.pushText ((openTags.head?.map (·.node)).getD Document.rootId) content) openTags waiting
      (level ++ [item]) := by
  obtain ⟨sites, hholds, hmatches⟩ := h
  obtain ⟨site, outer, rfl, hid, htrees, hnext⟩ := hmatches.exists_site
  obtain ⟨ps, hps, hpush⟩ := hholds.pushText hne (htrees ▸ Tree.merged_merge _)
  refine ⟨_, hid ▸ hpush, hnext ps _ ?_⟩
  rw [hps, htrees, Tree.merge_merge_append, List.map_append, List.map_singleton, hitem]

/-- A tree that is no text stays apart from those before it. -/
theorem Says.push (h : Says doc openTags waiting level) (htext : ¬item.tree.isText)
    (add : NodeId → Document)
    (hadd : ∀ (site : Site) (outer : List Site), doc.Holds [] (site :: outer) →
      ∃ p : Placed, p.tree = item.tree ∧
        (add site.id).Holds [] ({ site with children := site.children ++ [p] } :: outer)) :
    Says (add ((openTags.head?.map (·.node)).getD Document.rootId)) openTags waiting
      (level ++ [item]) := by
  obtain ⟨sites, hholds, hmatches⟩ := h
  obtain ⟨site, outer, rfl, hid, htrees, hnext⟩ := hmatches.exists_site
  obtain ⟨p, hp, hdoc⟩ := hadd site outer hholds
  rw [← hid]
  refine ⟨_, hdoc, hnext _ _ ?_⟩
  rw [List.map_append, List.map_append, List.map_singleton, List.map_singleton, htrees, hp,
    ← Tree.merge_merge_append]
  exact (Tree.merge_concat (Tree.merged_merge _) fun _ _ hmeet => htext hmeet.2).symm

/-! ### Tags that open and close -/

theorem Says.openTag (h : Says doc openTags waiting level) (tag : Tag) (raw : List Char)
    (marker : Marker) :
    Says (doc.addEmpty ((openTags.head?.map (·.node)).getD Document.rootId) tag.nodeKind).1
      (⟨tag, (doc.addEmpty ((openTags.head?.map (·.node)).getD Document.rootId) tag.nodeKind).2,
        (openTags.head?.map (·.node)).getD Document.rootId, raw, marker⟩ :: openTags)
      (⟨tag, raw, level⟩ :: waiting) [] := by
  obtain ⟨sites, hholds, hmatches⟩ := h
  have hmatches' := hmatches
  obtain ⟨site, outer, rfl, hid, -, -⟩ := hmatches'.exists_site
  rw [← hid]
  cases tag with
  | styled style =>
    exact ⟨_, hholds.addShell (.styled style #[]) (.styled style) (fun _ => rfl) fun _ _ hn => hn,
      .inside _ _ _ _ rfl rfl rfl rfl rfl rfl hmatches⟩
  | link =>
    exact ⟨_, hholds.addShell (.link [] #[]) (.link []) (fun _ => rfl) fun _ _ hn => hn,
      .inside _ _ _ _ rfl trivial rfl rfl rfl rfl hmatches⟩
  | image =>
    exact ⟨_, hholds.addImage [],
      .inside _ _ _ _ rfl trivial (Document.size_store ..) rfl rfl rfl hmatches⟩

theorem tree_opener (tag : Tag) (raw : List Char) :
    (Item.token tag.opener raw).tree = .text raw := by
  rcases tag with (_ | _ | _ | _) | _ | _ <;> rfl

theorem Says.demote (h : Says doc (opened :: openTags) (w :: waiting) level)
    (hkind : (Item.token w.tag.opener w.raw).tree = .text w.raw) :
    Says (doc.unwrapIntoText opened.parent opened.node opened.delimiter) openTags waiting
      (w.before ++ .token w.tag.opener w.raw :: level) := by
  obtain ⟨sites, hholds, hmatches⟩ := h
  cases hmatches with
  | inside site opened w level htrees hshell hnode hparent htag hraw houter =>
    obtain ⟨outer, sites, rfl, hid, htrees', hnext⟩ := houter.exists_site
    obtain ⟨ps, hps, hunwrap⟩ := hholds.unwrapIntoText w.raw
    have hparent' : opened.parent = outer.id := by simpa using hparent.symm
    rw [hparent', hnode, hraw]
    refine ⟨_, hunwrap, hnext ps _ ?_⟩
    rw [hps, htrees, htrees', Tree.merge_merge_append, List.map_append, List.map_cons, hkind,
      ← List.singleton_append, ← List.append_assoc, Tree.merge_append_merge, List.append_assoc,
      List.singleton_append]

theorem Says.finish (h : Says doc (opened :: openTags) (w :: waiting) level) (raw : List Char) :
    Says (if opened.tag.isSymmetric then doc
        else doc.setUrl opened.node (Reading.addressOf raw)) openTags waiting
      (w.before ++ [.pair w.tag w.raw level raw]) := by
  obtain ⟨sites, hholds, hmatches⟩ := h
  cases hmatches with
  | inside site opened w level htrees hshell hnode hparent htag hraw houter =>
    obtain ⟨outer, sites, rfl, hid, htrees', hnext⟩ := houter.exists_site
    have hpair : (Item.pair w.tag w.raw level raw).tree =
        w.tag.tree (Reading.addressOf raw) (site.children.map Placed.tree) := by
      rw [Item.tree, Item.trees_eq_map, htrees]
    have hclosed (p : Placed) (hp : p.tree = (Item.pair w.tag w.raw level raw).tree) :
        Matches ({ outer with children := outer.children ++ [p] } :: sites) openTags waiting
          (w.before ++ [.pair w.tag w.raw level raw]) := by
      apply hnext _ _
      rw [List.map_append, List.map_append, List.map_singleton, List.map_singleton, htrees', hp,
        ← Tree.merge_merge_append]
      refine (Tree.merge_concat (Tree.merged_merge _) ?_).symm
      intro _ _ hmeet
      rw [hpair] at hmeet
      cases htag' : w.tag <;> rw [htag'] at hmeet <;> exact Bool.false_ne_true hmeet.2
    split
    · rename_i hsymmetric
      refine ⟨_, hholds.close, hclosed _ ?_⟩
      rw [hpair, Site.placed, Placed.tree, Placed.trees_eq_map]
      exact hshell.tree_of_isSymmetric (htag ▸ hsymmetric) _ _
    · rw [hnode]
      refine ⟨_, (hholds.setUrl (Reading.addressOf raw)).close, hclosed _ ?_⟩
      rw [hpair, Site.placed, Placed.tree, Placed.trees_eq_map]
      exact hshell.tree_withUrl _ _

/-! ### All moments -/

/-- A token that stands for something: it has a text, and an escape has one after its backslash or
another scalar value of one byte. -/
structure Token.Legible (token : Token) : Prop where
  raw_ne_nil : token.raw ≠ []
  escaped : token.kind = .escape → token.isReadable ∧ token.raw.drop 1 ≠ []

namespace Assembly

variable {assembly : Assembly} {token : Token} {tokens : List Token} {pairing : Pairing}

theorem says_addText (h : Says assembly.document assembly.openTags waiting level)
    {content : List Char} (hne : content ≠ [])
    (htext : Tree.ofToken token.kind token.raw = .text content) :
    Says (assembly.addText token content).document assembly.openTags waiting
      (level ++ [.token token.kind token.raw]) :=
  h.pushText hne htext

theorem says_addCode (h : Says assembly.document assembly.openTags waiting level)
    (hkind : token.kind = .codeInline ∨ token.kind = .codeBlock) :
    Says (assembly.addCode token).document assembly.openTags waiting
      (level ++ [.token token.kind token.raw]) := by
  have htree : (Item.token token.kind token.raw).tree =
      .code (Backtick.parts token.raw).1 (Backtick.parts token.raw).2 := by
    rcases hkind with hkind | hkind <;> rw [hkind] <;> rfl
  refine h.push (by rw [htree]; exact Bool.false_ne_true)
    (fun parent => (assembly.document.add parent (.code (Backtick.parts token.raw).1
      (Backtick.parts token.raw).2)).1) fun site outer hholds => ?_
  exact ⟨.code _ _ _, htree.symm, hholds.addCode _ _⟩

theorem says_addBareUrl (h : Says assembly.document assembly.openTags waiting level)
    (hkind : token.kind = .bareUrl) :
    Says (assembly.addBareUrl token).document assembly.openTags waiting
      (level ++ [.token token.kind token.raw]) := by
  have htree : (Item.token token.kind token.raw).tree = .link token.raw [.text token.raw] := by
    rw [hkind]
    rfl
  refine h.push (by rw [htree]; exact Bool.false_ne_true)
    (fun parent => ((assembly.document.addLink parent token.raw).1.addText
      (assembly.document.addLink parent token.raw).2 token.raw).1) fun site outer hholds => ?_
  have hlink := hholds.addShell (.link token.raw #[]) (.link token.raw) (fun _ => rfl) fun _ _ hn => hn
  exact ⟨.container _ (.link token.raw) [.text _ token.raw], htree.symm,
    (hlink.addText token.raw).close⟩

theorem says_takeLeaf (h : Says assembly.document assembly.openTags waiting level)
    (htoken : token.Legible) : Says (assembly.takeLeaf token).document assembly.openTags waiting
      (level ++ [.token token.kind token.raw]) := by
  unfold takeLeaf
  split
  · rename_i hkind
    exact says_addText h (htoken.escaped hkind).2 (by rw [hkind]; rfl)
  · rename_i hkind
    exact says_addCode h (.inl hkind)
  · rename_i hkind
    exact says_addCode h (.inr hkind)
  · rename_i hkind
    exact says_addBareUrl h hkind
  all_goals
    rename_i hkind
    exact says_addText h htoken.raw_ne_nil (by rw [hkind]; rfl)

theorem Reached.says (h : Reached tokens assembly pairing)
    (hlegible : ∀ token ∈ tokens, token.Legible) :
    Says assembly.document assembly.openTags pairing.waiting pairing.level := by
  induction h with
  | start => exact ⟨_, Document.holds_empty, .root [] [] rfl⟩
  | leaf h token recoveries ih =>
    obtain ⟨htokens, htoken⟩ := List.forall_mem_append.1 hlegible
    rw [openTags_takeLeaf]
    exact says_takeLeaf (ih htokens) (htoken token List.mem_cons_self)
  | opened h token tag hkind hroom ih =>
    rw [openTag_of_lt tag token hroom]
    exact (ih (List.forall_mem_append.1 hlegible).1).openTag tag token.raw _
  | demoted h hopen ih =>
    rw [hopen] at ih
    exact (ih hlegible).demote (tree_opener ..)
  | finished h hopen token hkind ih =>
    rw [hopen] at ih
    rw [openTags_finish, document_finish]
    exact (ih (List.forall_mem_append.1 hlegible).1).finish token.raw

end Assembly

open Assembly

theorem mirrors_assemble {tokens : List Token} (h : ∀ token ∈ tokens, token.Legible) :
    (assemble tokens).document =
        .ofTrees (Tree.merge ((pairUp (tokens.map Token.piece)).map Item.tree)) ∧
      SyntaxTree.ofEvents? tokens (assemble tokens).trace.events.toList =
        some (.node .root ((pairUp (tokens.map Token.piece)).map Item.syntaxTree)) := by
  refine ⟨?_, ofEvents?_assemble tokens⟩
  obtain ⟨last, hreached, hdocument, -⟩ := exists_reached tokens
  obtain ⟨sites, hholds, hmatches⟩ := hreached.says h
  generalize last.openTags = openTags at hmatches
  cases hmatches with
  | root children _ htrees =>
    have htree := hholds.tree_eq
    rw [Site.placed, Placed.tree, Placed.trees_eq_map, Shell.tree, htrees] at htree
    rw [hdocument]
    exact congrArg (fun tree : Tree => Document.ofTrees tree.children) htree

theorem legible_of_mem_scan {options : ScanOptions} {text : List Char} {token : Token}
    (h : token ∈ (scan options text).tokens) : token.Legible := by
  obtain ⟨prev, next, hfits⟩ := (cut_scan options text).2.exists_fits token.piece
    (List.mem_map_of_mem (Array.mem_toList_iff.2 h))
  refine ⟨hfits.raw_ne_nil, ?_⟩
  intro hkind
  simp only [Token.piece, hkind] at hfits
  generalize hraw : token.raw = raw at hfits
  cases hfits with
  | escape next huse => simp [Token.isReadable, hkind, hraw, Char.utf8Size]
  | code hcode => simp at hcode

theorem document_parseWith (options : ScanOptions) (text : List Char) :
    (parseWith options text).document =
      .ofTrees (Tree.merge ((pairUp (scan options text).pieces).map Item.tree)) := by
  have hlegible : ∀ token ∈ (scan options text).tokens.toList, token.Legible :=
    fun token htoken => legible_of_mem_scan (Array.mem_toList_iff.1 htoken)
  exact (mirrors_assemble hlegible).1

theorem document_parse (text : List Char) : (parse text).document =
    .ofTrees (Tree.merge ((pairUp (scan {} text).pieces).map Item.tree)) :=
  document_parseWith {} text

/-- The document says what the syntax tree says. -/
theorem document_reads_syntaxTree :
    (∀ tokens : List Token, (∀ token ∈ tokens, token.Legible) →
      ∃ tree, SyntaxTree.ofEvents? tokens (assemble tokens).trace.events.toList = some tree ∧
        (assemble tokens).document.tree Document.rootId = tree.read ∧
        (assemble tokens).document = .ofTrees tree.read.children) ∧
    ∀ (options : ScanOptions) (text : List Char), ∀ token ∈ (scan options text).tokens,
      token.Legible := by
  refine ⟨?_, fun options text token => legible_of_mem_scan⟩
  intro tokens hlegible
  obtain ⟨hdocument, hsyntax⟩ := mirrors_assemble hlegible
  refine ⟨_, hsyntax, ?_, ?_⟩
  · rw [hdocument, Document.tree_ofTrees, SyntaxTree.read, SyntaxTree.readAll_eq_map,
      Item.map_read_syntaxTree]
  · rw [hdocument, SyntaxTree.read, SyntaxTree.readAll_eq_map, Item.map_read_syntaxTree,
      Tree.children]

/-- Bold that is opened in a link and never closed. -/
def unclosedBoldInLink : List Token :=
  [⟨.linkStart, 0, ['[']⟩, ⟨.bold, 1, ['*', '*']⟩, ⟨.escape, 3, ['\\', '*']⟩,
    ⟨.address, 5, [']', '(', 'u', ')']⟩]

theorem document_reads_unclosed_bold : ∃ tree,
    SyntaxTree.ofEvents? unclosedBoldInLink (assemble unclosedBoldInLink).trace.events.toList =
      some tree ∧ (assemble unclosedBoldInLink).document.tree Document.rootId = tree.read ∧
        tree.read = .root [.link ['u'] [.text ['*', '*', '*']]] := by
  have hlegible : ∀ token ∈ unclosedBoldInLink, token.Legible := by
    simp only [unclosedBoldInLink, List.forall_mem_cons, List.not_mem_nil, false_imp_iff,
      implies_true, and_true]
    exact ⟨⟨by simp, by simp⟩, ⟨by simp, by simp⟩, ⟨by simp, fun _ => ⟨rfl, by simp⟩⟩,
      ⟨by simp, by simp⟩⟩
  obtain ⟨tree, htree, hread, _⟩ := document_reads_syntaxTree.1 unclosedBoldInLink hlegible
  refine ⟨tree, htree, hread, hread.symm.trans ?_⟩
  rw [(mirrors_assemble hlegible).1, Document.tree_ofTrees]
  rfl

end InlineMarkup
