import InlineMarkup.Proofs.Mirror

/-! Display: what a reader sees of a document is what its trees hold, from left to right. -/

namespace InlineMarkup

namespace Tree

mutual

/-- What a reader sees of a tree. -/
def shown : Tree → List Char
  | root children | styled _ children | link _ children | image _ children => allShown children
  | code _ content | text content => content

def allShown : List Tree → List Char
  | [] => []
  | tree :: trees => shown tree ++ allShown trees

end

variable {tree : Tree} {ts us : List Tree}

@[simp] theorem allShown_append (ts us : List Tree) :
    allShown (ts ++ us) = allShown ts ++ allShown us := by
  induction ts with
  | nil => rfl
  | cons tree ts ih => simp [allShown, ih]

theorem allShown_before (tree : Tree) (ts : List Tree) :
    allShown (before tree ts) = tree.shown ++ allShown ts := by
  by_cases ht : tree.isText
  · obtain ⟨s, rfl⟩ := isText_iff.1 ht
    cases ts with
    | nil => rfl
    | cons u ts => cases u <;> simp [before, allShown, shown]
  · rw [before_of_not_isText ht, allShown]

@[simp] theorem allShown_merge (ts : List Tree) : allShown (merge ts) = allShown ts := by
  induction ts with
  | nil => rfl
  | cons tree ts ih => rw [merge, List.foldr_cons, allShown_before, ← merge, ih, allShown]

end Tree

namespace Document

variable {doc : Document} {id : NodeId} {site : Site}

/-- What a reader sees of the nodes visited, the last one first. -/
def seenText (doc : Document) (seen : List NodeId) : List Char :=
  seen.reverse.flatMap fun node => ((doc.node? node).map Node.visible).getD []

theorem seenText_cons (id : NodeId) (seen : List NodeId) : doc.seenText (id :: seen) =
    doc.seenText seen ++ ((doc.node? id).map Node.visible).getD [] := by
  simp [seenText]

theorem host_of_leaf {node : Node} (h : doc.node? id = some node)
    (hleaf : node.kind = .text ∨ node.kind = .code) : doc.host id = id := by
  obtain ⟨n, hn⟩ := Nat.exists_eq_succ_of_ne_zero (Nat.ne_zero_of_lt (lt_size_of_node? h))
  rw [host, hn, hostWithin, h]
  cases node <;> simp_all [Node.kind]

/-- A text or a piece of code is its own host and has no children. -/
theorem children_of_leaf {node : Node} (h : doc.node? id = some node)
    (hleaf : node.kind = .text ∨ node.kind = .code) : doc.children id = #[] := by
  rw [children, host_of_leaf h hleaf, h]
  cases node <;> simp_all [Node.kind, Node.children]

end Document

namespace Placed

variable {doc : Document}

mutual

theorem StandsIn.visit_eq : ∀ p : Placed, p.StandsIn doc → ∀ levels seen, p.height ≤ levels →
    doc.seenText (doc.visit levels seen p.id) = doc.seenText seen ++ p.tree.shown
  | text id content, h, levels, seen, hl | code id fence content, h, levels, seen, hl => by
    obtain ⟨n, rfl⟩ : ∃ n, levels = n + 1 := ⟨levels - 1, by simp only [height] at hl; omega⟩
    have h : doc.node? id = _ := h
    have hchildren : doc.children id = #[] := Document.children_of_leaf h (by simp [Node.kind])
    simp [Document.visit, Placed.id, hchildren, Document.seenText_cons, h, Node.visible, tree,
      Tree.shown]
  | container id shell children, ⟨hs, hc⟩, levels, seen, hl => by
    have hpos := List.length_pos_of_mem (shell.mem_places_self id)
    obtain ⟨n, rfl⟩ : ∃ n, levels = n + 1 := ⟨levels - 1, by simp only [height] at hl; omega⟩
    have hvisit := AllStandIn.visit_eq children hc n (id :: seen) (by simp only [height] at hl; omega)
    have hchildren : doc.children id = (children.map Placed.id).toArray := hs.children_eq
    rw [Document.visit, Placed.id, hchildren, List.foldl_toArray, hvisit, Document.seenText_cons, tree,
      trees_eq_map]
    cases shell with
    | image inner url => simp [hs.1, Node.visible, Shell.tree, Tree.shown]
    | root | styled | link =>
      have h : doc.node? id = _ := hs
      simp [h, Node.visible, Shell.tree, Tree.shown]

theorem AllStandIn.visit_eq : ∀ ps : List Placed, AllStandIn doc ps →
    ∀ levels seen, allHeight ps ≤ levels →
    doc.seenText ((ps.map Placed.id).foldl (doc.visit levels) seen) =
      doc.seenText seen ++ Tree.allShown (ps.map tree)
  | [], _, _, _, _ => by simp [Tree.allShown]
  | p :: ps, ⟨hp, hps⟩, levels, seen, hl => by
    simp only [allHeight] at hl
    rw [List.map_cons, List.foldl_cons, AllStandIn.visit_eq ps hps levels _ (by omega),
      StandsIn.visit_eq p hp levels seen (by omega), List.map_cons, Tree.allShown, List.append_assoc]

end

end Placed

namespace Document

variable {doc : Document} {site : Site}

theorem Holds.displayText_eq (h : doc.Holds [] [site]) :
    doc.displayText site.id = site.placed.tree.shown := by
  have hvisit := h.standsIn.visit_eq _ _ [] h.height_le_size
  exact hvisit.trans (List.nil_append _)

theorem displayText_ofTrees (trees : List Tree) :
    (ofTrees trees).displayText rootId = Tree.allShown trees := by
  obtain ⟨ps, rfl, h⟩ := holds_ofTrees trees
  rw [h.displayText_eq, Site.placed, Placed.tree, Placed.trees_eq_map, Shell.tree, Tree.shown]

end Document

/-- What a reader sees of a parsed text. -/
theorem displayText_parseWith (options : ScanOptions) (text : List Char) :
    (parseWith options text).document.displayText Document.rootId =
      Tree.allShown ((pairUp (scan options text).pieces).map Item.tree) := by
  rw [document_parseWith, Document.displayText_ofTrees, Tree.allShown_merge]

theorem displayText_parse (text : List Char) : (parse text).document.displayText Document.rootId =
    Tree.allShown ((pairUp (scan {} text).pieces).map Item.tree) :=
  displayText_parseWith {} text

end InlineMarkup
