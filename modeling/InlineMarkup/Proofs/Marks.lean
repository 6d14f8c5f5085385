import InlineMarkup.Proofs.Building
import Mathlib.Data.List.Perm.Subperm

/-! Marks: canonical markdown piece by piece, and what a document says as its trees say it. -/

namespace InlineMarkup

/-- A piece of canonical markdown. -/
inductive Mark
  | delimiter (style : Style)
  | linkStart
  | imageStart
  /-- The end of a link or image. -/
  | address (url : List Char)
  | code (fence : Nat) (content : List Char)
  | text (content : List Char)
deriving DecidableEq, Repr

namespace Mark

def written : Mark → List Char
  | delimiter style => style.delimiter
  | linkStart => ['[']
  | imageStart => ['!', '[']
  | address url => [']', '('] ++ url ++ [')']
  | code fence content => Markdown.fenced fence content
  | text content => Markdown.escape content

def writtenAll (marks : List Mark) : List Char := marks.flatMap written

@[simp] theorem writtenAll_nil : writtenAll [] = [] := rfl

@[simp] theorem writtenAll_cons (mark : Mark) (marks : List Mark) :
    writtenAll (mark :: marks) = mark.written ++ writtenAll marks := List.flatMap_cons

@[simp] theorem writtenAll_append (marks more : List Mark) :
    writtenAll (marks ++ more) = writtenAll marks ++ writtenAll more := List.flatMap_append

end Mark

namespace Tree

mutual

/-- The pieces of a tree's markdown. -/
def marks : Tree → List Mark
  | root children => allMarks children
  | styled style children => .delimiter style :: allMarks children ++ [.delimiter style]
  | code fence content => [.code fence content]
  | link url children => .linkStart :: allMarks children ++ [.address url]
  | image url children => .imageStart :: allMarks children ++ [.address url]
  | text content => [.text content]

def allMarks : List Tree → List Mark
  | [] => []
  | tree :: trees => marks tree ++ allMarks trees

end

theorem allMarks_append (ts us : List Tree) : allMarks (ts ++ us) = allMarks ts ++ allMarks us := by
  induction ts with
  | nil => rfl
  | cons tree ts ih => rw [List.cons_append, allMarks, ih, allMarks, List.append_assoc]

end Tree

namespace Placed

variable {doc : Document}

mutual

/-- The number of nodes on the longest way down, the link that an image wraps counted too. -/
def height : Placed → Nat
  | text _ _ | code _ _ _ => 1
  | container id shell children => (shell.places id).length + allHeight children

def allHeight : List Placed → Nat
  | [] => 0
  | p :: ps => max (height p) (allHeight ps)

end

mutual

theorem height_le_length_places : ∀ p : Placed, p.height ≤ p.places.length
  | text _ _ | code _ _ _ => Nat.le_refl 1
  | container id shell children => by
    have := allHeight_le_length_allPlaces children
    simp only [height, places, List.length_append]
    omega

theorem allHeight_le_length_allPlaces : ∀ ps : List Placed, allHeight ps ≤ (allPlaces ps).length
  | [] => Nat.le_refl 0
  | p :: ps => by
    have := height_le_length_places p
    have := allHeight_le_length_allPlaces ps
    simp only [allHeight, allPlaces, List.length_append]
    omega

end

mutual

theorem StandsIn.treeWithin_eq : ∀ p : Placed, p.StandsIn doc → ∀ levels, p.height ≤ levels →
    doc.treeWithin levels p.id = p.tree
  | text id content, h, levels, hl | code id fence content, h, levels, hl => by
    obtain ⟨n, rfl⟩ : ∃ n, levels = n + 1 := ⟨levels - 1, by simp only [height] at hl; omega⟩
    have h : doc.node? id = _ := h
    simp [Document.treeWithin, Placed.id, h, tree]
  | container id shell children, ⟨hs, hc⟩, levels, hl => by
    have hpos := List.length_pos_of_mem (shell.mem_places_self id)
    obtain ⟨n, rfl⟩ : ∃ n, levels = n + 1 := ⟨levels - 1, by simp only [height] at hl; omega⟩
    have hchildren : (doc.children id).toList.map (doc.treeWithin n) = children.map tree := by
      rw [hs.children_eq]
      exact AllStandIn.map_treeWithin_eq children hc n (by simp only [height] at hl; omega)
    cases shell with
    | image inner url =>
      have hurl : doc.url? id = some url := by
        rw [Document.url?, hs.host_eq]
        simp [Shell.host, hs.2]
      simp [Document.treeWithin, Placed.id, hs.1, tree, Shell.tree, hchildren, hurl]
    | root | styled | link =>
      have h : doc.node? id = _ := hs
      simp [Document.treeWithin, Placed.id, h, tree, Shell.tree, hchildren]

theorem AllStandIn.map_treeWithin_eq : ∀ ps : List Placed, AllStandIn doc ps →
    ∀ levels, allHeight ps ≤ levels →
    (ps.map Placed.id).map (doc.treeWithin levels) = ps.map tree
  | [], _, _, _ => rfl
  | p :: ps, ⟨hp, hps⟩, levels, hl => by
    simp only [allHeight] at hl
    rw [List.map_cons, List.map_cons, StandsIn.treeWithin_eq p hp levels (by omega),
      AllStandIn.map_treeWithin_eq ps hps levels (by omega), List.map_cons]

end

mutual

theorem StandsIn.write_eq : ∀ p : Placed, p.StandsIn doc → ∀ levels out, p.height ≤ levels →
    (doc.write levels out p.id).reverse.flatten =
      out.reverse.flatten ++ Mark.writtenAll p.tree.marks
  | text id content, h, levels, out, hl | code id fence content, h, levels, out, hl => by
    obtain ⟨n, rfl⟩ : ∃ n, levels = n + 1 := ⟨levels - 1, by simp only [height] at hl; omega⟩
    have h : doc.node? id = _ := h
    simp [Document.write, Placed.id, h, tree, Tree.marks, Mark.written]
  | container id shell children, ⟨hs, hc⟩, levels, out, hl => by
    have hwrite := fun n out hn => AllStandIn.write_eq children hc n out hn
    cases shell with
    | image inner url =>
      simp only [height, Shell.places, List.length_cons, List.length_nil] at hl
      obtain ⟨n, rfl⟩ : ∃ n, levels = n + 2 := ⟨levels - 2, by omega⟩
      simp [Document.write, Placed.id, hs.1, hs.2, tree, Shell.tree, Tree.marks, Mark.written,
        hwrite n _ (by omega)]
    | root | styled | link =>
      simp only [height, Shell.places, List.length_singleton] at hl
      obtain ⟨n, rfl⟩ : ∃ n, levels = n + 1 := ⟨levels - 1, by omega⟩
      have h : doc.node? id = _ := hs
      simp [Document.write, Placed.id, h, tree, Shell.tree, Tree.marks, Mark.written,
        hwrite n _ (by omega)]

theorem AllStandIn.write_eq : ∀ ps : List Placed, AllStandIn doc ps →
    ∀ levels out, allHeight ps ≤ levels →
    ((ps.map Placed.id).foldl (doc.write levels) out).reverse.flatten =
      out.reverse.flatten ++ Mark.writtenAll (Tree.allMarks (ps.map tree))
  | [], _, _, _, _ => by simp [Tree.allMarks]
  | p :: ps, ⟨hp, hps⟩, levels, out, hl => by
    simp only [allHeight] at hl
    rw [List.map_cons, List.foldl_cons, AllStandIn.write_eq ps hps levels _ (by omega),
      StandsIn.write_eq p hp levels out (by omega), List.map_cons, Tree.allMarks,
      Mark.writtenAll_append, List.append_assoc]

end

end Placed

namespace Document

variable {doc : Document} {site : Site} {sites : List Site}

/-- Places none of which is taken twice are no more than the nodes of the document. -/
theorem Holds.height_le_size (h : doc.Holds [] [site]) : site.placed.height ≤ doc.size := by
  have hnodup := h.nodup
  rw [List.flatMap_singleton] at hnodup
  have hsubset : site.places ⊆ List.range doc.size := fun j hj =>
    List.mem_range.2 (h.lt_size (by simpa using hj))
  calc site.placed.height ≤ site.places.length := Placed.height_le_length_places site.placed
    _ ≤ (List.range doc.size).length := (List.subperm_of_subset hnodup hsubset).length_le
    _ = doc.size := List.length_range

theorem Holds.standsIn (h : doc.Holds [] [site]) : site.placed.StandsIn doc := by
  have hsite := h.nest.1
  simp only [Site.StandsIn, List.append_nil] at hsite
  exact hsite

theorem Holds.tree_eq (h : doc.Holds [] [site]) : doc.tree site.id = site.placed.tree :=
  h.standsIn.treeWithin_eq _ _ h.height_le_size

theorem Holds.markdown_eq (h : doc.Holds [] [site]) :
    doc.markdown site.id = Mark.writtenAll site.placed.tree.marks := by
  have hwrite := h.standsIn.write_eq _ _ [] h.height_le_size
  exact hwrite.trans (List.nil_append _)

/-- A container that is given its children and closed is one more tree in the one around it. Its places
are the next ones. -/
theorem Holds.fill {id : NodeId} {shell : Shell} {children : List Tree} {n n' n'' : Nat}
    (hself : List.range n ++ shell.order id = List.range n')
    (h : ∃ ps : List Placed, ps.map Placed.tree = children ∧
      List.range n' ++ Placed.allOrder ps = List.range n'' ∧
      doc.Holds [] (⟨id, shell, [] ++ ps⟩ :: site :: sites)) :
    ∃ p : Placed, p.tree = shell.tree children ∧ List.range n ++ p.order = List.range n'' ∧
      doc.Holds [] ({ site with children := site.children ++ [p] } :: sites) := by
  obtain ⟨ps, rfl, hps, hfill⟩ := h
  refine ⟨.container id shell ps, by rw [Placed.tree, Placed.trees_eq_map], ?_, hfill.close⟩
  rw [Placed.order, ← List.append_assoc, hself, hps]

/-- One node more. -/
theorem range_append_size_add (doc : Document) (parent : NodeId) (node : Node) :
    List.range doc.size ++ [doc.size] = List.range (doc.add parent node).1.size := by
  rw [size_add, List.range_succ]

theorem range_append_size_addImage (doc : Document) (parent : NodeId) (url : List Char) :
    List.range doc.size ++ [doc.size, doc.size + 1] = List.range (doc.addImage parent url).1.size := by
  rw [size_addImage, List.range_succ, List.range_succ, List.append_assoc, List.singleton_append]

mutual

theorem Holds.addTree : ∀ (tree : Tree) {doc : Document} {site : Site} {sites : List Site},
    doc.Holds [] (site :: sites) → ∃ p : Placed, p.tree = tree ∧
      List.range doc.size ++ p.order = List.range (doc.addTree site.id tree).size ∧
      (doc.addTree site.id tree).Holds [] ({ site with children := site.children ++ [p] } :: sites)
  | .text content, doc, site, _, h =>
    ⟨.text doc.size content, rfl, doc.range_append_size_add site.id _, h.addText content⟩
  | .code fence content, doc, site, _, h =>
    ⟨.code doc.size fence content, rfl, doc.range_append_size_add site.id _, h.addCode fence content⟩
  | .root children, doc, site, _, h =>
    Holds.fill (doc.range_append_size_add site.id _)
      (Holds.addTrees children (h.addShell (.root #[]) .root (fun _ => rfl) fun _ _ hn => hn))
  | .styled style children, doc, site, _, h =>
    Holds.fill (doc.range_append_size_add site.id _) (Holds.addTrees children
      (h.addShell (.styled style #[]) (.styled style) (fun _ => rfl) fun _ _ hn => hn))
  | .link url children, doc, site, _, h =>
    Holds.fill (doc.range_append_size_add site.id _) (Holds.addTrees children
      (h.addShell (.link url #[]) (.link url) (fun _ => rfl) fun _ _ hn => hn))
  | .image url children, doc, site, _, h => by
    have hid : (doc.addImage site.id url).2 = doc.size + 1 := size_store ..
    have hopen := h.addImage url
    rw [← hid] at hopen
    refine Holds.fill ?_ (Holds.addTrees children hopen)
    rw [hid]
    exact doc.range_append_size_addImage site.id url

theorem Holds.addTrees : ∀ (trees : List Tree) {doc : Document} {site : Site} {sites : List Site},
    doc.Holds [] (site :: sites) → ∃ ps : List Placed, ps.map Placed.tree = trees ∧
      List.range doc.size ++ Placed.allOrder ps = List.range (doc.addTrees site.id trees).size ∧
      (doc.addTrees site.id trees).Holds []
        ({ site with children := site.children ++ ps } :: sites)
  | [], doc, site, sites, h =>
    ⟨[], rfl, List.append_nil _, by simpa [Document.addTrees] using h⟩
  | tree :: trees, doc, site, sites, h => by
    obtain ⟨p, htree, horder, hadd⟩ := Holds.addTree tree h
    obtain ⟨ps, htrees, horders, hadds⟩ := Holds.addTrees trees hadd
    refine ⟨p :: ps, by rw [List.map_cons, htree, htrees], ?_, ?_⟩
    · rw [Placed.allOrder, ← List.append_assoc, horder, horders, Document.addTrees]
    · simpa [Document.addTrees] using hadds

end

/-- A document made of trees holds them, and its nodes are theirs in the order in which they are made. -/
theorem exists_order_ofTrees (trees : List Tree) : ∃ ps : List Placed, ps.map Placed.tree = trees ∧
    (Placed.container rootId .root ps).order = List.range (ofTrees trees).size ∧
    (ofTrees trees).Holds [] [⟨rootId, .root, ps⟩] :=
  Holds.addTrees trees holds_empty

theorem holds_ofTrees (trees : List Tree) : ∃ ps : List Placed, ps.map Placed.tree = trees ∧
    (ofTrees trees).Holds [] [⟨rootId, .root, ps⟩] := by
  obtain ⟨ps, hps, -, h⟩ := exists_order_ofTrees trees
  exact ⟨ps, hps, h⟩

theorem tree_ofTrees (trees : List Tree) : (ofTrees trees).tree rootId = .root trees := by
  obtain ⟨ps, rfl, h⟩ := holds_ofTrees trees
  rw [h.tree_eq, Site.placed, Placed.tree, Placed.trees_eq_map, Shell.tree]

theorem markdown_ofTrees (trees : List Tree) :
    (ofTrees trees).markdown rootId = Mark.writtenAll (Tree.allMarks trees) := by
  obtain ⟨ps, rfl, h⟩ := holds_ofTrees trees
  rw [h.markdown_eq, Site.placed, Placed.tree, Placed.trees_eq_map, Shell.tree, Tree.marks]

end Document

end InlineMarkup
