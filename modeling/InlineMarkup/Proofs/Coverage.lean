import InlineMarkup.Proofs.Marks
import InlineMarkup.Proofs.Owners
import Mathlib.Logic.Relation

/-! Coverage: a document made of trees has the nodes of these trees and no others. So every node but the
root has an owner and is reached from the root. -/

namespace InlineMarkup

namespace Tree

mutual

/-- The number of nodes that a document needs for a tree. An image needs one more for its link. -/
def nodeCount : Tree → Nat
  | root children | styled _ children | link _ children => allNodeCount children + 1
  | image _ children => allNodeCount children + 2
  | code _ _ | text _ => 1

def allNodeCount : List Tree → Nat
  | [] => 0
  | tree :: trees => nodeCount tree + allNodeCount trees

end

end Tree

namespace Document

variable {doc : Document} {id parent child : NodeId} {site : Site} {trees : List Tree}

mutual

theorem size_addTree : ∀ (tree : Tree) (doc : Document) (parent : NodeId),
    (doc.addTree parent tree).size = doc.size + tree.nodeCount
  | .text _, doc, parent | .code _ _, doc, parent => size_add ..
  | .root children, doc, parent => by
    have hsize : (doc.addEmpty parent .root).1.size = doc.size + 1 := size_add ..
    rw [addTree, size_addTrees children, Tree.nodeCount]
    omega
  | .styled style children, doc, parent => by
    have hsize : (doc.addEmpty parent (.styled style)).1.size = doc.size + 1 := size_add ..
    rw [addTree, size_addTrees children, Tree.nodeCount]
    omega
  | .link url children, doc, parent => by
    have hsize : (doc.addLink parent url).1.size = doc.size + 1 := size_add ..
    rw [addTree, size_addTrees children, Tree.nodeCount]
    omega
  | .image url children, doc, parent => by
    rw [addTree, size_addTrees children, Tree.nodeCount, size_addImage]
    omega

theorem size_addTrees : ∀ (trees : List Tree) (doc : Document) (parent : NodeId),
    (doc.addTrees parent trees).size = doc.size + Tree.allNodeCount trees
  | [], _, _ => rfl
  | tree :: trees, doc, parent => by
    rw [addTrees, size_addTrees trees, size_addTree tree, Tree.allNodeCount, Nat.add_assoc]

end

theorem size_ofTrees (trees : List Tree) : (ofTrees trees).size = 1 + Tree.allNodeCount trees :=
  size_addTrees trees empty rootId

/-- The nodes that the node at `id` names. -/
def namedAt (doc : Document) (id : NodeId) : List NodeId := ((doc.node? id).map Node.named).getD []

theorem namedNodes_eq_flatMap (doc : Document) :
    doc.namedNodes = (List.range doc.size).flatMap doc.namedAt := by
  rw [namedNodes, List.flatMap_def, List.flatMap_def]
  congr 1
  refine List.ext_getElem (by simp [size]) fun i hi hi' => ?_
  rw [List.length_map, List.length_range] at hi'
  have hnode : doc.node? i = some doc.nodes[i] := Array.getElem?_eq_getElem hi'
  rw [List.getElem_map, List.getElem_map, List.getElem_range, namedAt, hnode]
  rfl

/-- Whether `child` is a child of `parent`. The children of an image are those of its link. -/
def Child (doc : Document) (parent child : NodeId) : Prop := child ∈ doc.children parent

/-- Whether the way down from one node leads to the other, or to an image that wraps it. -/
def Reaches (doc : Document) (start id : NodeId) : Prop :=
  Relation.ReflTransGen doc.Child start id ∨
    ∃ image, Relation.ReflTransGen doc.Child start image ∧ doc.node? image = some (.image id)

theorem Reaches.head (hchild : doc.Child parent child) (h : doc.Reaches child id) :
    doc.Reaches parent id := by
  rcases h with h | ⟨image, h, himage⟩
  · exact .inl (.head hchild h)
  · exact .inr ⟨image, .head hchild h, himage⟩

end Document

namespace Placed

variable {doc : Document}

mutual

theorem length_places : ∀ p : Placed, p.places.length = p.tree.nodeCount
  | text _ _ | code _ _ _ => rfl
  | container id shell children => by
    have hchildren := length_allPlaces children
    cases shell <;>
      simp only [places, Shell.places, tree, trees_eq_map, Shell.tree, Tree.nodeCount, List.length_append,
        List.length_cons, List.length_nil, hchildren] <;> omega

theorem length_allPlaces : ∀ ps : List Placed,
    (allPlaces ps).length = Tree.allNodeCount (ps.map tree)
  | [] => rfl
  | p :: ps => by
    rw [allPlaces, List.length_append, length_places p, length_allPlaces ps, List.map_cons,
      Tree.allNodeCount]

end

mutual

/-- Each place of a tree is its own or is named at one of its places, once. -/
theorem StandsIn.count_places : ∀ p : Placed, p.StandsIn doc → ∀ j : NodeId,
    [p.id].count j + (p.places.flatMap doc.namedAt).count j = p.places.count j
  | text id content, h, j | code id fence content, h, j => by
    have h : doc.node? id = _ := h
    simp [places, Document.namedAt, h, Placed.id]
  | container id shell children, ⟨hs, hc⟩, j => by
    have hchildren := AllStandIn.count_allPlaces children hc j
    cases shell with
    | image inner url =>
      simp only [places, Shell.places, List.flatMap_append, List.flatMap_cons, List.flatMap_nil,
        Document.namedAt, hs.1, hs.2, Option.map_some, Option.getD_some, Node.named, List.count_append,
        List.count_cons, List.count_nil, Placed.id]
      rw [← hchildren]
      omega
    | root | styled | link =>
      have h : doc.node? id = _ := hs
      simp only [places, Shell.places, List.flatMap_append, List.flatMap_cons, List.flatMap_nil,
        Document.namedAt, h, Option.map_some, Option.getD_some, Node.named, List.count_append,
        List.count_cons, List.count_nil, Placed.id]
      rw [← hchildren]
      omega

theorem AllStandIn.count_allPlaces : ∀ ps : List Placed, AllStandIn doc ps → ∀ j : NodeId,
    (ps.map Placed.id).count j + ((allPlaces ps).flatMap doc.namedAt).count j = (allPlaces ps).count j
  | [], _, _ => rfl
  | p :: ps, ⟨hp, hps⟩, j => by
    have hplaces := StandsIn.count_places p hp j
    have hrest := AllStandIn.count_allPlaces ps hps j
    rw [allPlaces, List.flatMap_append, List.map_cons, ← List.singleton_append, List.count_append,
      List.count_append, List.count_append]
    omega

end

mutual

theorem StandsIn.reaches : ∀ p : Placed, p.StandsIn doc → ∀ j ∈ p.places, doc.Reaches p.id j
  | text id _, _, j, hj | code id _ _, _, j, hj => by
    obtain rfl : j = id := by simpa [places] using hj
    exact .inl .refl
  | container id shell children, ⟨hs, hc⟩, j, hj => by
    rcases List.mem_append.1 hj with hj | hj
    · cases shell with
      | image inner url =>
        obtain rfl | rfl : j = id ∨ j = inner := by simpa [Shell.places] using hj
        · exact .inl .refl
        · exact .inr ⟨id, .refl, hs.1⟩
      | root | styled | link =>
        obtain rfl : j = id := by simpa [Shell.places] using hj
        exact .inl .refl
    · obtain ⟨child, hchild, hreaches⟩ := AllStandIn.exists_reaches children hc j hj
      refine .head ?_ hreaches
      rw [Placed.id, Document.Child, hs.children_eq]
      simpa using hchild

theorem AllStandIn.exists_reaches : ∀ ps : List Placed, AllStandIn doc ps → ∀ j ∈ allPlaces ps,
    ∃ child ∈ ps.map Placed.id, doc.Reaches child j
  | [], _, j, hj => absurd hj (List.not_mem_nil)
  | p :: ps, ⟨hp, hps⟩, j, hj => by
    rcases List.mem_append.1 hj with hj | hj
    · exact ⟨p.id, List.mem_cons_self, StandsIn.reaches p hp j hj⟩
    · obtain ⟨child, hchild, hreaches⟩ := AllStandIn.exists_reaches ps hps j hj
      exact ⟨child, List.mem_cons_of_mem _ hchild, hreaches⟩

end

end Placed

namespace Document

variable {doc : Document} {site : Site} {trees : List Tree}

/-- Where a tree takes as many places as there are nodes, it takes them all. -/
theorem Holds.perm_range (h : doc.Holds [] [site]) (hsize : doc.size = site.placed.places.length) :
    site.placed.places.Perm (List.range doc.size) := by
  have hnodup := h.nodup
  rw [List.flatMap_singleton] at hnodup
  have hsubset : site.placed.places ⊆ List.range doc.size := fun j hj =>
    List.mem_range.2 (h.standsIn.lt_size _ j hj)
  refine (List.subperm_of_subset hnodup hsubset).perm_of_length_le ?_
  rw [List.length_range, hsize]
  exact Nat.le_refl _

theorem exists_perm_range (trees : List Tree) : ∃ ps : List Placed, ps.map Placed.tree = trees ∧
    (Placed.container rootId .root ps).StandsIn (ofTrees trees) ∧
    (Placed.container rootId .root ps).places.Perm (List.range (ofTrees trees).size) := by
  obtain ⟨ps, hps, hholds⟩ := holds_ofTrees trees
  refine ⟨ps, hps, hholds.standsIn, hholds.perm_range ?_⟩
  rw [size_ofTrees, Site.placed, Placed.length_places, Placed.tree, Placed.trees_eq_map, hps, Shell.tree,
    Tree.nodeCount, Nat.add_comm]

/-- Every node but the root has one owner. -/
theorem count_namedNodes_ofTrees (trees : List Tree) (j : NodeId) :
    [rootId].count j + (ofTrees trees).namedNodes.count j =
      (List.range (ofTrees trees).size).count j := by
  obtain ⟨ps, -, hstands, hperm⟩ := exists_perm_range trees
  have hplaces := hstands.count_places _ j
  rw [(hperm.flatMap_right _).count_eq, hperm.count_eq, ← namedNodes_eq_flatMap] at hplaces
  exact hplaces

theorem reaches_ofTrees (trees : List Tree) {j : NodeId} (hj : j < (ofTrees trees).size) :
    (ofTrees trees).Reaches rootId j := by
  obtain ⟨ps, -, hstands, hperm⟩ := exists_perm_range trees
  exact hstands.reaches _ j (hperm.mem_iff.2 (List.mem_range.2 hj))

end Document

end InlineMarkup
