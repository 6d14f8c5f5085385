import InlineMarkup.Proofs.Display
import InlineMarkup.Proofs.Unfolding
import Mathlib.Data.Finset.Card

/-! Forests: documents in which nodes have one owner at most and no way down leads back. Such a way is
shorter than the document has nodes, and so what is read below a node needs no more levels than that. -/

namespace InlineMarkup

theorem Node.children_sublist_named (node : Node) : node.children.toList.Sublist node.named := by
  cases node <;> simp [Node.children]

theorem Tree.allShown_eq_flatMap (ts : List Tree) : Tree.allShown ts = ts.flatMap Tree.shown := by
  induction ts with
  | nil => rfl
  | cons tree ts ih => rw [allShown, ih, List.flatMap_cons]

namespace Document

variable {doc doc' : Document} {rank : NodeId → Nat} {start owner id other child : NodeId}

/-- Whether every node that is named is there, none is named twice, be it as a child or as what an image
wraps, and no way down leads back to where it was. -/
structure Forest (doc : Document) : Prop where
  there : ∀ id child, doc.Names id child → child < doc.size
  nodup : doc.namedNodes.Nodup
  acyclic : ∀ id, ¬Relation.TransGen doc.Names id id

/-! ### Owners -/

theorem lt_size_of_names (h : doc.Names id child) : id < doc.size := by
  refine Nat.lt_of_not_le fun hle => ?_
  have hnode : doc.node? id = none := Array.getElem?_eq_none hle
  rw [Names, namedAt, hnode] at h
  exact absurd h List.not_mem_nil

theorem names_host_of_mem_children (h : child ∈ doc.children id) : doc.Names (doc.host id) child := by
  rw [children] at h
  cases hnode : doc.node? (doc.host id) with
  | none => simp [hnode] at h
  | some node =>
    rw [hnode] at h
    exact (names_iff hnode).2 (node.children_sublist_named.subset (Array.mem_toList_iff.2 h))

theorem above_hostWithin (doc : Document) (levels : Nat) (id : NodeId) :
    doc.Above id (doc.hostWithin levels id) := by
  induction levels generalizing id with
  | zero => exact .refl
  | succ levels ih =>
    rw [hostWithin]
    split
    · rename_i link hnode
      exact .head ((names_iff hnode).2 (List.mem_singleton_self link)) (ih link)
    · exact .refl

/-- A way leads down from every node to its children. -/
theorem transGen_of_mem_children (h : child ∈ doc.children id) :
    Relation.TransGen doc.Names id child :=
  .tail' (above_hostWithin doc doc.size id) (names_host_of_mem_children h)

theorem Forest.owner_eq (h : doc.Forest) (hid : doc.Names id child) (hother : doc.Names other child) :
    id = other := by
  have hnodup := h.nodup
  rw [namedNodes_eq_flatMap, List.nodup_flatMap] at hnodup
  have hsymm : Std.Symm (Function.onFun List.Disjoint doc.namedAt) := ⟨fun _ _ hab => hab.symm⟩
  by_contra hne
  have hdisjoint := hnodup.2.forall (List.mem_range.2 (lt_size_of_names hid))
    (List.mem_range.2 (lt_size_of_names hother)) hne
  exact hdisjoint hid hother

theorem Forest.nodup_children (h : doc.Forest) (id : NodeId) : (doc.children id).toList.Nodup := by
  cases hnode : doc.node? (doc.host id) with
  | none => simp [children, hnode]
  | some node =>
    have hnodup := h.nodup
    rw [namedNodes_eq_flatMap, List.nodup_flatMap] at hnodup
    have hnamed := hnodup.1 _ (List.mem_range.2 (lt_size_of_node? hnode))
    rw [namedAt, hnode] at hnamed
    rw [children, hnode]
    exact node.children_sublist_named.nodup hnamed

theorem Forest.lt_size_of_above (h : doc.Forest) (hstart : start < doc.size)
    (habove : doc.Above start id) : id < doc.size := by
  rcases habove.cases_tail with heq | ⟨owner, -, hnames⟩
  · exact heq ▸ hstart
  · exact h.there owner id hnames

/-- The way down to a node goes through its owner. -/
theorem Forest.eq_or_above_owner (h : doc.Forest) (habove : doc.Above start child)
    (howner : doc.Names owner child) : start = child ∨ doc.Above start owner := by
  rcases habove.cases_tail with heq | ⟨id, habove, hnames⟩
  · exact .inl heq.symm
  · exact .inr (h.owner_eq hnames howner ▸ habove)

/-- Of two nodes above the same one, one is above the other. -/
theorem Forest.above_or_above (h : doc.Forest) (hid : doc.Above id child)
    (hother : doc.Above other child) : doc.Above id other ∨ doc.Above other id := by
  induction hid with
  | refl => exact .inr hother
  | @tail owner child hid hnames ih =>
    rcases h.eq_or_above_owner hother hnames with rfl | hother
    · exact .inl (hid.tail hnames)
    · exact ih hother

/-! ### Ranks -/

/-- Whether nodes rank above those that they name, none of them higher than there are nodes. -/
structure Ranking (doc : Document) (rank : NodeId → Nat) : Prop where
  lt_of_names : ∀ {id child}, doc.Names id child → rank child < rank id
  le_size : ∀ id, rank id ≤ doc.size
  lt_size : ∀ {id}, id < doc.size → rank id < doc.size

/-- Where nodes can be ranked, no way down leads back. -/
theorem forest_of_rank (rank : NodeId → Nat)
    (hnames : ∀ id < doc.size, ∀ child ∈ doc.namedAt id, child < doc.size ∧ rank child < rank id)
    (hnodup : doc.namedNodes.Nodup) : doc.Forest := by
  refine ⟨fun id child h => (hnames id (lt_size_of_names h) child h).1, hnodup, fun id hback => ?_⟩
  have hlt {j : NodeId} (hbelow : Relation.TransGen doc.Names id j) : rank j < rank id := by
    induction hbelow with
    | single h => exact (hnames _ (lt_size_of_names h) _ h).2
    | tail _ h ih => exact (hnames _ (lt_size_of_names h) _ h).2.trans ih
  exact Nat.lt_irrefl _ (hlt hback)

open Classical in
/-- In a forest every node ranks by the number of nodes below it. -/
theorem Forest.exists_ranking (h : doc.Forest) : ∃ rank, doc.Ranking rank := by
  have hle (id : NodeId) : ((Finset.range doc.size).filter (Relation.TransGen doc.Names id)).card ≤
      doc.size := by
    simpa using Finset.card_filter_le (Finset.range doc.size) (Relation.TransGen doc.Names id)
  refine ⟨fun id => ((Finset.range doc.size).filter (Relation.TransGen doc.Names id)).card, ?_, hle, ?_⟩
  · intro id child hnames
    refine Finset.card_lt_card (Finset.ssubset_iff_subset_ne.2 ⟨?_, fun heq => ?_⟩)
    · exact Finset.monotone_filter_right _ fun _ _ hbelow => .head hnames hbelow
    · -- the child is below the node and not below itself
      have hmem := Finset.mem_filter.2
        ⟨Finset.mem_range.2 (h.there id child hnames), Relation.TransGen.single hnames⟩
      rw [← heq, Finset.mem_filter] at hmem
      exact h.acyclic child hmem.2
  · intro id hid
    refine lt_of_le_of_ne (hle id) fun heq => ?_
    have hcard : ((Finset.range doc.size).filter (Relation.TransGen doc.Names id)).card =
        (Finset.range doc.size).card := by rw [heq, Finset.card_range]
    exact h.acyclic id (Finset.card_filter_eq_iff.1 hcard id (Finset.mem_range.2 hid))

namespace Ranking

theorem lt_of_transGen (h : doc.Ranking rank) (hbelow : Relation.TransGen doc.Names id child) :
    rank child < rank id := by
  induction hbelow with
  | single hnames => exact h.lt_of_names hnames
  | tail _ hnames ih => exact (h.lt_of_names hnames).trans ih

theorem lt_of_mem_children (h : doc.Ranking rank) (hchild : child ∈ doc.children id) :
    rank child < rank id :=
  h.lt_of_transGen (transGen_of_mem_children hchild)

/-- More levels than a node ranks find no other host. -/
theorem hostWithin_eq (h : doc.Ranking rank) {levels more : Nat} (hlevels : rank id ≤ levels)
    (hmore : rank id ≤ more) : doc.hostWithin levels id = doc.hostWithin more id := by
  induction levels generalizing id more with
  | zero =>
    cases more with
    | zero => rfl
    | succ more =>
      rw [hostWithin, hostWithin]
      split
      · rename_i link hnode
        have hlt := h.lt_of_names ((names_iff hnode).2 (List.mem_singleton_self link))
        omega
      · rfl
  | succ levels ih =>
    cases more with
    | zero =>
      rw [hostWithin, hostWithin]
      split
      · rename_i link hnode
        have hlt := h.lt_of_names ((names_iff hnode).2 (List.mem_singleton_self link))
        omega
      · rfl
    | succ more =>
      rw [hostWithin, hostWithin]
      split
      · rename_i link hnode
        have hlt := h.lt_of_names ((names_iff hnode).2 (List.mem_singleton_self link))
        exact ih (by omega) (by omega)
      · rfl

/-- More levels than a node ranks find no other tree. -/
theorem treeWithin_eq (h : doc.Ranking rank) {levels more : Nat} (hlevels : rank id < levels)
    (hmore : rank id < more) : doc.treeWithin levels id = doc.treeWithin more id := by
  induction levels generalizing id more with
  | zero => omega
  | succ levels ih =>
    obtain ⟨more, rfl⟩ : ∃ m, more = m + 1 := ⟨more - 1, by omega⟩
    have hchildren : (doc.children id).toList.map (doc.treeWithin levels) =
        (doc.children id).toList.map (doc.treeWithin more) := by
      refine List.map_congr_left fun child hchild => ?_
      have hlt := h.lt_of_mem_children (Array.mem_toList_iff.1 hchild)
      exact ih (by omega) (by omega)
    rw [treeWithin, treeWithin, hchildren]

theorem treeWithin_eq_tree (h : doc.Ranking rank) (hid : id < doc.size) {levels : Nat}
    (hlevels : doc.size ≤ levels) : doc.treeWithin levels id = doc.tree id :=
  h.treeWithin_eq ((h.lt_size hid).trans_le hlevels) (h.lt_size hid)

end Ranking

/-! ### Documents that agree below a node -/

/-- Whether the same nodes are images, of the same nodes. -/
def SameImages (doc' doc : Document) : Prop :=
  ∀ j link, doc'.node? j = some (.image link) ↔ doc.node? j = some (.image link)

theorem SameImages.hostWithin_eq (h : doc'.SameImages doc) (levels : Nat) (id : NodeId) :
    doc'.hostWithin levels id = doc.hostWithin levels id := by
  induction levels generalizing id with
  | zero => rfl
  | succ levels ih =>
    rw [hostWithin, hostWithin]
    split
    · rename_i link hnode
      rw [(h id link).1 hnode]
      exact ih link
    · rename_i hnone
      split
      · rename_i link hnode
        exact absurd ((h id link).2 hnode) (hnone link)
      · rfl

theorem Ranking.host_eq (h : doc.Ranking rank) (hsize : doc.size ≤ doc'.size)
    (himages : doc'.SameImages doc) (id : NodeId) : doc'.host id = doc.host id := by
  rw [host, himages.hostWithin_eq, host]
  exact h.hostWithin_eq ((h.le_size id).trans hsize) (h.le_size id)

/-- A document of which all nodes below one are in another has the same tree there. -/
theorem Ranking.treeWithin_congr (h : doc.Ranking rank) (hsize : doc.size ≤ doc'.size)
    (himages : doc'.SameImages doc)
    (heq : ∀ j, doc.Above id j → doc'.node? j = doc.node? j) (levels : Nat) :
    doc'.treeWithin levels id = doc.treeWithin levels id := by
  induction levels generalizing id with
  | zero => rfl
  | succ levels ih =>
    have hhost := h.host_eq hsize himages id
    have hnode := heq (doc.host id) (above_hostWithin doc doc.size id)
    have hchildren : doc'.children id = doc.children id := by rw [children, hhost, hnode, children]
    have hurl : doc'.url? id = doc.url? id := by rw [url?, hhost, hnode, url?]
    have hbelow : (doc.children id).toList.map (doc'.treeWithin levels) =
        (doc.children id).toList.map (doc.treeWithin levels) := by
      refine List.map_congr_left fun child hchild => ih fun j habove => heq j ?_
      exact (transGen_of_mem_children (Array.mem_toList_iff.1 hchild)).to_reflTransGen.trans habove
    rw [treeWithin, treeWithin, hchildren, hurl, hbelow, heq id .refl]

/-! ### What a reader sees -/

/-- A visit shows what the tree holds that is as deep. -/
theorem seenText_visit (doc : Document) (levels : Nat) (seen : List NodeId) (id : NodeId) :
    doc.seenText (doc.visit levels seen id) =
      doc.seenText seen ++ (doc.treeWithin levels id).shown := by
  induction levels generalizing seen id with
  | zero => exact (List.append_nil _).symm
  | succ levels ih =>
    have hfold (ids : List NodeId) (seen : List NodeId) :
        doc.seenText (ids.foldl (doc.visit levels) seen) =
          doc.seenText seen ++ Tree.allShown (ids.map (doc.treeWithin levels)) := by
      induction ids generalizing seen with
      | nil => exact (List.append_nil _).symm
      | cons child ids ihc =>
        rw [List.foldl_cons, ihc, ih, List.map_cons, Tree.allShown, List.append_assoc]
    rw [visit, ← Array.foldl_toList, hfold, seenText_cons, treeWithin, List.append_assoc]
    cases hnode : doc.node? id with
    | none =>
      have hhost : doc.host id = id := by
        rw [host]
        cases doc.size with
        | zero => rfl
        | succ n => rw [hostWithin, hnode]
      simp [children, hhost, hnode, Tree.allShown, Tree.shown]
    | some node =>
      cases node with
      | text content | code fence content =>
        simp [children_of_leaf hnode (by simp [Node.kind]), Tree.allShown, Tree.shown, Node.visible]
      | root | styled | link | image => simp [Tree.shown, Node.visible]

theorem displayText_eq_shown (doc : Document) (id : NodeId) :
    doc.displayText id = (doc.tree id).shown :=
  (seenText_visit doc doc.size [] id).trans (List.nil_append _)

theorem allShown_map_tree (doc : Document) (ids : List NodeId) :
    Tree.allShown (ids.map doc.tree) = ids.flatMap doc.displayText := by
  rw [Tree.allShown_eq_flatMap, List.flatMap_map]
  exact List.flatMap_congr fun id _ => (displayText_eq_shown doc id).symm

/-- Whether a node is there that is no leaf. -/
def IsContainer (doc : Document) (id : NodeId) : Prop :=
  ∃ node, doc.node? id = some node ∧ node.kind ≠ .text ∧ node.kind ≠ .code

theorem isContainer_of_mem_children (h : child ∈ doc.children id) : doc.IsContainer id := by
  cases hnode : doc.node? id with
  | none =>
    obtain ⟨next, hnames, -⟩ := Relation.TransGen.head'_iff.1 (transGen_of_mem_children h)
    exact absurd (lt_size_of_names hnames) (Nat.not_lt.2 (Array.getElem?_eq_none_iff.1 hnode))
  | some node =>
    refine ⟨node, hnode, fun hkind => ?_, fun hkind => ?_⟩
    · simp [children_of_leaf hnode (.inl hkind)] at h
    · simp [children_of_leaf hnode (.inr hkind)] at h

theorem displayText_of_treeWithin {levels : Nat} (hsize : doc.size = levels + 1)
    (hid : doc.IsContainer id) :
    doc.displayText id = Tree.allShown ((doc.children id).toList.map (doc.treeWithin levels)) := by
  obtain ⟨node, hnode, hkind⟩ := hid
  rw [displayText_eq_shown, tree, hsize, treeWithin, hnode]
  cases node with
  | text | code => simp [Node.kind] at hkind
  | root | styled | link | image => rfl

/-- A container shows what its children show. -/
theorem Ranking.displayText_eq (h : doc.Ranking rank) (hid : doc.IsContainer id) :
    doc.displayText id = (doc.children id).toList.flatMap doc.displayText := by
  have hlt : id < doc.size := hid.elim fun _ hnode => lt_size_of_node? hnode.1
  obtain ⟨levels, hsize⟩ := Nat.exists_eq_succ_of_ne_zero (Nat.ne_zero_of_lt hlt)
  rw [displayText_of_treeWithin hsize hid, ← allShown_map_tree]
  congr 1
  refine List.map_congr_left fun child hchild => ?_
  have hrank := h.lt_of_mem_children (Array.mem_toList_iff.1 hchild)
  have hbound := h.lt_size hlt
  exact h.treeWithin_eq (by omega) (by omega)

theorem isText_tree (doc : Document) (hid : id < doc.size) : (doc.tree id).isText = doc.isText id := by
  obtain ⟨levels, hsize⟩ := Nat.exists_eq_succ_of_ne_zero (Nat.ne_zero_of_lt hid)
  have hnode : doc.node? id = some doc.nodes[id] := Array.getElem?_eq_getElem hid
  rw [tree, hsize, treeWithin, isText, hnode]
  cases doc.nodes[id] <;> rfl

theorem treeWithin_of_text {content : List Char} (hnode : doc.node? id = some (.text content)) {levels : Nat}
    (hlevels : 0 < levels) : doc.treeWithin levels id = .text content := by
  obtain ⟨levels, rfl⟩ := Nat.exists_eq_succ_of_ne_zero hlevels.ne'
  rw [treeWithin, hnode]

end Document

end InlineMarkup
