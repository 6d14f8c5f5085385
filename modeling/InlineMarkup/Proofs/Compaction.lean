import InlineMarkup.Proofs.Walks

/-! Compaction: a copy keeps what a document says and nothing else, so that it is the same for all
documents that say the same. -/

namespace InlineMarkup

/-- What a node is, but for its children. -/
structure Label where
  kind : NodeKind
  url : Option (List Char)
  fence : Option Nat
  content : List Char
deriving DecidableEq, Repr

def Node.fence? : Node → Option Nat
  | code fence _ => some fence
  | root _ | styled _ _ | link _ _ | image _ | text _ => none

namespace Tree

mutual

/-- The labels of a tree's nodes, each before those of its children. -/
def labels : Tree → List Label
  | root children => ⟨.root, none, none, []⟩ :: allLabels children
  | styled style children => ⟨.styled style, none, none, []⟩ :: allLabels children
  | code fence content => [⟨.code, none, some fence, content⟩]
  | link url children => ⟨.link, some url, none, []⟩ :: allLabels children
  | image url children => ⟨.image, some url, none, []⟩ :: allLabels children
  | text content => [⟨.text, none, none, content⟩]

def allLabels : List Tree → List Label
  | [] => []
  | tree :: trees => labels tree ++ allLabels trees

end

end Tree

namespace Document

variable {doc : Document} {id : NodeId} {node : Node}

def label? (doc : Document) (id : NodeId) : Option Label :=
  (doc.node? id).map fun node => ⟨node.kind, doc.url? id, node.fence?, node.visible⟩

/-- A node, after the link that it wraps if it is an image. -/
def withLink (doc : Document) (id : NodeId) : List NodeId :=
  match doc.node? id with
  | some (.image inner) => [inner, id]
  | _ => [id]

/-- The tree of a node, where `below` gives that of each child. -/
def unfoldBy (doc : Document) (below : NodeId → Tree) : Node → Tree
  | .root children => .root (children.toList.map below)
  | .styled style children => .styled style (children.toList.map below)
  | .code fence content => .code fence content
  | .link url children => .link url (children.toList.map below)
  | .image inner =>
    match doc.node? inner with
    | some (.link url children) => .image url (children.toList.map below)
    | _ => .image [] []
  | .text content => .text content

/-- Whether the first node is a root, as it is from the start in every document, and all is well below
it. -/
structure Acyclic (doc : Document) : Prop where
  root : ∃ children, doc.node? rootId = some (.root children)
  grounded : doc.Grounded rootId

theorem url?_of_leaf (h : doc.node? id = some node) (hleaf : node.kind = .text ∨ node.kind = .code) :
    doc.url? id = none := by
  rw [url?, host_of_leaf h hleaf, h]
  cases node <;> simp_all [Node.kind]

theorem copyStep_node {children : List NodeId} (hnode : doc.node? id = some node)
    (hchildren : doc.children? id = some children) (copy : Document) (parent : NodeId)
    (pending : List (NodeId × NodeId)) :
    doc.copyStep (copy, (id, parent) :: pending) = some (.inl ((doc.copyNode copy parent node).1,
      children.map (·, (doc.copyNode copy parent node).2) ++ pending)) := by
  rw [copyStep, hnode, hchildren]
  rfl

/-- The tree of an acyclic document stands at its root. -/
theorem Acyclic.exists_placed (h : doc.Acyclic) : ∃ ps : List Placed,
    (Placed.container rootId .root ps).StandsIn doc ∧
      (Placed.container rootId .root ps).height ≤ doc.size := by
  obtain ⟨children, hroot⟩ := h.root
  obtain ⟨p, hid, hp, hheight⟩ := h.grounded.exists_placed
  cases p with
  | text id content | code id fence content =>
    obtain rfl : id = rootId := hid
    cases hroot.symm.trans hp
  | container id shell ps =>
    obtain rfl : id = rootId := hid
    cases shell with
    | root => exact ⟨ps, hp, hheight⟩
    | styled style => cases hroot.symm.trans hp.1
    | link url => cases hroot.symm.trans hp.1
    | image inner url => cases hroot.symm.trans hp.1.1

end Document

namespace Placed

variable {doc : Document} {p : Placed}

theorem StandsIn.tree_eq (h : p.StandsIn doc) (hheight : p.height ≤ doc.size) :
    doc.tree p.id = p.tree :=
  h.treeWithin_eq p doc.size hheight

theorem AllStandIn.map_tree_eq {ps : List Placed} (h : AllStandIn doc ps)
    (hheight : allHeight ps ≤ doc.size) : (ps.map Placed.id).map doc.tree = ps.map tree :=
  h.map_treeWithin_eq ps doc.size hheight

theorem StandsIn.tree_rec (h : p.StandsIn doc) (hheight : p.height ≤ doc.size) {node : Node}
    (hnode : doc.node? p.id = some node) : doc.tree p.id = doc.unfoldBy doc.tree node := by
  rw [h.tree_eq hheight]
  cases p with
  | text id content | code id fence content =>
    obtain rfl := Option.some.inj (Eq.trans (Eq.symm h) hnode)
    rfl
  | container id shell children =>
    obtain ⟨hs, hc⟩ := h
    have hchildren := hc.map_tree_eq (by simp only [height] at hheight; omega)
    rw [tree, trees_eq_map, ← hchildren]
    cases shell with
    | image inner url =>
      obtain rfl := Option.some.inj (Eq.trans (Eq.symm hs.1) hnode)
      rw [Document.unfoldBy, hs.2, Shell.tree]
    | root | styled | link =>
      obtain rfl := Option.some.inj (Eq.trans (Eq.symm hs) hnode)
      rfl

mutual

theorem StandsIn.labels_eq : ∀ p : Placed, p.StandsIn doc →
    p.preorder.map doc.label? = p.tree.labels.map some
  | text id content, h | code id fence content, h => by
    have hurl : doc.url? id = none := Document.url?_of_leaf h (by simp [Node.kind])
    have h : doc.node? id = _ := h
    simp [preorder, Document.label?, h, hurl, Node.kind, Node.fence?, Node.visible, tree, Tree.labels]
  | container id shell children, ⟨hs, hc⟩ => by
    have hlabels := AllStandIn.labels_eq children hc
    have hhost := hs.host_eq
    cases shell with
    | image inner url =>
      simp [preorder, Document.label?, hs.1, Document.url?, hhost, Shell.host, hs.2, Node.kind,
        Node.fence?, Node.visible, tree, Shell.tree, Tree.labels, hlabels]
    | root | styled | link =>
      have h : doc.node? id = _ := hs
      simp [preorder, Document.label?, Document.url?, hhost, Shell.host, h, Node.kind, Node.fence?,
        Node.visible, tree, Shell.tree, Tree.labels, hlabels]

theorem AllStandIn.labels_eq : ∀ ps : List Placed, AllStandIn doc ps →
    (allPreorder ps).map doc.label? = (Tree.allLabels (ps.map tree)).map some
  | [], _ => rfl
  | p :: ps, ⟨hp, hps⟩ => by
    rw [allPreorder, List.map_append, StandsIn.labels_eq p hp, AllStandIn.labels_eq ps hps, List.map_cons,
      Tree.allLabels, List.map_append]

end

mutual

theorem StandsIn.order_eq : ∀ p : Placed, p.StandsIn doc → p.order = p.preorder.flatMap doc.withLink
  | text id content, h | code id fence content, h => by
    have h : doc.node? id = _ := h
    simp [order, preorder, Document.withLink, h]
  | container id shell children, ⟨hs, hc⟩ => by
    have horder := AllStandIn.order_eq children hc
    cases shell with
    | image inner url => simp [order, preorder, Shell.order, Document.withLink, hs.1, horder]
    | root | styled | link =>
      have h : doc.node? id = _ := hs
      simp [order, preorder, Shell.order, Document.withLink, h, horder]

theorem AllStandIn.order_eq : ∀ ps : List Placed, AllStandIn doc ps →
    allOrder ps = (allPreorder ps).flatMap doc.withLink
  | [], _ => rfl
  | p :: ps, ⟨hp, hps⟩ => by
    rw [allOrder, allPreorder, List.flatMap_append, StandsIn.order_eq p hp, AllStandIn.order_eq ps hps]

end

mutual

/-- Copying a tree leaves what is pending after it. -/
theorem StandsIn.leads_copy : ∀ p : Placed, p.StandsIn doc → ∀ copy parent pending,
    Leads doc.copyStep (copy, (p.id, parent) :: pending) (copy.addTree parent p.tree, pending)
  | text id content, h, copy, parent, pending | code id fence content, h, copy, parent, pending => by
    have hchildren : doc.children? id = some [] := Document.children?_of_leaf h (by simp [Node.kind])
    exact .single (Document.copyStep_node h hchildren copy parent pending)
  | container id shell children, ⟨hs, hc⟩, copy, parent, pending => by
    have hcopy := AllStandIn.leads_copy children hc
    have hchildren := Document.children?_of_shell hs
    rw [Placed.id, tree, trees_eq_map]
    cases shell with
    | image inner url =>
      have hurl : doc.url? inner = some url := by
        have hlink : (Shell.link url).StandsIn doc inner (children.map Placed.id) := hs.2
        rw [Document.url?, hlink.host_eq, Shell.host, hs.2]
      have hstep := Document.copyStep_node hs.1 hchildren copy parent pending
      rw [Document.copyNode, hurl] at hstep
      exact .head hstep (hcopy _ _ pending)
    | root | styled | link =>
      exact .head (Document.copyStep_node hs hchildren copy parent pending) (hcopy _ _ pending)

theorem AllStandIn.leads_copy : ∀ ps : List Placed, AllStandIn doc ps → ∀ copy parent pending,
    Leads doc.copyStep (copy, (ps.map Placed.id).map (·, parent) ++ pending)
      (copy.addTrees parent (ps.map tree), pending)
  | [], _, _, _, _ => .refl
  | p :: ps, ⟨hp, hps⟩, copy, parent, pending => by
    have hfirst := StandsIn.leads_copy p hp copy parent ((ps.map Placed.id).map (·, parent) ++ pending)
    have hrest := AllStandIn.leads_copy ps hps (copy.addTree parent p.tree) parent pending
    exact hfirst.trans hrest

end

end Placed

namespace Document

variable {doc : Document}

/-- Whether `copy` says what `doc` says. -/
structure ReadsAs (copy doc : Document) : Prop where
  markdown : copy.markdown rootId = doc.markdown rootId
  displayText : copy.displayText rootId = doc.displayText rootId
  textLength : copy.textLength rootId = doc.textLength rootId
  labels : (copy.descendants rootId).map copy.label? = (doc.descendants rootId).map doc.label?

/-- Whether a document has no node but those of its tree, in the order of the text, and is a copy of
itself. -/
structure Compacted (doc : Document) : Prop where
  acyclic : doc.Acyclic
  reaches : ∀ id < doc.size, doc.Reaches rootId id
  owner : ∀ id < doc.size, doc.namedNodes.count id = if id = rootId then 0 else 1
  inOrder : (doc.descendants rootId).flatMap doc.withLink = List.range doc.size
  again : EndsWith doc.walkCopy? doc

theorem Acyclic.walkCopy?_endsWith (h : doc.Acyclic) : EndsWith doc.walkCopy? doc.compact := by
  obtain ⟨ps, hp, hheight⟩ := h.exists_placed
  have hchildren : doc.children? rootId = some (ps.map Placed.id) := children?_of_shell hp.1
  have htree : doc.tree rootId = .root (ps.map Placed.tree) := by
    rw [← Placed.trees_eq_map]
    exact hp.tree_eq hheight
  have hcopy := hp.2.leads_copy ps empty rootId []
  rw [List.append_nil] at hcopy
  obtain ⟨limit, hrun⟩ := hcopy.endsWith rfl
  refine ⟨limit, fun steps hsteps => ?_⟩
  rw [walkCopy?, hchildren, compact, htree]
  exact hrun steps hsteps

/-- What an acyclic document says is what its tree says. -/
theorem Acyclic.reads (h : doc.Acyclic) :
    doc.markdown rootId = Mark.writtenAll (doc.tree rootId).marks ∧
    doc.displayText rootId = (doc.tree rootId).shown ∧
    (doc.descendants rootId).map doc.label? = (doc.tree rootId).labels.map some := by
  obtain ⟨ps, hp, hheight⟩ := h.exists_placed
  have htree := hp.tree_eq hheight
  have hmarkdown := hp.markdown_eq hheight
  have hshown := hp.displayText_eq hheight
  have hlabels := hp.labels_eq
  rw [← htree] at hmarkdown hshown hlabels
  rw [← hp.descendants_eq hheight] at hlabels
  exact ⟨hmarkdown, hshown, hlabels⟩

theorem Acyclic.readsAs {copy : Document} (h : doc.Acyclic) (hcopy : copy.Acyclic)
    (htree : copy.tree rootId = doc.tree rootId) : copy.ReadsAs doc := by
  obtain ⟨hmarkdown, hshown, hlabels⟩ := h.reads
  rw [← htree] at hmarkdown hshown hlabels
  obtain ⟨hmarkdown', hshown', hlabels'⟩ := hcopy.reads
  have htext := hshown'.trans hshown.symm
  exact ⟨hmarkdown'.trans hmarkdown.symm, htext, congrArg List.length htext, hlabels'.trans hlabels.symm⟩

theorem compacted_ofTrees (trees : List Tree) : (ofTrees trees).Compacted := by
  obtain ⟨ps, hps, horder, hholds⟩ := exists_order_ofTrees trees
  have hstands : (Placed.container rootId .root ps).StandsIn (ofTrees trees) := hholds.standsIn
  have hheight : (Placed.container rootId .root ps).height ≤ (ofTrees trees).size := hholds.height_le_size
  have hacyclic : (ofTrees trees).Acyclic := ⟨⟨_, hstands.1⟩, Placed.StandsIn.grounded _ hstands⟩
  refine ⟨hacyclic, fun id => reaches_ofTrees trees, fun id hid => ?_, ?_, ?_⟩
  · have hcount := count_namedNodes_ofTrees trees id
    rw [List.count_eq_one_of_mem List.nodup_range (List.mem_range.2 hid)] at hcount
    split
    · subst id
      rw [List.count_singleton_self] at hcount
      omega
    · rw [List.count_singleton, if_neg (by simpa using Ne.symm ‹_›)] at hcount
      omega
  · have hdescendants : (ofTrees trees).descendants rootId = _ := hstands.descendants_eq hheight
    rw [hdescendants, ← hstands.order_eq, horder]
  · have hagain := hacyclic.walkCopy?_endsWith
    rwa [compact, tree_ofTrees, Tree.children] at hagain

theorem Acyclic.tree_compact (h : doc.Acyclic) : doc.compact.tree rootId = doc.tree rootId := by
  obtain ⟨ps, hp, hheight⟩ := h.exists_placed
  have htree : doc.tree rootId = .root (Placed.trees ps) := hp.tree_eq hheight
  rw [compact, tree_ofTrees, htree, Tree.children]

/-- Copying a document comes to an end, and gives one that says the same and has nothing to spare, and the
same one for all that unfold to the same tree. -/
theorem Acyclic.walkCopy?_canonical (h : doc.Acyclic) : ∃ copy, EndsWith doc.walkCopy? copy ∧
    copy.ReadsAs doc ∧ copy.Compacted ∧
    (∀ id, doc.Above rootId id → ∃ node, doc.node? id = some node ∧
      doc.tree id = doc.unfoldBy doc.tree node) ∧
    ∀ other otherCopy : Document, other.Acyclic → EndsWith other.walkCopy? otherCopy →
      (otherCopy = copy ↔ other.tree rootId = doc.tree rootId) := by
  have hcompacted : doc.compact.Compacted := compacted_ofTrees _
  refine ⟨doc.compact, h.walkCopy?_endsWith, h.readsAs hcompacted.acyclic h.tree_compact, hcompacted,
    fun id habove => ?_, fun other otherCopy hother hends => ?_⟩
  · have hground := h.grounded.of_above habove
    obtain ⟨node, hnode⟩ := hground.exists_node?
    obtain ⟨p, rfl, hp, hheight⟩ := hground.exists_placed
    exact ⟨node, hnode, hp.tree_rec hheight hnode⟩
  · obtain rfl := hends.unique hother.walkCopy?_endsWith
    constructor
    · intro hcompact
      rw [← hother.tree_compact, hcompact, h.tree_compact]
    · intro htree
      rw [compact, htree, compact]

theorem walkCopy?_canonical_sharing : sharing.Acyclic ∧ ∃ copy, EndsWith sharing.walkCopy? copy ∧
    copy.ReadsAs sharing ∧ copy.Compacted ∧ copy ≠ sharing := by
  have hacyclic : sharing.Acyclic := ⟨⟨_, rfl⟩, grounded_sharing⟩
  obtain ⟨copy, hends, hreads, hcompacted, -, -⟩ := hacyclic.walkCopy?_canonical
  refine ⟨hacyclic, copy, hends, hreads, hcompacted, ?_⟩
  rintro rfl
  -- the last node hangs nowhere
  have howner := hcompacted.owner 5 (by decide)
  exact absurd howner (by decide)

end Document

end InlineMarkup
