import InlineMarkup.Proofs.Backticks
import InlineMarkup.Proofs.Marks

/-! Construction: documents that are made node by node are trees. -/

namespace InlineMarkup

namespace Document

/-- The documents that can be made with the means of construction. -/
inductive Built : Document → Prop
  | empty : Built .empty
  | addStyled {doc : Document} (h : Built doc) {parent : Nat} (hparent : parent < doc.size)
      (style : Style) : Built (doc.addEmpty parent (.styled style)).1
  | addLink {doc : Document} (h : Built doc) {parent : Nat} (hparent : parent < doc.size)
      (url : List Char) : Built (doc.addLink parent url).1
  | addImage {doc : Document} (h : Built doc) {parent : Nat} (hparent : parent < doc.size)
      (url : List Char) : Built (doc.addImage parent url).1
  | addCode {doc : Document} (h : Built doc) {parent : Nat} (hparent : parent < doc.size)
      (content : List Char) (block : Bool) : Built (doc.addCode parent content block).1
  | addText {doc : Document} (h : Built doc) {parent : Nat} (hparent : parent < doc.size)
      (content : List Char) : Built (doc.addText parent content).1

/-- The first place that a node takes: an image is made after the link that it wraps. -/
def first (doc : Document) (id : NodeId) : Nat :=
  match doc.node? id with
  | some (.image inner) => inner
  | _ => id

/-- Whether every node stands after the one that holds it, and every image right after its link. -/
structure Ordered (doc : Document) : Prop where
  root : ∃ children, doc.node? rootId = some (.root children)
  image : ∀ {id inner : Nat}, doc.node? id = some (.image inner) → id = inner + 1 ∧
    ∃ url children, doc.node? inner = some (.link url children) ∧
      ∀ child ∈ children, id < doc.first child
  children : ∀ {id : Nat} {node : Node}, doc.node? id = some node →
    ∀ child ∈ node.children, id < doc.first child ∧ child < doc.size
  code : ∀ {id : Nat} {fence : Nat} {content : List Char},
    doc.node? id = some (.code fence content) → fence ≠ 0 ∧ Backtick.closing? fence content = none

variable {doc : Document} {node : Node} {parent child : Nat}

theorem ordered_empty : Ordered .empty := by
  have hnode {id : Nat} {node : Node} (h : Document.empty.node? id = some node) :
      node = .root #[] := by
    obtain ⟨hlt, h⟩ := Array.getElem?_eq_some_iff.1 h
    have hid : id = 0 := Nat.lt_one_iff.1 hlt
    subst hid
    exact h.symm
  refine ⟨⟨_, rfl⟩, fun h => ?_, fun h => ?_, fun h => ?_⟩
  · cases hnode h
  · rw [hnode h]
    simp [Node.children]
  · cases hnode h

theorem first_of_ne_image (h : ∀ inner, doc.node? parent ≠ some (.image inner)) :
    doc.first parent = parent := by
  unfold first
  split
  · rename_i inner hinner
    exact absurd hinner (h inner)
  · rfl

theorem first_congr {doc' : Document}
    (h : ∀ inner, doc'.node? child = some (.image inner) ↔ doc.node? child = some (.image inner)) :
    doc'.first child = doc.first child := by
  by_cases himage : ∃ inner, doc.node? child = some (.image inner)
  · obtain ⟨inner, hinner⟩ := himage
    simp only [first, hinner, (h inner).2 hinner]
  · rw [not_exists] at himage
    rw [first_of_ne_image himage, first_of_ne_image fun inner hi => himage inner ((h inner).1 hi)]

theorem node?_store_cases {id : Nat} {other : Node} (h : (doc.store node).1.node? id = some other) :
    id < doc.size ∧ doc.node? id = some other ∨ id = doc.size ∧ node = other := by
  have hlt := lt_size_of_node? h
  rw [size_store] at hlt
  by_cases hid : id = doc.size
  · subst hid
    rw [node?_store_size] at h
    exact .inr ⟨rfl, Option.some.inj h⟩
  · have hold : id < doc.size := by omega
    rw [node?_store_of_lt _ _ hold] at h
    exact .inl ⟨hold, h⟩

theorem first_store (node : Node) (hchild : child < doc.size) :
    (doc.store node).1.first child = doc.first child :=
  first_congr fun inner => by rw [node?_store_of_lt _ _ hchild]

theorem Ordered.first_le (h : Ordered doc) (id : Nat) : doc.first id ≤ id := by
  unfold first
  split
  · rename_i inner hinner
    rw [(h.image hinner).1]
    exact Nat.le_succ inner
  · exact Nat.le_refl _

/-- A node that hangs nowhere yet. -/
theorem Ordered.store (h : Ordered doc) (hchildren : node.children = #[])
    (himage : ∀ inner, node = .image inner →
      doc.size = inner + 1 ∧ ∃ url, doc.node? inner = some (.link url #[]))
    (hcode : ∀ fence content, node = .code fence content →
      fence ≠ 0 ∧ Backtick.closing? fence content = none) : Ordered (doc.store node).1 := by
  obtain ⟨children, hroot⟩ := h.root
  refine ⟨⟨children, ?_⟩, fun hid => ?_, fun hid child hchild => ?_, fun hid => ?_⟩
  · rw [node?_store_of_lt _ _ (lt_size_of_node? hroot), hroot]
  · rcases node?_store_cases hid with ⟨_, hold⟩ | ⟨rfl, rfl⟩
    · obtain ⟨hinner, url, children, hlink, hall⟩ := h.image hold
      refine ⟨hinner, url, children, ?_, ?_⟩
      · rw [node?_store_of_lt _ _ (lt_size_of_node? hlink), hlink]
      · intro child hchild
        rw [first_store node (h.children hlink child hchild).2]
        exact hall child hchild
    · obtain ⟨hinner, url, hlink⟩ := himage _ rfl
      refine ⟨hinner, url, #[], ?_, by simp⟩
      rw [node?_store_of_lt _ _ (lt_size_of_node? hlink), hlink]
  · rcases node?_store_cases hid with ⟨_, hold⟩ | ⟨rfl, rfl⟩
    · obtain ⟨hfirst, hlt⟩ := h.children hold child hchild
      rw [first_store node hlt, size_store]
      exact ⟨hfirst, Nat.lt_succ_of_lt hlt⟩
    · simp [hchildren] at hchild
  · rcases node?_store_cases hid with ⟨_, hold⟩ | ⟨rfl, rfl⟩
    · exact h.code hold
    · exact hcode _ _ rfl

/-- The node that takes the children of `parent` stands no later. -/
theorem Ordered.host_le (h : Ordered doc) (parent : Nat) : doc.host parent ≤ parent := by
  obtain ⟨children, hroot⟩ := h.root
  obtain ⟨n, hn⟩ := Nat.exists_eq_succ_of_ne_zero (Nat.ne_of_gt (lt_size_of_node? hroot))
  simp only [Document.host, hn, hostWithin]
  split
  · rename_i inner hinner
    obtain ⟨rfl, url, children, hlink, _⟩ := h.image hinner
    have hinner' : doc.hostWithin n inner = inner := by cases n <;> simp [hostWithin, hlink]
    rw [hinner']
    exact Nat.le_succ inner
  · exact Nat.le_refl _

theorem mapChildren_eq_image {f : Array NodeId → Array NodeId} {inner : NodeId} :
    node.mapChildren f = .image inner ↔ node = .image inner := by
  cases node <;> simp [Node.mapChildren]

theorem mapChildren_eq_code {f : Array NodeId → Array NodeId} {fence : Nat} {content : List Char} :
    node.mapChildren f = .code fence content ↔ node = .code fence content := by
  cases node <;> simp [Node.mapChildren]

theorem mem_children_mapChildren {other : NodeId}
    (h : other ∈ (node.mapChildren (·.push child)).children) :
    other ∈ node.children ∨ other = child := by
  cases node <;> simp_all [Node.mapChildren, Node.children]

theorem node?_append_cases {id : Nat} (h : (doc.append parent child).node? id = some node) :
    ∃ old, doc.node? id = some old ∧
      (node = old ∨ id = doc.host parent ∧ node = old.mapChildren (·.push child)) := by
  rw [Document.append, node?_modify] at h
  split at h
  · obtain ⟨old, hold, rfl⟩ := Option.map_eq_some_iff.1 h
    exact ⟨old, hold, .inr ⟨Eq.symm ‹_›, rfl⟩⟩
  · exact ⟨node, h, .inl rfl⟩

theorem node?_append_image {id inner : NodeId} :
    (doc.append parent child).node? id = some (.image inner) ↔
      doc.node? id = some (.image inner) := by
  rw [Document.append, node?_modify]
  split
  · simp [Option.map_eq_some_iff, mapChildren_eq_image]
  · rfl

theorem first_append (doc : Document) (parent child id : Nat) :
    (doc.append parent child).first id = doc.first id :=
  first_congr fun _ => node?_append_image

/-- A new node is hung under one that is there. -/
theorem Ordered.append (h : Ordered doc) {n : Nat} (hparent : parent < n)
    (himages : ∀ id inner : Nat, doc.node? id = some (.image inner) → inner < n → id < n)
    (hchild : n ≤ doc.first child) (hlt : child < doc.size) :
    Ordered (doc.append parent child) := by
  have hhost : doc.host parent < n := Nat.lt_of_le_of_lt (h.host_le parent) hparent
  obtain ⟨children, hroot⟩ := h.root
  refine ⟨?_, ?_, ?_, ?_⟩
  · rw [Document.append, node?_modify, hroot]
    split
    · exact ⟨_, rfl⟩
    · exact ⟨_, rfl⟩
  · intro id inner hid
    have hold := node?_append_image.1 hid
    obtain ⟨hinner, url, children, hlink, hall⟩ := h.image hold
    by_cases hk : doc.host parent = inner
    · refine ⟨hinner, url, children.push child, ?_, ?_⟩
      · rw [Document.append, node?_modify, if_pos hk, hlink]
        rfl
      · intro other hother
        rw [first_append]
        rcases Array.mem_push.1 hother with hother | rfl
        · exact hall other hother
        · exact Nat.lt_of_lt_of_le (himages id inner hold (hk ▸ hhost)) hchild
    · refine ⟨hinner, url, children, ?_, ?_⟩
      · rw [Document.append, node?_modify, if_neg hk, hlink]
      · intro other hother
        rw [first_append]
        exact hall other hother
  · intro id node hid other hother
    rw [first_append, Document.size_append]
    obtain ⟨old, hold, rfl | ⟨rfl, rfl⟩⟩ := node?_append_cases hid
    · exact h.children hold other hother
    · rcases mem_children_mapChildren hother with hother | rfl
      · exact h.children hold other hother
      · exact ⟨Nat.lt_of_lt_of_le hhost hchild, hlt⟩
  · intro id _ _ hid
    obtain ⟨old, hold, rfl | ⟨_, hnode⟩⟩ := node?_append_cases hid
    · exact h.code hold
    · exact h.code (mapChildren_eq_code.1 hnode.symm ▸ hold)

/-- A new node that is no image is stored and hung under one that is there. -/
theorem Ordered.add (h : Ordered doc) (hparent : parent < doc.size)
    (hchildren : node.children = #[]) (himage : ∀ inner, node ≠ .image inner)
    (hcode : ∀ fence content, node = .code fence content →
      fence ≠ 0 ∧ Backtick.closing? fence content = none) : Ordered (doc.add parent node).1 := by
  have hstored := h.store hchildren (fun inner hnode => absurd hnode (himage inner)) hcode
  have hnew : (doc.store node).1.first doc.size = doc.size :=
    first_of_ne_image fun inner hnode => by
      rw [node?_store_size] at hnode
      exact himage inner (Option.some.inj hnode)
  refine hstored.append hparent ?_ (Nat.le_of_eq hnew.symm) (by simp)
  intro id inner hid _
  rcases node?_store_cases hid with ⟨hlt, _⟩ | ⟨_, hnode⟩
  · exact hlt
  · exact absurd hnode (himage inner)

theorem Ordered.addImage (h : Ordered doc) (hparent : parent < doc.size) (url : List Char) :
    Ordered (doc.addImage parent url).1 := by
  have hlink : Ordered (doc.store (.link url #[])).1 := h.store rfl (by simp) (by simp)
  have himage : Ordered ((doc.store (.link url #[])).1.store (.image doc.size)).1 := by
    refine hlink.store rfl ?_ (by simp)
    intro inner hnode
    obtain rfl := Node.image.inj hnode
    exact ⟨size_store .., url, node?_store_size ..⟩
  have hnew : ((doc.store (.link url #[])).1.store (.image doc.size)).1.first
      (doc.store (.link url #[])).1.size = doc.size := by
    rw [first, node?_store_size]
  have hlast : (doc.store (.link url #[])).1.size <
      ((doc.store (.link url #[])).1.store (.image doc.size)).1.size :=
    Nat.lt_of_lt_of_eq (Nat.lt_succ_self _) (size_store ..).symm
  refine himage.append hparent ?_ (Nat.le_of_eq hnew.symm) hlast
  intro id inner hid hinner
  rcases node?_store_cases hid with ⟨_, hid⟩ | ⟨_, hnode⟩
  · rcases node?_store_cases hid with ⟨hlt, _⟩ | ⟨_, hnode⟩
    · exact hlt
    · cases hnode
  · obtain rfl := Node.image.inj hnode
    exact absurd hinner (Nat.lt_irrefl _)

theorem Built.ordered (h : Built doc) : Ordered doc := by
  induction h with
  | empty => exact ordered_empty
  | addStyled h hparent style ih => exact ih.add hparent rfl (by simp) (by simp)
  | addLink h hparent url ih => exact ih.add hparent rfl (by simp) (by simp)
  | addImage h hparent url ih => exact ih.addImage hparent url
  | addCode h hparent content block ih =>
    apply ih.add hparent rfl (by simp)
    intro fence content' hnode
    obtain ⟨rfl, rfl⟩ := Node.code.inj hnode
    obtain ⟨hleast, hfree⟩ :=
      Backtick.shortestFence_spec content (if block then Backtick.blockFence else 1)
    refine ⟨?_, Backtick.closing?_eq_none hfree⟩
    have hpos : 0 < if block then Backtick.blockFence else 1 := by cases block <;> decide
    omega
  | addText h hparent content ih => exact ih.add hparent rfl (by simp) (by simp)

/-! ### The tree of a document -/

theorem exists_allPlaced {ids : List NodeId} {height : Nat}
    (h : ∀ id ∈ ids, ∃ p : Placed, p.id = id ∧ p.StandsIn doc ∧ p.height ≤ height) :
    ∃ ps : List Placed, ps.map Placed.id = ids ∧ Placed.AllStandIn doc ps ∧
      Placed.allHeight ps ≤ height := by
  induction ids with
  | nil => exact ⟨[], rfl, trivial, Nat.zero_le _⟩
  | cons id ids ih =>
    obtain ⟨⟨p, hid, hp, hheight⟩, hids⟩ := List.forall_mem_cons.1 h
    obtain ⟨ps, rfl, hps, hheights⟩ := ih hids
    exact ⟨p :: ps, by rw [List.map_cons, hid], ⟨hp, hps⟩, Nat.max_le.2 ⟨hheight, hheights⟩⟩

theorem exists_container {shell : Shell} {ids : List NodeId} {id : Nat}
    (hs : shell.StandsIn doc id ids) (hlen : doc.first id + (shell.places id).length ≤ doc.size)
    (hlater : ∀ child ∈ ids, doc.first id + (shell.places id).length ≤ doc.first child)
    (h : ∀ child ∈ ids, ∃ p : Placed, p.id = child ∧ p.StandsIn doc ∧
      p.height ≤ doc.size - doc.first child) :
    ∃ p : Placed, p.id = id ∧ p.StandsIn doc ∧ p.height ≤ doc.size - doc.first id := by
  have hchildren : ∀ child ∈ ids, ∃ p : Placed, p.id = child ∧ p.StandsIn doc ∧
      p.height ≤ doc.size - (doc.first id + (shell.places id).length) := by
    intro child hchild
    obtain ⟨p, hid, hp, hheight⟩ := h child hchild
    have := hlater child hchild
    exact ⟨p, hid, hp, by omega⟩
  obtain ⟨ps, rfl, hps, hheights⟩ := exists_allPlaced hchildren
  exact ⟨.container id shell ps, rfl, ⟨hs, hps⟩, by simp only [Placed.height]; omega⟩

/-- Below a node that is no image there is a tree if there is one below each of its children. -/
theorem Ordered.exists_placed_of_children (h : Ordered doc) {id : Nat}
    (hnode : doc.node? id = some node)
    (himage : ∀ inner, node ≠ .image inner)
    (hbelow : ∀ child ∈ node.children, ∃ p : Placed, p.id = child ∧ p.StandsIn doc ∧
      p.height ≤ doc.size - doc.first child) :
    ∃ p : Placed, p.id = id ∧ p.StandsIn doc ∧ p.height ≤ doc.size - doc.first id := by
  have hid : id < doc.size := lt_size_of_node? hnode
  have hfirst : doc.first id = id :=
    first_of_ne_image fun inner hi => himage inner (Option.some.inj (hnode.symm.trans hi))
  have hshell (shell : Shell) (hplaces : shell.places id = [id])
      (hs : shell.StandsIn doc id node.children.toList) :
      ∃ p : Placed, p.id = id ∧ p.StandsIn doc ∧ p.height ≤ doc.size - doc.first id := by
    refine exists_container hs ?_ ?_ ?_
    · rw [hplaces, hfirst]
      exact hid
    · intro child hchild
      rw [hplaces, hfirst]
      exact (h.children hnode child (Array.mem_toList_iff.1 hchild)).1
    · intro child hchild
      exact hbelow child (Array.mem_toList_iff.1 hchild)
  cases node with
  | text content => exact ⟨.text id content, rfl, hnode, by simp [Placed.height, hfirst]; omega⟩
  | code fence content =>
    exact ⟨.code id fence content, rfl, hnode, by simp [Placed.height, hfirst]; omega⟩
  | root children => exact hshell .root rfl hnode
  | styled style children => exact hshell (.styled style) rfl hnode
  | link url children => exact hshell (.link url) rfl hnode
  | image inner => exact absurd rfl (himage inner)

/-- Below each node there is a tree. Nodes stand after those that hold them, which bounds its
height. -/
theorem Ordered.exists_placed (h : Ordered doc) (bound : Nat) {id : Nat} (hid : id < doc.size)
    (hbound : doc.size - doc.first id ≤ bound) :
    ∃ p : Placed, p.id = id ∧ p.StandsIn doc ∧ p.height ≤ doc.size - doc.first id := by
  have hle := h.first_le id
  -- by what is left of the document after the node: an image counts from the link that it wraps
  induction bound generalizing id with
  | zero => omega
  | succ bound ih =>
    have hbelow {child : Nat} (hlater : doc.first id < doc.first child) (hlt : child < doc.size) :
        ∃ p : Placed, p.id = child ∧ p.StandsIn doc ∧ p.height ≤ doc.size - doc.first child :=
      ih hlt (by omega) (h.first_le child)
    obtain ⟨node, hnode⟩ : ∃ node, doc.node? id = some node := ⟨_, Array.getElem?_eq_getElem hid⟩
    by_cases himage : ∃ inner, node = .image inner
    · obtain ⟨inner, rfl⟩ := himage
      obtain ⟨rfl, url, children, hlink, hlater⟩ := h.image hnode
      have hinner : doc.first (inner + 1) = inner := by simp only [first, hnode]
      have hs : (Shell.image inner url).StandsIn doc (inner + 1) children.toList :=
        ⟨hnode, by simpa using hlink⟩
      refine exists_container hs (by rw [hinner]; exact hid) ?_ ?_
      · intro child hchild
        rw [hinner]
        exact hlater child (Array.mem_toList_iff.1 hchild)
      · intro child hchild
        have hafter := hlater child (Array.mem_toList_iff.1 hchild)
        exact hbelow (by omega) (h.children hlink child (Array.mem_toList_iff.1 hchild)).2
    · refine h.exists_placed_of_children hnode (not_exists.1 himage) ?_
      intro child hchild
      obtain ⟨hlater, hlt⟩ := h.children hnode child hchild
      exact hbelow (by omega) hlt

/-- A document made node by node holds a tree, which is what it is written as. -/
theorem Built.exists_placed (h : Built doc) : ∃ children : List Placed,
    doc.tree rootId = .root (children.map Placed.tree) ∧
      doc.markdown rootId = Mark.writtenAll (Tree.allMarks (children.map Placed.tree)) ∧
      Placed.AllStandIn doc children := by
  obtain ⟨children, hroot⟩ := h.ordered.root
  have hfirst : doc.first rootId = rootId :=
    first_of_ne_image fun inner hi => by simp [hroot] at hi
  obtain ⟨p, hid, hp, hheight⟩ := h.ordered.exists_placed _ (lt_size_of_node? hroot) (Nat.le_refl _)
  rw [hfirst, rootId, Nat.sub_zero] at hheight
  have htree : doc.tree rootId = p.tree := by
    rw [Document.tree, ← hid]
    exact hp.treeWithin_eq _ _ hheight
  have hmarkdown : doc.markdown rootId = Mark.writtenAll p.tree.marks := by
    rw [Document.markdown, ← hid]
    exact hp.write_eq _ _ [] hheight
  cases p with
  | text id content =>
    obtain rfl : id = rootId := hid
    cases hroot.symm.trans hp
  | code id fence content =>
    obtain rfl : id = rootId := hid
    cases hroot.symm.trans hp
  | container id shell children =>
    obtain rfl : id = rootId := hid
    cases shell with
    | root =>
      rw [Placed.tree, Placed.trees_eq_map, Shell.tree] at htree hmarkdown
      exact ⟨children, htree, hmarkdown, hp.2⟩
    | styled style => cases hroot.symm.trans hp.1
    | link url => cases hroot.symm.trans hp.1
    | image inner url => cases hroot.symm.trans hp.1.1

end Document

end InlineMarkup
