import InlineMarkup.Proofs.Construction
import InlineMarkup.Proofs.Coverage

/-! Unfolding: where no way down leads back to itself, what stands below a node is a tree. Nodes may be
named more than once, and some may be named nowhere. -/

namespace InlineMarkup.Document

variable {doc : Document} {start id child : NodeId} {node : Node} {path : List NodeId}

/-- Whether a node names another one, be it as a child or as the link that it wraps. -/
def Names (doc : Document) (parent child : NodeId) : Prop := child ∈ doc.namedAt parent

/-- Whether a way down leads from the first node to the second, or they are the same. -/
def Above (doc : Document) : NodeId → NodeId → Prop := Relation.ReflTransGen doc.Names

/-- Whether all is well below a node: every node is there, every image wraps a link, and no way down
leads back to where it was. -/
structure Grounded (doc : Document) (start : NodeId) : Prop where
  there : ∀ id, doc.Above start id → id < doc.size
  wraps : ∀ id link, doc.Above start id → doc.node? id = some (.image link) →
    ∃ url children, doc.node? link = some (.link url children)
  acyclic : ∀ id, doc.Above start id → ¬Relation.TransGen doc.Names id id

theorem Grounded.of_above (h : doc.Grounded start) (habove : doc.Above start id) : doc.Grounded id :=
  ⟨fun j hj => h.there j (habove.trans hj), fun j link hj => h.wraps j link (habove.trans hj),
    fun j hj => h.acyclic j (habove.trans hj)⟩

theorem Grounded.of_names (h : doc.Grounded id) (hnames : doc.Names id child) : doc.Grounded child :=
  h.of_above (.single hnames)

theorem Grounded.exists_node? (h : doc.Grounded id) : ∃ node, doc.node? id = some node :=
  ⟨_, Array.getElem?_eq_getElem (h.there id .refl)⟩

/-- Whether a node, if it is an image, wraps a link. -/
def wrapsLink (doc : Document) : Node → Bool
  | .image link => (doc.node? link).any (·.kind == .link)
  | _ => true

theorem exists_link_of_wrapsLink {link : NodeId} (h : doc.wrapsLink (.image link)) :
    ∃ url children, doc.node? link = some (.link url children) := by
  obtain ⟨node, hnode, hkind⟩ := (Option.any_eq_true _ _).1 h
  cases node with
  | link url children => exact ⟨url, children, hnode⟩
  | root | styled | code | image | text => simp [Node.kind] at hkind

theorem names_iff (hnode : doc.node? id = some node) : doc.Names id child ↔ child ∈ node.named := by
  rw [Names, namedAt, hnode]
  rfl

/-- All is well below a node if it is well below all that the node names. -/
theorem grounded_of_named (hnode : doc.node? id = some node)
    (hwraps : ∀ link, node = .image link → ∃ url children, doc.node? link = some (.link url children))
    (hnamed : ∀ child ∈ node.named, doc.Grounded child) : doc.Grounded id := by
  have hbelow {j : NodeId} (h : doc.Above id j) :
      id = j ∨ ∃ child, doc.Grounded child ∧ doc.Above child j :=
    h.cases_head.imp_right fun ⟨child, hnames, habove⟩ =>
      ⟨child, hnamed child ((names_iff hnode).1 hnames), habove⟩
  refine ⟨fun j habove => ?_, fun j link habove hlink => ?_, fun j habove hback => ?_⟩
  · obtain rfl | ⟨child, hchild, habove⟩ := hbelow habove
    · exact lt_size_of_node? hnode
    · exact hchild.there j habove
  · obtain rfl | ⟨child, hchild, habove⟩ := hbelow habove
    · exact hwraps link (Option.some.inj (hnode.symm.trans hlink))
    · exact hchild.wraps j link habove hlink
  · obtain rfl | ⟨child, hchild, habove⟩ := hbelow habove
    · -- the way back goes through a child, which then leads back to itself as well
      obtain ⟨child, hnames, hrest⟩ := Relation.TransGen.head'_iff.1 hback
      exact (hnamed child ((names_iff hnode).1 hnames)).acyclic _ hrest hback
    · exact hchild.acyclic j habove hback

/-- Where every node ranks above those that it names, all is well below each. -/
theorem grounded_of_rank (rank : NodeId → Nat)
    (hnames : ∀ id < doc.size, ∀ child ∈ doc.namedAt id, child < doc.size ∧ rank child < rank id)
    (hwraps : ∀ node ∈ doc.nodes, doc.wrapsLink node) (hid : id < doc.size) : doc.Grounded id := by
  induction hrank : rank id using Nat.strong_induction_on generalizing id with
  | _ n ih =>
    subst hrank
    have hnode : doc.node? id = some doc.nodes[id] := Array.getElem?_eq_getElem hid
    refine grounded_of_named hnode (fun link hlink => ?_) fun child hchild => ?_
    · exact exists_link_of_wrapsLink (hlink ▸ hwraps _ (Array.getElem_mem hid))
    · obtain ⟨hlt, hrank⟩ := hnames id hid child ((names_iff hnode).2 hchild)
      exact ih _ hrank hlt rfl

/-- Whether the nodes of `path`, all of them different, stand above a node. -/
structure Way (doc : Document) (path : List NodeId) (id : NodeId) : Prop where
  nodup : path.Nodup
  lt_size : ∀ j ∈ path, j < doc.size
  above : ∀ j ∈ path, Relation.TransGen doc.Names j id

theorem way_nil : doc.Way [] id := ⟨List.nodup_nil, by simp, by simp⟩

/-- A way goes on from a node to what that names, and never comes back. -/
theorem Way.cons (h : doc.Way path id) (hground : doc.Grounded id) (hnames : doc.Names id child) :
    doc.Way (id :: path) child := by
  refine ⟨List.nodup_cons.2 ⟨?_, h.nodup⟩, ?_, ?_⟩
  · intro hmem
    exact hground.acyclic id .refl (h.above id hmem)
  · exact List.forall_mem_cons.2 ⟨hground.there id .refl, h.lt_size⟩
  · refine List.forall_mem_cons.2 ⟨.single hnames, fun j hj => ?_⟩
    exact (h.above j hj).tail hnames

/-- No way is longer than the document has nodes. -/
theorem Way.length_lt (h : doc.Way path id) (hground : doc.Grounded id) : path.length < doc.size := by
  have hnodup : (id :: path).Nodup :=
    List.nodup_cons.2 ⟨fun hmem => hground.acyclic id .refl (h.above id hmem), h.nodup⟩
  have hlt : ∀ j ∈ id :: path, j < doc.size :=
    List.forall_mem_cons.2 ⟨hground.there id .refl, h.lt_size⟩
  have hsubset : id :: path ⊆ List.range doc.size := fun j hj => List.mem_range.2 (hlt j hj)
  have hlength := (List.subperm_of_subset hnodup hsubset).length_le
  rwa [List.length_range] at hlength

/-- A container is a tree if there is one below each of its children. -/
theorem exists_container_of_children {shell : Shell} {ids : List NodeId} {room : Nat}
    (hs : shell.StandsIn doc id ids) (hroom : (shell.places id).length ≤ room)
    (h : ∀ child ∈ ids, ∃ p : Placed, p.id = child ∧ p.StandsIn doc ∧
      p.height ≤ room - (shell.places id).length) :
    ∃ p : Placed, p.id = id ∧ p.StandsIn doc ∧ p.height ≤ room := by
  obtain ⟨ps, rfl, hps, hheight⟩ := exists_allPlaced h
  refine ⟨.container id shell ps, rfl, ⟨hs, hps⟩, ?_⟩
  rw [Placed.height]
  omega

/-- At the end of a way stands a tree that is no higher than there are other nodes. -/
theorem Grounded.exists_placed_after (h : doc.Grounded id) (hway : doc.Way path id) :
    ∃ p : Placed, p.id = id ∧ p.StandsIn doc ∧ p.height ≤ doc.size - path.length := by
  -- by the number of nodes that the way has not met
  induction hrest : doc.size - path.length using Nat.strong_induction_on generalizing id path with
  | _ rest ih =>
    subst hrest
    have hlength := hway.length_lt h
    obtain ⟨node, hnode⟩ := h.exists_node?
    have hbelow {child : NodeId} (hnames : doc.Names id child) : ∃ p : Placed, p.id = child ∧
        p.StandsIn doc ∧ p.height ≤ doc.size - (path.length + 1) :=
      ih _ (by omega) (h.of_names hnames) (hway.cons h hnames) rfl
    have hshell (shell : Shell) {children : Array NodeId} (hplaces : (shell.places id).length = 1)
        (hs : shell.StandsIn doc id children.toList) (hnamed : node.named = children.toList) :
        ∃ p : Placed, p.id = id ∧ p.StandsIn doc ∧ p.height ≤ doc.size - path.length := by
      refine exists_container_of_children hs (by omega) fun child hchild => ?_
      obtain ⟨p, hid, hp, hheight⟩ := hbelow ((names_iff hnode).2 (hnamed ▸ hchild))
      exact ⟨p, hid, hp, by omega⟩
    cases node with
    | text content => exact ⟨.text id content, rfl, hnode, by rw [Placed.height]; omega⟩
    | code fence content => exact ⟨.code id fence content, rfl, hnode, by rw [Placed.height]; omega⟩
    | root children => exact hshell .root rfl hnode rfl
    | styled style children => exact hshell (.styled style) rfl hnode rfl
    | link url children => exact hshell (.link url) rfl hnode rfl
    | image link =>
      obtain ⟨url, children, hlink⟩ := h.wraps id link .refl hnode
      have hnames : doc.Names id link := (names_iff hnode).2 (by simp)
      have hground := h.of_names hnames
      have hlinkWay := hway.cons h hnames
      have hlinkLength : path.length + 1 < doc.size := hlinkWay.length_lt hground
      have hs : (Shell.image link url).StandsIn doc id children.toList := ⟨hnode, hlink⟩
      have hplaces : ((Shell.image link url).places id).length = 2 := rfl
      refine exists_container_of_children hs (by omega) fun child hchild => ?_
      have hchild' : doc.Names link child := (names_iff hlink).2 hchild
      obtain ⟨p, hid, hp, hheight⟩ := ih (doc.size - (path.length + 1 + 1)) (by omega)
        (hground.of_names hchild') (hlinkWay.cons hground hchild') rfl
      exact ⟨p, hid, hp, by omega⟩

/-- Below a grounded node stands a tree, which no more nodes stand around each other in than the document
has. -/
theorem Grounded.exists_placed (h : doc.Grounded id) :
    ∃ p : Placed, p.id = id ∧ p.StandsIn doc ∧ p.height ≤ doc.size :=
  h.exists_placed_after way_nil

end InlineMarkup.Document

namespace InlineMarkup.Placed

open Document

mutual

/-- All is well below a node at which a tree stands. -/
theorem StandsIn.grounded {doc : Document} : ∀ p : Placed, p.StandsIn doc → doc.Grounded p.id
  | text _ _, h | code _ _ _, h => grounded_of_named h nofun nofun
  | container id shell children, ⟨hs, hc⟩ => by
    have hchildren := AllStandIn.grounded children hc
    cases shell with
    | image inner url =>
      have hlink : doc.Grounded inner := grounded_of_named hs.2 nofun hchildren
      refine grounded_of_named hs.1 ?_ (List.forall_mem_singleton.2 hlink)
      rintro _ ⟨⟩
      exact ⟨url, _, hs.2⟩
    | root | styled | link => exact grounded_of_named hs nofun hchildren

theorem AllStandIn.grounded {doc : Document} : ∀ ps : List Placed, AllStandIn doc ps →
    ∀ id ∈ ps.map Placed.id, doc.Grounded id
  | [], _, _, hid => absurd hid List.not_mem_nil
  | p :: ps, ⟨hp, hps⟩, id, hid => by
    obtain rfl | hid := List.mem_cons.1 hid
    · exact StandsIn.grounded p hp
    · exact AllStandIn.grounded ps hps id hid

end

end InlineMarkup.Placed
