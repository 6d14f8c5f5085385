import InlineMarkup.Proofs.Coverage
import InlineMarkup.Proofs.Display
import InlineMarkup.Proofs.NormalTrees

/-! Normal form: what is true of every node, and of every way down from the root, in the document of a
parsed text. -/

namespace InlineMarkup

namespace Document

/-- Whether the node is a container other than the root. An image and the link that it wraps are one. -/
def isContainer (doc : Document) (id : NodeId) : Bool :=
  match doc.node? id with
  | some (.styled _ _) | some (.link _ _) | some (.image _) => true
  | _ => false

/-- Whether the node is a link of which `bare` holds, whose one child is the address as text. -/
def IsBareLink (doc : Document) (bare : List Char → Prop) (id : NodeId) : Prop :=
  ∃ url text, doc.node? id = some (.link url #[text]) ∧ doc.node? text = some (.text url) ∧ bare url

/-- Whether there are no more than `room` containers among the nodes, but for one more at the end which
is the link of a bare address. -/
def FitsRoom (doc : Document) (bare : List Char → Prop) (room : Nat) (ids : List NodeId) : Prop :=
  (ids.filter doc.isContainer).length ≤ room ∨ ∃ outer link,
    ids.filter doc.isContainer = outer ++ [link] ∧ outer.length ≤ room ∧ doc.IsBareLink bare link

/-- Whether a document is what texts are parsed to. -/
structure NormalForm (doc : Document) (bare : List Char → Prop) : Prop where
  /-- The first node is a root and no other is. -/
  root : ∀ id, (∃ children, doc.node? id = some (.root children)) ↔ id = rootId
  /-- Every other node is a child of one container, or wrapped by one image. -/
  owner : ∀ id < doc.size, doc.namedNodes.count id = if id = rootId then 0 else 1
  reached : ∀ id < doc.size, doc.Reaches rootId id
  image : ∀ id link, doc.node? id = some (.image link) →
    ∃ url children, doc.node? link = some (.link url children)
  text : ∀ id content, doc.node? id = some (.text content) → content ≠ []
  /-- No two texts stand side by side. -/
  apart : ∀ id, (doc.children id).toList.IsChain fun a b => ¬(doc.isText a ∧ doc.isText b)
  code : ∀ id fence content, doc.node? id = some (.code fence content) →
    1 ≤ fence ∧ content ≠ [] ∧ content.head? ≠ some '`'
  /-- No style stands within itself. -/
  style : ∀ a b style xs ys, Relation.TransGen doc.Child a b →
    doc.node? a = some (.styled style xs) → doc.node? b ≠ some (.styled style ys)
  /-- On no way down from the root are there more containers than tags may be open, but for the link of a
  bare address. -/
  depth : ∀ ids, (rootId :: ids).IsChain doc.Child → doc.FitsRoom bare Assembly.maxDepth ids

/-- Whether a node may stand within containers of the styles in `outer` where `room` more containers may
stand around each other. -/
inductive Normal (doc : Document) (bare : List Char → Prop) : List Style → Nat → NodeId → Prop
  | text (outer : List Style) (room : Nat) {id : NodeId} {content : List Char}
      (hnode : doc.node? id = some (.text content)) (hne : content ≠ []) : Normal doc bare outer room id
  | code (outer : List Style) (room : Nat) {id : NodeId} {fence : Nat} {content : List Char}
      (hnode : doc.node? id = some (.code fence content)) (hfence : fence ≠ 0) (hne : content ≠ [])
      (hhead : content.head? ≠ some '`') : Normal doc bare outer room id
  | bareLink (outer : List Style) (room : Nat) {id text : NodeId} {url : List Char}
      (hnode : doc.node? id = some (.link url #[text])) (htext : doc.node? text = some (.text url))
      (hbare : bare url) (hne : url ≠ []) : Normal doc bare outer room id
  | container {outer : List Style} {room : Nat} {id : NodeId} {children : List NodeId} (tag : Tag)
      {shell : Shell} (hfor : shell.IsFor tag) (hshell : shell.StandsIn doc id children)
      (hfree : ∀ style ∈ tag.styles, style ∉ outer)
      (hapart : children.IsChain fun a b => ¬(doc.isText a ∧ doc.isText b))
      (hchildren : ∀ child ∈ children, Normal doc bare (tag.styles ++ outer) room child) :
      Normal doc bare outer (room + 1) id

end Document

/-! ### Normal trees have normal nodes -/

namespace Placed

variable {doc : Document} {bare : List Char → Prop} {outer : List Style} {room : Nat} {p : Placed}
  {ps : List Placed}

theorem AllStandIn.apart (h : AllStandIn doc ps) (hmerged : Tree.Merged (ps.map tree)) :
    (ps.map Placed.id).IsChain fun a b => ¬(doc.isText a ∧ doc.isText b) := by
  have htexts : (ps.map Placed.id).map doc.isText = (ps.map tree).map Tree.isText := by
    rw [List.map_map, List.map_map]
    exact List.map_congr_left fun p hp => (allStandIn_iff.1 h p hp).isText_eq
  have hchain : ((ps.map tree).map Tree.isText).IsChain fun a b : Bool => ¬(a ∧ b) :=
    (List.isChain_map _).2 hmerged
  rw [← htexts] at hchain
  exact (List.isChain_map _).1 hchain

theorem exists_container {tag : Tag} {url : List Char} {ts : List Tree} (h : p.tree = tag.tree url ts) :
    ∃ id shell ps, p = .container id shell ps ∧ shell.IsFor tag ∧ ps.map tree = ts := by
  cases p with
  | text | code => cases tag <;> simp [tree, Tag.tree] at h
  | container id shell ps =>
    refine ⟨id, shell, ps, rfl, ?_⟩
    cases shell <;> cases tag <;> simp_all [tree, Shell.tree, Tag.tree, Shell.IsFor]

theorem exists_bareLink {url : List Char} (h : p.tree = .link url [.text url]) :
    ∃ id text, p = .container id (.link url) [.text text url] := by
  cases p with
  | text | code => simp [tree] at h
  | container id shell ps =>
    cases shell with
    | link url' =>
      rw [tree, trees_eq_map, Shell.tree, Tree.link.injEq, List.map_eq_singleton_iff] at h
      obtain ⟨rfl, q, rfl, hq⟩ := h
      obtain ⟨text, content, rfl⟩ := exists_text (by rw [hq]; rfl)
      rw [tree, Tree.text.injEq] at hq
      exact ⟨id, text, by rw [hq]⟩
    | root | styled | image => simp [tree, Shell.tree] at h

theorem StandsIn.normal (h : p.StandsIn doc) (hnormal : p.tree.Normal bare outer room) :
    doc.Normal bare outer room p.id := by
  generalize htree : p.tree = tree at hnormal
  induction hnormal generalizing p with
  | text outer room hne =>
    obtain ⟨id, content, rfl⟩ := exists_text (by rw [htree]; rfl)
    obtain rfl := Tree.text.inj htree
    exact .text outer room h hne
  | code outer room hfence hne hhead =>
    cases p with
    | code id fence content =>
      obtain ⟨rfl, rfl⟩ := Tree.code.inj htree
      exact .code outer room h hfence hne hhead
    | text => cases htree
    | container id shell ps => cases shell <;> simp [Placed.tree, Shell.tree] at htree
  | bareLink outer room hbare hne =>
    obtain ⟨id, text, rfl⟩ := exists_bareLink htree
    exact .bareLink outer room h.1 h.2.1 hbare hne
  | container tag url hfree hmerged hchildren ih =>
    obtain ⟨id, shell, ps, rfl, hfor, rfl⟩ := exists_container htree
    obtain ⟨hshell, hps⟩ := h
    refine .container tag hfor hshell hfree (hps.apart hmerged) (List.forall_mem_map.2 fun q hq => ?_)
    exact ih q.tree (List.mem_map_of_mem hq) (allStandIn_iff.1 hps q hq) rfl

end Placed

namespace Document

variable {doc : Document} {bare : List Char → Prop} {outer : List Style} {room : Nat}
  {id child a b : NodeId} {ids : List NodeId} {node : Node}

/-! ### Nodes -/

/-- What is true of a node other than the root, wherever it stands. -/
def NodeNormal (doc : Document) : Node → Prop
  | .root _ => False
  | .text content => content ≠ []
  | .code fence content => fence ≠ 0 ∧ content ≠ [] ∧ content.head? ≠ some '`'
  | .image link => ∃ url children, doc.node? link = some (.link url children) ∧
    children.toList.IsChain fun a b => ¬(doc.isText a ∧ doc.isText b)
  | .styled _ children | .link _ children =>
    children.toList.IsChain fun a b => ¬(doc.isText a ∧ doc.isText b)

theorem Normal.nodeNormal (h : doc.Normal bare outer room id) (hnode : doc.node? id = some node) :
    doc.NodeNormal node := by
  cases h with
  | text _ _ hsame hne =>
    obtain rfl := Option.some.inj (hsame.symm.trans hnode)
    exact hne
  | code _ _ hsame hfence hne hhead =>
    obtain rfl := Option.some.inj (hsame.symm.trans hnode)
    exact ⟨hfence, hne, hhead⟩
  | bareLink _ _ hsame =>
    obtain rfl := Option.some.inj (hsame.symm.trans hnode)
    exact .singleton _
  | container tag hfor hshell hfree hapart hchildren =>
    rename_i shell
    cases shell with
    | root => cases tag <;> exact hfor.elim
    | image inner url =>
      obtain rfl := Option.some.inj (hshell.1.symm.trans hnode)
      exact ⟨url, _, hshell.2, hapart⟩
    | styled | link =>
      obtain rfl := Option.some.inj (Eq.symm hshell |>.trans hnode)
      exact hapart

theorem tag_eq_of_styled {tag : Tag} {shell : Shell} {children : List NodeId} {style : Style}
    {xs : Array NodeId} (hfor : shell.IsFor tag) (hshell : shell.StandsIn doc id children)
    (hnode : doc.node? id = some (.styled style xs)) : tag = .styled style := by
  cases shell with
  | styled other =>
    have hsame : Node.styled other children.toArray = .styled style xs :=
      Option.some.inj (Eq.symm hshell |>.trans hnode)
    obtain ⟨rfl, -⟩ := Node.styled.inj hsame
    cases tag with
    | styled => exact congrArg Tag.styled (Eq.symm hfor)
    | link | image => exact hfor.elim
  | root => cases tag <;> exact hfor.elim
  | link => cases Option.some.inj (Eq.symm hshell |>.trans hnode)
  | image => cases Option.some.inj (hshell.1.symm.trans hnode)

theorem Normal.style_notMem {style : Style} {xs : Array NodeId} (h : doc.Normal bare outer room id)
    (hnode : doc.node? id = some (.styled style xs)) : style ∉ outer := by
  cases h with
  | text _ _ hsame | code _ _ hsame | bareLink _ _ hsame =>
    cases Option.some.inj (hsame.symm.trans hnode)
  | container tag hfor hshell hfree =>
    obtain rfl := tag_eq_of_styled hfor hshell hnode
    exact hfree style (List.mem_singleton_self style)

/-! ### Ways down -/

theorem not_child_of_leaf (hnode : doc.node? id = some node) (hleaf : node.kind = .text ∨ node.kind = .code) :
    ¬doc.Child id child := by
  rw [Child, children_of_leaf hnode hleaf]
  exact Array.not_mem_empty child

theorem child_bareLink {url : List Char} {text : NodeId} (hnode : doc.node? id = some (.link url #[text])) :
    doc.Child id child ↔ child = text := by
  have hshell : (Shell.link url).StandsIn doc id [text] := hnode
  rw [Child, hshell.children_eq]
  simp

/-- A child may stand where its parent may, and in the style of the parent. -/
theorem Normal.step (h : doc.Normal bare outer room a) (hchild : doc.Child a b) :
    ∃ outer' room', outer ⊆ outer' ∧
      (∀ style xs, doc.node? a = some (.styled style xs) → style ∈ outer') ∧
      doc.Normal bare outer' room' b := by
  cases h with
  | text _ _ hnode => exact absurd hchild (not_child_of_leaf hnode (.inl rfl))
  | code _ _ hnode => exact absurd hchild (not_child_of_leaf hnode (.inr rfl))
  | bareLink _ _ hnode htext hbare hne =>
    obtain rfl := (child_bareLink hnode).1 hchild
    refine ⟨outer, room, List.Subset.refl _, fun style xs hstyled => ?_, .text _ _ htext hne⟩
    cases Option.some.inj (hnode.symm.trans hstyled)
  | container tag hfor hshell hfree hapart hchildren =>
    rw [Child, hshell.children_eq] at hchild
    refine ⟨_, _, List.subset_append_right _ _, fun style xs hstyled => ?_,
      hchildren b (List.mem_toArray.1 hchild)⟩
    obtain rfl := tag_eq_of_styled hfor hshell hstyled
    exact List.mem_cons_self

theorem Normal.descend (h : doc.Normal bare outer room a) (hdown : Relation.ReflTransGen doc.Child a b) :
    ∃ outer' room', outer ⊆ outer' ∧ doc.Normal bare outer' room' b := by
  induction hdown with
  | refl => exact ⟨outer, room, List.Subset.refl _, h⟩
  | tail _ hchild ih =>
    obtain ⟨outer₁, room₁, hsubset₁, h₁⟩ := ih
    obtain ⟨outer₂, room₂, hsubset₂, -, h₂⟩ := h₁.step hchild
    exact ⟨outer₂, room₂, List.Subset.trans hsubset₁ hsubset₂, h₂⟩

theorem fitsRoom_nil (doc : Document) (bare : List Char → Prop) (room : Nat) :
    doc.FitsRoom bare room [] := .inl (Nat.zero_le _)

theorem FitsRoom.cons (h : doc.FitsRoom bare room ids) (id : NodeId) :
    doc.FitsRoom bare (room + 1) (id :: ids) := by
  by_cases hid : doc.isContainer id
  · rw [FitsRoom, List.filter_cons_of_pos hid]
    rcases h with hle | ⟨before, link, hsplit, hle, hlink⟩
    · exact .inl (Nat.succ_le_succ hle)
    · exact .inr ⟨id :: before, link, by rw [hsplit, List.cons_append], Nat.succ_le_succ hle, hlink⟩
  · rw [FitsRoom, List.filter_cons_of_neg hid]
    rcases h with hle | ⟨before, link, hsplit, hle, hlink⟩
    · exact .inl (Nat.le_succ_of_le hle)
    · exact .inr ⟨before, link, hsplit, Nat.le_succ_of_le hle, hlink⟩

/-- The way down ends at a leaf. -/
theorem filter_isContainer_of_leaf (hnode : doc.node? id = some node)
    (hleaf : node.kind = .text ∨ node.kind = .code) (hpath : (id :: ids).IsChain doc.Child) :
    (id :: ids).filter doc.isContainer = [] := by
  cases ids with
  | nil => cases node <;> simp_all [isContainer, Node.kind]
  | cons child ids => exact absurd (List.isChain_cons_cons.1 hpath).1 (not_child_of_leaf hnode hleaf)

/-- Of the containers on a way down only a link of a bare address needs no room. -/
theorem Normal.fitsRoom (h : doc.Normal bare outer room id) (hpath : (id :: ids).IsChain doc.Child) :
    doc.FitsRoom bare room (id :: ids) := by
  induction h generalizing ids with
  | text outer room hnode hne =>
    rw [FitsRoom, filter_isContainer_of_leaf hnode (.inl rfl) hpath]
    exact fitsRoom_nil doc bare room
  | code outer room hnode hfence hne hhead =>
    rw [FitsRoom, filter_isContainer_of_leaf hnode (.inr rfl) hpath]
    exact fitsRoom_nil doc bare room
  | @bareLink outer room id text url hnode htext hbare hne =>
    have hlink : doc.isContainer id := by simp [isContainer, hnode]
    refine .inr ⟨[], id, ?_, Nat.zero_le _, url, text, hnode, htext, hbare⟩
    rw [List.filter_cons_of_pos hlink, List.nil_append]
    cases ids with
    | nil => rfl
    | cons child ids =>
      obtain ⟨hchild, hrest⟩ := List.isChain_cons_cons.1 hpath
      obtain rfl := (child_bareLink hnode).1 hchild
      rw [filter_isContainer_of_leaf htext (.inl rfl) hrest]
  | @container outer room id children tag shell hfor hshell hfree hapart hchildren ih =>
    cases ids with
    | nil => exact (fitsRoom_nil doc bare room).cons id
    | cons child ids =>
      obtain ⟨hchild, hrest⟩ := List.isChain_cons_cons.1 hpath
      rw [Child, hshell.children_eq] at hchild
      exact (ih child (List.mem_toArray.1 hchild) hrest).cons id

/-! ### Documents of normal trees -/

/-- Whether the root of a document holds nodes that may stand there, and all nodes hang below it. -/
structure Rooted (doc : Document) (bare : List Char → Prop) (top : List NodeId) : Prop where
  root : Shell.root.StandsIn doc rootId top
  apart : top.IsChain fun a b => ¬(doc.isText a ∧ doc.isText b)
  normal : ∀ id ∈ top, doc.Normal bare [] Assembly.maxDepth id
  reached : ∀ id < doc.size, doc.Reaches rootId id

namespace Rooted

variable {top : List NodeId}

theorem node?_root (h : doc.Rooted bare top) : doc.node? rootId = some (.root top.toArray) := h.root

theorem normal_child (h : doc.Rooted bare top) (hchild : doc.Child rootId id) :
    doc.Normal bare [] Assembly.maxDepth id := by
  rw [Child, h.root.children_eq] at hchild
  exact h.normal id (List.mem_toArray.1 hchild)

theorem exists_normal (h : doc.Rooted bare top) (hdown : Relation.ReflTransGen doc.Child rootId id) :
    id = rootId ∨ ∃ outer room, doc.Normal bare outer room id := by
  rcases hdown.cases_head with rfl | ⟨child, hchild, hdown⟩
  · exact .inl rfl
  · obtain ⟨outer, room, -, hnormal⟩ := (h.normal_child hchild).descend hdown
    exact .inr ⟨outer, room, hnormal⟩

/-- A node that is no link is not wrapped by an image, and so stands where it may. -/
theorem exists_normal_of_not_link (h : doc.Rooted bare top) (hnode : doc.node? id = some node)
    (hlink : ∀ url children, node ≠ .link url children) :
    id = rootId ∨ ∃ outer room, doc.Normal bare outer room id := by
  rcases h.reached id (lt_size_of_node? hnode) with hdown | ⟨image, hdown, himage⟩
  · exact h.exists_normal hdown
  · rcases h.exists_normal hdown with rfl | ⟨outer, room, hnormal⟩
    · cases Option.some.inj (h.node?_root.symm.trans himage)
    · obtain ⟨url, children, hwrapped, -⟩ := hnormal.nodeNormal himage
      exact absurd (Option.some.inj (hnode.symm.trans hwrapped)) (hlink url children)

theorem nodeNormal (h : doc.Rooted bare top) (hnode : doc.node? id = some node) :
    id = rootId ∨ doc.NodeNormal node := by
  rcases h.reached id (lt_size_of_node? hnode) with hdown | ⟨image, hdown, himage⟩
  · exact (h.exists_normal hdown).imp_right fun ⟨_, _, hnormal⟩ => hnormal.nodeNormal hnode
  · rcases h.exists_normal hdown with rfl | ⟨outer, room, hnormal⟩
    · cases Option.some.inj (h.node?_root.symm.trans himage)
    · obtain ⟨url, children, hwrapped, hapart⟩ := hnormal.nodeNormal himage
      obtain rfl := Option.some.inj (hwrapped.symm.trans hnode)
      exact .inr hapart

theorem apart_children (h : doc.Rooted bare top) (id : NodeId) :
    (doc.children id).toList.IsChain fun a b => ¬(doc.isText a ∧ doc.isText b) := by
  cases hnode : doc.node? id with
  | none =>
    have hhost : doc.host id = id := by
      rw [host]
      cases doc.size with
      | zero => rfl
      | succ n => rw [hostWithin, hnode]
    rw [children, hhost, hnode]
    exact .nil
  | some node =>
    rcases h.nodeNormal hnode with rfl | hnormal
    · rw [h.root.children_eq]
      exact h.apart
    · cases node with
      | root => exact hnormal.elim
      | text => rw [children_of_leaf hnode (.inl rfl)]; exact .nil
      | code => rw [children_of_leaf hnode (.inr rfl)]; exact .nil
      | styled style children =>
        have hshell : (Shell.styled style).StandsIn doc id children.toList := hnode
        rw [hshell.children_eq]
        exact hnormal
      | link url children =>
        have hshell : (Shell.link url).StandsIn doc id children.toList := hnode
        rw [hshell.children_eq]
        exact hnormal
      | image link =>
        obtain ⟨url, children, hwrapped, hapart⟩ := hnormal
        have hshell : (Shell.image link url).StandsIn doc id children.toList := ⟨hnode, hwrapped⟩
        rw [hshell.children_eq]
        exact hapart

theorem style_ne (h : doc.Rooted bare top) {style : Style} {xs ys : Array NodeId}
    (hdown : Relation.TransGen doc.Child a b) (ha : doc.node? a = some (.styled style xs)) :
    doc.node? b ≠ some (.styled style ys) := by
  intro hb
  rcases h.exists_normal_of_not_link ha (fun _ _ => nofun) with rfl | ⟨outer, room, hnormal⟩
  · cases Option.some.inj (h.node?_root.symm.trans ha)
  · obtain ⟨child, hchild, hrest⟩ := Relation.TransGen.head'_iff.1 hdown
    obtain ⟨inner, room₁, -, hstyle, hchild⟩ := hnormal.step hchild
    obtain ⟨innermost, room₂, hsubset, hnormal⟩ := hchild.descend hrest
    exact hnormal.style_notMem hb (hsubset (hstyle style xs ha))

theorem fitsRoom (h : doc.Rooted bare top) (hpath : (rootId :: ids).IsChain doc.Child) :
    doc.FitsRoom bare Assembly.maxDepth ids := by
  cases ids with
  | nil => exact fitsRoom_nil ..
  | cons child ids =>
    obtain ⟨hchild, hrest⟩ := List.isChain_cons_cons.1 hpath
    exact (h.normal_child hchild).fitsRoom hrest

theorem eq_root (h : doc.Rooted bare top) {children : Array NodeId}
    (hnode : doc.node? id = some (.root children)) : id = rootId :=
  (h.nodeNormal hnode).resolve_right fun hnormal => hnormal

/-- What is true of each node by itself is true of those that are not the root. -/
theorem nodeNormal_of_kind (h : doc.Rooted bare top) (hnode : doc.node? id = some node)
    (hkind : node.kind ≠ .root) : doc.NodeNormal node := by
  refine (h.nodeNormal hnode).resolve_left ?_
  rintro rfl
  exact hkind (Option.some.inj (h.node?_root.symm.trans hnode) ▸ rfl)

theorem normalForm (h : doc.Rooted bare top)
    (howner : ∀ j, [rootId].count j + doc.namedNodes.count j = (List.range doc.size).count j) :
    doc.NormalForm bare where
  root id := ⟨fun ⟨_, hnode⟩ => h.eq_root hnode, fun hid => ⟨_, hid ▸ h.node?_root⟩⟩
  owner id hid := by
    have hcount := howner id
    rw [List.count_eq_one_of_mem List.nodup_range (List.mem_range.2 hid)] at hcount
    by_cases hroot : id = rootId
    · subst hroot
      rw [List.count_singleton_self] at hcount
      rw [if_pos rfl]
      omega
    · rw [if_neg hroot]
      rw [List.count_eq_zero_of_not_mem (by simpa using hroot)] at hcount
      omega
  reached := h.reached
  image id link hnode := by
    obtain ⟨url, children, hwrapped, -⟩ := h.nodeNormal_of_kind hnode nofun
    exact ⟨url, children, hwrapped⟩
  text id content hnode := h.nodeNormal_of_kind hnode nofun
  apart := h.apart_children
  code id fence content hnode := by
    obtain ⟨hfence, hne, hhead⟩ := h.nodeNormal_of_kind hnode nofun
    exact ⟨Nat.one_le_iff_ne_zero.2 hfence, hne, hhead⟩
  style a b style xs ys hdown ha := h.style_ne hdown ha
  depth ids hpath := h.fitsRoom hpath

end Rooted

theorem normalForm_ofTrees {trees : List Tree} (hmerged : Tree.Merged trees)
    (hnormal : ∀ tree ∈ trees, tree.Normal bare [] Assembly.maxDepth) :
    (ofTrees trees).NormalForm bare := by
  obtain ⟨ps, rfl, ⟨hroot, hps⟩, -⟩ := exists_perm_range trees
  have hrooted : (ofTrees (ps.map Placed.tree)).Rooted bare (ps.map Placed.id) := by
    refine ⟨hroot, hps.apart hmerged, List.forall_mem_map.2 fun p hp => ?_, fun id => reaches_ofTrees _⟩
    exact (Placed.allStandIn_iff.1 hps p hp).normal (hnormal _ (List.mem_map_of_mem hp))
  exact hrooted.normalForm (count_namedNodes_ofTrees _)

end Document

/-- The document of a parsed text is in normal form, and no more nodes of the syntax tree stand around
each other below its root than tags may be open. -/
theorem normalForm_parseWith (options : ScanOptions) (text : List Char) :
    (parseWith options text).document.NormalForm (StandsAlone options text) ∧
      ∃ elements, syntaxTree? options text = some (.node .root elements) ∧
        SyntaxTree.allHeight elements ≤ Assembly.maxDepth := by
  constructor
  · rw [document_parseWith]
    exact Document.normalForm_ofTrees (Tree.merged_merge _) (normal_pairUp options text)
  · refine ⟨_, Assembly.ofEvents?_assemble _, SyntaxTree.allHeight_le_iff.2 ?_⟩
    exact List.forall_mem_map.2 (height_pairUp_le _)

end InlineMarkup
