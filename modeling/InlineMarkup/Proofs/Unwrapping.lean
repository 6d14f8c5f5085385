import InlineMarkup.Proofs.Forests

/-! Unwrapping: a container that stands under another one gives way to its delimiter and its children, at
its own place, and all else stays as it was. -/

namespace InlineMarkup.Document

variable {doc doc' doc'' : Document} {trees : NodeId → Tree} {ids more left right : List NodeId}
  {parent id j : NodeId} {delimiter : List Char}

/-! ### Texts that grow -/

/-- Whether a node is what it is in another document, or a text among `ids` that has become longer. -/
def KeepsAt (doc' doc : Document) (ids : List NodeId) (j : NodeId) : Prop :=
  doc'.node? j = doc.node? j ∨ j ∈ ids ∧ ∃ content more,
    doc.node? j = some (.text content) ∧ doc'.node? j = some (.text (content ++ more))

/-- Whether a document has the nodes of another one, some of them longer texts. -/
def Extends (doc' doc : Document) (ids : List NodeId) : Prop := ∀ j, doc'.KeepsAt doc ids j

theorem extends_refl (doc : Document) (ids : List NodeId) : doc.Extends doc ids := fun _ => .inl rfl

theorem Extends.mono (h : doc'.Extends doc ids) (hsubset : ids ⊆ more) : doc'.Extends doc more :=
  fun j => (h j).imp_right fun ⟨hj, htexts⟩ => ⟨hsubset hj, htexts⟩

theorem Extends.trans (h' : doc''.Extends doc' ids) (h : doc'.Extends doc ids) :
    doc''.Extends doc ids := by
  intro j
  rcases h' j with heq' | ⟨hj, content', more', hcontent', hnode''⟩
  · rcases h j with heq | ⟨hj, content, more, hcontent, hnode'⟩
    · exact .inl (heq'.trans heq)
    · exact .inr ⟨hj, content, more, hcontent, heq'.trans hnode'⟩
  · rcases h j with heq | ⟨-, content, more, hcontent, hnode'⟩
    · exact .inr ⟨hj, content', more', heq.symm.trans hcontent', hnode''⟩
    · obtain rfl : content' = content ++ more := by
        simpa using hcontent'.symm.trans hnode'
      exact .inr ⟨hj, content, more ++ more', hcontent, by rw [hnode'', List.append_assoc]⟩

theorem extends_extendText {content more : List Char} (hnode : doc.node? id = some (.text content))
    (hid : id ∈ ids) : (doc.modify id (.extendText more)).Extends doc ids := by
  intro j
  by_cases hj : id = j
  · subst hj
    refine .inr ⟨hid, content, more, hnode, ?_⟩
    rw [node?_modify, if_pos rfl, hnode]
    rfl
  · exact .inl (node?_modify_of_ne _ _ (Ne.symm hj))

theorem Extends.size_eq (h : doc'.Extends doc ids) : doc'.size = doc.size := by
  have hnone (j : NodeId) : doc'.size ≤ j ↔ doc.size ≤ j := by
    rw [size, size, ← Array.getElem?_eq_none_iff, ← Array.getElem?_eq_none_iff]
    rcases h j with heq | ⟨-, content, more, hnode, hnode'⟩
    · rw [← node?, heq, node?]
    · rw [← node?, ← node?, hnode, hnode']
      simp
  exact Nat.le_antisymm ((hnone _).2 (Nat.le_refl _)) ((hnone _).1 (Nat.le_refl _))

theorem Extends.isText_eq (h : doc'.Extends doc ids) (j : NodeId) : doc'.isText j = doc.isText j := by
  rcases h j with heq | ⟨-, content, more, hnode, hnode'⟩
  · rw [isText, isText, heq]
  · rw [isText, isText, hnode, hnode']
    rfl

/-! ### One pass that merges texts -/

/-- A text of the document as it is, and for any other node the tree that is given for it. -/
def look (doc : Document) (trees : NodeId → Tree) (id : NodeId) : Tree :=
  match doc.node? id with
  | some (.text content) => .text content
  | _ => trees id

theorem exists_content_of_isText (h : doc.isText id = true) :
    ∃ content, doc.node? id = some (.text content) := by
  obtain ⟨node, hnode, hkind⟩ := (Option.any_eq_true _ _).1 h
  cases node with
  | text content => exact ⟨content, hnode⟩
  | root | styled | code | link | image => simp [Node.kind] at hkind

theorem look_of_text {content : List Char} (h : doc.node? id = some (.text content)) :
    doc.look trees id = .text content := by
  rw [look, h]

theorem look_of_isText_eq_false (h : doc.isText id = false) : doc.look trees id = trees id := by
  rw [look]
  split
  · rename_i content hnode
    simp [isText, hnode, Node.kind] at h
  · rfl

/-- Whether the trees given for nodes that are no texts are no texts either. -/
def Distinct (doc : Document) (trees : NodeId → Tree) (ids : List NodeId) : Prop :=
  ∀ j ∈ ids, doc.isText j = false → (trees j).isText = false

theorem isText_look (h : doc.Distinct trees ids) (hid : id ∈ ids) :
    (doc.look trees id).isText = doc.isText id := by
  cases hid' : doc.isText id with
  | true =>
    obtain ⟨content, hnode⟩ := exists_content_of_isText hid'
    rw [look_of_text hnode]
    rfl
  | false =>
    rw [look_of_isText_eq_false hid']
    exact h id hid hid'

theorem look_congr (h : doc'.node? id = doc.node? id) : doc'.look trees id = doc.look trees id := by
  rw [look, look, h]

/-- The next child is put after those that are merged already, or into the last one of them. -/
theorem exists_mergeChild_look (ids : List NodeId) (id : NodeId) (hnodup : (ids ++ [id]).Nodup)
    (htrees : doc.Distinct trees (ids ++ [id])) (hmerged : Tree.Merged (ids.map (doc.look trees))) :
    ∃ doc' ids', mergeChild (doc, ids.toArray) id = (doc', ids'.toArray) ∧
      ids'.map (doc'.look trees) = Tree.merge ((ids ++ [id]).map (doc.look trees)) ∧
      ids <+: ids' ∧ ids'.Sublist (ids ++ [id]) ∧ doc'.Extends doc ids' := by
  by_cases hmeet : ∃ last ∈ ids.getLast?, doc.isText last = true ∧ doc.isText id = true
  · obtain ⟨last, hlast, hlasttext, hidtext⟩ := hmeet
    obtain ⟨init, rfl⟩ := List.getLast?_eq_some_iff.1 hlast
    obtain ⟨content, hcontent⟩ := exists_content_of_isText hlasttext
    obtain ⟨next, hnext⟩ := exists_content_of_isText hidtext
    refine ⟨_, _, mergeChild_text hlasttext hnext, ?_, List.prefix_rfl, List.sublist_append_left .., ?_⟩
    · have hinit : init.map ((doc.modify last (.extendText next)).look trees) =
          init.map (doc.look trees) := by
        refine List.map_congr_left fun j hj => look_congr (node?_modify_of_ne _ _ ?_)
        rintro rfl
        exact (List.nodup_append.1 (List.nodup_append.1 hnodup).1).2.2 j hj j (by simp) rfl
      have hlook : (doc.modify last (.extendText next)).look trees last = .text (content ++ next) := by
        refine look_of_text ?_
        rw [node?_modify, if_pos rfl, hcontent]
        rfl
      rw [List.map_append, List.map_singleton, look_of_text hcontent] at hmerged
      rw [List.map_append, hinit, List.map_singleton, hlook, List.append_assoc, List.map_append,
        List.cons_append, List.nil_append, List.map_cons, List.map_singleton, look_of_text hcontent,
        look_of_text hnext, Tree.merge_concat_text hmerged next]
    · exact extends_extendText hcontent (by simp)
  · have hstep : mergeChild (doc, ids.toArray) id = (doc, (ids ++ [id]).toArray) := by
      simp only [mergeChild]
      split
      · rename_i last next hlast hnext
        rw [List.back?_toArray] at hlast
        have hlasttext : ¬doc.isText last = true := fun htext =>
          hmeet ⟨last, hlast, htext, by simp [isText, hnext, Node.kind]⟩
        rw [if_neg hlasttext]
        simp
      · simp
    refine ⟨doc, ids ++ [id], hstep, ?_, List.prefix_append .., List.Sublist.refl _, extends_refl _ _⟩
    rw [List.map_append, List.map_singleton, Tree.merge_concat hmerged]
    intro a ha hboth
    obtain ⟨last, hlast, rfl⟩ := Option.map_eq_some_iff.1 (List.getLast?_map ▸ ha)
    rw [isText_look htrees (List.mem_append_left _ (List.mem_of_getLast? hlast)),
      isText_look htrees (by simp)] at hboth
    exact hmeet ⟨last, hlast, hboth⟩

/-- One pass over the children that are left, after those that are merged already. -/
theorem exists_foldl_mergeChild (ids more : List NodeId) (hnodup : (ids ++ more).Nodup)
    (htrees : doc.Distinct trees (ids ++ more)) (hmerged : Tree.Merged (ids.map (doc.look trees))) :
    ∃ doc' ids', more.foldl mergeChild (doc, ids.toArray) = (doc', ids'.toArray) ∧
      ids'.map (doc'.look trees) = Tree.merge ((ids ++ more).map (doc.look trees)) ∧
      ids <+: ids' ∧ ids'.Sublist (ids ++ more) ∧ doc'.Extends doc ids' := by
  induction more generalizing doc ids with
  | nil =>
    rw [List.append_nil]
    exact ⟨doc, ids, rfl, hmerged.merge_eq.symm, List.prefix_rfl, List.Sublist.refl _, extends_refl _ _⟩
  | cons id more ih =>
    rw [List.append_cons] at hnodup htrees ⊢
    obtain ⟨doc₁, ids₁, hstep, hlook₁, hprefix₁, hsublist₁, hextends₁⟩ :=
      exists_mergeChild_look ids id (List.nodup_append.1 hnodup).1
        (fun j hj => htrees j (List.mem_append_left _ hj)) hmerged
    have hsublist : (ids₁ ++ more).Sublist (ids ++ [id] ++ more) := hsublist₁.append_right _
    obtain ⟨doc', ids', hfold, hlook, hprefix, hsublist', hextends⟩ :=
      ih ids₁ (hsublist.nodup hnodup)
        (fun j hj hjtext => htrees j (hsublist.subset hj) (hextends₁.isText_eq j ▸ hjtext))
        (hlook₁ ▸ Tree.merged_merge _)
    refine ⟨doc', ids', ?_, ?_, hprefix₁.trans hprefix, hsublist'.trans hsublist, ?_⟩
    · rw [List.foldl_cons, hstep, hfold]
    · -- the texts that are left are those of the document before the step
      have hrest : more.map (doc₁.look trees) = more.map (doc.look trees) := by
        refine List.map_congr_left fun j hj => look_congr ?_
        rcases hextends₁ j with heq | ⟨hin, -⟩
        · exact heq
        · exact absurd rfl ((List.nodup_append.1 hnodup).2.2 j (hsublist₁.subset hin) j hj)
      rw [hlook, List.map_append, hlook₁, hrest, Tree.merge_merge_append, ← List.map_append]
    · exact hextends.trans (hextends₁.mono hprefix.subset)

/-! ### Images stay what they are -/

theorem sameImages_mapChildren (doc : Document) (id : NodeId) (f : Array NodeId → Array NodeId) :
    (doc.modify id (.mapChildren f)).SameImages doc := by
  intro j link
  rw [node?_modify]
  split
  · cases doc.node? j with
    | none => rfl
    | some node => cases node <;> simp [Node.mapChildren]
  · rfl

theorem sameImages_store_text (doc : Document) (content : List Char) :
    (doc.store (.text content)).1.SameImages doc := by
  intro j link
  rw [store, node?, Array.getElem?_push]
  split
  · rename_i hj
    have hnode : doc.node? j = none := Array.getElem?_eq_none (Nat.le_of_eq hj.symm)
    simp [hnode]
  · rfl

theorem Extends.sameImages (h : doc'.Extends doc ids) : doc'.SameImages doc := by
  intro j link
  rcases h j with heq | ⟨-, content, more, hnode, hnode'⟩
  · rw [heq]
  · simp [hnode, hnode']

theorem SameImages.trans (h' : doc''.SameImages doc') (h : doc'.SameImages doc) :
    doc''.SameImages doc :=
  fun j link => (h' j link).trans (h j link)

/-! ### The place of the container -/

/-- Whether a container stands among the children of another node, and which children stand before and
after it. -/
structure Place (doc : Document) (parent id : NodeId) (left right : List NodeId) : Prop where
  forest : doc.Forest
  children : (doc.children parent).toList = left ++ id :: right

namespace Place

theorem names (h : doc.Place parent id left right) (hj : j ∈ left ++ id :: right) :
    doc.Names (doc.host parent) j :=
  names_host_of_mem_children (Array.mem_toList_iff.1 (h.children ▸ hj))

theorem children_eq_toArray (h : doc.Place parent id left right) :
    doc.children parent = (left ++ id :: right).toArray := by
  rw [← h.children, Array.toArray_toList]

theorem nodup (h : doc.Place parent id left right) : (left ++ id :: right).Nodup :=
  h.children ▸ h.forest.nodup_children parent

theorem above_host (h : doc.Place parent id left right) :
    Relation.TransGen doc.Names (doc.host parent) (doc.host id) :=
  .head' (h.names (by simp)) (above_hostWithin doc doc.size id)

theorem host_ne (h : doc.Place parent id left right) : doc.host parent ≠ doc.host id := by
  intro heq
  exact h.forest.acyclic _ (heq ▸ h.above_host)

/-- What stands beside the container or below it. -/
def kept (doc : Document) (id : NodeId) (left right : List NodeId) : List NodeId :=
  left ++ (doc.children id).toList ++ right

theorem owner_of_mem_kept (hj : j ∈ kept doc id left right) :
    j ∈ left ++ right ∨ j ∈ (doc.children id).toList := by
  simp only [kept, List.mem_append] at hj ⊢
  tauto

theorem mem_siblings (hj : j ∈ left ++ right) : j ∈ left ++ id :: right := by
  simp only [List.mem_append, List.mem_cons] at hj ⊢
  tauto

theorem transGen_of_mem_kept (h : doc.Place parent id left right) (hj : j ∈ kept doc id left right) :
    Relation.TransGen doc.Names (doc.host parent) j := by
  rcases owner_of_mem_kept hj with hj | hj
  · exact .single (h.names (mem_siblings hj))
  · exact h.above_host.tail (names_host_of_mem_children (Array.mem_toList_iff.1 hj))

theorem lt_size_of_mem_kept (h : doc.Place parent id left right) (hj : j ∈ kept doc id left right) :
    j < doc.size := by
  obtain ⟨owner, -, hnames⟩ := Relation.TransGen.tail'_iff.1 (h.transGen_of_mem_kept hj)
  exact h.forest.there owner j hnames

/-- No way leads from there up to the node that holds the children of the parent. -/
theorem not_above_host_parent (h : doc.Place parent id left right) (hj : j ∈ kept doc id left right) :
    ¬doc.Above j (doc.host parent) := fun habove =>
  h.forest.acyclic _ ((h.transGen_of_mem_kept hj).trans_left habove)

/-- Nor to the one that holds the children of the container. -/
theorem not_above_host (h : doc.Place parent id left right) (hj : j ∈ kept doc id left right) :
    ¬doc.Above j (doc.host id) := by
  intro habove
  rcases owner_of_mem_kept hj with hsibling | hchild
  · have hne : j ≠ id := by
      rintro rfl
      have hnodup := h.nodup
      simp only [List.nodup_append, List.nodup_cons, List.mem_cons] at hnodup
      rcases List.mem_append.1 hsibling with hmem | hmem
      · exact hnodup.2.2 j hmem j (.inl rfl) rfl
      · exact hnodup.2.1.1 hmem
    have hnames : doc.Names (doc.host parent) j := h.names (mem_siblings hsibling)
    -- the way to the container itself goes through its parent, and so does the one from it
    rcases h.forest.above_or_above habove (above_hostWithin doc doc.size id) with hdown | hup
    · rcases h.forest.eq_or_above_owner hdown (h.names (by simp)) with heq | hparent
      · exact hne heq
      · exact h.not_above_host_parent hj hparent
    · rcases h.forest.eq_or_above_owner hup hnames with heq | hparent
      · exact hne heq.symm
      · exact h.forest.acyclic _ (.head' (h.names (by simp)) hparent)
  · have hnames := names_host_of_mem_children (Array.mem_toList_iff.1 hchild)
    exact h.forest.acyclic _ (.head' hnames habove)

theorem nodup_kept (h : doc.Place parent id left right) : (kept doc id left right).Nodup := by
  have hnodup := h.nodup
  simp only [List.nodup_append, List.nodup_cons, List.mem_cons] at hnodup
  obtain ⟨hleft, ⟨-, hright⟩, hne⟩ := hnodup
  have hapart {s : NodeId} (hs : s ∈ left ++ right) : s ∉ (doc.children id).toList := fun hchild =>
    h.host_ne (h.forest.owner_eq (h.names (mem_siblings hs))
      (names_host_of_mem_children (Array.mem_toList_iff.1 hchild)))
  refine List.nodup_append.2 ⟨List.nodup_append.2 ⟨hleft, h.forest.nodup_children id, ?_⟩, hright, ?_⟩
  · rintro s hs t ht rfl
    exact hapart (List.mem_append_left _ hs) ht
  · rintro s hs t ht rfl
    rcases List.mem_append.1 hs with hs | hs
    · exact hne s hs s (.inr ht) rfl
    · exact hapart (List.mem_append_right _ ht) hs

/-- A way that leads to one of these nodes from one of them starts there. -/
theorem eq_of_above (h : doc.Place parent id left right) {s : NodeId} (hs : s ∈ kept doc id left right)
    (hj : j ∈ kept doc id left right) (habove : doc.Above s j) : s = j := by
  rcases owner_of_mem_kept hj with hj | hj
  · exact (h.forest.eq_or_above_owner habove (h.names (mem_siblings hj))).resolve_right
      (h.not_above_host_parent hs)
  · exact (h.forest.eq_or_above_owner habove
      (names_host_of_mem_children (Array.mem_toList_iff.1 hj))).resolve_right (h.not_above_host hs)

/-! ### The container gives way -/

/-- The document in which the container is empty and its delimiter and its children stand at its place,
before texts are merged. -/
def spliced (doc : Document) (parent id : NodeId) (delimiter : List Char) (ids : List NodeId) : Document :=
  ((doc.setChildren id #[]).store (.text delimiter)).1.modify (doc.host parent)
    (.mapChildren fun _ => ids.toArray)

theorem size_spliced (ids : List NodeId) :
    (spliced doc parent id delimiter ids).size = doc.size + 1 := by
  rw [spliced, size_modify, size_store, setChildren, size_modify]

theorem sameImages_spliced (ids : List NodeId) : (spliced doc parent id delimiter ids).SameImages doc :=
  ((sameImages_mapChildren _ _ _).trans (sameImages_store_text _ _)).trans (sameImages_mapChildren _ _ _)

theorem node?_detached (hj : j < doc.size) :
    ((doc.setChildren id #[]).store (.text delimiter)).1.node? j =
      (doc.setChildren id #[]).node? j :=
  node?_store_of_lt _ _ (by rwa [setChildren, size_modify])

theorem node?_spliced (hj : j < doc.size) (hparent : j ≠ doc.host parent) (hid : j ≠ doc.host id)
    (ids : List NodeId) : (spliced doc parent id delimiter ids).node? j = doc.node? j := by
  rw [spliced, node?_modify_of_ne _ _ hparent, node?_detached hj, setChildren,
    node?_modify_of_ne _ _ hid]

theorem host_parent_lt_size (h : doc.Place parent id left right) : doc.host parent < doc.size :=
  lt_size_of_names (h.names (j := id) (by simp))

theorem node?_spliced_parent (h : doc.Place parent id left right) (ids : List NodeId) :
    (spliced doc parent id delimiter ids).node? (doc.host parent) =
      (doc.node? (doc.host parent)).map (.mapChildren fun _ => ids.toArray) := by
  rw [spliced, node?_modify, if_pos rfl, node?_detached h.host_parent_lt_size, setChildren,
    node?_modify_of_ne _ _ h.host_ne]

theorem host_lt_size (h : doc.Place parent id left right) : doc.host id < doc.size := by
  obtain ⟨owner, -, hnames⟩ := Relation.TransGen.tail'_iff.1 h.above_host
  exact h.forest.there owner _ hnames

theorem node?_spliced_id (h : doc.Place parent id left right) (ids : List NodeId) :
    (spliced doc parent id delimiter ids).node? (doc.host id) =
      (doc.node? (doc.host id)).map (.mapChildren fun _ => #[]) := by
  rw [spliced, node?_modify_of_ne _ _ h.host_ne.symm, node?_detached h.host_lt_size, setChildren,
    node?_modify, if_pos rfl]

theorem node?_spliced_size (h : doc.Place parent id left right) (ids : List NodeId) :
    (spliced doc parent id delimiter ids).node? doc.size = some (.text delimiter) := by
  have hsize : (doc.setChildren id #[]).size = doc.size := size_modify ..
  rw [spliced, node?_modify_of_ne _ _ (Nat.ne_of_gt h.host_parent_lt_size), ← hsize, node?_store_size]

/-- The node that holds the children of the parent is a container. -/
theorem exists_node?_parent (h : doc.Place parent id left right) :
    ∃ node, doc.node? (doc.host parent) = some node ∧
      ∀ children, (node.mapChildren fun _ => children).children = children := by
  have hchildren := h.children
  rw [Document.children] at hchildren
  cases hnode : doc.node? (doc.host parent) with
  | none => simp [hnode] at hchildren
  | some node =>
    rw [hnode] at hchildren
    refine ⟨node, rfl, fun children => ?_⟩
    cases node with
    | root | styled | link => rfl
    | code | image | text => simp [Node.children] at hchildren

/-- The children of the parent in a document where it has the given ones and images are what they
were. -/
theorem children_eq (h : doc.Place parent id left right) {rank : NodeId → Nat} (hrank : doc.Ranking rank)
    (hsize : doc.size ≤ doc'.size) (himages : doc'.SameImages doc) {ids : Array NodeId}
    (hnode : doc'.node? (doc.host parent) =
      (doc.node? (doc.host parent)).map (.mapChildren fun _ => ids)) : doc'.children parent = ids := by
  obtain ⟨node, hparent, hmap⟩ := h.exists_node?_parent
  rw [Document.children, hrank.host_eq hsize himages, hnode, hparent]
  exact hmap ids

theorem idxOf?_split (h : doc.Place parent id left right) :
    (doc.children parent).idxOf? id = some left.length := by
  have hnotin : id ∉ left := fun hmem =>
    (List.nodup_append.1 h.nodup).2.2 id hmem id List.mem_cons_self rfl
  rw [h.children_eq_toArray, List.idxOf?_toArray, idxOf?_append_cons hnotin]

/-- The delimiter, at the place that is new, and the children of the container, between what stands
before and after it. -/
def siblings (doc : Document) (id : NodeId) (left right : List NodeId) : List NodeId :=
  left ++ doc.size :: (doc.children id).toList ++ right

theorem unwrapIntoText_eq (h : doc.Place parent id left right) (delimiter : List Char)
    {merged : Document} {ids : List NodeId}
    (hfold : (siblings doc id left right).foldl mergeChild
      (spliced doc parent id delimiter (siblings doc id left right), #[]) = (merged, ids.toArray))
    (hsize : merged.size = doc.size + 1) (himages : merged.SameImages doc) :
    doc.unwrapIntoText parent id delimiter =
      merged.modify (doc.host parent) (.mapChildren fun _ => ids.toArray) := by
  obtain ⟨rank, hrank⟩ := h.forest.exists_ranking
  have hdetached : ((doc.setChildren id #[]).store (.text delimiter)).1.SameImages doc :=
    (sameImages_store_text _ _).trans (sameImages_mapChildren _ _ _)
  have hsize' : doc.size ≤ ((doc.setChildren id #[]).store (.text delimiter)).1.size := by
    rw [size_store, setChildren, size_modify]
    exact Nat.le_succ _
  have hhost := hrank.host_eq hsize' hdetached parent
  have hchildren : ((doc.setChildren id #[]).store (.text delimiter)).1.children parent =
      doc.children parent := by
    rw [Document.children, hhost, node?_detached h.host_parent_lt_size, setChildren,
      node?_modify_of_ne _ _ h.host_ne, Document.children]
  have htext : ((doc.setChildren id #[]).store (.text delimiter)).2 = doc.size := by
    rw [store_snd, setChildren, size_modify]
  have harray : (doc.children parent).take left.length ++ #[doc.size] ++ doc.children id ++
      (doc.children parent).drop (left.length + 1) = (siblings doc id left right).toArray := by
    rw [h.children_eq_toArray]
    simp [siblings]
    omega
  have hsiblings : (spliced doc parent id delimiter (siblings doc id left right)).children parent =
      (siblings doc id left right).toArray :=
    h.children_eq hrank (by rw [size_spliced]; exact Nat.le_succ _) (sameImages_spliced _)
      (h.node?_spliced_parent _)
  rw [unwrapIntoText]
  simp only [hchildren, htext, h.idxOf?_split, harray]
  rw [Document.setChildren, hhost, ← spliced, mergeTexts, hsiblings, List.foldl_toArray, hfold]
  simp only [setChildren, hrank.host_eq (by omega) himages]

theorem mem_siblings_iff : j ∈ siblings doc id left right ↔ j = doc.size ∨ j ∈ kept doc id left right := by
  simp only [siblings, kept, List.mem_append, List.mem_cons]
  tauto

theorem nodup_siblings (h : doc.Place parent id left right) : (siblings doc id left right).Nodup := by
  have hperm : (siblings doc id left right).Perm (doc.size :: kept doc id left right) := by
    simp only [siblings, kept, List.append_assoc, List.cons_append]
    exact List.perm_middle
  refine hperm.nodup_iff.2 (List.nodup_cons.2 ⟨fun hmem => ?_, h.nodup_kept⟩)
  exact Nat.lt_irrefl _ (h.lt_size_of_mem_kept hmem)

/-- What stands beside the container or below it is not touched before texts are merged. -/
theorem node?_spliced_of_above (h : doc.Place parent id left right) {s : NodeId}
    (hs : s ∈ kept doc id left right) (habove : doc.Above s j) (ids : List NodeId) :
    (spliced doc parent id delimiter ids).node? j = doc.node? j := by
  refine node?_spliced (h.forest.lt_size_of_above (h.lt_size_of_mem_kept hs) habove) ?_ ?_ ids
  · rintro rfl
    exact h.not_above_host_parent hs habove
  · rintro rfl
    exact h.not_above_host hs habove

theorem distinct_spliced (h : doc.Place parent id left right) (delimiter : List Char)
    (ids : List NodeId) :
    (spliced doc parent id delimiter ids).Distinct doc.tree (siblings doc id left right) := by
  intro j hj hjtext
  rcases mem_siblings_iff.1 hj with rfl | hj
  · simp [isText, h.node?_spliced_size, Node.kind] at hjtext
  · rw [isText_tree doc (h.lt_size_of_mem_kept hj), ← hjtext, isText, isText,
      h.node?_spliced_of_above hj .refl]

/-- The trees that stand beside the container and below it, with the delimiter among them. -/
theorem map_look_siblings (h : doc.Place parent id left right) (delimiter : List Char) (ids : List NodeId) :
    (siblings doc id left right).map ((spliced doc parent id delimiter ids).look doc.tree) =
      left.map doc.tree ++ .text delimiter :: (doc.children id).toList.map doc.tree ++
        right.map doc.tree := by
  have hkept {s : NodeId} (hs : s ∈ kept doc id left right) :
      (spliced doc parent id delimiter ids).look doc.tree s = doc.tree s := by
    rw [look, h.node?_spliced_of_above hs .refl]
    split
    · rename_i content hnode
      exact (treeWithin_of_text hnode (Nat.zero_lt_of_lt (h.lt_size_of_mem_kept hs))).symm
    · rfl
  have hmap {part : List NodeId} (hpart : part ⊆ kept doc id left right) :
      part.map ((spliced doc parent id delimiter ids).look doc.tree) = part.map doc.tree :=
    List.map_congr_left fun s hs => hkept (hpart hs)
  rw [siblings, List.map_append, List.map_append, List.map_cons, look_of_text (h.node?_spliced_size ids),
    hmap, hmap, hmap]
  · exact List.subset_append_right _ _
  · exact fun s hs => List.mem_append_left _ (List.mem_append_right _ hs)
  · exact fun s hs => List.mem_append_left _ (List.mem_append_left _ hs)

end Place

/-- What a document has become whose container gave way: `ids` are the children of its parent now. -/
structure Pass (doc doc' : Document) (parent id : NodeId) (delimiter : List Char)
    (left right ids : List NodeId) : Prop where
  place : doc.Place parent id left right
  size : doc'.size = doc.size + 1
  images : doc'.SameImages doc
  sublist : ids.Sublist (Place.siblings doc id left right)
  trees : ids.map (doc'.look doc.tree) = Tree.merge (left.map doc.tree ++
    .text delimiter :: (doc.children id).toList.map doc.tree ++ right.map doc.tree)
  nodeParent : doc'.node? (doc.host parent) =
    (doc.node? (doc.host parent)).map (.mapChildren fun _ => ids.toArray)
  node : doc'.node? (doc.host id) = (doc.node? (doc.host id)).map (.mapChildren fun _ => #[])
  text : doc'.isText doc.size = true
  frame : ∀ j < doc.size, j ≠ doc.host parent → j ≠ doc.host id → doc'.KeepsAt doc ids j

theorem Place.ne_host_of_mem_siblings (h : doc.Place parent id left right)
    (hj : j ∈ siblings doc id left right) : j ≠ doc.host parent ∧ j ≠ doc.host id := by
  rcases mem_siblings_iff.1 hj with rfl | hj
  · exact ⟨Nat.ne_of_gt h.host_parent_lt_size, Nat.ne_of_gt h.host_lt_size⟩
  · refine ⟨?_, ?_⟩
    · rintro rfl
      exact h.not_above_host_parent hj .refl
    · rintro rfl
      exact h.not_above_host hj .refl

theorem Extends.node?_eq_of_notMem (h : doc'.Extends doc ids) (hj : j ∉ ids) :
    doc'.node? j = doc.node? j :=
  (h j).resolve_right fun hlonger => hj hlonger.1

theorem Place.pass_unwrapIntoText (h : doc.Place parent id left right) (delimiter : List Char) :
    ∃ ids, doc.Pass (doc.unwrapIntoText parent id delimiter) parent id delimiter left right ids := by
  obtain ⟨merged, ids, hfold, hlook, -, hsublist, hextends⟩ :=
    exists_foldl_mergeChild [] (siblings doc id left right) h.nodup_siblings
      (h.distinct_spliced delimiter (siblings doc id left right)) .nil
  have hsize : merged.size = doc.size + 1 := hextends.size_eq.trans (size_spliced _)
  have himages : merged.SameImages doc := hextends.sameImages.trans (sameImages_spliced _)
  have hhosts {j : NodeId} (hj : j ∈ ids) := h.ne_host_of_mem_siblings (hsublist.subset hj)
  have hnodeParent := hextends.node?_eq_of_notMem fun hj => (hhosts hj).1 rfl
  have hnode := hextends.node?_eq_of_notMem fun hj => (hhosts hj).2 rfl
  rw [h.node?_spliced_parent] at hnodeParent
  rw [h.node?_spliced_id] at hnode
  rw [h.unwrapIntoText_eq delimiter hfold hsize himages]
  refine ⟨ids, h, ?_, ?_, hsublist, ?_, ?_, ?_, ?_, fun j hj hparent hid => ?_⟩
  · rw [size_modify, hsize]
  · exact (sameImages_mapChildren _ _ _).trans himages
  · refine Eq.trans ?_ (hlook.trans (congrArg Tree.merge (h.map_look_siblings delimiter _)))
    exact List.map_congr_left fun j hj => look_congr (node?_modify_of_ne _ _ (hhosts hj).1)
  · rw [node?_modify, if_pos rfl, hnodeParent, Option.map_map]
    congr 1
    funext node
    cases node <;> rfl
  · rw [node?_modify_of_ne _ _ h.host_ne.symm, hnode]
  · rw [isText, node?_modify_of_ne _ _ (Nat.ne_of_gt h.host_parent_lt_size), ← isText,
      hextends.isText_eq, isText, h.node?_spliced_size]
    rfl
  · rw [KeepsAt, node?_modify_of_ne _ _ hparent, ← node?_spliced hj hparent hid]
    exact hextends j

namespace Pass

theorem children_parent (h : doc.Pass doc' parent id delimiter left right ids) :
    doc'.children parent = ids.toArray := by
  obtain ⟨rank, hrank⟩ := h.place.forest.exists_ranking
  exact h.place.children_eq hrank (h.size ▸ Nat.le_succ _) h.images h.nodeParent

theorem children_id (h : doc.Pass doc' parent id delimiter left right ids) : doc'.children id = #[] := by
  obtain ⟨rank, hrank⟩ := h.place.forest.exists_ranking
  rw [children, hrank.host_eq (h.size ▸ Nat.le_succ _) h.images, h.node]
  cases doc.node? (doc.host id) with
  | none => rfl
  | some node => cases node <;> rfl

/-- A child of the parent that is no text has the tree that it had. -/
theorem node?_eq_of_above (h : doc.Pass doc' parent id delimiter left right ids) {child : NodeId}
    (hchild : child ∈ Place.kept doc id left right) (htext : doc.isText child = false)
    (habove : doc.Above child j) : doc'.node? j = doc.node? j := by
  have hj := h.place.forest.lt_size_of_above (h.place.lt_size_of_mem_kept hchild) habove
  have hparent : j ≠ doc.host parent := by
    rintro rfl
    exact h.place.not_above_host_parent hchild habove
  have hid : j ≠ doc.host id := by
    rintro rfl
    exact h.place.not_above_host hchild habove
  rcases h.frame j hj hparent hid with heq | ⟨hmem, content, -, hnode, -⟩
  · exact heq
  · rcases Place.mem_siblings_iff.1 (h.sublist.subset hmem) with rfl | hkept
    · exact absurd hj (Nat.lt_irrefl _)
    · rw [h.place.eq_of_above hchild hkept habove] at htext
      simp [isText, hnode, Node.kind] at htext

/-- A child of the parent is a text as it is now, or has the tree that it had. -/
theorem treeWithin_eq_look (h : doc.Pass doc' parent id delimiter left right ids) {child levels : Nat}
    (hchild : child ∈ ids) (hlevels : doc.size ≤ levels) :
    doc'.treeWithin levels child = doc'.look doc.tree child := by
  obtain ⟨rank, hrank⟩ := h.place.forest.exists_ranking
  have hpos : 0 < levels := (Nat.zero_lt_of_lt h.place.host_lt_size).trans_le hlevels
  cases htext : doc'.isText child with
  | true =>
    obtain ⟨content, hnode⟩ := exists_content_of_isText htext
    rw [treeWithin_of_text hnode hpos, look_of_text hnode]
  | false =>
    have hkept : child ∈ Place.kept doc id left right := by
      refine (Place.mem_siblings_iff.1 (h.sublist.subset hchild)).resolve_left ?_
      rintro rfl
      exact Bool.noConfusion (htext.symm.trans h.text)
    have hlt := h.place.lt_size_of_mem_kept hkept
    have hhosts := h.place.ne_host_of_mem_siblings (h.sublist.subset hchild)
    have hold : doc.isText child = false := by
      rcases h.frame child hlt hhosts.1 hhosts.2 with heq | ⟨-, content, more, -, hnode⟩
      · rwa [isText, ← heq, ← isText]
      · simp [isText, hnode, Node.kind] at htext
    rw [look_of_isText_eq_false htext, hrank.treeWithin_congr (h.size ▸ Nat.le_succ _) h.images
      (fun j habove => h.node?_eq_of_above hkept hold habove), hrank.treeWithin_eq_tree hlt hlevels]

theorem map_treeWithin (h : doc.Pass doc' parent id delimiter left right ids) {levels : Nat}
    (hlevels : doc.size ≤ levels) : (doc'.children parent).toList.map (doc'.treeWithin levels) =
      Tree.merge (left.map doc.tree ++ .text delimiter :: (doc.children id).toList.map doc.tree ++
        right.map doc.tree) := by
  rw [h.children_parent, ← h.trees]
  exact List.map_congr_left fun child hchild => h.treeWithin_eq_look hchild hlevels

theorem map_tree (h : doc.Pass doc' parent id delimiter left right ids) :
    (doc'.children parent).toList.map doc'.tree =
      Tree.merge (left.map doc.tree ++ .text delimiter :: (doc.children id).toList.map doc.tree ++
        right.map doc.tree) :=
  h.map_treeWithin (h.size ▸ Nat.le_succ _)

theorem isChain_children (h : doc.Pass doc' parent id delimiter left right ids) :
    (doc'.children parent).toList.IsChain fun a b => ¬(doc'.isText a ∧ doc'.isText b) := by
  have hmerged : Tree.Merged ((doc'.children parent).toList.map doc'.tree) := h.map_tree ▸ Tree.merged_merge _
  refine ((List.isChain_map doc'.tree).1 hmerged).imp fun a b hnot hboth => hnot ?_
  have htree {j : NodeId} (hj : doc'.isText j = true) : (doc'.tree j).isText = true := by
    obtain ⟨content, hnode⟩ := exists_content_of_isText hj
    rw [isText_tree doc' (lt_size_of_node? hnode), hj]
  exact ⟨htree hboth.1, htree hboth.2⟩

end Pass

/-! ### What a reader sees -/

theorem Place.displayText_parent (h : doc.Place parent id left right) :
    doc.displayText parent = left.flatMap doc.displayText ++
      (doc.displayText id ++ right.flatMap doc.displayText) := by
  obtain ⟨rank, hrank⟩ := h.forest.exists_ranking
  have hmem : id ∈ doc.children parent := Array.mem_toList_iff.1 (by simp [h.children])
  rw [hrank.displayText_eq (isContainer_of_mem_children hmem), h.children, List.flatMap_append,
    List.flatMap_cons]

theorem Pass.displayText_parent (h : doc.Pass doc' parent id delimiter left right ids)
    (hid : doc.IsContainer id) : doc'.displayText parent = left.flatMap doc.displayText ++
      (delimiter ++ (doc.displayText id ++ right.flatMap doc.displayText)) := by
  obtain ⟨rank, hrank⟩ := h.place.forest.exists_ranking
  have htrees := h.map_treeWithin (Nat.le_refl _)
  obtain ⟨child, hchild⟩ : ∃ child, child ∈ doc'.children parent := by
    by_contra hnone
    have hnil : doc'.children parent = #[] := Array.eq_empty_iff_forall_not_mem.2 (not_exists.1 hnone)
    rw [hnil] at htrees
    exact Tree.merge_ne_nil (by simp) htrees.symm
  rw [displayText_of_treeWithin h.size (isContainer_of_mem_children hchild), htrees,
    hrank.displayText_eq hid]
  simp only [Tree.allShown_merge, Tree.allShown_append, Tree.allShown, Tree.shown, allShown_map_tree,
    List.append_assoc]

/-! ### All that is left -/

/-- What a container leaves that stood between `left` and `right` under its parent, and has given way to a
delimiter and its children. -/
structure Unwrapped (doc doc' : Document) (parent id : NodeId) (delimiter : List Char)
    (left right : List NodeId) : Prop where
  /-- The delimiter and the children stand at the place of the container, texts merged. -/
  trees : (doc'.children parent).toList.map doc'.tree = Tree.merge (left.map doc.tree ++
    .text delimiter :: (doc.children id).toList.map doc.tree ++ right.map doc.tree)
  apart : (doc'.children parent).toList.IsChain fun a b => ¬(doc'.isText a ∧ doc'.isText b)
  childless : doc'.children id = #[]
  /-- The delimiter shows where the container began to show. -/
  shownBefore : doc.displayText parent = left.flatMap doc.displayText ++
    (doc.displayText id ++ right.flatMap doc.displayText)
  shown : doc'.displayText parent = left.flatMap doc.displayText ++
    (delimiter ++ (doc.displayText id ++ right.flatMap doc.displayText))
  size : doc'.size = doc.size + 1
  /-- The nodes that hold the children of the parent and of the container hold others now, and are the
  same nodes for the rest. -/
  nodeParent : doc'.node? (doc.host parent) =
    (doc.node? (doc.host parent)).map (.mapChildren fun _ => doc'.children parent)
  node : doc'.node? (doc.host id) = (doc.node? (doc.host id)).map (.mapChildren fun _ => #[])
  frame : ∀ j < doc.size, j ≠ doc.host parent → j ≠ doc.host id →
    doc'.KeepsAt doc (doc'.children parent).toList j

/-- A container under a parent gives way to its delimiter and its children at its own place. -/
theorem unwrapIntoText_in_place (h : doc.Forest) (hchild : id ∈ doc.children parent)
    (hid : doc.IsContainer id) (delimiter : List Char) :
    ∃ left right, (doc.children parent).toList = left ++ id :: right ∧
      doc.Unwrapped (doc.unwrapIntoText parent id delimiter) parent id delimiter left right := by
  obtain ⟨left, right, hsplit⟩ := List.append_of_mem (Array.mem_toList_iff.2 hchild)
  have hplace : doc.Place parent id left right := ⟨h, hsplit⟩
  obtain ⟨ids, hpass⟩ := hplace.pass_unwrapIntoText delimiter
  have hids : ids = ((doc.unwrapIntoText parent id delimiter).children parent).toList := by
    rw [hpass.children_parent]
  refine ⟨left, right, hsplit, hpass.map_tree, hpass.isChain_children, hpass.children_id,
    hplace.displayText_parent, hpass.displayText_parent hid, hpass.size, ?_, hpass.node, ?_⟩
  · rw [hpass.children_parent]
    exact hpass.nodeParent
  · exact hids ▸ hpass.frame

/-- An image with a text, between two texts. -/
def imageBetweenTexts : Document :=
  ⟨#[.root #[1, 3, 5], .text ['a'], .link ['u'] #[4], .image 2, .text ['b'], .text ['c']]⟩

theorem unwrapIntoText_in_place_imageBetweenTexts :
    imageBetweenTexts.Forest ∧ 3 ∈ imageBetweenTexts.children rootId ∧ imageBetweenTexts.IsContainer 3 ∧
      ∃ left right, (imageBetweenTexts.children rootId).toList = left ++ 3 :: right ∧
        imageBetweenTexts.Unwrapped (imageBetweenTexts.unwrapIntoText rootId 3 ['!', '[']) rootId 3
          ['!', '['] left right := by
  have hforest : imageBetweenTexts.Forest := forest_of_rank ([3, 0, 1, 2, 0, 0].getD · 0)
    (by decide) (by decide)
  have hchild : 3 ∈ imageBetweenTexts.children rootId := by decide +kernel
  have hcontainer : imageBetweenTexts.IsContainer 3 := ⟨_, rfl, by decide, by decide⟩
  exact ⟨hforest, hchild, hcontainer, unwrapIntoText_in_place hforest hchild hcontainer ['!', '[']⟩

example : (imageBetweenTexts.unwrapIntoText rootId 3 ['!', '[']).node? 1 =
    some (.text ['a', '!', '[', 'b', 'c']) := by
  decide +kernel

end InlineMarkup.Document
