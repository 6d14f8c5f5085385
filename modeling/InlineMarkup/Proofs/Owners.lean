import InlineMarkup.Proofs.Linked

/-! Owners: at no moment of assembly is a node named twice, be it as a child or as what an image
wraps. -/

namespace InlineMarkup

namespace Document

/-- The nodes that the nodes of the document name, each as often as it is named. -/
def namedNodes (doc : Document) : List NodeId := doc.nodes.toList.flatMap Node.named

variable {doc doc' : Document} {id parent child : NodeId} {node : Node}

theorem namedNodes_store (doc : Document) (node : Node) :
    (doc.store node).1.namedNodes = doc.namedNodes ++ node.named := by
  simp [namedNodes, store]

/-- A node that changes takes back what it named, and names something else. -/
theorem count_namedNodes_modify (h : doc.node? id = some node) (f : Node → Node) (j : NodeId) :
    (doc.modify id f).namedNodes.count j + node.named.count j =
      doc.namedNodes.count j + (f node).named.count j := by
  obtain ⟨hlt, hnode⟩ := Array.getElem?_eq_some_iff.1 h
  obtain ⟨before, a, after, hsplit, hlength, hmodify⟩ :=
    List.exists_of_modify f (l := doc.nodes.toList) (i := id) (by simpa using hlt)
  obtain rfl : a = node := by
    rw [← hnode, ← Array.getElem_toList hlt]
    simp only [hsplit, ← hlength, List.getElem_append_right (Nat.le_refl _), Nat.sub_self,
      List.getElem_cons_zero]
  rw [namedNodes, namedNodes, modify, Array.toList_modify, hmodify, hsplit]
  simp only [List.flatMap_append, List.flatMap_cons, List.count_append]
  omega

theorem namedNodes_modify_of_node?_eq_none (h : doc.node? id = none) (f : Node → Node) :
    (doc.modify id f).namedNodes = doc.namedNodes := by
  have hle := Array.getElem?_eq_none_iff.1 h
  rw [namedNodes, modify, Array.toList_modify, List.modify_eq_self (by simpa using hle), namedNodes]

/-- A change that leaves alone what a node names. -/
theorem count_namedNodes_modify_of_named_eq (id : NodeId) {f : Node → Node}
    (hf : ∀ node, (f node).named = node.named) (j : NodeId) :
    (doc.modify id f).namedNodes.count j = doc.namedNodes.count j := by
  cases hnode : doc.node? id with
  | none => rw [namedNodes_modify_of_node?_eq_none hnode]
  | some node =>
    have hcount := count_namedNodes_modify hnode f j
    rw [hf] at hcount
    omega

theorem named_extendText (more : List Char) (node : Node) :
    (node.extendText more).named = node.named := by
  cases node <;> rfl

theorem named_withUrl (url : List Char) (node : Node) : (node.withUrl url).named = node.named := by
  cases node <;> rfl

/-- A container that gets other children gives up those that it has. A leaf has none, and gets none. -/
theorem count_namedNodes_mapChildren (doc : Document) (id : NodeId) (f : Array NodeId → Array NodeId)
    (j : NodeId) :
    (doc.modify (doc.host id) (.mapChildren f)).namedNodes.count j + (doc.children id).toList.count j ≤
      doc.namedNodes.count j + (f (doc.children id)).toList.count j := by
  unfold children
  cases hnode : doc.node? (doc.host id) with
  | none =>
    rw [namedNodes_modify_of_node?_eq_none hnode]
    simp
  | some node =>
    have hcount := count_namedNodes_modify hnode (.mapChildren f) j
    cases node with
    | root | styled | link =>
      simp only [Node.mapChildren, Node.named, Option.map_some, Option.getD_some, Node.children]
        at hcount ⊢
      omega
    | code | image | text =>
      simp only [Node.mapChildren, Node.named, Option.map_some, Option.getD_some, Node.children,
        Array.toList_empty, List.count_nil] at hcount ⊢
      omega

theorem count_namedNodes_append (doc : Document) (parent child j : NodeId) :
    (doc.append parent child).namedNodes.count j ≤ doc.namedNodes.count j + [child].count j := by
  have hcount := count_namedNodes_mapChildren doc parent (·.push child) j
  rw [Array.toList_push, List.count_append] at hcount
  rw [append]
  omega

theorem count_namedNodes_add (doc : Document) (parent : NodeId) (node : Node) (j : NodeId) :
    (doc.add parent node).1.namedNodes.count j ≤
      (node.named ++ [doc.size]).count j + doc.namedNodes.count j := by
  have hcount := count_namedNodes_append (doc.store node).1 parent doc.size j
  rw [namedNodes_store, List.count_append] at hcount
  rw [List.count_append]
  exact Nat.le_trans hcount (by omega)

/-! ### Texts that are merged -/

theorem hostWithin_extendText (doc : Document) (id : NodeId) (more : List Char) (levels : Nat)
    (j : NodeId) : (doc.modify id (.extendText more)).hostWithin levels j = doc.hostWithin levels j := by
  induction levels generalizing j with
  | zero => rfl
  | succ levels ih =>
    rw [hostWithin, hostWithin, node?_modify]
    by_cases hid : id = j
    · rw [if_pos hid]
      cases doc.node? j with
      | none => rfl
      | some node =>
        cases node with
        | image link => exact ih link
        | root | styled | code | link | text => rfl
    · rw [if_neg hid]
      cases doc.node? j with
      | none => rfl
      | some node =>
        cases node with
        | image link => exact ih link
        | root | styled | code | link | text => rfl

theorem children_extendText (doc : Document) (id : NodeId) (more : List Char) (j : NodeId) :
    (doc.modify id (.extendText more)).children j = doc.children j := by
  rw [children, children, host, host, size_modify, hostWithin_extendText, node?_modify]
  split
  · cases doc.node? (doc.hostWithin doc.size j) with
    | none => rfl
    | some node => cases node <;> rfl
  · rfl

/-- Children that are merged one by one are no others than before, and what nodes name does not
change. -/
theorem count_foldl_mergeChild (doc : Document) (children : List NodeId) (merged : Array NodeId)
    (parent j : NodeId) :
    (children.foldl mergeChild (doc, merged)).1.namedNodes.count j = doc.namedNodes.count j ∧
      (children.foldl mergeChild (doc, merged)).1.children parent = doc.children parent ∧
      (children.foldl mergeChild (doc, merged)).2.toList.count j ≤
        merged.toList.count j + children.count j := by
  induction children generalizing doc merged with
  | nil => exact ⟨rfl, rfl, Nat.le_refl _⟩
  | cons child children ih =>
    rw [List.foldl_cons]
    rcases mergeChild_cases doc merged child with hstep | ⟨last, next, hstep⟩
    · rw [hstep]
      obtain ⟨hnamed, hchildren, hmerged⟩ := ih doc (merged.push child)
      refine ⟨hnamed, hchildren, Nat.le_trans hmerged ?_⟩
      simp only [Array.toList_push, List.count_append, List.count_cons, List.count_nil]
      omega
    · rw [hstep]
      obtain ⟨hnamed, hchildren, hmerged⟩ := ih (doc.modify last (.extendText next)) merged
      refine ⟨?_, ?_, Nat.le_trans hmerged ?_⟩
      · rw [hnamed, count_namedNodes_modify_of_named_eq last (named_extendText next)]
      · rw [hchildren, children_extendText]
      · rw [List.count_cons]
        omega

theorem count_namedNodes_mergeTexts (doc : Document) (parent j : NodeId) :
    (doc.mergeTexts parent).namedNodes.count j ≤ doc.namedNodes.count j := by
  obtain ⟨hnamed, hchildren, hmerged⟩ :=
    count_foldl_mergeChild doc (doc.children parent).toList #[] parent j
  rw [Array.foldl_toList] at hnamed hchildren hmerged
  have hset := count_namedNodes_mapChildren ((doc.children parent).foldl mergeChild (doc, #[])).1 parent
    (fun _ => ((doc.children parent).foldl mergeChild (doc, #[])).2) j
  rw [hchildren, hnamed] at hset
  rw [Array.toList_empty, List.count_nil] at hmerged
  exact Nat.le_of_add_le_add_right (Nat.le_trans hset (by omega))

/-- A text and what one of the siblings held take the place of that sibling. -/
theorem count_splice (siblings moved : Array NodeId) (text i j : NodeId) :
    (siblings.take i ++ #[text] ++ moved ++ siblings.drop (i + 1)).toList.count j ≤
      [text].count j + moved.toList.count j + siblings.toList.count j := by
  have hrest : (siblings.toList.drop (i + 1)).count j ≤ (siblings.toList.drop i).count j :=
    (List.drop_sublist_drop_left _ (Nat.le_succ i)).count_le j
  have hall : siblings.toList.count j =
      (siblings.toList.take i).count j + (siblings.toList.drop i).count j := by
    rw [← List.count_append, List.take_append_drop]
  have hdrop : (siblings.drop (i + 1)).toList = siblings.toList.drop (i + 1) := by
    rw [Array.drop_eq_extract, Array.toList_extract, List.extract_eq_take_drop,
      List.take_of_length_le (by simp)]
  simp only [Array.toList_append, hdrop, Array.take_eq_extract, Array.toList_extract,
    List.extract_eq_take_drop, Nat.sub_zero, List.drop_zero, List.count_append]
  omega

/-- What a container held hangs under its parent, in its place. -/
theorem count_namedNodes_unwrapIntoText (doc : Document) (parent id : NodeId) (delimiter : List Char)
    (j : NodeId) : (doc.unwrapIntoText parent id delimiter).namedNodes.count j ≤
      [doc.size].count j + doc.namedNodes.count j := by
  have hempty := count_namedNodes_mapChildren doc id (fun _ => #[]) j
  rw [Array.toList_empty, List.count_nil] at hempty
  have hstore : ((doc.setChildren id #[]).store (.text delimiter)).1.namedNodes.count j =
      (doc.setChildren id #[]).namedNodes.count j := by
    rw [namedNodes_store, Node.named, List.append_nil]
  have htext : ((doc.setChildren id #[]).store (.text delimiter)).2 = doc.size := by
    rw [store_snd, setChildren, size_modify]
  unfold unwrapIntoText
  dsimp only
  generalize (doc.setChildren id #[]).store (.text delimiter) = stored at hstore htext ⊢
  rw [← setChildren] at hempty
  split
  · omega
  · rename_i i _
    have hset := count_namedNodes_mapChildren stored.1 parent (fun _ =>
      (stored.1.children parent).take i ++ #[stored.2] ++ doc.children id ++
        (stored.1.children parent).drop (i + 1)) j
    have hsplice := count_splice (stored.1.children parent) (doc.children id) stored.2 i j
    rw [htext] at hset hsplice
    refine Nat.le_trans (count_namedNodes_mergeTexts ..) ?_
    rw [htext, setChildren]
    omega

/-! ### Nodes that are named once at most -/

theorem Linked.lt_of_mem_namedNodes (h : doc.Linked) : ∀ j ∈ doc.namedNodes, j < doc.size := by
  intro j hj
  obtain ⟨node, hnode, hj⟩ := List.mem_flatMap.1 hj
  obtain ⟨id, hid⟩ := List.mem_iff_getElem?.1 hnode
  rw [Array.getElem?_toList] at hid
  exact h.named hid j hj

/-- What was named stays named once at most, and so are nodes that are new. -/
theorem Linked.nodup_namedNodes (h : doc.Linked) (hnodup : doc.namedNodes.Nodup)
    (fresh : List NodeId) (hfresh : fresh.Nodup) (hnew : ∀ j ∈ fresh, doc.size ≤ j)
    (hcount : ∀ j, doc'.namedNodes.count j ≤ fresh.count j + doc.namedNodes.count j) :
    doc'.namedNodes.Nodup := by
  have hall : (fresh ++ doc.namedNodes).Nodup := List.nodup_append.2 ⟨hfresh, hnodup, by
    rintro j hj k hk rfl
    exact Nat.not_lt.2 (hnew j hj) (h.lt_of_mem_namedNodes j hk)⟩
  refine List.nodup_iff_count_le_one.2 fun j => ?_
  have hone := List.nodup_iff_count_le_one.1 hall j
  rw [List.count_append] at hone
  exact (hcount j).trans hone

theorem Linked.nodup_namedNodes_add (h : doc.Linked) (hnodup : doc.namedNodes.Nodup) (parent : NodeId)
    (node : Node) (hnode : node.named = []) : (doc.add parent node).1.namedNodes.Nodup :=
  h.nodup_namedNodes hnodup [doc.size] (List.nodup_singleton _) (by simp) fun j => by
    have hcount := count_namedNodes_add doc parent node j
    rwa [hnode, List.nil_append] at hcount

theorem Linked.nodup_namedNodes_pushText (h : doc.Linked) (hnodup : doc.namedNodes.Nodup)
    (parent : NodeId) (content : List Char) : (doc.pushText parent content).namedNodes.Nodup := by
  have hadded : (doc.addText parent content).1.namedNodes.Nodup :=
    h.nodup_namedNodes_add hnodup parent _ rfl
  unfold Document.pushText
  split
  · exact hnodup
  · split
    · split
      · refine h.nodup_namedNodes hnodup [] List.nodup_nil (by simp) fun j => ?_
        rw [count_namedNodes_modify_of_named_eq _ (named_extendText content)]
        exact Nat.le_add_left ..
      · exact hadded
    · exact hadded

/-- The link that an image wraps is named by the image alone. -/
theorem Linked.nodup_namedNodes_addEmpty (h : doc.Linked) (hnodup : doc.namedNodes.Nodup)
    (parent : NodeId) (tag : Tag) : (doc.addEmpty parent tag.nodeKind).1.namedNodes.Nodup := by
  cases tag with
  | styled style => exact h.nodup_namedNodes_add hnodup parent _ rfl
  | link => exact h.nodup_namedNodes_add hnodup parent _ rfl
  | image =>
    refine h.nodup_namedNodes hnodup [doc.size, doc.size + 1] (by simp) (by simp) fun j => ?_
    have hcount := count_namedNodes_add (doc.store (.link [] #[])).1 parent (.image doc.size) j
    rwa [namedNodes_store, size_store, Node.named, Node.named, Array.toList_empty, List.append_nil] at hcount

end Document

namespace Assembly

variable {assembly : Assembly} {tokens : List Token} {pairing : Pairing}

theorem Linked.nodup_namedNodes_takeLeaf (h : assembly.Linked)
    (hnodup : assembly.document.namedNodes.Nodup) (token : Token) :
    (assembly.takeLeaf token).document.namedNodes.Nodup := by
  have hcode : (assembly.addCode token).document.namedNodes.Nodup :=
    h.document.nodup_namedNodes_add hnodup assembly.current _ rfl
  have htext (content : List Char) : (assembly.addText token content).document.namedNodes.Nodup :=
    h.document.nodup_namedNodes_pushText hnodup assembly.current content
  unfold Assembly.takeLeaf
  split
  · exact htext _
  · exact hcode
  · exact hcode
  · have hlink := h.document.nodup_namedNodes_add hnodup assembly.current (.link token.raw #[]) rfl
    have hlinked := (h.document.add assembly.current (.link token.raw #[]) (by simp)).1
    exact hlinked.nodup_namedNodes_add hlink _ (.text token.raw) rfl
  all_goals exact htext _

/-- At no moment is a node a child of two containers, twice the child of one, or a child of one and
wrapped by an image. -/
theorem Reached.nodup_namedNodes (h : Reached tokens assembly pairing) :
    assembly.document.namedNodes.Nodup := by
  induction h with
  | start => exact List.nodup_nil
  | @leaf _ assembly _ h token recoveries ih =>
    have hlinked : Linked { assembly with recoveries } := ⟨h.linked.document, h.linked.openTags⟩
    exact hlinked.nodup_namedNodes_takeLeaf ih token
  | opened h token tag hkind hroom ih =>
    rw [openTag_of_lt tag token hroom]
    exact h.linked.document.nodup_namedNodes_addEmpty ih _ tag
  | demoted h hopen ih =>
    exact h.linked.document.nodup_namedNodes ih _ (List.nodup_singleton _) (by simp) fun j =>
      Document.count_namedNodes_unwrapIntoText ..
  | @finished _ assembly opened openTags _ _ _ h hopen token hkind ih =>
    rw [document_finish]
    split
    · exact ih
    · refine h.linked.document.nodup_namedNodes ih [] List.nodup_nil (by simp) fun j => ?_
      rw [Document.setUrl, Document.count_namedNodes_modify_of_named_eq _ (Document.named_withUrl _)]
      exact Nat.le_add_left ..

end Assembly

end InlineMarkup
