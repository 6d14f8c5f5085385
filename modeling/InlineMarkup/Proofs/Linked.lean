import InlineMarkup.Proofs.Moments
import InlineMarkup.Proofs.Places

/-! Links between nodes: at no moment of assembly does a node or an open tag name a node that is not
there. -/

namespace InlineMarkup

/-- The nodes that a node names: its children, or the link that it wraps. -/
@[simp] def Node.named : Node → List NodeId
  | image inner => [inner]
  | root children | styled _ children | link _ children => children.toList
  | code _ _ | text _ => []

namespace Document

/-- Whether the root is there and every node that a node names. -/
structure Linked (doc : Document) : Prop where
  root : rootId < doc.size
  named : ∀ {id : NodeId} {node : Node}, doc.node? id = some node → ∀ child ∈ node.named, child < doc.size

variable {doc : Document} {id parent child : NodeId} {node : Node} {bound : Nat}

theorem named_mapChildren {f : Array NodeId → Array NodeId} (h : ∀ child ∈ node.named, child < bound)
    (hf : (∀ child ∈ node.children, child < bound) → ∀ child ∈ f node.children, child < bound) :
    ∀ child ∈ (node.mapChildren f).named, child < bound := by
  cases node <;> simp_all [Node.mapChildren, Node.children]

theorem linked_empty : Document.empty.Linked := by
  refine ⟨Nat.one_pos, fun {id node} h child hchild => ?_⟩
  obtain ⟨hlt, h⟩ := Array.getElem?_eq_some_iff.1 h
  obtain rfl : id = 0 := Nat.lt_one_iff.1 hlt
  rw [← h] at hchild
  cases hchild

/-- A child stands by itself, or its text goes into the one before it. -/
theorem mergeChild_cases (doc : Document) (merged : Array NodeId) (child : NodeId) :
    mergeChild (doc, merged) child = (doc, merged.push child) ∨
      ∃ last next, mergeChild (doc, merged) child = (doc.modify last (.extendText next), merged) := by
  simp only [mergeChild]
  split
  · split
    · exact .inr ⟨_, _, rfl⟩
    · exact .inl rfl
  · exact .inl rfl

theorem mem_of_mem_extract {ids : Array NodeId} {start stop : Nat} (h : id ∈ ids.extract start stop) :
    id ∈ ids := by
  obtain ⟨k, hk, rfl⟩ := Array.mem_extract_iff_getElem.1 h
  exact Array.getElem_mem _

/-- A text and what one of the siblings held take the place of that sibling. -/
theorem lt_of_mem_splice {siblings moved : Array NodeId} {text i : Nat}
    (hsiblings : ∀ child ∈ siblings, child < bound) (hmoved : ∀ child ∈ moved, child < bound)
    (htext : text < bound) :
    ∀ child ∈ siblings.take i ++ #[text] ++ moved ++ siblings.drop (i + 1), child < bound := by
  intro child hchild
  simp only [Array.mem_append, Array.mem_singleton] at hchild
  rcases hchild with ((hchild | rfl) | hchild) | hchild
  · exact hsiblings child (mem_of_mem_extract hchild)
  · exact htext
  · exact hmoved child hchild
  · exact hsiblings child (mem_of_mem_extract hchild)

namespace Linked

theorem modify (h : doc.Linked) (id : NodeId) {f : Node → Node}
    (hf : ∀ node, (∀ child ∈ node.named, child < doc.size) → ∀ child ∈ (f node).named, child < doc.size) :
    (doc.modify id f).Linked := by
  refine ⟨by simpa using h.root, fun {other node} hnode => ?_⟩
  rw [size_modify]
  rw [node?_modify] at hnode
  split at hnode
  · obtain ⟨old, hold, rfl⟩ := Option.map_eq_some_iff.1 hnode
    exact hf old (h.named hold)
  · exact h.named hnode

theorem store (h : doc.Linked) (node : Node) (hnode : ∀ child ∈ node.named, child < doc.size) :
    (doc.store node).1.Linked := by
  refine ⟨by simpa using Nat.lt_succ_of_lt h.root, fun {id other} hother child hchild => ?_⟩
  have hlt := lt_size_of_node? hother
  rw [size_store] at hlt ⊢
  rcases Nat.lt_succ_iff_lt_or_eq.1 hlt with hold | rfl
  · rw [node?_store_of_lt _ _ hold] at hother
    exact Nat.lt_succ_of_lt (h.named hother child hchild)
  · rw [node?_store_size] at hother
    exact Nat.lt_succ_of_lt (hnode child (Option.some.inj hother ▸ hchild))

theorem children_lt (h : doc.Linked) (id : NodeId) : ∀ child ∈ doc.children id, child < doc.size := by
  intro child hchild
  unfold children at hchild
  cases hnode : doc.node? (doc.host id) with
  | none => simp [hnode] at hchild
  | some node =>
    rw [hnode] at hchild
    refine h.named hnode child ?_
    cases node <;> simp_all [Node.children]

theorem append (h : doc.Linked) (parent : NodeId) (hchild : child < doc.size) :
    (doc.append parent child).Linked := by
  refine h.modify _ fun node hnode => named_mapChildren hnode fun hold other hother => ?_
  rcases Array.mem_push.1 hother with hother | rfl
  · exact hold other hother
  · exact hchild

theorem setChildren (h : doc.Linked) (id : NodeId) {children : Array NodeId}
    (hchildren : ∀ child ∈ children, child < doc.size) : (doc.setChildren id children).Linked :=
  h.modify _ fun _ hnode => named_mapChildren hnode fun _ => hchildren

theorem extendText (h : doc.Linked) (id : NodeId) (more : List Char) :
    (doc.modify id (.extendText more)).Linked :=
  h.modify id fun node hnode => by cases node <;> exact hnode

theorem setUrl (h : doc.Linked) (id : NodeId) (url : List Char) : (doc.setUrl id url).Linked :=
  h.modify _ fun node hnode => by cases node <;> exact hnode

theorem add (h : doc.Linked) (parent : NodeId) (node : Node)
    (hnode : ∀ child ∈ node.named, child < doc.size) :
    (doc.add parent node).1.Linked ∧ (doc.add parent node).1.size = doc.size + 1 :=
  ⟨(h.store node hnode).append parent (by simp), (size_append ..).trans (size_store ..)⟩

theorem pushText (h : doc.Linked) (parent : NodeId) (content : List Char) :
    (doc.pushText parent content).Linked ∧ doc.size ≤ (doc.pushText parent content).size := by
  obtain ⟨hadd, hsize⟩ := h.add parent (.text content) (by simp)
  have hadded : (doc.addText parent content).1.Linked ∧ doc.size ≤ (doc.addText parent content).1.size :=
    ⟨hadd, hsize ▸ Nat.le_succ _⟩
  unfold Document.pushText
  split
  · exact ⟨h, Nat.le_refl _⟩
  · split
    · split
      · exact ⟨h.extendText _ _, Nat.le_of_eq (size_modify ..).symm⟩
      · exact hadded
    · exact hadded

/-- The node of a tag that is opened is there. -/
theorem addEmpty (h : doc.Linked) (parent : NodeId) (tag : Tag) :
    (doc.addEmpty parent tag.nodeKind).1.Linked ∧ doc.size ≤ (doc.addEmpty parent tag.nodeKind).2 ∧
      (doc.addEmpty parent tag.nodeKind).2 < (doc.addEmpty parent tag.nodeKind).1.size := by
  cases tag with
  | styled style =>
    obtain ⟨hadd, hsize⟩ := h.add parent (.styled style #[]) (by simp)
    exact ⟨hadd, Nat.le_refl _, Nat.lt_of_lt_of_eq (Nat.lt_succ_self _) hsize.symm⟩
  | link =>
    obtain ⟨hadd, hsize⟩ := h.add parent (.link [] #[]) (by simp)
    exact ⟨hadd, Nat.le_refl _, Nat.lt_of_lt_of_eq (Nat.lt_succ_self _) hsize.symm⟩
  | image =>
    have hlink := h.store (.link [] #[]) (by simp)
    obtain ⟨hadd, hsize⟩ := hlink.add parent (.image doc.size) (by simp)
    refine ⟨hadd, ?_, Nat.lt_of_lt_of_eq (Nat.lt_succ_self _) hsize.symm⟩
    exact Nat.le_of_lt (Nat.lt_of_lt_of_eq (Nat.lt_succ_self _) (size_store ..).symm)

/-- Children that are merged one by one stay nodes that are there. -/
theorem foldl_mergeChild (h : doc.Linked) {children : List NodeId} {merged : Array NodeId}
    (hchildren : ∀ child ∈ children, child < doc.size) (hmerged : ∀ child ∈ merged, child < doc.size) :
    (children.foldl mergeChild (doc, merged)).1.Linked ∧
      (children.foldl mergeChild (doc, merged)).1.size = doc.size ∧
      ∀ child ∈ (children.foldl mergeChild (doc, merged)).2, child < doc.size := by
  induction children generalizing doc merged with
  | nil => exact ⟨h, rfl, hmerged⟩
  | cons child children ih =>
    obtain ⟨hchild, hrest⟩ := List.forall_mem_cons.1 hchildren
    rw [List.foldl_cons]
    rcases mergeChild_cases doc merged child with hstep | ⟨last, next, hstep⟩
    · rw [hstep]
      refine ih h hrest fun other hother => ?_
      rcases Array.mem_push.1 hother with hother | rfl
      · exact hmerged other hother
      · exact hchild
    · rw [hstep]
      have hextend := h.extendText last next
      rw [← size_modify doc last (.extendText next)] at hrest hmerged ⊢
      exact ih hextend hrest hmerged

theorem mergeTexts (h : doc.Linked) (parent : NodeId) :
    (doc.mergeTexts parent).Linked ∧ (doc.mergeTexts parent).size = doc.size := by
  have hchildren : ∀ child ∈ (doc.children parent).toList, child < doc.size := by
    simpa using h.children_lt parent
  have hfold := h.foldl_mergeChild hchildren fun child hchild => absurd hchild (Array.not_mem_empty child)
  rw [Array.foldl_toList] at hfold
  obtain ⟨hlinked, hsize, hmerged⟩ := hfold
  exact ⟨hlinked.setChildren parent (hsize ▸ hmerged), (size_modify ..).trans hsize⟩

theorem unwrapIntoText (h : doc.Linked) (parent id : NodeId) (delimiter : List Char) :
    (doc.unwrapIntoText parent id delimiter).Linked ∧
      doc.size ≤ (doc.unwrapIntoText parent id delimiter).size := by
  have hempty : (doc.setChildren id #[]).Linked := h.setChildren id (by simp)
  have hstored : ((doc.setChildren id #[]).store (.text delimiter)).1.Linked :=
    hempty.store _ (by simp)
  have hsize : ((doc.setChildren id #[]).store (.text delimiter)).1.size = doc.size + 1 := by
    rw [size_store, Document.setChildren, size_modify]
  have htext : ((doc.setChildren id #[]).store (.text delimiter)).2 < doc.size + 1 := by
    rw [store_snd, Document.setChildren, size_modify]
    exact Nat.lt_succ_self _
  unfold Document.unwrapIntoText
  dsimp only
  generalize (doc.setChildren id #[]).store (.text delimiter) = stored at hstored hsize htext ⊢
  split
  · exact ⟨hstored, hsize ▸ Nat.le_succ _⟩
  · rename_i i _
    have hmoved : ∀ child ∈ doc.children id, child < stored.1.size :=
      fun child hchild => hsize ▸ Nat.lt_succ_of_lt (h.children_lt id child hchild)
    have hspliced := hstored.setChildren parent
      (@lt_of_mem_splice _ _ _ _ i (hstored.children_lt parent) hmoved (hsize ▸ htext))
    obtain ⟨hmerged, hsame⟩ := hspliced.mergeTexts parent
    refine ⟨hmerged, ?_⟩
    rw [hsame, Document.setChildren, size_modify, hsize]
    exact Nat.le_succ _

end Linked

end Document

namespace Assembly

/-- Whether every node is there that a node or an open tag names. -/
structure Linked (assembly : Assembly) : Prop where
  document : assembly.document.Linked
  openTags : ∀ opened ∈ assembly.openTags,
    opened.node < assembly.document.size ∧ opened.parent < assembly.document.size

variable {assembly : Assembly} {token : Token} {tokens : List Token} {pairing : Pairing}

/-- The node that takes what comes next is there. -/
theorem Linked.current_lt (h : assembly.Linked) : assembly.current < assembly.document.size := by
  unfold current
  cases hopen : assembly.openTags with
  | nil => exact h.document.root
  | cons opened openTags => exact (h.openTags opened (hopen ▸ List.mem_cons_self)).1

theorem Linked.grow (h : assembly.Linked) {next : Assembly} (hdocument : next.document.Linked)
    (hsize : assembly.document.size ≤ next.document.size) (hopen : next.openTags ⊆ assembly.openTags) :
    next.Linked := by
  refine ⟨hdocument, fun opened hopened => ?_⟩
  obtain ⟨hnode, hparent⟩ := h.openTags opened (hopen hopened)
  exact ⟨Nat.lt_of_lt_of_le hnode hsize, Nat.lt_of_lt_of_le hparent hsize⟩

theorem Linked.addText (h : assembly.Linked) (token : Token) (content : List Char) :
    (assembly.addText token content).Linked := by
  obtain ⟨hpush, hsize⟩ := h.document.pushText assembly.current content
  exact h.grow hpush hsize (List.Subset.refl _)

theorem Linked.addCode (h : assembly.Linked) (token : Token) : (assembly.addCode token).Linked := by
  obtain ⟨hadd, hsize⟩ := h.document.add assembly.current
    (.code (Backtick.parts token.raw).1 (Backtick.parts token.raw).2) (by simp)
  exact h.grow hadd (hsize ▸ Nat.le_succ _) (List.Subset.refl _)

theorem Linked.addBareUrl (h : assembly.Linked) (token : Token) :
    (assembly.addBareUrl token).Linked := by
  obtain ⟨hlink, hsize⟩ := h.document.add assembly.current (.link token.raw #[]) (by simp)
  obtain ⟨htext, hsize'⟩ := hlink.add assembly.document.size (.text token.raw) (by simp)
  have hgrown : assembly.document.size ≤ (((assembly.document.add assembly.current
      (.link token.raw #[])).1.add assembly.document.size (.text token.raw)).1).size := by omega
  exact h.grow htext hgrown (List.Subset.refl _)

theorem Linked.takeLeaf (h : assembly.Linked) (token : Token) : (assembly.takeLeaf token).Linked := by
  unfold Assembly.takeLeaf
  split
  · exact h.addText token _
  · exact h.addCode token
  · exact h.addCode token
  · exact h.addBareUrl token
  all_goals exact h.addText token _

theorem Linked.openTag (h : assembly.Linked) (tag : Tag) (token : Token)
    (hroom : assembly.openTags.length < maxDepth) : (assembly.openTag tag token).Linked := by
  obtain ⟨hadd, hnew, hnode⟩ := h.document.addEmpty assembly.current tag
  have hsize := Nat.le_of_lt (Nat.lt_of_le_of_lt hnew hnode)
  rw [openTag_of_lt tag token hroom]
  refine ⟨hadd, List.forall_mem_cons.2 ⟨⟨hnode, Nat.lt_of_lt_of_le h.current_lt hsize⟩, ?_⟩⟩
  intro opened hopened
  obtain ⟨hold, hparent⟩ := h.openTags opened hopened
  exact ⟨Nat.lt_of_lt_of_le hold hsize, Nat.lt_of_lt_of_le hparent hsize⟩

theorem Reached.linked (h : Reached tokens assembly pairing) : assembly.Linked := by
  induction h with
  | start => exact ⟨Document.linked_empty, by simp⟩
  | @leaf _ assembly _ h token recoveries ih =>
    have hsame : Linked { assembly with recoveries } := ⟨ih.document, ih.openTags⟩
    exact hsame.takeLeaf token
  | opened h token tag hkind hroom ih => exact ih.openTag tag token hroom
  | demoted h hopen ih =>
    obtain ⟨hunwrap, hsize⟩ := ih.document.unwrapIntoText _ _ _
    exact ih.grow hunwrap hsize (hopen ▸ List.subset_cons_self _ _)
  | @finished _ assembly opened openTags _ _ _ h hopen token hkind ih =>
    refine ih.grow ?_ ?_ (by simp [hopen])
    · rw [document_finish]
      split
      · exact ih.document
      · exact ih.document.setUrl _ _
    · rw [document_finish]
      split
      · exact Nat.le_refl _
      · exact Nat.le_of_eq (Document.size_modify ..).symm

end Assembly

end InlineMarkup
