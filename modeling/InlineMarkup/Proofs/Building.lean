import InlineMarkup.Proofs.Places

/-! Building documents: what each step of the construction makes of the trees in a document. -/

namespace InlineMarkup

/-- A container under construction, with the children that are finished. -/
structure Site where
  id : NodeId
  shell : Shell
  children : List Placed

namespace Site

def places (site : Site) :
    List NodeId := site.shell.places site.id ++ Placed.allPlaces site.children

/-- The container as it is. -/
def placed (site : Site) : Placed := .container site.id site.shell site.children

/-- Whether the container is in `doc`, with the places in `inner` after those of its finished
children. -/
def StandsIn (doc : Document) (inner : List NodeId) (site : Site) : Prop :=
  site.shell.StandsIn doc site.id (site.children.map Placed.id ++ inner) ∧
    Placed.AllStandIn doc site.children

end Site

open Placed

/-- Places that are taken no more often than places none of which is taken twice. -/
theorem nodup_of_count_le {xs ys : List NodeId} (hys : ys.Nodup)
    (h : ∀ j, xs.count j ≤ ys.count j) : xs.Nodup :=
  List.nodup_iff_count_le_one.2 fun j => (h j).trans (List.nodup_iff_count_le_one.1 hys j)

namespace Document

variable {doc doc' : Document} {inner inner' : List NodeId} {site site₁ site₂ : Site}
  {sites : List Site} {p : Placed} {ps : List Placed}

/-- Whether the containers, the innermost one first, are in `doc`, each of them the last child of
the next one. -/
def Nest (doc : Document) : List NodeId → List Site → Prop
  | _, [] => True
  | inner, site :: sites => site.StandsIn doc inner ∧ doc.Nest [site.id] sites

/-- Whether the containers are in `doc` and no place is taken twice. `inner` holds the children of
the innermost one that come after its finished children. -/
structure Holds (doc : Document) (inner : List NodeId) (sites : List Site) : Prop where
  nest : doc.Nest inner sites
  nodup : (sites.flatMap Site.places).Nodup

theorem holds_empty : Document.empty.Holds [] [⟨rootId, .root, []⟩] := by
  refine ⟨⟨⟨rfl, trivial⟩, trivial⟩, ?_⟩
  simp [Site.places, Shell.places, allPlaces]

theorem Nest.congr (h : doc.Nest inner sites)
    (he : ∀ j ∈ sites.flatMap Site.places, doc'.node? j = doc.node? j) : doc'.Nest inner sites := by
  induction sites generalizing inner with
  | nil => trivial
  | cons site sites ih =>
    rw [List.flatMap_cons] at he
    obtain ⟨⟨hs, hc⟩, hn⟩ := h
    refine ⟨⟨hs.congr ?_, hc.congr _ ?_⟩, ih hn ?_⟩
    · exact fun j hj => he j (List.mem_append_left _ (List.mem_append_left _ hj))
    · exact fun j hj => he j (List.mem_append_left _ (List.mem_append_right _ hj))
    · exact fun j hj => he j (List.mem_append_right _ hj)

theorem Nest.lt_size (h : doc.Nest inner sites) :
    ∀ j ∈ sites.flatMap Site.places, j < doc.size := by
  induction sites generalizing inner with
  | nil => simp
  | cons site sites ih =>
    obtain ⟨⟨hs, hc⟩, hn⟩ := h
    intro j hj
    simp only [List.flatMap_cons, List.mem_append, Site.places] at hj
    rcases hj with (hj | hj) | hj
    · exact hs.lt_size j hj
    · exact hc.lt_size _ j hj
    · exact ih hn j hj

theorem Holds.congr (h : doc.Holds inner sites)
    (he : ∀ j < doc.size, doc'.node? j = doc.node? j) : doc'.Holds inner sites :=
  ⟨h.nest.congr fun j hj => he j (h.nest.lt_size j hj), h.nodup⟩

theorem Holds.children_eq (h : doc.Holds inner (site :: sites)) :
    doc.children site.id = (site.children.map Placed.id ++ inner).toArray :=
  h.nest.1.1.children_eq

/-- The innermost container may get other finished trees as its children. -/
theorem Holds.mapChildren (h : doc.Holds inner (site :: sites)) {f : Array NodeId → Array NodeId}
    (hps : AllStandIn doc ps)
    (hnodup : (({ site with children := ps } :: sites).flatMap Site.places).Nodup)
    (hf : (f (site.children.map Placed.id ++ inner).toArray).toList = ps.map Placed.id ++ inner') :
    (doc.modify (doc.host site.id) (.mapChildren f)).Holds inner'
      ({ site with children := ps } :: sites) := by
  obtain ⟨⟨hs, _⟩, hn⟩ := h.nest
  have hhost := hs.host_eq
  have hmem := site.shell.host_mem_places site.id
  simp only [List.flatMap_cons, Site.places, List.nodup_append, List.mem_append] at hnodup
  have ⟨⟨_, _, hne⟩, _, hne'⟩ := hnodup
  refine ⟨⟨⟨hf ▸ hs.mapChildren f, hps.congr _ ?_⟩, hn.congr ?_⟩, ?_⟩
  · intro j hj
    exact node?_modify_of_ne _ _ fun he => hne _ hmem j hj (by rw [he, hhost])
  · intro j hj
    exact node?_modify_of_ne _ _ fun he => hne' _ (Or.inl hmem) j hj (by rw [he, hhost])
  · simpa only [List.flatMap_cons, Site.places, List.nodup_append, List.mem_append] using hnodup

/-- The last child of the innermost container, once it is a finished tree. -/
theorem Holds.settle (h : doc.Holds [p.id] (site :: sites)) (hp : p.StandsIn doc)
    (hnodup : (p.places ++ (site :: sites).flatMap Site.places).Nodup) :
    doc.Holds [] ({ site with children := site.children ++ [p] } :: sites) := by
  obtain ⟨⟨hs, hc⟩, hn⟩ := h.nest
  refine ⟨⟨⟨?_, ?_⟩, hn⟩, ?_⟩
  · simpa using hs
  · exact allStandIn_append.2 ⟨hc, hp, trivial⟩
  · apply nodup_of_count_le hnodup
    intro j
    simp only [List.flatMap_cons, Site.places, allPlaces_append, allPlaces, List.append_nil,
      List.count_append]
    omega

/-- A finished container becomes a child of the one around it. -/
theorem Holds.close (h : doc.Holds [] (site₁ :: site₂ :: sites)) :
    doc.Holds [] ({ site₂ with children := site₂.children ++ [site₁.placed] } :: sites) := by
  obtain ⟨⟨hs, hc⟩, hn⟩ := h.nest
  have hnodup := h.nodup
  rw [List.flatMap_cons] at hnodup
  refine Holds.settle ⟨hn, (List.nodup_append.1 hnodup).2.1⟩ ⟨?_, hc⟩ hnodup
  simpa using hs

/-- A container that is the last child of the innermost one may become the innermost one. -/
theorem Holds.enter (h : doc.Holds [site₁.id] (site :: sites)) (hs : site₁.StandsIn doc [])
    (hnodup : (site₁.places ++ (site :: sites).flatMap Site.places).Nodup) :
    doc.Holds [] (site₁ :: site :: sites) :=
  ⟨⟨hs, h.nest⟩, hnodup⟩

/-- A new node as the last child of the innermost container. -/
theorem Holds.append (h : doc.Holds [] (site :: sites))
    (he : ∀ j < doc.size, doc'.node? j = doc.node? j) (child : NodeId) :
    (doc'.append site.id child).Holds [child] (site :: sites) := by
  have h' := h.congr he
  exact h'.mapChildren h'.nest.1.2 h'.nodup (by simp)

theorem node?_append_of_size_le (h : doc.Holds [] (site :: sites))
    (he : ∀ j < doc.size, doc'.node? j = doc.node? j) {child id : NodeId} (hid : doc.size ≤ id) :
    (doc'.append site.id child).node? id = doc'.node? id := by
  have h' := h.congr he
  refine node?_modify_of_ne _ _ ?_
  rw [h'.nest.1.1.host_eq]
  exact Nat.ne_of_gt
    (Nat.lt_of_lt_of_le (h.nest.1.1.lt_size _ (site.shell.host_mem_places site.id)) hid)

theorem Holds.lt_size (h : doc.Holds inner sites) {j : NodeId}
    (hj : j ∈ sites.flatMap Site.places) : j < doc.size :=
  h.nest.lt_size j hj

/-- A new leaf. -/
theorem Holds.add (h : doc.Holds [] (site :: sites)) (node : Node) (hid : p.id = doc.size)
    (hplaces : p.places = [doc.size])
    (hp : ∀ doc' : Document, doc'.node? doc.size = some node → p.StandsIn doc') :
    (doc.add site.id node).1.Holds []
      ({ site with children := site.children ++ [p] } :: sites) := by
  have he : ∀ j < doc.size, (doc.store node).1.node? j = doc.node? j :=
    fun j hj => node?_store_of_lt doc node hj
  have happend := h.append he doc.size
  have hnode : (doc.add site.id node).1.node? doc.size = some node :=
    (node?_append_of_size_le h he (Nat.le_refl _)).trans (node?_store_size doc node)
  apply Holds.settle (hid ▸ happend) (hp _ hnode)
  rw [hplaces, List.singleton_append, List.nodup_cons]
  exact ⟨fun hj => Nat.lt_irrefl _ (h.lt_size hj), h.nodup⟩

theorem Holds.addText (h : doc.Holds [] (site :: sites)) (content : List Char) :
    (doc.addText site.id content).1.Holds []
      ({ site with children := site.children ++ [.text doc.size content] } :: sites) :=
  h.add _ rfl rfl fun _ hn => hn

theorem Holds.addCode (h : doc.Holds [] (site :: sites)) (fence : Nat) (content : List Char) :
    (doc.add site.id (.code fence content)).1.Holds []
      ({ site with children := site.children ++ [.code doc.size fence content] } :: sites) :=
  h.add _ rfl rfl fun _ hn => hn

/-- A new container that is one node. -/
theorem Holds.addShell (h : doc.Holds [] (site :: sites)) (node : Node) (shell : Shell)
    (hplaces : ∀ id, shell.places id = [id])
    (hs : ∀ (doc' : Document) id, doc'.node? id = some node → shell.StandsIn doc' id []) :
    (doc.add site.id node).1.Holds [] (⟨doc.size, shell, []⟩ :: site :: sites) := by
  have he : ∀ j < doc.size, (doc.store node).1.node? j = doc.node? j :=
    fun j hj => node?_store_of_lt doc node hj
  have hnode : (doc.add site.id node).1.node? doc.size = some node :=
    (node?_append_of_size_le h he (Nat.le_refl _)).trans (node?_store_size doc node)
  refine Holds.enter (h.append he doc.size) ⟨hs _ _ hnode, trivial⟩ ?_
  simp only [Site.places, hplaces, allPlaces, List.append_nil, List.singleton_append,
    List.nodup_cons]
  exact ⟨fun hj => Nat.lt_irrefl _ (h.lt_size hj), h.nodup⟩

/-- A new image, made with the link that it wraps. -/
theorem Holds.addImage (h : doc.Holds [] (site :: sites)) (url : List Char) :
    (doc.addImage site.id url).1.Holds []
      (⟨doc.size + 1, .image doc.size url, []⟩ :: site :: sites) := by
  have hsize : (doc.store (.link url #[])).1.size = doc.size + 1 := size_store ..
  have he : ∀ j < doc.size,
      ((doc.store (.link url #[])).1.store (.image doc.size)).1.node? j = doc.node? j := by
    intro j hj
    rw [node?_store_of_lt _ _ (by omega), node?_store_of_lt _ _ hj]
  have hlink : (doc.addImage site.id url).1.node? doc.size = some (.link url #[]) := by
    refine (node?_append_of_size_le h he (Nat.le_refl _)).trans ?_
    rw [node?_store_of_lt _ _ (by omega), node?_store_size]
  have himage : (doc.addImage site.id url).1.node? (doc.size + 1) = some (.image doc.size) := by
    refine (node?_append_of_size_le h he (Nat.le_add_right _ 1)).trans ?_
    exact hsize ▸ node?_store_size ..
  have happend : (doc.addImage site.id url).1.Holds [doc.size + 1] (site :: sites) :=
    hsize ▸ h.append he (doc.size + 1)
  refine Holds.enter happend ⟨⟨himage, hlink⟩, trivial⟩ ?_
  simp only [Site.places, Shell.places, allPlaces, List.append_nil, List.cons_append,
    List.nil_append, List.nodup_cons, List.mem_cons, not_or]
  have hlt := fun (j : Nat) (hj : j ∈ _) => h.lt_size hj
  refine ⟨⟨by simp, ?_⟩, fun hj => Nat.lt_irrefl _ (hlt _ hj), h.nodup⟩
  intro hj
  exact Nat.lt_irrefl _ (Nat.lt_of_succ_lt (hlt _ hj))

/-- Longer text in the last finished child of the innermost container. -/
theorem Holds.extendText (h : doc.Holds [] (site :: sites)) {id : NodeId} {content : List Char}
    (hsite : site.children = ps ++ [.text id content]) (more : List Char) :
    (doc.modify id (.extendText more)).Holds []
      ({ site with children := ps ++ [.text id (content ++ more)] } :: sites) := by
  obtain ⟨⟨hs, hc⟩, hn⟩ := h.nest
  have hnodup := h.nodup
  rw [hsite] at hs hc
  simp only [List.flatMap_cons, Site.places, hsite, List.nodup_append, List.mem_append] at hnodup
  have ⟨⟨_, hplaces, hshell⟩, _, hrest⟩ := hnodup
  have hmem : id ∈ allPlaces (ps ++ [.text id content]) := by simp [allPlaces, Placed.places]
  refine ⟨⟨⟨?_, hc.extendText hplaces⟩, ?_⟩, ?_⟩
  · have hs' : site.shell.StandsIn (doc.modify id (.extendText more)) site.id _ :=
      hs.congr fun j hj => node?_modify_of_ne _ _ (hshell j hj id hmem)
    simpa [Placed.id] using hs'
  · exact hn.congr fun j hj =>
      node?_modify_of_ne _ _ fun he => hrest id (Or.inr hmem) j hj he.symm
  · simpa only [List.flatMap_cons, Site.places, List.nodup_append, List.mem_append,
      allPlaces_append, allPlaces, Placed.places] using hnodup

theorem Holds.pushText (h : doc.Holds [] (site :: sites)) {content : List Char} (hne : content ≠ [])
    (hmerged : Tree.Merged (site.children.map Placed.tree)) :
    ∃ ps, ps.map Placed.tree = Tree.merge (site.children.map Placed.tree ++ [.text content]) ∧
      (doc.pushText site.id content).Holds [] ({ site with children := ps } :: sites) := by
  have hempty : content.isEmpty = false := by simpa using hne
  simp only [Document.pushText, hempty, h.children_eq]
  have hadd := h.addText content
  rcases List.eq_nil_or_concat site.children with hnil | ⟨ps, p, hconcat⟩
  · refine ⟨site.children ++ [.text doc.size content], ?_, by simpa [hnil] using hadd⟩
    simp [hnil, Placed.tree, Tree.merge, Tree.before_nil]
  rw [List.concat_eq_append] at hconcat
  have hchildren := h.nest.1.2
  rw [hconcat] at hchildren
  have hp : p.StandsIn doc := (allStandIn_append.1 hchildren).2.1
  by_cases ht : p.tree.isText
  · obtain ⟨id, s, rfl⟩ := exists_text ht
    have hid : doc.isText id = true := hp.isText_eq.trans ht
    refine ⟨ps ++ [.text id (s ++ content)], ?_, ?_⟩
    · simp only [hconcat, List.map_append, List.map_cons, List.map_nil, Placed.tree,
        List.append_assoc, List.cons_append, List.nil_append] at hmerged ⊢
      exact (Tree.merge_concat_text hmerged content).symm
    · simpa [hconcat, Placed.id, hid] using h.extendText hconcat content
  · have hid : doc.isText p.id = false := hp.isText_eq.trans (by simpa using ht)
    refine ⟨site.children ++ [.text doc.size content], ?_, by simpa [hconcat, hid] using hadd⟩
    rw [List.map_append, Tree.merge_concat hmerged (by simp [hconcat, ht])]
    rfl

theorem mergeChild_text {ids : List NodeId} {last child : NodeId} {content : List Char}
    (hlast : doc.isText last) (hchild : doc.node? child = some (.text content)) :
    mergeChild (doc, (ids ++ [last]).toArray) child =
      (doc.modify last (.extendText content), (ids ++ [last]).toArray) := by
  simp [mergeChild, hchild, hlast]

theorem mergeChild_push {q : Placed} (hps : AllStandIn doc ps) (hq : q.StandsIn doc)
    (hmeet : ¬∃ a ∈ (ps.map Placed.tree).getLast?, a.isText ∧ q.tree.isText) :
    mergeChild (doc, (ps.map Placed.id).toArray) q.id =
      (doc, ((ps ++ [q]).map Placed.id).toArray) := by
  simp only [mergeChild]
  split
  · rename_i last next hlast hnext
    have hqtext : q.tree.isText := by
      rw [← hq.isText_eq]
      simp [isText, hnext, Node.kind]
    rcases List.eq_nil_or_concat ps with rfl | ⟨init, p, rfl⟩
    · simp at hlast
    · simp only [List.concat_eq_append, List.map_append, List.map_cons, List.map_nil,
        List.back?_toArray, List.getLast?_concat, Option.some.injEq] at hlast
      rw [List.concat_eq_append] at hps
      have hp : p.StandsIn doc := (allStandIn_append.1 hps).2.1
      have hnot : ¬doc.isText last := by
        rw [← hlast, hp.isText_eq]
        exact fun ht => hmeet ⟨p.tree, by simp, ht, hqtext⟩
      rw [if_neg hnot]
      simp
  · simp

/-- The next child is put after those that are merged already, or into the last one of them. -/
theorem exists_mergeChild (ps : List Placed) (q : Placed) (qs : List Placed)
    (hps : AllStandIn doc (ps ++ q :: qs)) (hnodup : (allPlaces (ps ++ q :: qs)).Nodup)
    (hmerged : Tree.Merged (ps.map Placed.tree)) :
    ∃ doc' ps', mergeChild (doc, (ps.map Placed.id).toArray) q.id =
        (doc', (ps'.map Placed.id).toArray) ∧
      ps'.map Placed.tree = Tree.merge (ps.map Placed.tree ++ [q.tree]) ∧
      AllStandIn doc' (ps' ++ qs) ∧ (allPlaces ps').Sublist (allPlaces (ps ++ [q])) ∧
      ∀ j ∉ allPlaces (ps ++ [q]), doc'.node? j = doc.node? j := by
  obtain ⟨hstand, hq, hqs⟩ := allStandIn_append.1 hps
  by_cases hmeet : ∃ a ∈ (ps.map Placed.tree).getLast?, a.isText ∧ q.tree.isText
  · obtain ⟨a, hlast, hatext, hqtext⟩ := hmeet
    obtain ⟨id', next, rfl⟩ := exists_text hqtext
    obtain ⟨init, p, rfl⟩ : ∃ init p, ps = init ++ [p] := by
      rcases List.eq_nil_or_concat ps with rfl | ⟨init, p, rfl⟩
      · simp at hlast
      · exact ⟨init, p, List.concat_eq_append⟩
    obtain rfl : p.tree = a := by simpa using hlast
    obtain ⟨id, s, rfl⟩ := exists_text hatext
    have hp : (Placed.text id s).StandsIn doc := (allStandIn_append.1 hstand).2.1
    refine ⟨doc.modify id (.extendText next), init ++ [.text id (s ++ next)], ?_, ?_, ?_, ?_, ?_⟩
    · simpa [Placed.id] using mergeChild_text (hp.isText_eq.trans rfl) hq
    · simp only [List.map_append, List.map_cons, List.map_nil, Placed.tree, List.append_assoc,
        List.cons_append, List.nil_append] at hmerged ⊢
      exact (Tree.merge_concat_text hmerged next).symm
    · rw [List.append_assoc, List.singleton_append] at hps hnodup
      have hextended : AllStandIn (doc.modify id (.extendText next)) _ := hps.extendText hnodup
      exact allStandIn_iff.2 fun r hr => allStandIn_iff.1 hextended r (by simp at hr ⊢; tauto)
    · simp [allPlaces, Placed.places]
    · intro j hj
      apply node?_modify_of_ne
      rintro rfl
      exact hj (by simp [allPlaces, Placed.places])
  · refine ⟨doc, ps ++ [q], mergeChild_push hstand hq hmeet, ?_, by simpa using hps, .refl _,
      fun _ _ => rfl⟩
    have hmerged' : Tree.Merged (ps.map Placed.tree ++ [q.tree]) :=
      Tree.merged_append.2 ⟨hmerged, Tree.merged_singleton _, by simpa using hmeet⟩
    rw [hmerged'.merge_eq, List.map_append, List.map_singleton]

/-- One pass over the children that are left, after those that are merged already. -/
theorem foldl_mergeChild (ps qs : List Placed) (hps : AllStandIn doc (ps ++ qs))
    (hnodup : (allPlaces (ps ++ qs)).Nodup) (hmerged : Tree.Merged (ps.map Placed.tree)) :
    ∃ doc' ps', (qs.map Placed.id).foldl mergeChild (doc, (ps.map Placed.id).toArray) =
        (doc', (ps'.map Placed.id).toArray) ∧
      ps'.map Placed.tree = Tree.merge ((ps ++ qs).map Placed.tree) ∧
      AllStandIn doc' ps' ∧ (allPlaces ps').Sublist (allPlaces (ps ++ qs)) ∧
      ∀ j ∉ allPlaces (ps ++ qs), doc'.node? j = doc.node? j := by
  induction qs generalizing doc ps with
  | nil =>
    simp only [List.append_nil] at *
    exact ⟨doc, ps, rfl, hmerged.merge_eq.symm, hps, .refl _, fun _ _ => rfl⟩
  | cons q qs ih =>
    obtain ⟨doc₁, ps₁, hstep, htrees₁, hstand₁, hsub₁, hframe₁⟩ :=
      exists_mergeChild ps q qs hps hnodup hmerged
    have hsub : (allPlaces (ps₁ ++ qs)).Sublist (allPlaces (ps ++ q :: qs)) := by
      rw [List.append_cons, allPlaces_append, allPlaces_append (ps ++ [q])]
      exact hsub₁.append_right _
    obtain ⟨doc', ps', hfold, htrees, hstand, hsub', hframe⟩ :=
      ih ps₁ hstand₁ (hsub.nodup hnodup) (htrees₁ ▸ Tree.merged_merge _)
    refine ⟨doc', ps', ?_, ?_, hstand, hsub'.trans hsub, ?_⟩
    · rw [List.map_cons, List.foldl_cons, hstep, hfold]
    · rw [htrees, List.map_append, htrees₁, Tree.merge_merge_append]
      simp
    · intro j hj
      have hin : j ∉ allPlaces (ps ++ [q]) := by
        intro hm
        refine hj ?_
        rw [List.append_cons, allPlaces_append]
        exact List.mem_append_left _ hm
      rw [hframe j fun hm => hj (hsub.subset hm), hframe₁ j hin]

/-- Texts that stand side by side in the innermost container become one. -/
theorem Holds.mergeTexts (h : doc.Holds [] (site :: sites)) :
    ∃ ps, ps.map Placed.tree = Tree.merge (site.children.map Placed.tree) ∧
      (doc.mergeTexts site.id).Holds [] ({ site with children := ps } :: sites) := by
  obtain ⟨⟨hs, hc⟩, hn⟩ := h.nest
  have hnodup := h.nodup
  simp only [List.flatMap_cons, Site.places, List.nodup_append, List.mem_append] at hnodup
  obtain ⟨⟨hshell, hplaces, hne⟩, hrest, hne'⟩ := hnodup
  obtain ⟨doc', ps, hfold, htrees, hstand, hsub, hframe⟩ :=
    foldl_mergeChild [] site.children hc hplaces .nil
  simp only [List.map_nil, List.nil_append] at hfold htrees hsub hframe
  refine ⟨ps, htrees, ?_⟩
  have h' : doc'.Holds (site.children.map Placed.id) ({ site with children := [] } :: sites) := by
    refine ⟨⟨⟨?_, trivial⟩, hn.congr ?_⟩, ?_⟩
    · have hs' : site.shell.StandsIn doc' site.id _ :=
        hs.congr fun j hj => hframe j fun hm => hne j hj j hm rfl
      simpa using hs'
    · exact fun j hj => hframe j fun hm => hne' j (Or.inr hm) j hj rfl
    · simp only [List.flatMap_cons, Site.places, allPlaces, List.append_nil, List.nodup_append]
      exact ⟨hshell, hrest, fun j hj k hk => hne' j (Or.inl hj) k hk⟩
  have hchildren : doc.children site.id = (site.children.map Placed.id).toArray := by
    simpa using h.children_eq
  rw [Document.mergeTexts, hchildren, List.foldl_toArray, hfold]
  refine h'.mapChildren hstand ?_ (by simp)
  simp only [List.flatMap_cons, Site.places, List.nodup_append, List.mem_append]
  refine ⟨⟨hshell, hsub.nodup hplaces, fun j hj k hk => hne j hj k (hsub.subset hk)⟩, hrest, ?_⟩
  exact fun j hj k hk => hne' j (hj.imp_right fun hm => hsub.subset hm) k hk

theorem idxOf?_append_cons {ids : List NodeId} {id : NodeId} (h : id ∉ ids) (more : List NodeId) :
    (ids ++ id :: more).idxOf? id = some ids.length := by
  induction ids with
  | nil => simp [List.idxOf?_cons]
  | cons a ids ih =>
    obtain ⟨hne, hnotin⟩ := not_or.1 (mt List.mem_cons.2 h)
    rw [List.cons_append, List.idxOf?_cons, if_neg (by simpa using Ne.symm hne), ih hnotin]
    rfl

theorem splice_toArray (left moved : List NodeId) (id text : NodeId) :
    (left ++ [id]).toArray.take left.length ++ #[text] ++ moved.toArray ++
      (left ++ [id]).toArray.drop (left.length + 1) = (left ++ text :: moved).toArray := by
  simp

/-- The innermost container gives up its children, which stay what they are. -/
theorem Holds.release (h : doc.Holds [] (site :: sites)) :
    (doc.setChildren site.id #[]).Holds [] ({ site with children := [] } :: sites) ∧
      AllStandIn (doc.setChildren site.id #[]) site.children := by
  constructor
  · refine h.mapChildren trivial (nodup_of_count_le h.nodup ?_) rfl
    intro j
    simp only [List.flatMap_cons, Site.places, allPlaces, List.count_append, List.count_nil]
    omega
  · have hnodup := h.nodup
    rw [List.flatMap_cons, List.nodup_append, Site.places, List.nodup_append] at hnodup
    refine h.nest.1.2.congr _ fun j hj => node?_modify_of_ne _ _ fun he => ?_
    apply hnodup.1.2.2 _ (site.shell.host_mem_places site.id) j hj
    rw [he, h.nest.1.1.host_eq]

/-- The children of the innermost container and a text take its place in the one around it. -/
theorem Holds.splice (h : doc.Holds [] (site₁ :: site₂ :: sites)) {doc' : Document} {text : NodeId}
    {delimiter : List Char} (hopen : doc'.Holds [site₁.id] (site₂ :: sites))
    (htext : Placed.StandsIn doc' (.text text delimiter)) (hmoved : AllStandIn doc' site₁.children)
    (hfresh : text ∉ (site₁ :: site₂ :: sites).flatMap Site.places) :
    (doc'.setChildren site₂.id
        ((site₂.children ++ .text text delimiter :: site₁.children).map Placed.id).toArray).Holds []
      ({ site₂ with children := site₂.children ++ .text text delimiter :: site₁.children } ::
        sites) := by
  have hnew : AllStandIn doc' (site₂.children ++ .text text delimiter :: site₁.children) :=
    allStandIn_append.2 ⟨hopen.nest.1.2, htext, hmoved⟩
  refine hopen.mapChildren hnew (nodup_of_count_le (List.nodup_cons.2 ⟨hfresh, h.nodup⟩) ?_)
    (List.append_nil _).symm
  intro j
  simp only [List.flatMap_cons, Site.places, allPlaces_append, allPlaces, Placed.places,
    List.count_append, List.count_cons, List.count_nil]
  omega

/-- The container that is taken apart still hangs under the one around it when its children are gone
and its delimiter is stored, at a new place. -/
theorem Holds.detach (h : doc.Holds [] (site₁ :: site₂ :: sites)) (delimiter : List Char) :
    ((doc.setChildren site₁.id #[]).store (.text delimiter)).1.Holds [site₁.id] (site₂ :: sites) ∧
      AllStandIn ((doc.setChildren site₁.id #[]).store (.text delimiter)).1 site₁.children := by
  obtain ⟨hempty, hloose⟩ := h.release
  have hsize : (doc.setChildren site₁.id #[]).size = doc.size := size_modify ..
  have hold : ∀ j < doc.size, ((doc.setChildren site₁.id #[]).store (.text delimiter)).1.node? j =
      (doc.setChildren site₁.id #[]).node? j := fun j hj => node?_store_of_lt _ _ (by omega)
  have hstored := hempty.congr fun j hj => hold j (by omega)
  refine ⟨⟨hstored.nest.2, nodup_of_count_le h.nodup ?_⟩, ?_⟩
  · intro j
    simp only [List.flatMap_cons, List.count_append]
    omega
  · exact hloose.congr _ fun j hj => hold j (h.nest.1.2.lt_size _ j hj)

/-- A container is found after its finished siblings. -/
theorem Holds.idxOf?_children (h : doc.Holds [] (site₁ :: site₂ :: sites))
    (hopen : doc'.Holds [site₁.id] (site₂ :: sites)) :
    (doc'.children site₂.id).idxOf? site₁.id = some site₂.children.length := by
  have hnotin : site₁.id ∉ site₂.children.map Placed.id := by
    intro hin
    have hnodup := h.nodup
    rw [List.flatMap_cons, List.nodup_append, List.flatMap_cons] at hnodup
    have hplace : site₁.id ∈ site₁.places := List.mem_append_left _ (site₁.shell.mem_places_self _)
    refine hnodup.2.2 site₁.id hplace site₁.id ?_ rfl
    exact List.mem_append_left _ (List.mem_append_right _ (ids_subset_allPlaces _ hin))
  rw [hopen.children_eq, List.idxOf?_toArray, idxOf?_append_cons hnotin, List.length_map]

/-- A container that is taken apart leaves its delimiter and its children to the one around it. -/
theorem Holds.unwrapIntoText (h : doc.Holds [] (site₁ :: site₂ :: sites)) (delimiter : List Char) :
    ∃ ps, ps.map Placed.tree = Tree.merge
        (site₂.children.map Placed.tree ++ .text delimiter :: site₁.children.map Placed.tree) ∧
      (doc.unwrapIntoText site₂.id site₁.id delimiter).Holds []
        ({ site₂ with children := ps } :: sites) := by
  obtain ⟨hopen, hmoved⟩ := h.detach delimiter
  have hsize : (doc.setChildren site₁.id #[]).size = doc.size := size_modify ..
  have htext : Placed.StandsIn ((doc.setChildren site₁.id #[]).store (.text delimiter)).1
      (.text doc.size delimiter) := hsize ▸ node?_store_size ..
  have hfresh : doc.size ∉ (site₁ :: site₂ :: sites).flatMap Site.places :=
    fun hj => Nat.lt_irrefl _ (h.lt_size hj)
  obtain ⟨ps, htrees, hmerged⟩ := (h.splice hopen htext hmoved hfresh).mergeTexts
  refine ⟨ps, by simpa [Placed.tree] using htrees, ?_⟩
  have hchildren : doc.children site₁.id = (site₁.children.map Placed.id).toArray := by
    simpa using h.children_eq
  have hindex := h.idxOf?_children hopen
  rw [hopen.children_eq, ← List.length_map (f := Placed.id)] at hindex
  simp only [Document.unwrapIntoText, hchildren, hopen.children_eq, hindex, splice_toArray, store_snd,
    hsize]
  simp only [List.map_append, List.map_cons] at hmerged
  exact hmerged

theorem Holds.setUrl (h : doc.Holds [] (site :: sites)) (url : List Char) :
    (doc.setUrl site.id url).Holds []
      ({ site with shell := site.shell.withUrl url } :: sites) := by
  obtain ⟨⟨hs, hc⟩, hn⟩ := h.nest
  have hnodup := h.nodup
  simp only [List.flatMap_cons, Site.places, List.nodup_append, List.mem_append] at hnodup
  obtain ⟨⟨_, _, hne⟩, _, hne'⟩ := hnodup
  have hmem := site.shell.host_mem_places site.id
  have hhost := hs.host_eq
  refine ⟨⟨⟨hs.setUrl url, hc.congr _ ?_⟩, hn.congr ?_⟩, ?_⟩
  · exact fun j hj => node?_modify_of_ne _ _ fun he => hne _ hmem j hj (by rw [he, hhost])
  · exact fun j hj => node?_modify_of_ne _ _ fun he => hne' _ (Or.inl hmem) j hj (by rw [he, hhost])
  · have hplaces : Site.places { site with shell := site.shell.withUrl url } = site.places := by
      simp [Site.places]
    rw [List.flatMap_cons, hplaces]
    exact h.nodup

end Document

end InlineMarkup
