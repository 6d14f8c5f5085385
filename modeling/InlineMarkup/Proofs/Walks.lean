import InlineMarkup.Document.Walk
import InlineMarkup.Proofs.Display
import InlineMarkup.Proofs.Unfolding

/-! Walks: what is done with a list of pending work is what recursion would do. A walk leaves the work
that was pending before it as it was, and that is what carries the induction over the tree. -/

namespace InlineMarkup

/-! ### Runs -/

section Runs

variable {State Result Other : Type} {step : State → Option (State ⊕ Result)} {s t u : State}
  {run : Nat → Option Result} {result other : Result}

/-- Whether a run comes to its end, and with this result, if only it may take enough steps. -/
def EndsWith (run : Nat → Option Result) (result : Result) : Prop :=
  ∃ limit, ∀ steps, limit ≤ steps → run steps = some result

theorem EndsWith.unique (h : EndsWith run result) (hother : EndsWith run other) : result = other := by
  obtain ⟨limit, h⟩ := h
  obtain ⟨limit', hother⟩ := hother
  have hresult := h (max limit limit') (Nat.le_max_left ..)
  exact Option.some.inj (hresult.symm.trans (hother _ (Nat.le_max_right ..)))

theorem EndsWith.map (f : Result → Other) (h : EndsWith run result) :
    EndsWith (fun steps => (run steps).map f) (f result) := by
  obtain ⟨limit, h⟩ := h
  exact ⟨limit, fun steps hsteps => congrArg (Option.map f) (h steps hsteps)⟩

/-- Whether steps lead from one state to another. -/
def Leads (step : State → Option (State ⊕ Result)) : State → State → Prop :=
  Relation.ReflTransGen fun s t => step s = some (.inl t)

theorem Leads.trans (h : Leads step s t) (hrest : Leads step t u) : Leads step s u :=
  Relation.ReflTransGen.trans h hrest

/-- A run that comes to where it stops ends there. -/
theorem Leads.endsWith (h : Leads step s t) (hstop : step t = some (.inr result)) :
    EndsWith (runWithin step · s) result := by
  induction h using Relation.ReflTransGen.head_induction_on with
  | refl =>
    refine ⟨1, fun steps hsteps => ?_⟩
    obtain ⟨n, rfl⟩ : ∃ n, steps = n + 1 := ⟨steps - 1, by omega⟩
    simp only [runWithin, hstop, Option.bind_eq_bind, Option.bind_some]
  | head hstep _ ih =>
    obtain ⟨limit, ih⟩ := ih
    refine ⟨limit + 1, fun steps hsteps => ?_⟩
    obtain ⟨n, rfl⟩ : ∃ n, steps = n + 1 := ⟨steps - 1, by omega⟩
    simp only [runWithin, hstep, Option.bind_eq_bind, Option.bind_some]
    exact ih n (Nat.le_of_succ_le_succ hsteps)

end Runs

/-! ### Nodes -/

/-- The markdown of a node, where `write` gives that of the nodes that it names. -/
def Node.writtenBy (write : NodeId → List Char) : Node → List Char
  | text content => Markdown.escape content
  | code fence content => Markdown.fenced fence content
  | root children => children.toList.flatMap write
  | styled style children => style.delimiter ++ children.toList.flatMap write ++ style.delimiter
  | link url children => ['['] ++ children.toList.flatMap write ++ [']', '('] ++ url ++ [')']
  | image inner => ['!'] ++ write inner

namespace Document

variable {doc : Document} {id : NodeId} {node : Node} {children : List NodeId}

/-- The nodes that a walk goes on to from a node. From an image these are the children of its link. -/
def below (doc : Document) : Node → List NodeId
  | .image link => (((doc.node? link).map Node.children).getD #[]).toList
  | node => node.children.toList

theorem children?_of_shell {shell : Shell} (h : shell.StandsIn doc id children) :
    doc.children? id = some children := by
  obtain ⟨node, hnode, hc⟩ := h.node?_host
  rw [children?, h.host_eq, hnode, Option.map_some, hc]

theorem below_of_shell {shell : Shell} (h : shell.StandsIn doc id children)
    (hnode : doc.node? id = some node) : doc.below node = children := by
  cases shell with
  | image inner url =>
    obtain rfl := Option.some.inj (h.1.symm.trans hnode)
    rw [below, h.2]
    rfl
  | root | styled | link =>
    obtain rfl := Option.some.inj (Eq.trans (Eq.symm h) hnode)
    rfl

theorem children?_of_leaf (h : doc.node? id = some node) (hleaf : node.kind = .text ∨ node.kind = .code) :
    doc.children? id = some [] := by
  rw [children?, host_of_leaf h hleaf, h]
  cases node <;> simp_all [Node.kind, Node.children]

theorem visitStep_node (h : doc.children? id = some children) (seen pending : List NodeId) :
    doc.visitStep (seen, id :: pending) = some (.inl (id :: seen, children ++ pending)) := by
  rw [visitStep, h]
  rfl

theorem writeStep_node {text : List Char} {more : List Emit} (hnode : doc.node? id = some node)
    (hemit : doc.emit id node = (text, more)) (out : List Char) (pending : List Emit) :
    doc.writeStep (out, .node id :: pending) = some (.inl (text.reverse ++ out, more ++ pending)) := by
  rw [writeStep, hnode, Option.bind_eq_bind, Option.bind_some, hemit, ← List.reverseAux_eq]
  rfl

theorem leads_markup (doc : Document) (texts : List (List Char)) (out : List Char) (pending : List Emit) :
    Leads doc.writeStep (out, texts.map .markup ++ pending)
      (texts.flatten.reverse ++ out, pending) := by
  induction texts generalizing out with
  | nil => exact .refl
  | cons text texts ih =>
    have hstep : doc.writeStep (out, (text :: texts).map .markup ++ pending) =
        some (.inl (text.reverse ++ out, texts.map .markup ++ pending)) := by
      rw [← List.reverseAux_eq]
      rfl
    rw [List.flatten_cons, List.reverse_append, List.append_assoc]
    exact .head hstep (ih (text.reverse ++ out))

section Around

variable {ids : List NodeId} {text : List Char} (hwrite : ∀ out pending,
  Leads doc.writeStep (out, ids.map .node ++ pending) (text.reverse ++ out, pending))
include hwrite

/-- A node is written around those that it names. -/
theorem leads_around {opener : List Char} (closers : List (List Char)) (hnode : doc.node? id = some node)
    (hemit : doc.emit id node = (opener, ids.map .node ++ closers.map .markup)) (out : List Char)
    (pending : List Emit) :
    Leads doc.writeStep (out, .node id :: pending)
      ((opener ++ text ++ closers.flatten).reverse ++ out, pending) := by
  have hopen := writeStep_node hnode hemit out pending
  have hinner := hwrite (opener.reverse ++ out) (closers.map .markup ++ pending)
  have hclose := leads_markup doc closers (text.reverse ++ (opener.reverse ++ out)) pending
  rw [List.append_assoc] at hopen
  simp only [List.reverse_append, List.append_assoc]
  exact .head hopen (hinner.trans hclose)

theorem leads_link {url : List Char} (hlink : doc.node? id = some (.link url ids.toArray))
    (out : List Char) (pending : List Emit) :
    Leads doc.writeStep (out, .node id :: pending)
      ((['['] ++ text ++ [']', '('] ++ url ++ [')']).reverse ++ out, pending) := by
  have haround := leads_around hwrite [[']', '('], url, [')']] hlink rfl out pending
  simpa using haround

end Around

end Document

namespace Placed

variable {doc : Document} {p : Placed} {ps : List Placed}

mutual

/-- The nodes of a tree, each before its children. The link that an image wraps is left out. -/
def preorder : Placed → List NodeId
  | text id _ | code id _ _ => [id]
  | container id _ children => id :: allPreorder children

def allPreorder : List Placed → List NodeId
  | [] => []
  | p :: ps => preorder p ++ allPreorder ps

end

theorem allPreorder_eq_flatMap (ps : List Placed) : allPreorder ps = ps.flatMap preorder := by
  induction ps with
  | nil => rfl
  | cons p ps ih => rw [allPreorder, ih, List.flatMap_cons]

theorem allMarks_eq_flatMap (ps : List Placed) :
    Mark.writtenAll (Tree.allMarks (ps.map tree)) = ps.flatMap fun p => Mark.writtenAll p.tree.marks := by
  induction ps with
  | nil => rfl
  | cons p ps ih =>
    rw [List.map_cons, Tree.allMarks, Mark.writtenAll_append, ih, List.flatMap_cons]

mutual

theorem StandsIn.visit_preorder : ∀ p : Placed, p.StandsIn doc → ∀ levels seen, p.height ≤ levels →
    doc.visit levels seen p.id = p.preorder.reverse ++ seen
  | text id content, h, levels, seen, hl | code id fence content, h, levels, seen, hl => by
    obtain ⟨n, rfl⟩ : ∃ n, levels = n + 1 := ⟨levels - 1, by simp only [height] at hl; omega⟩
    have hchildren : doc.children id = #[] := Document.children_of_leaf h (by simp [Node.kind])
    simp [Document.visit, Placed.id, hchildren, preorder]
  | container id shell children, ⟨hs, hc⟩, levels, seen, hl => by
    have hpos := List.length_pos_of_mem (shell.mem_places_self id)
    obtain ⟨n, rfl⟩ : ∃ n, levels = n + 1 := ⟨levels - 1, by simp only [height] at hl; omega⟩
    have hvisit := AllStandIn.visit_preorder children hc n (id :: seen)
      (by simp only [height] at hl; omega)
    rw [Document.visit, Placed.id, hs.children_eq, List.foldl_toArray, hvisit, preorder]
    simp

theorem AllStandIn.visit_preorder : ∀ ps : List Placed, AllStandIn doc ps →
    ∀ levels seen, allHeight ps ≤ levels →
    (ps.map Placed.id).foldl (doc.visit levels) seen = (allPreorder ps).reverse ++ seen
  | [], _, _, _, _ => rfl
  | p :: ps, ⟨hp, hps⟩, levels, seen, hl => by
    simp only [allHeight] at hl
    rw [List.map_cons, List.foldl_cons, AllStandIn.visit_preorder ps hps levels _ (by omega),
      StandsIn.visit_preorder p hp levels seen (by omega), allPreorder, List.reverse_append,
      List.append_assoc]

end

mutual

/-- A visit of a tree leaves what is pending after it. -/
theorem StandsIn.leads_visit : ∀ p : Placed, p.StandsIn doc → ∀ seen pending,
    Leads doc.visitStep (seen, p.id :: pending) (p.preorder.reverse ++ seen, pending)
  | text id content, h, seen, pending | code id fence content, h, seen, pending => by
    have hchildren : doc.children? id = some [] := Document.children?_of_leaf h (by simp [Node.kind])
    exact .single (Document.visitStep_node hchildren seen pending)
  | container id shell children, ⟨hs, hc⟩, seen, pending => by
    have hstep := Document.visitStep_node (Document.children?_of_shell hs) seen pending
    rw [preorder, List.reverse_cons, List.append_assoc]
    exact .head hstep (AllStandIn.leads_visit children hc (id :: seen) pending)

theorem AllStandIn.leads_visit : ∀ ps : List Placed, AllStandIn doc ps → ∀ seen pending,
    Leads doc.visitStep (seen, ps.map Placed.id ++ pending)
      ((allPreorder ps).reverse ++ seen, pending)
  | [], _, _, _ => .refl
  | p :: ps, ⟨hp, hps⟩, seen, pending => by
    have hfirst := StandsIn.leads_visit p hp seen (ps.map Placed.id ++ pending)
    have hrest := AllStandIn.leads_visit ps hps (p.preorder.reverse ++ seen) pending
    rw [allPreorder, List.reverse_append, List.append_assoc]
    exact hfirst.trans hrest

end

mutual

/-- Writing a tree leaves what is pending after it. -/
theorem StandsIn.leads_write : ∀ p : Placed, p.StandsIn doc → ∀ out pending,
    Leads doc.writeStep (out, .node p.id :: pending)
      ((Mark.writtenAll p.tree.marks).reverse ++ out, pending)
  | text id content, h, out, pending => by
    have hwritten : Mark.writtenAll (text id content).tree.marks = Markdown.escape content := by
      simp [tree, Tree.marks, Mark.written]
    rw [hwritten]
    exact .single (Document.writeStep_node h rfl out pending)
  | code id fence content, h, out, pending => by
    have hwritten : Mark.writtenAll (code id fence content).tree.marks =
        Markdown.fenced fence content := by
      simp [tree, Tree.marks, Mark.written]
    rw [hwritten]
    exact .single (Document.writeStep_node h rfl out pending)
  | container id shell children, ⟨hs, hc⟩, out, pending => by
    have hwrite := AllStandIn.leads_write children hc
    have hchildren := hs.children_eq
    rw [Placed.id]
    cases shell with
    | root =>
      have hemit : doc.emit id (.root (children.map Placed.id).toArray) =
          ([], (children.map Placed.id).map .node ++ [[]].map .markup) := by
        change ([], (doc.children id).toList.map Document.Emit.node ++ [.markup []]) = _
        rw [hchildren]
        rfl
      have haround := Document.leads_around hwrite _ hs hemit out pending
      simpa [tree, Shell.tree, Tree.marks] using haround
    | styled style =>
      have hemit : doc.emit id (.styled style (children.map Placed.id).toArray) =
          (style.delimiter, (children.map Placed.id).map .node ++ [style.delimiter].map .markup) := by
        change (_, (doc.children id).toList.map Document.Emit.node ++ [.markup style.delimiter]) = _
        rw [hchildren]
        rfl
      have haround := Document.leads_around hwrite _ hs hemit out pending
      simpa [tree, Shell.tree, Tree.marks, Mark.written] using haround
    | link url =>
      have haround := Document.leads_link hwrite hs out pending
      simpa [tree, Shell.tree, Tree.marks, Mark.written] using haround
    | image inner url =>
      have hmark : Leads doc.writeStep (out, .node id :: pending) ('!' :: out, .node inner :: pending) :=
        .single (Document.writeStep_node hs.1 rfl out pending)
      have haround := hmark.trans (Document.leads_link hwrite hs.2 ('!' :: out) pending)
      simpa [tree, Shell.tree, Tree.marks, Mark.written] using haround

theorem AllStandIn.leads_write : ∀ ps : List Placed, AllStandIn doc ps → ∀ out pending,
    Leads doc.writeStep (out, (ps.map Placed.id).map .node ++ pending)
      ((Mark.writtenAll (Tree.allMarks (ps.map tree))).reverse ++ out, pending)
  | [], _, _, _ => .refl
  | p :: ps, ⟨hp, hps⟩, out, pending => by
    have hmarks : Tree.allMarks ((p :: ps).map tree) = p.tree.marks ++ Tree.allMarks (ps.map tree) := rfl
    have hfirst := StandsIn.leads_write p hp out ((ps.map Placed.id).map .node ++ pending)
    have hrest := AllStandIn.leads_write ps hps ((Mark.writtenAll p.tree.marks).reverse ++ out) pending
    rw [hmarks, Mark.writtenAll_append, List.reverse_append, List.append_assoc]
    exact hfirst.trans hrest

end

/-- What is said of every tree alone is said of trees side by side. -/
theorem AllStandIn.flatMap_eq {α : Type} {f : NodeId → List α} {g : Placed → List α} {room : Nat}
    (hfg : ∀ p : Placed, p.StandsIn doc → p.height ≤ room → f p.id = g p)
    (hps : AllStandIn doc ps) (hroom : allHeight ps ≤ room) :
    (ps.map Placed.id).flatMap f = ps.flatMap g := by
  induction ps with
  | nil => rfl
  | cons p ps ih =>
    obtain ⟨hheight, hheights⟩ := Nat.max_le.1 hroom
    rw [List.map_cons, List.flatMap_cons, List.flatMap_cons, hfg p hps.1 hheight, ih hps.2 hheights]

theorem StandsIn.descendants_eq (h : p.StandsIn doc) (hheight : p.height ≤ doc.size) :
    doc.descendants p.id = p.preorder := by
  rw [Document.descendants, h.visit_preorder p doc.size [] hheight, List.append_nil, List.reverse_reverse]

theorem StandsIn.walk?_endsWith (h : p.StandsIn doc) : EndsWith (doc.walk? · p.id) p.preorder := by
  have hstop : doc.visitStep (p.preorder.reverse ++ [], []) = some (.inr p.preorder) := by
    rw [List.append_nil, Document.visitStep, List.reverse_reverse]
  exact (h.leads_visit p [] []).endsWith hstop

theorem StandsIn.markdown_eq (h : p.StandsIn doc) (hheight : p.height ≤ doc.size) :
    doc.markdown p.id = Mark.writtenAll p.tree.marks :=
  (h.write_eq p doc.size [] hheight).trans (List.nil_append _)

theorem StandsIn.displayText_eq (h : p.StandsIn doc) (hheight : p.height ≤ doc.size) :
    doc.displayText p.id = p.tree.shown :=
  (h.visit_eq p doc.size [] hheight).trans (List.nil_append _)

theorem StandsIn.walkMarkdown?_endsWith (h : p.StandsIn doc) :
    EndsWith (doc.walkMarkdown? · p.id) (Mark.writtenAll p.tree.marks) := by
  have hstop : doc.writeStep ((Mark.writtenAll p.tree.marks).reverse ++ [], []) =
      some (.inr (Mark.writtenAll p.tree.marks)) := by
    rw [List.append_nil, Document.writeStep, List.reverse_reverse]
  exact (h.leads_write p [] []).endsWith hstop

/-- Visiting a node is visiting it alone and then what stands below it. -/
theorem StandsIn.descendants_rec (h : p.StandsIn doc) (hheight : p.height ≤ doc.size) {node : Node}
    (hnode : doc.node? p.id = some node) :
    doc.descendants p.id = p.id :: (doc.below node).flatMap doc.descendants := by
  rw [h.descendants_eq hheight]
  cases p with
  | text id content | code id fence content =>
    obtain rfl := Option.some.inj (Eq.trans (Eq.symm h) hnode)
    rfl
  | container id shell children =>
    obtain ⟨hs, hc⟩ := h
    have hroom : allHeight children ≤ doc.size := by
      simp only [height] at hheight
      omega
    rw [Document.below_of_shell hs hnode,
      hc.flatMap_eq (fun _ hq hroom => hq.descendants_eq hroom) hroom,
      preorder, allPreorder_eq_flatMap, Placed.id]

theorem StandsIn.markdown_rec (h : p.StandsIn doc) (hheight : p.height ≤ doc.size) {node : Node}
    (hnode : doc.node? p.id = some node) : doc.markdown p.id = node.writtenBy doc.markdown := by
  rw [h.markdown_eq hheight]
  cases p with
  | text id content | code id fence content =>
    obtain rfl := Option.some.inj (Eq.trans (Eq.symm h) hnode)
    simp [tree, Tree.marks, Mark.written, Node.writtenBy]
  | container id shell children =>
    obtain ⟨hs, hc⟩ := h
    have hchildren : (children.map Placed.id).flatMap doc.markdown =
        Mark.writtenAll (Tree.allMarks (children.map tree)) := by
      rw [allMarks_eq_flatMap]
      exact hc.flatMap_eq (fun _ hq hroom => hq.markdown_eq hroom) (by simp only [height] at hheight; omega)
    cases shell with
    | image inner url =>
      obtain rfl := Option.some.inj (Eq.trans (Eq.symm hs.1) hnode)
      have hlink : (container inner (.link url) children).StandsIn doc := ⟨hs.2, hc⟩
      have hmarkdown := hlink.markdown_eq (by simp [height, Shell.places] at hheight ⊢; omega)
      rw [Placed.id] at hmarkdown
      simp [Node.writtenBy, hmarkdown, tree, Shell.tree, Tree.marks, Mark.written]
    | root | styled | link =>
      obtain rfl := Option.some.inj (Eq.trans (Eq.symm hs) hnode)
      simp [Node.writtenBy, hchildren, tree, Shell.tree, Tree.marks, Mark.written]

end Placed

namespace Document

variable {doc : Document} {id : NodeId} {node : Node}

/-- What a reader sees of a node is what that shows itself, and then what is seen below it. -/
theorem displayText_of_descendants (hnode : doc.node? id = some node)
    (h : doc.descendants id = id :: (doc.below node).flatMap doc.descendants) :
    doc.displayText id = node.visible ++ (doc.below node).flatMap doc.displayText := by
  rw [displayText, h, List.flatMap_cons, hnode, List.flatMap_assoc]
  rfl

/-- Below a grounded node each walk comes to an end, and gives what recursion over the nodes gives. -/
theorem Grounded.walks_recursive (h : doc.Grounded id) : ∃ node, doc.node? id = some node ∧
    (∀ child ∈ node.named, doc.Grounded child) ∧
    (EndsWith (doc.walk? · id) (doc.descendants id) ∧
      doc.descendants id = id :: (doc.below node).flatMap doc.descendants) ∧
    (EndsWith (doc.walkMarkdown? · id) (doc.markdown id) ∧
      doc.markdown id = node.writtenBy doc.markdown) ∧
    (EndsWith (doc.walkText? · id) (doc.displayText id) ∧
      doc.displayText id = node.visible ++ (doc.below node).flatMap doc.displayText) ∧
    EndsWith (doc.walkLength? · id) (doc.textLength id) ∧
      doc.textLength id =
        node.visible.length + (doc.below node).foldr (doc.textLength · + ·) 0 := by
  obtain ⟨node, hnode⟩ := h.exists_node?
  obtain ⟨p, rfl, hp, hheight⟩ := h.exists_placed
  have hwalk : EndsWith (doc.walk? · p.id) (doc.descendants p.id) := by
    rw [hp.descendants_eq hheight]
    exact hp.walk?_endsWith
  have hmarkdown : EndsWith (doc.walkMarkdown? · p.id) (doc.markdown p.id) := by
    rw [hp.markdown_eq hheight]
    exact hp.walkMarkdown?_endsWith
  have hrec := hp.descendants_rec hheight hnode
  have htext := displayText_of_descendants hnode hrec
  have hwalkText : EndsWith (doc.walkText? · p.id) (doc.displayText p.id) := hwalk.map _
  refine ⟨node, hnode, fun child hchild => h.of_names ((names_iff hnode).2 hchild), ⟨hwalk, hrec⟩,
    ⟨hmarkdown, hp.markdown_rec hheight hnode⟩, ⟨hwalkText, htext⟩, hwalkText.map _, ?_⟩
  rw [textLength, htext, List.length_append, List.length_flatMap, List.sum, List.foldr_map]
  rfl

/-- A text and a link that two nodes share, one of them an image, and a text that hangs nowhere. -/
def sharing : Document :=
  ⟨#[.root #[2, 4, 1], .styled .bold #[3], .image 4, .text ['a', '*'], .link ['u'] #[3, 1], .text ['b']]⟩

theorem grounded_sharing : sharing.Grounded rootId :=
  -- the heights of the nodes
  grounded_of_rank (fun id => [4, 1, 3, 0, 2, 0].getD id 0) (by decide) (by decide) (by decide)

theorem walks_recursive_sharing : sharing.Grounded rootId ∧
    EndsWith (sharing.walk? · rootId) [0, 2, 3, 1, 3, 4, 3, 1, 3, 1, 3] ∧
    EndsWith (sharing.walkMarkdown? · rootId) "![a\\***a\\***](u)[a\\***a\\***](u)**a\\***".toList ∧
    EndsWith (sharing.walkText? · rootId) "a*a*a*a*a*".toList ∧
    EndsWith (sharing.walkLength? · rootId) 10 := by
  obtain ⟨-, -, -, ⟨hwalk, -⟩, ⟨hmarkdown, -⟩, ⟨htext, -⟩, hlength, -⟩ :=
    grounded_sharing.walks_recursive
  exact ⟨grounded_sharing, hwalk, hmarkdown, htext, hlength⟩

end Document

end InlineMarkup
