import InlineMarkup.Document.Markdown
import InlineMarkup.Proofs.Merging
import Mathlib.Data.List.Nodup

/-! Placed trees: what a document holds, said as trees that know the places of their nodes. -/

namespace InlineMarkup

/-! ### Nodes after a change -/

namespace Document

variable (doc : Document)

theorem node?_modify (id : NodeId) (f : Node → Node) (j : NodeId) :
    (doc.modify id f).node? j = if id = j then (doc.node? j).map f else doc.node? j :=
  Array.getElem?_modify

@[simp] theorem size_modify (id : NodeId) (f : Node → Node) : (doc.modify id f).size = doc.size :=
  Array.size_modify ..

theorem node?_modify_of_ne {id j : NodeId} (f : Node → Node) (h : j ≠ id) :
    (doc.modify id f).node? j = doc.node? j := by
  rw [node?_modify, if_neg h.symm]

@[simp] theorem store_snd (node : Node) : (doc.store node).2 = doc.size := rfl

@[simp] theorem size_store (node : Node) : (doc.store node).1.size = doc.size + 1 :=
  Array.size_push ..

@[simp] theorem node?_store_size (node : Node) : (doc.store node).1.node? doc.size = some node :=
  Array.getElem?_push_size

theorem node?_store_of_lt {id : Nat} (node : Node) (h : id < doc.size) :
    (doc.store node).1.node? id = doc.node? id :=
  Array.getElem?_push_lt h |>.trans (Array.getElem?_eq_getElem h).symm

theorem lt_size_of_node? {doc : Document} {id : Nat} {node : Node}
    (h : doc.node? id = some node) : id < doc.size :=
  (Array.getElem?_eq_some_iff.1 h).1

@[simp] theorem size_append (parent child : NodeId) : (doc.append parent child).size = doc.size :=
  size_modify ..

@[simp] theorem size_add (parent : NodeId) (node : Node) :
    (doc.add parent node).1.size = doc.size + 1 :=
  (size_append ..).trans (size_store ..)

theorem size_addImage (parent : NodeId) (url : List Char) :
    (doc.addImage parent url).1.size = doc.size + 2 :=
  (size_add ..).trans (congrArg (· + 1) (size_store ..))

end Document

/-! ### Containers -/

/-- A container apart from its children. -/
inductive Shell
  | root
  | styled (style : Style)
  | link (url : List Char)
  /-- An image, with the place of the link that it wraps and the address of that. -/
  | image (inner : NodeId) (url : List Char)

namespace Shell

variable {doc doc' : Document} {shell : Shell} {id : NodeId} {children : List NodeId}

/-- The node that holds the children of a container at `id`. -/
def host (id : NodeId) : Shell → NodeId
  | image inner _ => inner
  | root | styled _ | link _ => id

/-- The places that a container at `id` takes itself. -/
def places (id : NodeId) : Shell → List NodeId
  | image inner _ => [id, inner]
  | root | styled _ | link _ => [id]

/-- The same places in the order in which they are made: an image comes after its link. -/
def order (id : NodeId) : Shell → List NodeId
  | image inner _ => [inner, id]
  | root | styled _ | link _ => [id]

def tree (children : List Tree) : Shell → Tree
  | root => .root children
  | styled style => .styled style children
  | link url => .link url children
  | image _ url => .image url children

/-- Gives a link or image another address. -/
def withUrl (url : List Char) : Shell → Shell
  | link _ => link url
  | image place _ => image place url
  | other => other

/-- Whether the container is at `id` in `doc`, with the children at the given places. -/
def StandsIn (doc : Document) (id : NodeId) (children : List NodeId) : Shell → Prop
  | root => doc.node? id = some (.root children.toArray)
  | styled style => doc.node? id = some (.styled style children.toArray)
  | link url => doc.node? id = some (.link url children.toArray)
  | image inner url =>
    doc.node? id = some (.image inner) ∧ doc.node? inner = some (.link url children.toArray)

theorem mem_places_self (shell : Shell) (id : NodeId) : id ∈ shell.places id := by
  cases shell <;> simp [places]

theorem host_mem_places (shell : Shell) (id : NodeId) : shell.host id ∈ shell.places id := by
  cases shell <;> simp [places, host]

theorem StandsIn.congr (h : shell.StandsIn doc id children)
    (he : ∀ j ∈ shell.places id, doc'.node? j = doc.node? j) :
    shell.StandsIn doc' id children := by
  cases shell <;> simp_all [StandsIn, places]

theorem StandsIn.lt_size (h : shell.StandsIn doc id children) :
    ∀ j ∈ shell.places id, j < doc.size := by
  intro j hj
  cases shell with
  | image inner url =>
    obtain rfl | rfl : j = id ∨ j = inner := by simpa [places] using hj
    · exact Document.lt_size_of_node? h.1
    · exact Document.lt_size_of_node? h.2
  | root | styled | link =>
    obtain rfl : j = id := by simpa [places] using hj
    exact Document.lt_size_of_node? h

theorem StandsIn.host_eq (h : shell.StandsIn doc id children) :
    doc.host id = shell.host id := by
  have hpos : 0 < doc.size := Nat.zero_lt_of_lt (h.lt_size id (shell.mem_places_self id))
  obtain ⟨n, hn⟩ : ∃ n, doc.size = n + 1 := ⟨doc.size - 1, by omega⟩
  cases shell with
  | image inner url =>
    simp only [Document.host, hn, Document.hostWithin, h.1, host]
    cases n <;> simp [Document.hostWithin, h.2]
  | root | styled | link =>
    have h : doc.node? id = _ := h
    simp [Document.host, hn, Document.hostWithin, h, host]

theorem StandsIn.node?_host (h : shell.StandsIn doc id children) :
    ∃ node, doc.node? (shell.host id) = some node ∧ node.children = children.toArray := by
  cases shell with
  | image inner url => exact ⟨_, h.2, rfl⟩
  | root | styled | link => exact ⟨_, h, rfl⟩

theorem StandsIn.children_eq (h : shell.StandsIn doc id children) :
    doc.children id = children.toArray := by
  obtain ⟨node, hnode, hc⟩ := h.node?_host
  rw [Document.children, h.host_eq, hnode, Option.map_some, Option.getD_some, hc]

theorem StandsIn.mapChildren (h : shell.StandsIn doc id children)
    (f : Array NodeId → Array NodeId) :
    shell.StandsIn (doc.modify (doc.host id) (.mapChildren f)) id (f children.toArray).toList := by
  rw [h.host_eq]
  cases shell with
  | image inner url =>
    have hne : id ≠ inner := by
      rintro rfl
      exact absurd (h.1.symm.trans h.2) (by simp)
    constructor
    · rw [host, Document.node?_modify_of_ne _ _ hne, h.1]
    · simp [host, Document.node?_modify, h.2, Node.mapChildren]
  | root | styled | link =>
    have h : doc.node? id = _ := h
    simp [StandsIn, host, Document.node?_modify, h, Node.mapChildren]

theorem StandsIn.setUrl (h : shell.StandsIn doc id children) (url : List Char) :
    (shell.withUrl url).StandsIn (doc.setUrl id url) id children := by
  rw [Document.setUrl, h.host_eq]
  cases shell with
  | image inner url =>
    have hne : id ≠ inner := by
      rintro rfl
      exact absurd (h.1.symm.trans h.2) (by simp)
    refine ⟨?_, ?_⟩
    · rw [host, Document.node?_modify_of_ne _ _ hne, h.1]
    · simp [host, Document.node?_modify, h.2, Node.withUrl]
  | root | styled | link =>
    have h : doc.node? id = _ := h
    simp [StandsIn, withUrl, host, Document.node?_modify, h, Node.withUrl]

@[simp] theorem places_withUrl (shell : Shell) (url : List Char) :
    (shell.withUrl url).places id = shell.places id := by
  cases shell <;> rfl

end Shell

/-! ### Trees -/

inductive Placed
  | text (id : NodeId) (content : List Char)
  | code (id : NodeId) (fence : Nat) (content : List Char)
  | container (id : NodeId) (shell : Shell) (children : List Placed)

namespace Placed

variable {doc doc' : Document} {ps qs : List Placed}

def id : Placed → NodeId
  | text id _ | code id _ _ | container id _ _ => id

mutual

/-- The tree without its places. -/
def tree : Placed → Tree
  | text _ content => .text content
  | code _ fence content => .code fence content
  | container _ shell children => shell.tree (trees children)

def trees : List Placed → List Tree
  | [] => []
  | p :: ps => tree p :: trees ps

end

mutual

/-- The places that the tree takes in its document. -/
def places : Placed → List NodeId
  | text id _ | code id _ _ => [id]
  | container id shell children => shell.places id ++ allPlaces children

def allPlaces : List Placed → List NodeId
  | [] => []
  | p :: ps => places p ++ allPlaces ps

end

mutual

/-- The same places in the order in which they are made. -/
def order : Placed → List NodeId
  | text id _ | code id _ _ => [id]
  | container id shell children => shell.order id ++ allOrder children

def allOrder : List Placed → List NodeId
  | [] => []
  | p :: ps => order p ++ allOrder ps

end

mutual

/-- Whether the tree is in `doc` at its places. -/
def StandsIn (doc : Document) : Placed → Prop
  | text id content => doc.node? id = some (.text content)
  | code id fence content => doc.node? id = some (.code fence content)
  | container id shell children =>
    shell.StandsIn doc id (children.map Placed.id) ∧ AllStandIn doc children

def AllStandIn (doc : Document) : List Placed → Prop
  | [] => True
  | p :: ps => StandsIn doc p ∧ AllStandIn doc ps

end

@[simp] theorem trees_eq_map (ps : List Placed) : trees ps = ps.map tree := by
  induction ps with
  | nil => rfl
  | cons p ps ih => rw [trees, ih, List.map_cons]

@[simp] theorem allPlaces_append (ps qs : List Placed) :
    allPlaces (ps ++ qs) = allPlaces ps ++ allPlaces qs := by
  induction ps with
  | nil => rfl
  | cons p ps ih => simp [allPlaces, ih]

@[simp] theorem allStandIn_append :
    AllStandIn doc (ps ++ qs) ↔ AllStandIn doc ps ∧ AllStandIn doc qs := by
  induction ps with
  | nil => simp [AllStandIn]
  | cons p ps ih => simp [AllStandIn, ih, and_assoc]

theorem allStandIn_iff : AllStandIn doc ps ↔ ∀ p ∈ ps, p.StandsIn doc := by
  induction ps with
  | nil => simp [AllStandIn]
  | cons p ps ih => simp [AllStandIn, ih]

theorem id_mem_places (p : Placed) : p.id ∈ p.places := by
  cases p with
  | text | code => simp [id, places]
  | container id shell children => simp [Placed.id, places, shell.mem_places_self]

theorem ids_subset_allPlaces (ps : List Placed) : ps.map Placed.id ⊆ allPlaces ps := by
  induction ps with
  | nil => simp
  | cons p ps ih =>
    simp only [List.map_cons, allPlaces, List.cons_subset, List.mem_append, p.id_mem_places, true_or,
      true_and]
    exact fun _ hj => List.mem_append_right _ (ih hj)

mutual

theorem StandsIn.congr : ∀ p : Placed, p.StandsIn doc →
    (∀ j ∈ p.places, doc'.node? j = doc.node? j) → p.StandsIn doc'
  | text id content, h, he | code id fence content, h, he =>
    (he id (by simp [places])).trans h
  | container id shell children, h, he =>
    ⟨h.1.congr fun j hj => he j (List.mem_append_left _ hj),
      AllStandIn.congr children h.2 fun j hj => he j (List.mem_append_right _ hj)⟩

theorem AllStandIn.congr : ∀ ps : List Placed, AllStandIn doc ps →
    (∀ j ∈ allPlaces ps, doc'.node? j = doc.node? j) → AllStandIn doc' ps
  | [], _, _ => trivial
  | p :: ps, h, he =>
    ⟨StandsIn.congr p h.1 fun j hj => he j (List.mem_append_left _ hj),
      AllStandIn.congr ps h.2 fun j hj => he j (List.mem_append_right _ hj)⟩

end

mutual

theorem StandsIn.lt_size : ∀ p : Placed, p.StandsIn doc → ∀ j ∈ p.places, j < doc.size
  | text id _, h, j, hj | code id _ _, h, j, hj => by
    obtain rfl : j = id := by simpa [places] using hj
    exact Document.lt_size_of_node? h
  | container id shell children, h, j, hj => by
    rcases List.mem_append.1 hj with hj | hj
    · exact h.1.lt_size j hj
    · exact AllStandIn.lt_size children h.2 j hj

theorem AllStandIn.lt_size : ∀ ps :
    List Placed, AllStandIn doc ps → ∀ j ∈ allPlaces ps, j < doc.size
  | [], _, j, hj => absurd hj (by simp [allPlaces])
  | p :: ps, h, j, hj => by
    rcases List.mem_append.1 hj with hj | hj
    · exact StandsIn.lt_size p h.1 j hj
    · exact AllStandIn.lt_size ps h.2 j hj

end

theorem StandsIn.isText_eq {p : Placed} (h : p.StandsIn doc) : doc.isText p.id = p.tree.isText := by
  cases p with
  | text | code =>
    have h : doc.node? _ = _ := h
    simp [Document.isText, Placed.id, h, Node.kind, tree, Tree.isText]
  | container id shell children =>
    cases shell with
    | image inner url =>
      simp [Document.isText, Placed.id, h.1.1, Node.kind, tree, Shell.tree, Tree.isText]
    | root | styled | link =>
      have h : doc.node? id = _ := h.1
      simp [Document.isText, Placed.id, h, Node.kind, tree, Shell.tree, Tree.isText]

theorem exists_text {p : Placed} (h : p.tree.isText) : ∃ id content, p = .text id content := by
  cases p with
  | text id content => exact ⟨id, content, rfl⟩
  | code => simp [tree, Tree.isText] at h
  | container id shell children => cases shell <;> simp [tree, Shell.tree, Tree.isText] at h

theorem AllStandIn.extendText {id : NodeId} {content more : List Char}
    (h : AllStandIn doc (ps ++ text id content :: qs))
    (hnodup : (allPlaces (ps ++ text id content :: qs)).Nodup) :
    AllStandIn (doc.modify id (.extendText more)) (ps ++ text id (content ++ more) :: qs) := by
  obtain ⟨hps, ht, hqs⟩ := allStandIn_append.1 h
  have ht : doc.node? id = some (.text content) := ht
  simp only [allPlaces_append, allPlaces, places, List.singleton_append, List.nodup_append,
    List.nodup_cons] at hnodup
  obtain ⟨_, ⟨hnotin, _⟩, hne⟩ := hnodup
  refine allStandIn_append.2 ⟨hps.congr _ ?_, ?_, hqs.congr _ ?_⟩
  · exact fun j hj => Document.node?_modify_of_ne _ _ (hne j hj id (List.mem_cons_self ..))
  · simp [StandsIn, Document.node?_modify, ht, Node.extendText]
  · exact fun j hj => Document.node?_modify_of_ne _ _ fun he => hnotin (he ▸ hj)

end Placed

end InlineMarkup
