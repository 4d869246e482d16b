import LiveMarkup.Document.Build
import LiveMarkup.Proofs.Document.Attributes
import LiveMarkup.Proofs.Document.Plant
/-!
# Plants that stand in a document

A plant stands in a document if its nodes are there with their names, attributes, texts and children.
Making nodes from markup changes nothing that was there before, and lets the plants of the markup stand
in the node that they are put into (`added_addContent`).
-/

namespace LiveMarkup.Document

open Markup (Tree Tag)
open Markup.Tree (size sizeAll)

variable {d d' d'' : Document} {n m p : NodeId} {a : AttributeId} {q : Plant} {ps : List Plant}

/-- The nodes of a plant are in the document, with all that the plant says about them. -/
inductive Stands (d : Document) : Plant → Prop where
  | element {id : NodeId} {tag : Tag} {children : List Plant} (has : d.Has id)
      (kind : d.kind id = .element tag.name tag.space) (pairs : d.attributePairs id = tag.attributes)
      (row : d.children id = children.map Plant.id) (below : ∀ c ∈ children, Stands d c) :
      Stands d (.element id tag children)
  | text {id : NodeId} {data : String} (has : d.Has id) (kind : d.kind id = .text)
      (written : (d.node id).data = data) : Stands d (.text id data)
  | comment {id : NodeId} {data : String} (has : d.Has id) (kind : d.kind id = .comment)
      (written : (d.node id).data = data) : Stands d (.comment id data)

/-- Some plants stand in a document, and if a root is given, they are all of its children. -/
structure Bears (d : Document) (root : Option NodeId) (plants : List Plant) : Prop where
  row : ∀ p, root = some p → d.children p = plants.map Plant.id
  stand : ∀ q ∈ plants, d.Stands q

theorem Stands.has (h : d.Stands q) : d.Has q.id := by
  cases h <;> assumption

theorem Stands.has_of_mem (h : d.Stands q) (hn : n ∈ q.ids) : d.Has n := by
  induction h with
  | element has _ _ _ _ ih =>
    rw [Plant.ids, List.mem_cons] at hn
    rcases hn with rfl | hn
    · exact has
    · obtain ⟨c, hc, hn⟩ := Plant.mem_idsAll.1 hn
      exact ih c hc hn
  | text has => exact List.mem_singleton.1 (by rwa [Plant.ids] at hn) ▸ has
  | comment has => exact List.mem_singleton.1 (by rwa [Plant.ids] at hn) ▸ has

/-- One document has a node just as another one does, but for its parent. -/
structure Unchanged (d d' : Document) (n : NodeId) : Prop where
  has : d.Has n → d'.Has n
  kind : d'.kind n = d.kind n
  data : (d'.node n).data = (d.node n).data
  attributes : (d'.node n).attributes = (d.node n).attributes
  pairs : d'.attributePairs n = d.attributePairs n
  children : d'.children n = d.children n

theorem Unchanged.refl (d : Document) (n : NodeId) : Unchanged d d n :=
  ⟨id, rfl, rfl, rfl, rfl, rfl⟩

theorem Unchanged.trans (h : Unchanged d d' n) (h' : Unchanged d' d'' n) : Unchanged d d'' n :=
  ⟨h'.has ∘ h.has, h'.kind.trans h.kind, h'.data.trans h.data, h'.attributes.trans h.attributes,
    h'.pairs.trans h.pairs, h'.children.trans h.children⟩

theorem Relinked.pairs (h : Relinked d d') (n : NodeId) :
    d'.attributePairs n = d.attributePairs n := by
  rw [attributePairs, h.attributesOf, attributePairs]
  exact List.map_congr_left fun a _ => by rw [h.attr a]

theorem Relinked.unchanged (h : Relinked d d') (hn : d'.children n = d.children n) :
    Unchanged d d' n :=
  ⟨h.has.2, h.kind n, h.data n, h.attributesOf n, h.pairs n, hn⟩

theorem Stands.congr (h : d.Stands q) (hq : ∀ n ∈ q.ids, Unchanged d d' n) : d'.Stands q := by
  induction h with
  | @element id tag children has kind pairs row _ ih =>
    rw [Plant.ids] at hq
    have hid := hq id (List.mem_cons_self ..)
    refine .element (hid.has has) (hid.kind.trans kind) (hid.pairs.trans pairs)
      (hid.children.trans row) fun c hc => ih c hc fun n hn => ?_
    exact hq n (List.mem_cons_of_mem _ (Plant.mem_idsAll.2 ⟨c, hc, hn⟩))
  | text has kind written =>
    have hid := hq _ (Plant.id_mem_ids _)
    exact .text (hid.has has) (hid.kind.trans kind) (hid.data.trans written)
  | comment has kind written =>
    have hid := hq _ (Plant.id_mem_ids _)
    exact .comment (hid.has has) (hid.kind.trans kind) (hid.data.trans written)

/-! ### Documents that grow -/

/-- Nodes and attributes have been added to a document, and of those that were there only some got
more children. -/
structure Extends (d d' : Document) (fed : List NodeId) : Prop where
  nodes : d.nodes.size ≤ d'.nodes.size
  attributes : d.attributes.size ≤ d'.attributes.size
  bare : ∀ n, d.Has n → (d'.node n).bare = (d.node n).bare
  parent? : ∀ n, d.Has n → d'.parent? n = d.parent? n
  children : ∀ n, d.Has n → n ∉ fed → d'.children n = d.children n
  attr : ∀ a, d.HasAttribute a → d'.attr a = d.attr a
  notices : d'.notices = d.notices

namespace Extends

variable {fed fed' : List NodeId}

theorem refl (d : Document) (fed : List NodeId) : Extends d d fed :=
  ⟨Nat.le_refl _, Nat.le_refl _, fun _ _ => rfl, fun _ _ => rfl, fun _ _ _ => rfl, fun _ _ => rfl,
    rfl⟩

theorem has (h : Extends d d' fed) (hn : d.Has n) : d'.Has n :=
  Nat.lt_of_lt_of_le hn h.nodes

theorem hasAttribute (h : Extends d d' fed) (ha : d.HasAttribute a) : d'.HasAttribute a :=
  Nat.lt_of_lt_of_le ha h.attributes

/-- Nodes that were not there at the beginning do not count. -/
theorem trans (h : Extends d d' fed) (h' : Extends d' d'' fed')
    (hfed : ∀ n ∈ fed', d.Has n → n ∈ fed) : Extends d d'' fed where
  nodes := Nat.le_trans h.nodes h'.nodes
  attributes := Nat.le_trans h.attributes h'.attributes
  bare n hn := (h'.bare n (h.has hn)).trans (h.bare n hn)
  parent? n hn := (h'.parent? n (h.has hn)).trans (h.parent? n hn)
  children n hn hm :=
    (h'.children n (h.has hn) fun hn' => hm (hfed n hn' hn)).trans (h.children n hn hm)
  attr a ha := (h'.attr a (h.hasAttribute ha)).trans (h.attr a ha)
  notices := h'.notices.trans h.notices

theorem kind (h : Extends d d' fed) (hn : d.Has n) : d'.kind n = d.kind n := by
  have hb := congrArg Node.kind (h.bare n hn)
  exact hb

theorem attributesOf (h : Extends d d' fed) (hn : d.Has n) :
    (d'.node n).attributes = (d.node n).attributes := by
  have hb := congrArg Node.attributes (h.bare n hn)
  exact hb

theorem data (h : Extends d d' fed) (hn : d.Has n) : (d'.node n).data = (d.node n).data := by
  have hb := congrArg Node.data (h.bare n hn)
  exact hb

theorem leaf? (h : Extends d d' fed) (hn : d.Has n) : d'.leaf? n = d.leaf? n := by
  rw [Document.leaf?, h.kind hn, Document.leaf?]

theorem pairs (h : Extends d d' fed) (ho : d.Owned) (hn : d.Has n) :
    d'.attributePairs n = d.attributePairs n := by
  rw [attributePairs, h.attributesOf hn, attributePairs]
  exact List.map_congr_left fun a ha => by rw [h.attr a (ho.hasAttribute ha)]

theorem unchanged (h : Extends d d' fed) (ho : d.Owned) (hn : d.Has n) (hfed : n ∉ fed) :
    Unchanged d d' n :=
  ⟨fun hn => h.has hn, h.kind hn, h.data hn, h.attributesOf hn, h.pairs ho hn,
    h.children n hn hfed⟩

theorem stands (h : Extends d d' fed) (ho : d.Owned) (hq : d.Stands q)
    (hfed : ∀ n ∈ q.ids, n ∉ fed) : d'.Stands q :=
  hq.congr fun n hn => h.unchanged ho (hq.has_of_mem hn) (hfed n hn)

end Extends

theorem extends_create (d : Document) (kind : NodeKind) (data : String) :
    Extends d (d.create kind data).2 [] where
  nodes := by
    show d.nodes.size ≤ (d.nodes.push _).size
    rw [Array.size_push]
    exact Nat.le_succ _
  attributes := Nat.le_refl _
  bare n hn := by rw [node_create, if_neg hn.ne_next]
  parent? _ _ := parent?_create
  children _ _ _ := children_create
  attr _ _ := rfl
  notices := rfl

/-! ### Making an element -/

/-- A node has been given some attributes, and nothing else has changed. -/
structure Adorned (d d' : Document) (n : NodeId) (pairs : List (String × String)) : Prop where
  sound : d'.Sound
  nodes : d'.nodes.size = d.nodes.size
  attributes : d.attributes.size ≤ d'.attributes.size
  node : ∀ m, m ≠ n → d'.node m = d.node m
  rest : { d'.node n with attributes := [] } = { d.node n with attributes := [] }
  pairs : d'.attributePairs n = d.attributePairs n ++ pairs
  attr : ∀ a, d.HasAttribute a → d'.attr a = d.attr a
  notices : d'.notices = d.notices

theorem pairs_giveAttribute (hl : ∀ a ∈ (d.node n).attributes, d.HasAttribute a) (hn : d.Has n) (name value : String) :
    (d.giveAttribute n name value).attributePairs n = d.attributePairs n ++ [(name, value)] := by
  rw [attributePairs, node_giveAttribute, if_pos ⟨rfl, hn⟩, List.map_append, List.map_singleton,
    attr_giveAttribute, if_pos rfl, attributePairs]
  refine congrArg (· ++ _) (List.map_congr_left fun a ha => ?_)
  rw [attr_giveAttribute, if_neg (hl a ha).ne_next]

theorem adorned_giveAttributes (hs : d.Sound) (hn : d.Has n) (pairs : List (String × String)) :
    Adorned d (pairs.foldl (fun d a => d.giveAttribute n a.1 a.2) d) n pairs := by
  induction pairs generalizing d with
  | nil =>
    exact ⟨hs, rfl, Nat.le_refl _, fun _ _ => rfl, rfl, (List.append_nil _).symm, fun _ _ => rfl,
      rfl⟩
  | cons a rest ih =>
    have hsize : (d.giveAttribute n a.1 a.2).nodes.size = d.nodes.size := size_nodes_update ..
    have hcount : (d.giveAttribute n a.1 a.2).attributes.size = d.attributes.size + 1 :=
      Array.size_push _
    have hrest := ih (hs.giveAttribute a.1 a.2) (by rw [Has, hsize]; exact hn)
    rw [List.foldl_cons]
    refine ⟨hrest.sound, hrest.nodes.trans hsize, by have := hrest.attributes; omega,
      fun m hm => ?_, ?_, ?_, fun b hb => ?_, hrest.notices⟩
    · rw [hrest.node m hm, node_giveAttribute, if_neg fun h => hm h.1]
    · rw [hrest.rest, node_giveAttribute, if_pos ⟨rfl, hn⟩]
    · rw [hrest.pairs, pairs_giveAttribute (hs.owned.listed n) hn, List.append_assoc]
      rfl
    · rw [hrest.attr b (Nat.lt_of_lt_of_le hb (by omega)), attr_giveAttribute, if_neg hb.ne_next]

/-- A new node that is linked to no other. -/
structure Made (d d' : Document) (n : NodeId) : Prop where
  sound : d'.Sound
  extends_ : Extends d d' []
  fresh : n = d.next
  nodes : d'.nodes.size = d.nodes.size + 1
  parent? : d'.parent? n = none
  children : d'.children n = []

theorem Made.has (h : Made d d' n) : d'.Has n := by
  rw [Has, h.nodes, h.fresh]
  exact Nat.lt_succ_self _

theorem made_create (hs : d.Sound) (kind : NodeKind) (data : String) :
    Made d (d.create kind data).2 (d.create kind data).1 where
  sound := hs.create kind data
  extends_ := extends_create d kind data
  fresh := rfl
  nodes := Array.size_push _
  parent? := by
    rw [create_fst, Document.parent?, node_create, if_pos rfl]
    rfl
  children := by
    rw [create_fst, Document.children, node_create, if_pos rfl]
    rfl

/-- A node that is given some attributes as soon as it is made. -/
theorem made_adorned (hs : d.Sound) (kind : NodeKind) (data : String)
    (pairs : List (String × String)) :
    let d' := pairs.foldl (fun d' a => d'.giveAttribute d.next a.1 a.2) (d.create kind data).2
    Made d d' d.next ∧ d'.kind d.next = kind ∧ (d'.node d.next).data = data ∧
      d'.attributePairs d.next = pairs := by
  intro d'
  have hmade := made_create hs kind data
  have hadorned : Adorned (d.create kind data).2 d' d.next pairs :=
    adorned_giveAttributes hmade.sound hmade.has pairs
  have hcreated : (d.create kind data).2.node d.next = Node.alone kind data := by
    rw [node_create, if_pos rfl]
  have hrest := hadorned.rest
  rw [hcreated] at hrest
  refine ⟨⟨hadorned.sound, ⟨?_, ?_, fun n hn => ?_, fun n hn => ?_, fun n hn _ => ?_, fun a ha => ?_,
    hadorned.notices⟩, rfl, ?_, ?_, ?_⟩, ?_, ?_, ?_⟩
  · exact Nat.le_trans hmade.extends_.nodes (Nat.le_of_eq hadorned.nodes.symm)
  · exact Nat.le_trans hmade.extends_.attributes hadorned.attributes
  · rw [← hmade.extends_.bare n hn]
    exact congrArg Node.bare (hadorned.node n hn.ne_next)
  · rw [← hmade.extends_.parent? n hn]
    exact congrArg Node.parent (hadorned.node n hn.ne_next)
  · rw [← hmade.extends_.children n hn (List.not_mem_nil)]
    exact congrArg Node.children (hadorned.node n hn.ne_next)
  · rw [← hmade.extends_.attr a ha]
    exact hadorned.attr a ha
  · exact hadorned.nodes.trans hmade.nodes
  · exact congrArg (fun r : Node => r.parent) hrest
  · exact congrArg (fun r : Node => r.children) hrest
  · exact congrArg (fun r : Node => r.kind) hrest
  · exact congrArg (fun r : Node => r.data) hrest
  · have hnone : (d.create kind data).2.attributePairs d.next = [] := by
      rw [attributePairs, hcreated]
      rfl
    exact hadorned.pairs.trans (by rw [hnone, List.nil_append])

theorem made_createElement (hs : d.Sound) (tag : Tag) :
    Made d (d.createElement tag).2 (d.createElement tag).1 ∧
      (d.createElement tag).2.kind (d.createElement tag).1 = .element tag.name tag.space ∧
      (d.createElement tag).2.attributePairs (d.createElement tag).1 = tag.attributes := by
  obtain ⟨hmade, hkind, -, hpairs⟩ :=
    made_adorned hs (.element tag.name tag.space) "" tag.attributes
  exact ⟨hmade, hkind, hpairs⟩

/-! ### Making nodes from markup -/

theorem link_eq_attach (h : d.parent? n = none) : d.link p n = d.attach p n none := by
  rw [attach, detach, h]
  rfl

theorem Forest.not_above_of_childless (hf : d.Forest) (hn : d.children n = []) (hne : p ≠ n) :
    ¬ d.Above p n := by
  intro ha
  cases ha with
  | self => exact hne rfl
  | up _ hp =>
    have hmem := hf.mem_of_parent hp
    rw [hn] at hmem
    cases hmem

/-- Some plants have been made as the last children of `p`. -/
structure Added (d d' : Document) (p : NodeId) (plants : List Plant) : Prop where
  sound : d'.Sound
  extends_ : Extends d d' [p]
  nodes : d'.nodes.size = d.nodes.size + (Plant.idsAll plants).length
  row : d'.children p = d.children p ++ plants.map Plant.id
  stand : ∀ q ∈ plants, d'.Stands q

/-- A new node that has no parent yet is put behind all other children of `p`. -/
theorem Extends.link (h : Extends d d' []) (hs : d'.Sound) (ha : d'.Adoptable p n)
    (hroot : d'.parent? n = none) (hn : ¬ d.Has n) (hp : d.Has p) :
    (d'.link p n).Sound ∧ Extends d (d'.link p n) [p] ∧ Relinked d' (d'.link p n) ∧
      (d'.link p n).children p = d.children p ++ [n] ∧
      ∀ q, q ≠ p → (d'.link p n).children q = d'.children q := by
  have hchildren := children_attach hs.forest ha none
  have hfilter : ∀ q, (d'.children q).filter (· != n) = d'.children q := fun q =>
    hs.forest.filter_children (by simp [hroot])
  have hrelinked := relinked_attach d' p n none
  rw [link_eq_attach hroot]
  refine ⟨⟨hs.forest.attach ha none, hs.owned.relinked hrelinked⟩, ?_, hrelinked, ?_, fun q hq => ?_⟩
  · refine ⟨?_, ?_, fun m hm => ?_, fun m hm => ?_, fun m hm hmp => ?_, fun a ha => ?_, ?_⟩
    · rw [hrelinked.size]
      exact h.nodes
    · rw [hrelinked.attributes]
      exact h.attributes
    · rw [hrelinked.bare, h.bare m hm]
    · have hne : m ≠ n := fun he => hn (he ▸ hm)
      rw [parent?_attach ha, if_neg hne, h.parent? m hm]
    · rw [hchildren, if_neg (by simpa using hmp), hfilter, h.children m hm (List.not_mem_nil)]
    · rw [hrelinked.attr, h.attr a ha]
    · rw [notices_attach, h.notices]
  · rw [hchildren, if_pos rfl, hfilter, h.children p hp (List.not_mem_nil)]
    rfl
  · rw [hchildren, if_neg hq, hfilter]

/-- A new node without children is put behind all other children of `p`. -/
theorem Made.link (h : Made d d' n) (hp : d.Has p) (hinner : d.leaf? p = none)
    (hsolid : d'.isFragment n = false) :
    (d'.link p n).Sound ∧ Extends d (d'.link p n) [p] ∧ Relinked d' (d'.link p n) ∧
      (d'.link p n).children p = d.children p ++ [n] ∧ (d'.link p n).children n = [] := by
  have hne : p ≠ n := h.fresh ▸ hp.ne_next
  have ha : d'.Adoptable p n :=
    ⟨h.extends_.has hp, h.has, (h.extends_.leaf? hp).trans hinner, hsolid,
      h.sound.forest.not_above_of_childless h.children hne⟩
  obtain ⟨hsound, hext, hrelinked, hrow, hrows⟩ :=
    h.extends_.link h.sound ha h.parent? (h.fresh ▸ not_has_next) hp
  exact ⟨hsound, hext, hrelinked, hrow, (hrows n hne.symm).trans h.children⟩

theorem Added.trans {qs : List Plant} (h : Added d d' p ps) (h' : Added d' d'' p qs)
    (hp : ∀ n ∈ Plant.idsAll ps, n ≠ p) : Added d d'' p (ps ++ qs) where
  sound := h'.sound
  extends_ := h.extends_.trans h'.extends_ fun _ hn _ => hn
  nodes := by
    rw [h'.nodes, h.nodes, Plant.idsAll_append, List.length_append]
    omega
  row := by rw [h'.row, h.row, List.map_append, List.append_assoc]
  stand q hq := by
    rcases List.mem_append.1 hq with hq | hq
    · refine h'.extends_.stands h.sound.owned (h.stand q hq) fun n hn => ?_
      simpa using hp n (Plant.mem_idsAll.2 ⟨q, hq, hn⟩)
    · exact h'.stand q hq

/-- A text or comment is made as the last child. -/
theorem added_leaf (hs : d.Sound) (hp : d.Has p) (hinner : d.leaf? p = none) {kind : NodeKind}
    {data : String} (hsolid : kind ≠ .fragment)
    (hq : ∀ {d' : Document}, d'.Has d.next → d'.kind d.next = kind →
      (d'.node d.next).data = data → d'.Stands q) (hids : q.ids = [d.next]) (hid : q.id = d.next) :
    Added d ((d.create kind data).2.link p (d.create kind data).1) p [q] := by
  have hmade := made_create hs kind data
  have hkind : (d.create kind data).2.kind d.next = kind := kind_create_next
  obtain ⟨hsound, hext, hrelinked, hrow, -⟩ := hmade.link hp hinner (by
    rw [isFragment, create_fst, hkind]
    simpa using hsolid)
  refine ⟨hsound, hext, ?_, ?_, fun r hr => ?_⟩
  · rw [hrelinked.size, hmade.nodes, Plant.idsAll_cons, hids, Plant.idsAll_nil]
    rfl
  · rw [hrow, List.map_singleton, hid]
    rfl
  · rw [List.mem_singleton.1 hr]
    refine hq (hrelinked.has.2 hmade.has) ?_ ?_
    · rw [hrelinked.kind, hkind]
    · rw [hrelinked.data, node_create, if_pos rfl]
      rfl

theorem added_trees :
    (∀ (t : Tree) {p : NodeId} {d : Document}, d.Sound → d.Has p → d.leaf? p = none →
      Added d (addTree p d t) p [plant d.nodes.size t]) ∧
    ∀ (ts : List Tree) {p : NodeId} {d : Document}, d.Sound → d.Has p → d.leaf? p = none →
      Added d (addContent p d ts) p (plantAll d.nodes.size ts) := by
  refine Markup.Tree.induct ?_ ?_ ?_ ?_ ?_
  · intro tag children ih p d hs hp hinner
    obtain ⟨hmade, hkind, hpairs⟩ := made_createElement hs tag
    have hfst : (d.createElement tag).1 = d.next := rfl
    rw [hfst] at hmade hkind hpairs
    obtain ⟨hsound, hext, hrelinked, hrow, hbare⟩ := hmade.link hp hinner (by
      rw [isFragment, hkind]
      rfl)
    have hhas := hrelinked.has.2 hmade.has
    have hbelow := ih hsound hhas (by rw [leaf?, hrelinked.kind, hkind])
    rw [hrelinked.size, hmade.nodes] at hbelow
    rw [addTree, plant]
    refine ⟨hbelow.sound, hext.trans hbelow.extends_ fun n hn hold => ?_, ?_, ?_, fun q hq => ?_⟩
    · exact absurd (List.mem_singleton.1 hn) hold.ne_next
    · refine hbelow.nodes.trans ?_
      rw [hrelinked.size, hmade.nodes, Plant.idsAll_cons, Plant.idsAll_nil, Plant.ids,
        List.append_nil, List.length_cons]
      omega
    · refine (hbelow.extends_.children p (hext.has hp) (by simpa using hp.ne_next)).trans ?_
      rw [hrow]
      rfl
    · rw [List.mem_singleton.1 hq]
      refine .element (hbelow.extends_.has hhas) ?_ ?_ ?_ hbelow.stand
      · exact (hbelow.extends_.kind hhas).trans ((hrelinked.kind _).trans hkind)
      · exact (hbelow.extends_.pairs hsound.owned hhas).trans ((hrelinked.pairs _).trans hpairs)
      · refine hbelow.row.trans ?_
        rw [hbare, List.nil_append]
  · intro data p d hs hp hinner
    rw [addTree, plant]
    exact added_leaf hs hp hinner (by simp) .text (by rw [Plant.ids]; rfl) rfl
  · intro data p d hs hp hinner
    rw [addTree, plant]
    exact added_leaf hs hp hinner (by simp) .comment (by rw [Plant.ids]; rfl) rfl
  · intro p d hs hp hinner
    rw [addContent, plantAll]
    refine ⟨hs, .refl d [p], ?_, ?_, fun q hq => ?_⟩
    · rw [Plant.idsAll_nil]
      rfl
    · exact (List.append_nil _).symm
    · cases hq
  · intro t ts iht ihts p d hs hp hinner
    have hfirst := iht hs hp hinner
    have hsize : (addTree p d t).nodes.size = d.nodes.size + t.size := by
      rw [hfirst.nodes, Plant.idsAll_cons, Plant.idsAll_nil, List.append_nil, Plant.ids_plant.1]
      simp [numbers]
    have hrest := ihts hfirst.sound (hfirst.extends_.has hp) ((hfirst.extends_.leaf? hp).trans hinner)
    rw [hsize] at hrest
    rw [addContent, plantAll]
    refine hfirst.trans hrest fun n hn => ?_
    rw [Plant.idsAll_cons, Plant.idsAll_nil, List.append_nil, Plant.ids_plant.1, mem_numbers] at hn
    rintro rfl
    exact absurd hp (Nat.not_lt.2 hn.1)

/-- Making nodes from markup. -/
theorem added_addContent (hs : d.Sound) (hp : d.Has p) (hinner : d.leaf? p = none) (ts : List Tree) :
    Added d (addContent p d ts) p (plantAll d.nodes.size ts) :=
  added_trees.2 ts hs hp hinner

end LiveMarkup.Document
