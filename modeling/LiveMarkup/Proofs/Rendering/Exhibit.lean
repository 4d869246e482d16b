import LiveMarkup.Proofs.Rendering.Release
import LiveMarkup.Proofs.Rendering.Trimming
import LiveMarkup.Proofs.Template.Holes
import LiveMarkup.Rendering.Realization
/-!
# What is on show

An `Exhibit` is a plan that has been shown: for each use of a template its instance, the plants made from
its content, and a `Spot` for each hole, which says what the hole adds to the plants by itself. What is
nested in a hole is an exhibit of its own. The nodes that an exhibit comes to follow from these
(`Exhibit.plants`), and so do the value that stands for it and the instances and slots that remember it.

What a document has to provide for an exhibit besides its nodes is little: a text that is not in use has
no parent, an attribute that is not in use is on no element, and no other attribute takes its name
(`Document.Supports`).
-/

namespace LiveMarkup

/-- What a hole adds by itself: a text or nothing in front of its placeholder, a value of its attribute
or none, or a text or nothing as the content of its element. Before the first value is shown, the
element still has the content that it was made with. -/
inductive Spot where
  | child (placeholder : NodeId) (plants : List Plant)
  | attr (element : NodeId) (name : String) (value : Option String)
  | text (element : NodeId) (content : Option (List Plant))

namespace Spot

/-- The node at which a hole is. -/
def place : Spot → NodeId
  | child n _ => n
  | attr n _ _ => n
  | text n _ => n

/-- What a hole adds by itself. -/
def trimming : Spot → Trimming NodeId Plant
  | child n plants => .leading n plants
  | attr n name value => .adorning n (value.toList.map (name, ·))
  | text n (some plants) => .filling n plants
  | text _ none => .none

/-- What a hole adds with what is nested in it. -/
def trimmingWith (s : Spot) (plants : List Plant) : Trimming NodeId Plant :=
  s.trimming.join (.leading s.place plants)

/-- What some holes add with what is nested in them. -/
def trimmings : List Spot → List (List Plant) → Trimming NodeId Plant
  | s :: spots, plants :: rest => (s.trimmingWith plants).join (trimmings spots rest)
  | _, _ => .none

theorem trimmings_nil (plants : List (List Plant)) : trimmings [] plants = .none := by
  rw [trimmings]
  exact fun s spots plants' rest h => by cases h

/-- The content that a hole gives its element. -/
def content : Spot → List Plant
  | text _ (some plants) => plants
  | _ => []

end Spot

/-- The text that a binding has made for itself. -/
def Binding.texts : Binding → List NodeId
  | .child c => [c.text]
  | _ => []

/-- A plan that has been shown. -/
inductive Exhibit where
  | leaf (value : Value)
  | use (i : Instance) (roots : List Plant) (spots : List Spot) (holes : List Exhibit)
  | list (items : List Exhibit)

namespace Exhibit

mutual

/-- The nodes that an exhibit comes to. -/
def plants : Exhibit → List Plant
  | leaf _ => []
  | use _ roots spots holes => Plant.graftAll (Spot.trimmings spots (plantsAll holes)).put roots
  | list items => (plantsAll items).flatten

/-- The nodes that some exhibits come to. -/
def plantsAll : List Exhibit → List (List Plant)
  | [] => []
  | x :: rest => x.plants :: plantsAll rest

end

mutual

/-- The value that stands for an exhibit. -/
def result : Exhibit → Value
  | leaf value => value
  | use i _ _ _ => .block i.block
  | list items => .list (results items)

/-- The values that stand for some exhibits. -/
def results : List Exhibit → List Value
  | [] => []
  | x :: rest => x.result :: results rest

end

mutual

/-- The instances of an exhibit that are on the same level. -/
def instances : Exhibit → List Instance
  | leaf _ => []
  | use i _ _ holes => i :: instancesAll holes
  | list _ => []

/-- The instances of some exhibits that are on the same level. -/
def instancesAll : List Exhibit → List Instance
  | [] => []
  | x :: rest => x.instances ++ instancesAll rest

end

mutual

/-- The slots of an exhibit that are on the same level. -/
def slots : Exhibit → List Cache
  | leaf _ => []
  | use _ _ _ holes => slotsAll holes
  | list items => slotsOfItems items

/-- The slots of some exhibits that are on the same level. -/
def slotsAll : List Exhibit → List Cache
  | [] => []
  | x :: rest => x.slots ++ slotsAll rest

/-- The slots of the items of a list. -/
def slotsOfItems : List Exhibit → List Cache
  | [] => []
  | leaf _ :: rest => slotsOfItems rest
  | x :: rest => ⟨x.instances, x.slots, none⟩ :: slotsOfItems rest

end

mutual

/-- All bindings of an exhibit with their spots. -/
def entries : Exhibit → List (Binding × Spot)
  | leaf _ => []
  | use i _ spots holes => i.bindings.zip spots ++ entriesAll holes
  | list items => entriesAll items

/-- All bindings of some exhibits with their spots. -/
def entriesAll : List Exhibit → List (Binding × Spot)
  | [] => []
  | x :: rest => x.entries ++ entriesAll rest

end

mutual

/-- The blocks that an exhibit comes to, with their nodes. -/
def pieces : Exhibit → List (Block × List Plant)
  | leaf _ => []
  | use i roots spots holes =>
    [(i.block, Plant.graftAll (Spot.trimmings spots (plantsAll holes)).put roots)]
  | list items => piecesAll items

/-- The blocks that some exhibits come to, with their nodes. -/
def piecesAll : List Exhibit → List (Block × List Plant)
  | [] => []
  | x :: rest => x.pieces ++ piecesAll rest

end

mutual

/-- All nodes that have been made for an exhibit, on show or not. -/
def nodes : Exhibit → List NodeId
  | leaf _ => []
  | use i roots spots holes =>
    Plant.idsAll roots ++ i.bindings.flatMap Binding.texts ++ nodesAll holes
      ++ Plant.idsAll (spots.flatMap Spot.content)
  | list items => nodesAll items

/-- All nodes that have been made for some exhibits. -/
def nodesAll : List Exhibit → List NodeId
  | [] => []
  | x :: rest => x.nodes ++ nodesAll rest

end

/-- All that is kept alive by the instances and slots of an exhibit. -/
def held (x : Exhibit) : List NodeId :=
  x.instances.flatMap Instance.held ++ heldBySlots x.slots

/-- All that is kept alive by the instances and slots of some exhibits. -/
def heldAll (xs : List Exhibit) : List NodeId :=
  (instancesAll xs).flatMap Instance.held ++ heldBySlots (slotsAll xs)

end Exhibit

/-- The fragment that the nodes of a block are in. -/
def Block.root? : Block → Option NodeId
  | single _ => none
  | group g => some g.fragment

namespace Document

/-- Some nodes have been made, each of them once. -/
structure Novel (d d' : Document) (nodes : List NodeId) : Prop where
  grown : d.nodes.size ≤ d'.nodes.size
  nodup : nodes.Nodup
  new : ∀ n ∈ nodes, ¬ d.Has n ∧ d'.Has n

/-- A block is in its fragment, or without parent if it is a single node. -/
structure Loose (d : Document) (block : Block) (plants : List Plant) : Prop where
  bears : d.Bears block.root? plants
  single : ∀ n, block = .single n → plants.map Plant.id = [n] ∧ d.parent? n = none
  group : ∀ g, block = .group g → d.Has g.fragment ∧ d.isFragment g.fragment = true ∧
    (g.members = [] ∨ g.first ∈ plants.map Plant.id)

/-- What a binding relies on besides the nodes on show. -/
def Supports (d : Document) : Binding × Spot → Prop
  | (.child c, .child n plants) =>
    c.placeholder = n ∧ d.Has c.text ∧ d.kind c.text = .text ∧
      (plants = [] → d.parent? c.text = none)
  | (.attr n a _ _, .attr n' name value) =>
    n = n' ∧ d.Has n ∧ d.isElement n = true ∧ d.HasAttribute a ∧ (d.attr a).name = name ∧
      (∀ b ∈ (d.node n).attributes, b ≠ a → (d.attr b).name ≠ name) ∧
      (value = none → (d.attr a).owner = none) ∧
      ∀ v, value = some v → a ∈ (d.node n).attributes ∧ (d.attr a).value = v
  | (.text n _, .text n' _) => n = n' ∧ d.Has n ∧ d.isElement n = true
  | _ => False

end Document

/-- Two bindings have no text and no attribute in common, and are not for attributes of one name on one
element. -/
def Separate : Binding × Spot → Binding × Spot → Prop
  | (.child c, _), (.child c', _) => c.text ≠ c'.text
  | (.attr _ a _ _, .attr n name _), (.attr _ a' _ _, .attr n' name' _) =>
    a ≠ a' ∧ (n = n' → name ≠ name')
  | _, _ => True

/-- The text or attribute of a binding was not there before. -/
def Binding.IsNew (d : Document) : Binding → Prop
  | .child c => ¬ d.Has c.text
  | .attr _ a _ _ => ¬ d.HasAttribute a
  | _ => True

theorem Instance.isOf_of_eq {i : Instance} {space : Markup.Namespace} {template : Template}
    (hspace : i.space = space) (htemplate : i.template = template) : i.isOf space template = true := by
  rw [isOf, hspace, htemplate]
  simp

namespace Exhibit

/-- Induction over exhibits and lists of exhibits. -/
theorem induct {motive : Exhibit → Prop} {motives : List Exhibit → Prop}
    (leaf : ∀ value, motive (.leaf value))
    (use : ∀ i roots spots holes, motives holes → motive (.use i roots spots holes))
    (list : ∀ items, motives items → motive (.list items)) (nil : motives [])
    (cons : ∀ x xs, motive x → motives xs → motives (x :: xs)) :
    (∀ x, motive x) ∧ ∀ xs, motives xs :=
  ⟨@Exhibit.rec motive motives leaf use list nil cons,
    @Exhibit.rec_1 motive motives leaf use list nil cons⟩

theorem heldBySlots_append (slots slots' : List Cache) :
    heldBySlots (slots ++ slots') = heldBySlots slots ++ heldBySlots slots' := by
  induction slots with
  | nil => simp [heldBySlots]
  | cons slot rest ih => simp [heldBySlots, ih]

theorem heldAll_cons (x : Exhibit) (xs : List Exhibit) (n : NodeId) :
    n ∈ heldAll (x :: xs) ↔ n ∈ x.held ∨ n ∈ heldAll xs := by
  simp only [heldAll, held, instancesAll, slotsAll, heldBySlots_append, List.flatMap_append,
    List.mem_append]
  tauto

/-- An item of a list other than a value has a slot of its own. -/
theorem slotsOfItems_cons {x : Exhibit} {xs : List Exhibit} (hx : ∀ v, x ≠ .leaf v) :
    slotsOfItems (x :: xs) = ⟨x.instances, x.slots, none⟩ :: slotsOfItems xs := by
  rw [slotsOfItems]
  exact fun v he => hx v he

theorem held_slot (x : Exhibit) : Cache.held ⟨x.instances, x.slots, none⟩ = x.held :=
  List.append_nil _

theorem held_slotsOfItems_cons (x : Exhibit) (xs : List Exhibit) :
    heldBySlots (slotsOfItems (x :: xs)) = x.held ++ heldBySlots (slotsOfItems xs) := by
  cases x with
  | leaf value => simp [slotsOfItems, heldBySlots, held, instances, slots]
  | use i roots spots holes => simp [slotsOfItems, heldBySlots, Cache.held, held]
  | list items => simp [slotsOfItems, heldBySlots, Cache.held, held]

theorem held_use (i : Instance) (roots : List Plant) (spots : List Spot) (holes : List Exhibit) :
    (use i roots spots holes).held = i.held ++ heldAll holes := by
  simp [held, heldAll, instances, slots]

theorem held_list (items : List Exhibit) :
    (list items).held = heldBySlots (slotsOfItems items) := by
  simp [held, instances, slots]

/-- Whatever is part of every exhibit in the same way is kept alive, if that of an instance is. -/
theorem entries_held :
    (∀ x : Exhibit, ∀ e ∈ x.entries, e.1.held ⊆ x.held) ∧
      ∀ xs : List Exhibit, ∀ e ∈ entriesAll xs,
        e.1.held ⊆ heldAll xs ∧ e.1.held ⊆ heldBySlots (slotsOfItems xs) := by
  refine induct ?_ ?_ ?_ ?_ ?_
  · intro value e he
    rw [entries] at he
    cases he
  · intro i roots spots holes ih e he n hn
    rw [entries, List.mem_append] at he
    rw [held_use, List.mem_append]
    rcases he with he | he
    · refine .inl (List.mem_append_right _ ?_)
      exact List.mem_flatMap.2 ⟨e.1, (List.of_mem_zip he).1, hn⟩
    · exact .inr ((ih e he).1 hn)
  · intro items ih e he n hn
    rw [entries] at he
    rw [held_list]
    exact (ih e he).2 hn
  · intro e he
    rw [entriesAll] at he
    cases he
  · intro x xs ihx ihxs e he
    rw [entriesAll, List.mem_append] at he
    rw [held_slotsOfItems_cons]
    constructor
    · intro n hn
      rw [heldAll_cons]
      exact he.imp (fun he => ihx e he hn) fun he => (ihxs e he).1 hn
    · intro n hn
      rw [List.mem_append]
      exact he.imp (fun he => ihx e he hn) fun he => (ihxs e he).2 hn

theorem pieces_held :
    (∀ x : Exhibit, ∀ e ∈ x.pieces, e.1.held ⊆ x.held) ∧
      ∀ xs : List Exhibit, ∀ e ∈ piecesAll xs,
        e.1.held ⊆ heldAll xs ∧ e.1.held ⊆ heldBySlots (slotsOfItems xs) := by
  refine induct ?_ ?_ ?_ ?_ ?_
  · intro value e he
    rw [pieces] at he
    cases he
  · intro i roots spots holes _ e he n hn
    rw [pieces, List.mem_singleton] at he
    rw [he] at hn
    rw [held_use, List.mem_append]
    exact .inl (List.mem_append_left _ hn)
  · intro items ih e he n hn
    rw [pieces] at he
    rw [held_list]
    exact (ih e he).2 hn
  · intro e he
    rw [piecesAll] at he
    cases he
  · intro x xs ihx ihxs e he
    rw [piecesAll, List.mem_append] at he
    rw [held_slotsOfItems_cons]
    constructor
    · intro n hn
      rw [heldAll_cons]
      exact he.imp (fun he => ihx e he hn) fun he => (ihxs e he).1 hn
    · intro n hn
      rw [List.mem_append]
      exact he.imp (fun he => ihx e he hn) fun he => (ihxs e he).2 hn

end Exhibit

/-- An item of a list is shown in the next slot, and what it has left behind is let go of. -/
theorem realizeItems_slot {custody : Custody} {level level' inner : Level} {slot : Cache} {p : Plan} {x : Exhibit}
    {d : Document} (hp : ∀ v, p ≠ .leaf v) (htake : level.takeSlot = (slot, level')) (hroot : slot.root = none)
    (hrealize : p.realize (custody.holding level'.held) ⟨slot.instances, slot.slots, [], level'.document⟩
      = ⟨x.result, x.instances, inner⟩) (hinner : inner.newSlots = x.slots.reverse ∧ inner.document = d)
    (ps : List Plan) :
    realizeItems custody level (p :: ps) =
      let others := realizeItems custody { level' with
        newSlots := ⟨x.instances, x.slots, none⟩ :: level'.newSlots
        document := d.release ((custody.holding level'.held).holding x.held) } ps
      ⟨x.result :: others.result, [], others.level⟩ := by
  have hclose : inner.close (custody.holding level'.held) x.instances slot.root
      = (⟨x.instances, x.slots, none⟩, d.release ((custody.holding level'.held).holding x.held)) := by
    rw [Level.close, hroot, hinner.1, hinner.2, List.reverse_reverse, Exhibit.held_slot]
  rw [realizeItems]
  · rw [htake]
    dsimp only
    rw [hrealize]
    dsimp only
    rw [hclose]
  · exact hp

namespace Document

variable {d d' : Document} {nodes : List NodeId} {block : Block} {plants : List Plant}
  {e : Binding × Spot}

theorem Novel.nil (h : d.nodes.size ≤ d'.nodes.size) : d.Novel d' [] :=
  ⟨h, .nil, fun n hn => by cases hn⟩

/-- What is made later is something else. -/
theorem Novel.append {d'' : Document} {nodes' : List NodeId} (h : d.Novel d' nodes)
    (h' : d'.Novel d'' nodes') : d.Novel d'' (nodes ++ nodes') where
  grown := Nat.le_trans h.grown h'.grown
  nodup := List.nodup_append.2 ⟨h.nodup, h'.nodup, fun n hn m hm he =>
    (h'.new m hm).1 (he ▸ (h.new n hn).2)⟩
  new n hn := by
    rcases List.mem_append.1 hn with hn | hn
    · exact ⟨(h.new n hn).1, Nat.lt_of_lt_of_le (h.new n hn).2 h'.grown⟩
    · exact ⟨fun hd => (h'.new n hn).1 (Nat.lt_of_lt_of_le hd h.grown), (h'.new n hn).2⟩

theorem Novel.sublist {nodes' : List NodeId} (h : d.Novel d' nodes) (hsub : nodes'.Sublist nodes) :
    d.Novel d' nodes' :=
  ⟨h.grown, h.nodup.sublist hsub, fun n hn => h.new n (hsub.subset hn)⟩

theorem Novel.perm {nodes' : List NodeId} (h : d.Novel d' nodes) (hp : nodes.Perm nodes') : d.Novel d' nodes' :=
  ⟨h.grown, hp.nodup_iff.1 h.nodup, fun n hn => h.new n (hp.mem_iff.2 hn)⟩

theorem Novel.mono {d'' : Document} (h : d.Novel d' nodes) (hle : d'.nodes.size ≤ d''.nodes.size) :
    d.Novel d'' nodes := by
  have happ := h.append (.nil hle)
  rwa [List.append_nil] at happ

theorem Loose.keeps (hl : d.Loose block plants) (h : Keeps d d' nodes) (hheld : block.held ⊆ nodes) :
    d'.Loose block plants where
  bears := by
    refine h.bears hl.bears (fun p hp => ?_) fun hp q hq => ?_
    · cases block with
      | single n => cases hp
      | group g =>
        cases hp
        exact ⟨(hl.group g rfl).1, .root (hheld (List.mem_cons_self ..))⟩
    · cases block with
      | single n =>
        have hid := List.mem_map_of_mem (f := Plant.id) hq
        rw [(hl.single n rfl).1] at hid
        exact .root (hheld hid)
      | group g => cases hp
  single n hn := by
    have hsingle := hl.single n hn
    refine ⟨hsingle.1, h.loose n ?_ hsingle.2⟩
    have hmem : n ∈ plants.map Plant.id := by rw [hsingle.1]; exact List.mem_singleton_self n
    obtain ⟨q, hq, rfl⟩ := List.mem_map.1 hmem
    exact (hl.bears.stand q hq).has
  group g hg := by
    obtain ⟨hhas, hfragment, hfirst⟩ := hl.group g hg
    refine ⟨h.has hhas, ?_, hfirst⟩
    rw [isFragment, h.kind _ hhas]
    exact hfragment

theorem Supports.keeps (hs : d.Supports e) (h : Keeps d d' nodes) (ho : d.Owned)
    (hheld : e.1.held ⊆ nodes) : d'.Supports e := by
  obtain ⟨b, s⟩ := e
  cases b <;> cases s <;> try exact hs
  case child.child c n plants =>
    obtain ⟨hn, hhas, hkind, hloose⟩ := hs
    exact ⟨hn, h.has hhas, (h.kind _ hhas).trans hkind, fun he => h.loose _ hhas (hloose he)⟩
  case attr.attr n a attached last n' name value =>
    obtain ⟨hn, hhas, helement, ha, hname, hother, hfree, hput⟩ := hs
    have hsame := h.same n hhas (.root (hheld (List.mem_cons_self ..)))
    have hattr := h.attr a ha
    refine ⟨hn, h.has hhas, ?_, h.hasAttribute ha, hattr.1.trans hname, fun b hb hba => ?_,
      fun he => hattr.2.2 (hfree he), fun v hv => ?_⟩
    · rw [isElement, hsame.kind]
      exact helement
    · rw [hsame.attributes] at hb
      rw [(h.attr b (ho.hasAttribute hb)).1]
      exact hother b hb hba
    · rw [hsame.attributes, hattr.2.1]
      exact hput v hv
  case text.text n last n' content =>
    obtain ⟨hn, hhas, helement⟩ := hs
    refine ⟨hn, h.has hhas, ?_⟩
    rw [isElement, h.kind n hhas]
    exact helement

/-- Moving nodes does not matter to a binding, as long as a text that is not in use stays so. -/
theorem Supports.relinked (hs : d.Supports e) (hr : Relinked d d')
    (hloose : ∀ c n, e = (.child c, .child n []) → d.parent? c.text = none →
      d'.parent? c.text = none) : d'.Supports e := by
  obtain ⟨b, s⟩ := e
  cases b <;> cases s <;> try exact False.elim hs
  case child.child c n plants =>
    refine ⟨hs.1, hr.has.2 hs.2.1, (hr.kind _).trans hs.2.2.1, fun hp => ?_⟩
    rw [hp] at hs hloose
    exact hloose c n rfl (hs.2.2.2 rfl)
  case attr.attr n a attached last n' name value =>
    obtain ⟨hn, hhas, helement, ha, hname, hother, hfree, hput⟩ := hs
    refine ⟨hn, hr.has.2 hhas, ?_, ?_, ?_, fun b hb hba => ?_, fun hv => ?_, fun v hv => ?_⟩
    · rw [hr.isElement, helement]
    · rw [HasAttribute, hr.attributes]
      exact ha
    · rw [hr.attr, hname]
    · rw [hr.attributesOf] at hb
      rw [hr.attr]
      exact hother b hb hba
    · rw [hr.attr, hfree hv]
    · rw [hr.attributesOf, hr.attr]
      exact hput v hv
  case text.text n last n' content =>
    exact ⟨hs.1, hr.has.2 hs.2.1, (hr.isElement _).trans hs.2.2⟩

end Document

end LiveMarkup
