import LiveMarkup.Proofs.Document.Seedlings
import LiveMarkup.Proofs.Rendering.Creation
import LiveMarkup.Proofs.Rendering.Wiring
/-!
# What belongs to an instance

An instance has the nodes and attributes that have been made for it, its estate, and its bindings refer to
nothing else (`Document.within_createInstance`). So bringing one of them up to date is confined to the estate
(`Binding.confined_update`): the values that are shown are moved about, which changes nothing of what they say.
The attributes that the elements of the instance have at that time have to be of the estate as well, since one
of them may have to make room.

A new instance reads as the content of its template, whatever there is in the document already
(`Document.read_createInstance`).
-/

namespace LiveMarkup

open Document (Estate)

/-! ### Bringing up to date -/

namespace Binding

variable {d : Document} {own own' : Estate} {b : Binding}

/-- The nodes that a binding refers to, without what it shows. -/
def nodes : Binding → List NodeId
  | .child c => [c.placeholder, c.text]
  | .cell element => [element]
  | .property element _ _ => [element]
  | .event element _ _ => [element]
  | .attr element _ _ _ => [element]
  | .text element _ => [element]

@[simp] theorem nodes_site (b : Binding) : b.site.nodes = b.nodes := by
  cases b <;> rfl

/-- All that a binding refers to is of an estate. -/
structure Within (b : Binding) (own : Estate) : Prop where
  nodes : ∀ n ∈ b.nodes, own.nodes n
  attributes : ∀ a ∈ b.attributes, own.attributes a

theorem Within.mono (h : b.Within own) (hnodes : ∀ n, own.nodes n → own'.nodes n)
    (hattributes : ∀ a, own.attributes a → own'.attributes a) : b.Within own' :=
  ⟨fun n hn => hnodes n (h.nodes n hn), fun a ha => hattributes a (h.attributes a ha)⟩

/-- What a binding shows does not matter. -/
theorem Within.of_site (h : b.site.Within own) : b.Within own :=
  ⟨fun n hn => h.nodes n (nodes_site b ▸ hn), fun a ha => h.attributes a (attributes_site b ▸ ha)⟩

theorem confined_showPrimitive {c : ChildBinding} (hc : own.nodes c.text) (d : Document) (value : Value) :
    d.Confined (c.showPrimitive d value).2 own := by
  unfold ChildBinding.showPrimitive
  split
  · exact .refl d own
  · exact (Document.confined_setText hc d _).trans (Document.shifts_showBlocks ..).confined

theorem confined_updateChild {c : ChildBinding} (hc : own.nodes c.text) (d : Document) (value : Value) :
    d.Confined (c.update d value).2 own := by
  unfold ChildBinding.update
  split
  · exact (Document.shifts_showBlocks ..).confined
  · exact confined_showPrimitive hc ..
  · exact confined_showPrimitive hc ..
  · exact confined_showPrimitive hc ..
  · exact (Document.shifts_showBlocks ..).confined
  · exact (Document.shifts_showBlocks ..).confined
  · exact (Document.shifts_showBlocks ..).confined
  · split
    · split
      · exact confined_showPrimitive hc ..
      · exact Document.confined_note ..
    · exact (Document.shifts_blocksOfItems ..).confined.trans (Document.shifts_showBlocks ..).confined
  all_goals exact .refl d own

theorem confined_updateCell (element : NodeId) (d : Document) (value : Value) :
    d.Confined (updateCell element d value) own := by
  unfold updateCell
  split
  · exact Document.confined_setCell ..
  · exact .refl d own
  · exact Document.confined_note ..

theorem confined_exchangeListener {element : NodeId} (h : own.nodes element) (type : String)
    (current next : Option ListenerId) (d : Document) :
    d.Confined (exchangeListener element type current next d) own := by
  cases current with
  | none =>
    cases next with
    | none => exact .refl d own
    | some listener => exact Document.confined_addListener h ..
  | some listener =>
    cases next with
    | none => exact Document.confined_removeListener h ..
    | some next =>
      exact (Document.confined_removeListener h ..).trans (Document.confined_addListener h ..)

/-- Bringing a binding up to date changes nothing but what is of the estate that it is within. -/
theorem confined_update (h : b.Within own) (hhas : ∀ a ∈ b.attributes, d.HasAttribute a)
    (hlist : ∀ n ∈ b.nodes, ∀ a ∈ (d.node n).attributes, own.attributes a) (value : Value) :
    d.Confined (b.update d value).2 own := by
  cases b with
  | child c =>
    exact confined_updateChild (h.nodes _ (List.mem_cons_of_mem _ (List.mem_singleton_self _))) d value
  | cell element => exact confined_updateCell ..
  | property element name last =>
    have helement := h.nodes element (List.mem_singleton_self _)
    rw [update]
    split
    · exact .refl d own
    · exact Document.confined_setProperty helement ..
  | event element type current =>
    have helement := h.nodes element (List.mem_singleton_self _)
    rw [update]
    split
    · exact Document.confined_note ..
    · split
      · exact .refl d own
      · exact confined_exchangeListener helement ..
  | attr element a attached last =>
    have helement := h.nodes element (List.mem_singleton_self _)
    have ha := h.attributes a (List.mem_singleton_self _)
    rw [update]
    split
    · exact .refl d own
    · split
      · dsimp only
        split
        · exact Document.confined_takeAttribute helement ha d
        · exact .refl d own
      · split
        · exact Document.confined_note ..
        · rename_i t _
          have hvalue : d.Confined (d.setAttributeValue a t) own := Document.confined_setAttributeValue ha d t
          have hhas' := hvalue.grows.hasAttribute (hhas a (List.mem_singleton_self _))
          dsimp only
          split
          · exact hvalue
          · exact hvalue.trans (Document.confined_putAttribute helement ha hhas'
              (hlist element (List.mem_singleton_self _)))
  | text element last =>
    have helement := h.nodes element (List.mem_singleton_self _)
    rw [update]
    split
    · exact .refl d own
    · split
      · exact Document.confined_note ..
      · exact Document.confined_setText helement d _

end Binding

/-! ### New instances -/

/-- What has been made from one document to the next. -/
def Document.since (base d : Document) : Estate :=
  ⟨fun n => ¬ base.Has n ∧ d.Has n, fun a => ¬ base.HasAttribute a ∧ d.HasAttribute a⟩

theorem Binding.Within.grows {base d d' : Document} {b : Binding} (h : b.Within (base.since d))
    (hd : d.Grows d') : b.Within (base.since d') :=
  h.mono (fun _ hn => ⟨hn.1, hd.has hn.2⟩) fun _ ha => ⟨ha.1, hd.hasAttribute ha.2⟩

namespace Document

variable {base d d' : Document} {own : Estate} {n root : NodeId} {holes : List Hole}

theorem confined_ofHole (d : Document) (n : NodeId) (kind : HoleKind) :
    d.Confined (Binding.ofHole d n kind).2 own := by
  unfold Binding.ofHole
  split
  · exact confined_create ..
  · exact .refl d own
  · unfold Binding.ofAttribute
    split
    · exact .refl d own
    · split
      · exact .refl d own
      · exact .refl d own
      · exact confined_createAttribute ..

theorem confined_ofHoles (d : Document) (root : NodeId) (holes : List Hole) :
    d.Confined (Binding.ofHoles d root holes).2 own := by
  induction holes generalizing d with
  | nil => exact .refl d own
  | cons hole rest ih =>
    rw [Binding.ofHoles]
    split
    · exact ih d
    · exact (confined_ofHole d _ hole.kind).trans (ih _)

/-- The binding of a hole at a new node refers to new nodes and attributes. -/
theorem within_ofHole (hbase : base.Grows d) (hn : ¬ base.Has n ∧ d.Has n) (kind : HoleKind) :
    (Binding.ofHole d n kind).1.Within (base.since (Binding.ofHole d n kind).2) := by
  cases kind with
  | child =>
    have hgrows := grows_create d .text ""
    have hnext : (d.create .text "").2.Has d.next :=
      Nat.lt_of_lt_of_eq (Nat.lt_succ_self _) (budded_create d .text "").nodes.symm
    refine ⟨fun m hm => ?_, fun _ ha => (List.not_mem_nil ha).elim⟩
    rcases List.mem_cons.1 hm with rfl | hm
    · exact ⟨hn.1, hgrows.has hn.2⟩
    · obtain rfl := List.mem_singleton.1 hm
      exact ⟨fun hold => not_has_next (hbase.has hold), hnext⟩
  | text => exact ⟨fun m hm => List.mem_singleton.1 hm ▸ hn, fun _ ha => (List.not_mem_nil ha).elim⟩
  | attr name =>
    have hbare : ∀ b : Binding, b.nodes = [n] → b.attributes = [] → b.Within (base.since d) :=
      fun b hnodes hattributes => ⟨fun m hm => List.mem_singleton.1 (hnodes ▸ hm) ▸ hn,
        fun a ha => (List.not_mem_nil (hattributes ▸ ha)).elim⟩
    unfold Binding.ofHole Binding.ofAttribute
    dsimp only
    split
    · exact hbare _ rfl rfl
    · split
      · exact hbare _ rfl rfl
      · exact hbare _ rfl rfl
      · refine ⟨fun m hm => List.mem_singleton.1 hm ▸ hn, fun a ha => ?_⟩
        obtain rfl := List.mem_singleton.1 ha
        exact ⟨fun hold => not_hasAttribute_next (hbase.hasAttribute hold),
          Nat.lt_of_lt_of_eq (Nat.lt_succ_self _) (Array.size_push _).symm⟩

theorem within_ofHoles (hbase : base.Grows d)
    (hroot : ∀ path n, d.descend? root path = some n → ¬ base.Has n ∧ d.Has n) :
    ∀ b ∈ (Binding.ofHoles d root holes).1, b.Within (base.since (Binding.ofHoles d root holes).2) := by
  induction holes generalizing d with
  | nil => exact fun _ hb => (List.not_mem_nil hb).elim
  | cons hole rest ih =>
    rw [Binding.ofHoles]
    split
    · exact ih hbase hroot
    · rename_i n hpath
      have hprepares := prepares_ofHole d n hole.kind
      have hgrows := hprepares.evolves.grows
      have hrest := prepares_ofHoles (Binding.ofHole d n hole.kind).2 root rest
      refine List.forall_mem_cons.2 ⟨?_, ih (hbase.trans hgrows) fun path m hm => ?_⟩
      · exact (within_ofHole hbase (hroot _ n hpath) hole.kind).grows hrest.evolves.grows
      · rw [descend?_congr hprepares.children] at hm
        exact ⟨(hroot path m hm).1, hgrows.has (hroot path m hm).2⟩

theorem confined_createInstance (d : Document) (space : Markup.Namespace) (template : Template)
    (compiled : Compiled) : d.Confined (Instance.create d space template compiled).2 d.unmade :=
  ((confined_createFragment d compiled.content).trans (confined_ofHoles ..)).trans (confined_blockOfOwn ..)

/-- The bindings of a new instance refer to what has been made for it. -/
theorem within_createInstance (d : Document) (space : Markup.Namespace) (template : Template)
    (compiled : Compiled) : ∀ b ∈ (Instance.create d space template compiled).1.bindings,
      b.Within (d.since (Instance.create d space template compiled).2) := by
  have hfragment := confined_createFragment d compiled.content
  have hblock : (Binding.ofHoles (d.createFragment compiled.content).2 (d.createFragment compiled.content).1
      compiled.holes).2.Grows (Instance.create d space template compiled).2 :=
    (evolves_blockOfOwn _ _ : Evolves _ _ [] []).grows
  intro b hb
  exact (within_ofHoles hfragment.grows (fun _ _ h => unmade_of_descend? h) b hb).grows hblock

/-- A new instance reads as the content of its template. -/
theorem read_createInstance (hd : d.Listed) (space : Markup.Namespace) (template : Template)
    (compiled : Compiled) :
    (Instance.create d space template compiled).1.block.nodes.flatMap
      (Instance.create d space template compiled).2.trees = compiled.content := by
  have hfragment := confined_createFragment d compiled.content
  have hstands := stands_createFragment hd compiled.content
  obtain ⟨hroot, hrow, -⟩ := sprouted_createFragment d compiled.content
  have hlisted := hfragment.listed hd
  rw [Instance.create]
  dsimp only
  rw [hroot]
  have hbound : (d.createFragment compiled.content).2.Confined
      (Binding.ofHoles (d.createFragment compiled.content).2 d.next compiled.holes).2
      (d.createFragment compiled.content).2.unmade := confined_ofHoles ..
  have hchildren := (prepares_ofHoles (d.createFragment compiled.content).2 d.next compiled.holes).children
  have htrees := Plant.tree_plant.2 compiled.content (d.nodes.size + 1)
  have hnd : (Plant.idsAll (plantAll (d.nodes.size + 1) compiled.content)).Nodup := by
    rw [Plant.idsAll_plantAll]
    exact nodup_numbers _ _
  generalize plantAll (d.nodes.size + 1) compiled.content = plants at hstands hrow htrees hnd
  generalize (d.createFragment compiled.content).2 = d₁ at hstands hrow hlisted hbound hchildren ⊢
  generalize (Binding.ofHoles d₁ d.next compiled.holes).2 = d₂ at hbound hchildren ⊢
  have hstands₂ : ∀ q ∈ plants, d₂.Stands q := fun q hq => (hstands q hq).congr fun n hn =>
    hbound.unchanged hlisted ((hstands q hq).has_of_mem hn) (hchildren n)
  have hrow₂ := (hchildren d.next).trans hrow
  rw [← htrees]
  by_cases honly : ∃ q, plants = [q]
  · obtain ⟨q, rfl⟩ := honly
    have hnot : q.id ∉ Plant.idsAll q.children := by
      rw [Plant.idsAll_cons, Plant.idsAll_nil, List.append_nil, Plant.ids_eq] at hnd
      exact (List.nodup_cons.1 hnd).1
    rw [blockOfOwn_single hrow₂]
    have hstands₃ : ∀ r ∈ [q], (d₂.detach q.id).Stands r := fun r hr => by
      rw [List.mem_singleton.1 hr]
      exact (hstands₂ q (List.mem_singleton_self q)).detach hnot
    exact flatMap_trees hstands₃ hnd
  · rw [blockOfOwn_group fun n hn => honly ?_]
    · dsimp only [Block.nodes]
      rw [hrow₂]
      have hstands₃ : ∀ q ∈ plants, Stands { d₂ with groups := d₂.groups + 1 } q := fun q hq =>
        (hstands₂ q hq).congr fun n _ => ⟨id, rfl, rfl, rfl, rfl, rfl⟩
      exact flatMap_trees hstands₃ hnd
    · rw [hrow₂] at hn
      obtain ⟨q, rest, hplants, -, hrest⟩ := List.map_eq_cons_iff.1 hn
      rw [List.map_eq_nil_iff.1 hrest] at hplants
      exact ⟨q, hplants⟩

end Document

end LiveMarkup
