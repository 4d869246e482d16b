import LiveMarkup.Proofs.Document.Standing
/-!
# Copies of nodes

Whatever is below a node of a forest stands there as plants (`exists_bears`), since no way down is longer
than there are nodes. A copy of the node bears plants of its own with the same markup, and nothing that
was there before has changed (`Copied`). As deep down as plants have nodes, copying level by level copies
all of them (`copied_copyLevels`), and so copying a tree copies its content
(`content_copyTree`).
-/

namespace LiveMarkup

theorem Plant.trees_eq_nil {ps : List Plant} : Plant.trees ps = [] ↔ ps = [] := by
  cases ps <;> simp

namespace Document

variable {d d' d'' : Document} {n m p : NodeId} {q : Plant} {ps qs : List Plant}

/-! ### What is below a node -/

theorem Above.has (hf : d.Forest) (hn : d.Has n) (h : d.Above n m) : d.Has m := by
  induction h with
  | self => exact hn
  | up _ hp _ => exact has_of_mem_children (hf.mem_of_parent hp)

theorem exists_row {nodes : List NodeId} (h : ∀ c ∈ nodes, ∃ q : Plant, q.id = c ∧ d.Stands q) :
    ∃ ps : List Plant, nodes = ps.map Plant.id ∧ ∀ q ∈ ps, d.Stands q := by
  induction nodes with
  | nil => exact ⟨[], rfl, fun q hq => by cases hq⟩
  | cons c rest ih =>
    obtain ⟨q, rfl, hq⟩ := h c (List.mem_cons_self ..)
    obtain ⟨ps, rfl, hps⟩ := ih fun x hx => h x (List.mem_cons_of_mem _ hx)
    exact ⟨q :: ps, rfl, List.forall_mem_cons.2 ⟨hq, hps⟩⟩

/-- A node stands with all below it. The nodes above it are all different, and there are more of them
the deeper it is, which bounds the way down. -/
theorem exists_stands (fuel : Nat) (hf : d.Forest) {higher : List NodeId} (hnd : higher.Nodup)
    (hhigher : ∀ a ∈ higher, d.Above n a) (hfuel : d.nodes.size < higher.length + fuel) (hn : d.Has n)
    (hsolid : d.isFragment n = false) : ∃ q : Plant, q.id = n ∧ d.Stands q := by
  induction fuel generalizing n higher with
  | zero =>
    have hlen := length_le_size hnd fun a ha => (hhigher a ha).has hf hn
    omega
  | succ fuel ih =>
    cases hkind : d.kind n with
    | element name space =>
      have hbelow : ∀ c ∈ d.children n, ∃ q : Plant, q.id = c ∧ d.Stands q := by
        intro c hc
        have hparent := hf.parent_of_mem hc
        have hnew : c ∉ higher := fun hmem => hf.acyclic hparent (hhigher c hmem)
        apply ih (List.nodup_cons.2 ⟨hnew, hnd⟩)
        · intro a ha
          rcases List.mem_cons.1 ha with rfl | ha
          · exact .self
          · exact (Above.of_parent hparent).trans (hhigher a ha)
        · rw [List.length_cons]
          omega
        · exact has_of_parent? hparent
        · exact hf.solid hparent
      obtain ⟨ps, hrow, hstand⟩ := exists_row hbelow
      exact ⟨.element n ⟨name, space, d.attributePairs n⟩ ps, rfl, .element hn hkind rfl hrow hstand⟩
    | text => exact ⟨.text n (d.node n).data, rfl, .text hn hkind rfl⟩
    | comment => exact ⟨.comment n (d.node n).data, rfl, .comment hn hkind rfl⟩
    | fragment =>
      rw [isFragment, hkind] at hsolid
      cases hsolid

/-- Every node bears some plants. -/
theorem exists_bears (hf : d.Forest) (n : NodeId) : ∃ ps, d.Bears (some n) ps := by
  have hbelow : ∀ c ∈ d.children n, ∃ q : Plant, q.id = c ∧ d.Stands q := by
    intro c hc
    have hparent := hf.parent_of_mem hc
    apply exists_stands d.nodes.size hf (List.nodup_singleton c)
    · intro a ha
      rw [List.mem_singleton.1 ha]
      exact .self
    · rw [List.length_singleton]
      omega
    · exact has_of_parent? hparent
    · exact hf.solid hparent
  obtain ⟨ps, hrow, hstand⟩ := exists_row hbelow
  refine ⟨ps, fun p hp => ?_, hstand⟩
  cases hp
  exact hrow

/-- There are fewer nodes below a node than there are in the document. -/
theorem Bears.length_lt (hf : d.Forest) (hn : d.Has n) (h : d.Bears (some n) ps) :
    (Plant.idsAll ps).length < d.nodes.size := by
  have hhas : ∀ m ∈ n :: Plant.idsAll ps, d.Has m := by
    intro m hm
    rcases List.mem_cons.1 hm with rfl | hm
    · exact hn
    · exact h.has hm
  have hlen := length_le_size (h.nodup hf) hhas
  rwa [List.length_cons] at hlen

/-! ### Copying -/

/-- What is new is never above what was there before. -/
theorem Extends.not_above {fed : List NodeId} (hf : d.Forest) (h : Extends d d' fed) (hp : d.Has p)
    (hn : ¬ d.Has n) : ¬ d'.Above p n := by
  intro ha
  have hold : d.Above p n := Above.congr (fun a hpa => h.parent? a (hpa.has hf hp)) ha
  exact hn (hold.has hf hp)

/-- The next node has been made as a copy of a node that bears `ps`, and bears `qs` itself. -/
structure Copied (d d' : Document) (n : NodeId) (ps qs : List Plant) : Prop where
  sound : d'.Sound
  extends_ : Extends d d' []
  nodes : d'.nodes.size = d.nodes.size + 1 + (Plant.idsAll qs).length
  root : d'.parent? d.next = none
  kind : d'.kind d.next = d.kind n
  data : (d'.node d.next).data = (d.node n).data
  pairs : d'.attributePairs d.next = d.attributePairs n
  bears : d'.Bears (some d.next) qs
  same : Plant.trees qs = Plant.trees ps
  fresh : ∀ m ∈ Plant.idsAll qs, ¬ d.Has m

theorem Copied.has (h : Copied d d' n ps qs) : d'.Has d.next := by
  have hsize : d.nodes.size < d'.nodes.size := by
    rw [h.nodes]
    omega
  exact hsize

/-- The copy of a plant is a plant with the same markup. -/
theorem Copied.stands (h : Copied d d' q.id q.children qs) (hq : d.Stands q) :
    ∃ r : Plant, r.id = d.next ∧ r.ids = d.next :: Plant.idsAll qs ∧ r.tree = q.tree ∧
      d'.Stands r := by
  have hkind := h.kind
  have hsame := h.same
  cases hq with
  | @element id tag children has kind pairs row below =>
    refine ⟨.element d.next tag qs, rfl, by rw [Plant.ids], ?_, ?_⟩
    · rw [Plant.tree, Plant.tree, hsame, Plant.children]
    · exact .element h.has (hkind.trans kind) (h.pairs.trans pairs) (h.bears.row _ rfl)
        h.bears.stand
  | @text id data has kind written =>
    have hnone : qs = [] := Plant.trees_eq_nil.1 (hsame.trans Plant.trees_nil)
    subst hnone
    refine ⟨.text d.next data, rfl, by rw [Plant.ids, Plant.idsAll_nil], ?_, ?_⟩
    · rw [Plant.tree, Plant.tree]
    · exact .text h.has (hkind.trans kind) (h.data.trans written)
  | @comment id data has kind written =>
    have hnone : qs = [] := Plant.trees_eq_nil.1 (hsame.trans Plant.trees_nil)
    subst hnone
    refine ⟨.comment d.next data, rfl, by rw [Plant.ids, Plant.idsAll_nil], ?_, ?_⟩
    · rw [Plant.tree, Plant.tree]
    · exact .comment h.has (hkind.trans kind) (h.data.trans written)

theorem made_copy (hs : d.Sound) (n : NodeId) :
    Made d (d.copy n).2 d.next ∧ (d.copy n).2.kind d.next = d.kind n ∧
      ((d.copy n).2.node d.next).data = (d.node n).data ∧
      (d.copy n).2.attributePairs d.next = d.attributePairs n :=
  made_adorned hs (d.kind n) (d.node n).data (d.attributePairs n)

theorem copyLevels_fst (fuel : Nat) (d : Document) (n : NodeId) : (copyLevels fuel d n).1 = d.next := by
  cases fuel <;> rfl

/-- Copies of some plants that stand in a document are made as the last children of `p`, if single
nodes with what they bear can be copied. -/
theorem added_copies {fuel : Nat}
    (hcopy : ∀ {d : Document} {n : NodeId} {ps : List Plant}, d.Sound → d.Has n →
      d.Bears (some n) ps → (Plant.idsAll ps).length ≤ fuel →
      ∃ qs, Copied d (copyLevels fuel d n).2 n ps qs)
    (hs : d.Sound) (hp : d.Has p) (hinner : ps ≠ [] → d.leaf? p = none)
    (hstand : ∀ q ∈ ps, d.Stands q) (hout : p ∉ Plant.idsAll ps)
    (hfuel : (Plant.idsAll ps).length ≤ fuel + 1) :
    ∃ qs, Added d ((ps.map Plant.id).foldl (fun d c =>
        (copyLevels fuel d c).2.link p (copyLevels fuel d c).1) d) p qs ∧
      Plant.trees qs = Plant.trees ps ∧ ∀ m ∈ Plant.idsAll qs, ¬ d.Has m := by
  induction ps generalizing d with
  | nil =>
    refine ⟨[], ⟨hs, .refl d [p], rfl, (List.append_nil _).symm, fun q hq => ?_⟩, rfl, fun m hm => ?_⟩
    · cases hq
    · rw [Plant.idsAll_nil] at hm
      cases hm
  | cons q rest ih =>
    obtain ⟨hq, hrest⟩ := List.forall_mem_cons.1 hstand
    have hleaf := hinner (List.cons_ne_nil q rest)
    rw [Plant.idsAll_cons, List.mem_append, not_or] at hout
    rw [Plant.idsAll_cons, List.length_append, Plant.ids_eq, List.length_cons] at hfuel
    obtain ⟨qs, hcopied⟩ := hcopy hs hq.has (hq.bears hs.forest) (by omega)
    obtain ⟨r, hid, hids, htree, hr⟩ := hcopied.stands hq
    rw [List.map_cons, List.foldl_cons, copyLevels_fst]
    generalize (copyLevels fuel d q.id).2 = d₁ at *
    have hsolid : d₁.isFragment d.next = false := by
      rw [isFragment, hcopied.kind]
      exact hq.solid q.id_mem_ids
    have hadoptable : d₁.Adoptable p d.next :=
      ⟨hcopied.extends_.has hp, hcopied.has, (hcopied.extends_.leaf? hp).trans hleaf, hsolid,
        hcopied.extends_.not_above hs.forest hp not_has_next⟩
    obtain ⟨hsound, hext, hrelinked, hrow, hrows⟩ :=
      hcopied.extends_.link hcopied.sound hadoptable hcopied.root not_has_next hp
    generalize d₁.link p d.next = d₂ at *
    have hnew : ∀ m ∈ r.ids, ¬ d.Has m := by
      intro m hm
      rw [hids, List.mem_cons] at hm
      rcases hm with rfl | hm
      · exact not_has_next
      · exact hcopied.fresh m hm
    have hone : Added d d₂ p [r] := by
      refine ⟨hsound, hext, ?_, ?_, fun x hx => ?_⟩
      · rw [hrelinked.size, hcopied.nodes, Plant.idsAll_cons, Plant.idsAll_nil, hids,
          List.append_nil, List.length_cons]
        omega
      · rw [hrow, List.map_singleton, hid]
      · rw [List.mem_singleton.1 hx]
        refine hr.congr fun m hm => hrelinked.unchanged (hrows m ?_)
        exact fun hmp => hnew m hm (hmp ▸ hp)
    have hstand₂ : ∀ x ∈ rest, d₂.Stands x := by
      intro x hx
      refine hext.stands hs.owned (hrest x hx) fun m hm hmp => hout.2 ?_
      exact Plant.mem_idsAll.2 ⟨x, hx, List.mem_singleton.1 hmp ▸ hm⟩
    obtain ⟨rs, hadded, hsame, hfresh⟩ := ih hsound (hext.has hp)
      (fun _ => (hext.leaf? hp).trans hleaf) hstand₂ hout.2 (by omega)
    refine ⟨r :: rs, hone.trans hadded fun m hm hmp => ?_, ?_, fun m hm => ?_⟩
    · rw [Plant.idsAll_cons, Plant.idsAll_nil, List.append_nil] at hm
      exact hnew m hm (hmp ▸ hp)
    · rw [Plant.trees_cons, Plant.trees_cons, htree, hsame]
    · rw [Plant.idsAll_cons, List.mem_append] at hm
      rcases hm with hm | hm
      · exact hnew m hm
      · exact fun hd => hfresh m hm (hext.has hd)

/-- As many levels as a node has other nodes below it are enough to copy all of them. -/
theorem copied_copyLevels {fuel : Nat} (hs : d.Sound) (hn : d.Has n) (h : d.Bears (some n) ps)
    (hfuel : (Plant.idsAll ps).length ≤ fuel) :
    ∃ qs, Copied d (copyLevels fuel d n).2 n ps qs := by
  induction fuel generalizing d n ps with
  | zero =>
    obtain ⟨hmade, hkind, hdata, hpairs⟩ := made_copy hs n
    have hnone : ps = [] := by
      cases ps with
      | nil => rfl
      | cons q rest =>
        rw [Plant.idsAll_cons, Plant.ids_eq] at hfuel
        cases hfuel
    subst hnone
    refine ⟨[], hmade.sound, hmade.extends_, hmade.nodes, hmade.parent?, hkind, hdata, hpairs,
      ⟨fun p hp => ?_, fun q hq => ?_⟩, rfl, fun m hm => ?_⟩
    · cases hp
      exact hmade.children
    · cases hq
    · rw [Plant.idsAll_nil] at hm
      cases hm
  | succ fuel ih =>
    obtain ⟨hmade, hkind, hdata, hpairs⟩ := made_copy hs n
    have hhas := hmade.has
    have hstand : ∀ q ∈ ps, (d.copy n).2.Stands q := fun q hq =>
      hmade.extends_.stands hs.owned (h.stand q hq) fun m _ => List.not_mem_nil
    have hinner : ps ≠ [] → (d.copy n).2.leaf? d.next = none := by
      intro hne
      obtain ⟨q, hq⟩ := List.exists_mem_of_ne_nil ps hne
      have hmem : q.id ∈ d.children n := h.row n rfl ▸ List.mem_map_of_mem hq
      rw [leaf?, hkind]
      exact hs.forest.inner (hs.forest.parent_of_mem hmem)
    have hout : d.next ∉ Plant.idsAll ps := fun hm => not_has_next (h.has hm)
    obtain ⟨qs, hadded, hsame, hfresh⟩ :=
      added_copies ih hmade.sound hhas hinner hstand hout (by omega)
    have hfold : copyLevels (fuel + 1) d n = (d.next, (ps.map Plant.id).foldl (fun d' c =>
        (copyLevels fuel d' c).2.link d.next (copyLevels fuel d' c).1) (d.copy n).2) := by
      rw [copyLevels, h.row n rfl]
      rfl
    rw [hfold]
    have hext := hadded.extends_
    refine ⟨qs, hadded.sound, hmade.extends_.trans hext fun m hm hold => ?_, ?_, ?_, ?_, ?_, ?_,
      ⟨fun p hp => ?_, hadded.stand⟩, hsame, fun m hm hold => ?_⟩
    · exact absurd (List.mem_singleton.1 hm) hold.ne_next
    · rw [hadded.nodes, hmade.nodes]
    · exact (hext.parent? _ hhas).trans hmade.parent?
    · exact (hext.kind hhas).trans hkind
    · exact (hext.data hhas).trans hdata
    · exact (hext.pairs hmade.sound.owned hhas).trans hpairs
    · cases hp
      rw [hadded.row, hmade.children, List.nil_append]
    · exact hfresh m hm (hmade.extends_.has hold)

/-- Copying a tree copies all that is below its topmost node. -/
theorem copied_copyTree (hs : d.Sound) (hn : d.Has n) :
    ∃ ps qs, d.Bears (some n) ps ∧ (d.copyTree n).1 = d.next ∧
      Copied d (d.copyTree n).2 n ps qs := by
  obtain ⟨ps, hps⟩ := exists_bears hs.forest n
  have hlt := hps.length_lt hs.forest hn
  obtain ⟨qs, hcopied⟩ := copied_copyLevels hs hn hps (Nat.le_of_lt hlt)
  exact ⟨ps, qs, hps, copyLevels_fst _ d n, hcopied⟩

/-- A copy has the same content as the node it is a copy of. -/
theorem content_copyTree (hs : d.Sound) (hn : d.Has n) :
    (d.copyTree n).2.content (d.copyTree n).1 = d.content n := by
  obtain ⟨ps, qs, hps, hid, hcopied⟩ := copied_copyTree hs hn
  rw [hid, hcopied.bears.content hcopied.sound.forest, hps.content hs.forest, hcopied.same]

end Document

end LiveMarkup
