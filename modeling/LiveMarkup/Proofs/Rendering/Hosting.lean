import LiveMarkup.Proofs.Rendering.Mounting
import LiveMarkup.Proofs.Rendering.Origin
/-!
# Nodes as guests in the child holes of an instance

The host can give nodes of its own to the child holes of an instance. Some elements of the instance have
holes in them, and each has its own children and the guests that stand in front of their placeholders
(`Document.Houses`). When a hole is given other nodes, they come to stand in front of its placeholder, in
their order and without those that the reconciliation leaves out, and nothing else in any of the elements is
touched (`Houses.showBlocks`). This holds as long as none of the nodes is on show in another hole. So it holds
of all holes, one after another, if no node moves to a hole further ahead (`Houses.fill`): by the time a node
comes to a later hole the earlier one has let it go.
-/

namespace LiveMarkup

/-- Some nodes, with others in front of each of them. -/
def arrange (shown : NodeId → List NodeId) (nodes : List NodeId) : List NodeId :=
  nodes.flatMap fun m => shown m ++ [m]

/-- What is on show of some nodes that take the place of others in a hole. -/
def standing (old new : List NodeId) : List NodeId :=
  new.filter fun n => Block.single n ∉ Pass.leftover (old.map Block.single) (new.map Block.single)

/-- An instance with child holes: where it is shown or going to be shown, the nodes that hold it, the nodes
that may come to the holes, and the elements that have holes in them, with the children that are their own. -/
structure House where
  container : NodeId
  roots : List NodeId
  guests : List NodeId
  parents : List NodeId
  frame : NodeId → List NodeId

section

variable {shown : NodeId → List NodeId} {nodes front behind : List NodeId} {m n a : NodeId}
  {old new : List NodeId}

theorem arrange_append (shown : NodeId → List NodeId) (front behind : List NodeId) :
    arrange shown (front ++ behind) = arrange shown front ++ arrange shown behind :=
  List.flatMap_append

theorem arrange_cons (shown : NodeId → List NodeId) (a : NodeId) (behind : List NodeId) :
    arrange shown (a :: behind) = shown a ++ a :: arrange shown behind := by
  rw [arrange, List.flatMap_cons, List.append_assoc]
  rfl

theorem mem_arrange : n ∈ arrange shown nodes ↔ ∃ m ∈ nodes, n ∈ shown m ∨ n = m := by
  simp [arrange]

theorem mem_arrange_self (h : n ∈ nodes) : n ∈ arrange shown nodes :=
  mem_arrange.2 ⟨n, h, .inr rfl⟩

/-- With nothing in front of them, the nodes stand alone. -/
theorem arrange_nothing (nodes : List NodeId) : arrange (fun _ => []) nodes = nodes := by
  induction nodes with
  | nil => rfl
  | cons n rest ih => rw [arrange_cons, ih]; rfl

/-- What stands in front of a node matters only where the node is. -/
theorem arrange_update (h : a ∉ nodes) (new : List NodeId) :
    arrange (Function.update shown a new) nodes = arrange shown nodes :=
  List.flatMap_congr fun m hm => by
    have hne : m ≠ a := fun he => h (he ▸ hm)
    rw [Function.update_of_ne hne]

theorem sublist_arrange (shown : NodeId → List NodeId) (nodes : List NodeId) :
    nodes.Sublist (arrange shown nodes) := by
  induction nodes with
  | nil => exact List.nil_sublist _
  | cons n rest ih =>
    rw [arrange_cons]
    exact (ih.cons_cons n).trans (List.sublist_append_right ..)

theorem standing_subset (old new : List NodeId) : standing old new ⊆ new :=
  List.filter_subset_self _

end

namespace Document

/-- The elements of a house have their own children and the guests in front of them. The house is not in a
guest, and neither is the container. -/
structure Houses (d : Document) (H : House) (shown : NodeId → List NodeId) : Prop where
  sound : d.Sound
  has_parent : ∀ p ∈ H.parents, d.Has p
  inner : ∀ p ∈ H.parents, d.leaf? p = none
  row : ∀ p ∈ H.parents, d.children p = arrange shown (H.frame p)
  kept : ∀ p ∈ H.parents, d.Kept H.roots p
  has_guest : ∀ n ∈ H.guests, d.Has n
  solid : ∀ n ∈ H.guests, d.isFragment n = false
  clear : ∀ p ∈ H.container :: H.parents, ∀ n ∈ H.guests, ¬ d.Above p n
  outside : ∀ n ∈ H.roots, ¬ d.Above H.container n
  own : ∀ p ∈ H.parents, ∀ n ∈ H.frame p, n ∉ H.guests
  shown : ∀ m, shown m ⊆ H.guests

variable {d d' : Document} {H : House} {shown : NodeId → List NodeId} {nodes : List NodeId}
  {n p q a : NodeId} {custody : Custody}

/-- What holds a node is above it. -/
theorem Kept.exists_above (hf : d.Forest) {roots : List NodeId} (h : d.Kept roots n) :
    ∃ m ∈ roots, d.Above n m := by
  induction h with
  | root hm => exact ⟨_, hm, .self⟩
  | child _ hn ih =>
    obtain ⟨m, hm, ha⟩ := ih
    exact ⟨m, hm, .trans (.of_parent (hf.parent_of_mem hn)) ha⟩

/-- What holds a node still does so when nodes are moved that are not above it. -/
theorem Kept.moved {roots : List NodeId} (hf : d.Forest) (hm : Moved d d' nodes) (h : d.Kept roots n)
    (hclear : ∀ m ∈ nodes, ¬ d.Above n m) : d'.Kept roots n := by
  induction h with
  | root hn => exact .root hn
  | @child p n _ hn ih =>
    have hp : d.parent? n = some p := hf.parent_of_mem hn
    have hnot : n ∉ nodes := fun hmem => hclear n hmem .self
    exact .child (ih fun m hm ha => hclear m hm (.trans (.of_parent hp) ha))
      ((hm.mem_children_iff hnot).2 hn)

theorem above_release (h : (d.release custody).Above n a) : d.Above n a := by
  refine above_of_lost (fun m => ?_) h
  rw [release_eq, parent?_keepOnly]
  cases d.parent? m with
  | none => exact .inl rfl
  | some p =>
    rw [Option.filter_some]
    split
    · exact .inr rfl
    · exact .inl rfl

namespace Houses

/-- A change to the document that leaves all that the roots hold as it is. -/
theorem of_kept (h : d.Houses H shown) (hs : d'.Sound) (hhas : ∀ n, d.Has n → d'.Has n)
    (hkind : ∀ n, d.Has n → d'.kind n = d.kind n)
    (hrows : ∀ q, d.Has q → d.Kept H.roots q → d'.children q = d.children q)
    (habove : ∀ p n, d'.Above p n → d.Above p n) : d'.Houses H shown where
  sound := hs
  has_parent p hp := hhas p (h.has_parent p hp)
  inner p hp := by
    rw [leaf?, hkind p (h.has_parent p hp)]
    exact h.inner p hp
  row p hp := (hrows p (h.has_parent p hp) (h.kept p hp)).trans (h.row p hp)
  kept p hp := by
    have hkept : ∀ {n}, d.Kept H.roots n → d'.Kept H.roots n := fun hn => by
      induction hn with
      | root hn => exact .root hn
      | child hq hn ih => exact .child ih (hrows _ (has_of_mem_children hn) hq ▸ hn)
    exact hkept (h.kept p hp)
  has_guest n hn := hhas n (h.has_guest n hn)
  solid n hn := by
    rw [isFragment, hkind n (h.has_guest n hn)]
    exact h.solid n hn
  clear p hp n hn ha := h.clear p hp n hn (habove p n ha)
  outside n hn ha := h.outside n hn (habove _ n ha)
  own := h.own
  shown := h.shown

theorem release (h : d.Houses H shown) (hroots : H.roots ⊆ custody.nodes) :
    (d.release custody).Houses H shown :=
  h.of_kept (h.sound.release custody) (fun _ hn => has_keepOnly.2 hn)
    (fun _ _ => by rw [release_eq, kind_keepOnly])
    (fun _ hq hk => (release_unchanged (hk.of_subset hroots) hq).children) fun _ _ => above_release

theorem not_mem_row (h : d.Houses H shown) (hp : p ∈ H.parents) (hn : n ∈ H.guests)
    (hnot : ∀ m ∈ H.frame p, n ∉ shown m) : n ∉ d.children p := by
  intro hmem
  rw [h.row p hp] at hmem
  obtain ⟨m, hm, hs | rfl⟩ := mem_arrange.1 hmem
  · exact hnot m hm hs
  · exact h.own p hp n hm hn

/-- The row of an element with a hole. -/
theorem row_eq (h : d.Houses H shown) (hp : p ∈ H.parents) (ha : a ∈ H.frame p) :
    ∃ front behind, H.frame p = front ++ a :: behind ∧ a ∉ front ∧ a ∉ behind ∧
      d.children p = arrange shown front ++ shown a ++ a :: arrange shown behind := by
  obtain ⟨front, behind, hframe⟩ := List.append_of_mem ha
  have hrow := h.row p hp
  have hnd := h.sound.forest.nodup p
  rw [hrow] at hnd
  have hnd := hnd.sublist (sublist_arrange shown (H.frame p))
  rw [hframe] at hrow hnd
  rw [List.nodup_append] at hnd
  obtain ⟨-, hbehind, hfront⟩ := hnd
  refine ⟨front, behind, hframe, fun hmem => hfront a hmem a (List.mem_cons_self ..) rfl,
    (List.nodup_cons.1 hbehind).1, ?_⟩
  rw [hrow, arrange_append, arrange_cons, List.append_assoc]

end Houses

/-! ### One hole -/

/-- A hole among others: the guests stand in front of its placeholder, and some other nodes are going to. -/
def Houses.stage (h : d.Houses H shown) (hp : p ∈ H.parents) (nodes front behind : List NodeId)
    (hnodes : nodes ⊆ H.guests) : Stage where
  origin := d
  container := p
  blocks := nodes.map Block.single
  span := Block.nodes
  ahead := front
  behind := behind
  has_container := h.has_parent p hp
  inner_container := h.inner p hp
  holds_origin := List.forall_mem_map.2 fun n hn =>
    holds_single (h.has_guest n (hnodes hn)) (h.solid n (hnodes hn))
  apart := List.forall_mem_map.2 fun n _ => List.forall_mem_map.2 fun m _ hne k hk hk' => by
    obtain rfl : k = n := List.mem_singleton.1 hk
    obtain rfl : k = m := List.mem_singleton.1 hk'
    exact hne rfl
  outside := List.forall_mem_map.2 fun n _ hmem => by cases hmem
  clear_origin := List.forall_mem_map.2 fun n hn m hm => by
    obtain rfl : m = n := List.mem_singleton.1 hm
    exact h.clear p (List.mem_cons_of_mem _ hp) m (hnodes hn)

theorem flatMap_nodes_single (nodes : List NodeId) :
    (nodes.map Block.single).flatMap Block.nodes = nodes := by
  induction nodes with
  | nil => rfl
  | cons n rest ih => rw [List.map_cons, List.flatMap_cons, ih]; rfl

theorem flatMap_fragments_single (nodes : List NodeId) :
    (nodes.map Block.single).flatMap Block.fragments = [] := by
  induction nodes with
  | nil => rfl
  | cons n rest ih => rw [List.map_cons, List.flatMap_cons, ih]; rfl

theorem filter_map_single (old new : List NodeId) :
    (new.map Block.single).filter (· ∉ Pass.leftover (old.map Block.single) (new.map Block.single))
      = (standing old new).map Block.single := by
  rw [standing, List.filter_map]
  rfl

/-- What is on show in a hole is what a stage shows. -/
theorem Houses.shows_stage (h : d.Houses H shown) (hp : p ∈ H.parents) (hnodes : nodes ⊆ H.guests)
    (hfree : ∀ m ≠ a, ∀ n ∈ nodes, n ∉ shown m) {front behind : List NodeId}
    (hrow : d.children p = front ++ shown a ++ a :: behind) :
    (h.stage hp (shown a ++ nodes) front (a :: behind)
      (List.append_subset.2 ⟨h.shown a, hnodes⟩)).Shows d [] ((shown a).map Block.single) where
  origin_forest := h.sound.forest
  since := .refl h.sound.forest _
  live_mem := List.forall_mem_map.2 fun n hn => List.mem_map_of_mem (List.mem_append_left _ hn)
  children := by
    rw [Stage.part_nil]
    show d.children p = front ++ ((shown a).map Block.single).flatMap Block.nodes ++ a :: behind
    rw [flatMap_nodes_single, hrow]
  kept := List.forall_mem_map.2 fun n _ f hf => by cases hf
  stowed := List.forall_mem_map.2 fun n hn hnot => by
    have hn' : n ∉ shown a := fun hmem => hnot (List.mem_map_of_mem hmem)
    have hnew : n ∈ nodes := (List.mem_append.1 hn).resolve_left hn'
    refine ⟨fun m hm hparent => ?_, fun g hg => by cases hg⟩
    obtain rfl : m = n := List.mem_singleton.1 hm
    refine h.not_mem_row hp (hnodes hnew) (fun k _ hk => ?_) (h.sound.forest.mem_of_parent hparent)
    by_cases hka : k = a
    · exact hn' (hka ▸ hk)
    · exact hfree k hka m hnew hk

/-- Giving a hole other nodes moves nothing but these and the ones before. -/
theorem Houses.moved_showBlocks (h : d.Houses H shown) (hp : p ∈ H.parents) {c : ChildBinding}
    (hentries : c.entries = (shown c.placeholder).map Block.single)
    (hnd : nodes.Nodup) (hnodes : nodes ⊆ H.guests)
    (hfree : ∀ m ≠ c.placeholder, ∀ n ∈ nodes, n ∉ shown m) {front behind : List NodeId}
    (hrow : d.children p = front ++ shown c.placeholder ++ c.placeholder :: behind) :
    let after := c.showBlocks d (nodes.map Block.single)
    after.1 = { c with entries := nodes.map Block.single } ∧
      Moved d after.2 (shown c.placeholder ++ nodes) ∧ d.Shifts after.2 [p] ∧
      after.2.children p = front ++ standing (shown c.placeholder) nodes ++ c.placeholder :: behind := by
  intro after
  have hparent : d.parent? c.placeholder = some p := h.sound.forest.parent_of_mem (by rw [hrow]; simp)
  have hshifts : d.Shifts after.2 ((d.parent? c.placeholder).toList
      ++ (c.entries ++ nodes.map Block.single).flatMap Block.fragments) := shifts_showBlocks ..
  rw [hparent, hentries, ← List.map_append, flatMap_fragments_single] at hshifts
  have hafter := shows_reconcile (h.shows_stage hp hnodes hfree hrow)
    (hnd.map fun m n he => Block.single.inj he)
    (List.forall_mem_map.2 fun n hn => List.mem_map_of_mem (List.mem_append_right _ hn))
  have hmoved := hafter.since
  have hchildren := hafter.children
  rw [Stage.part_nil, filter_map_single] at hchildren
  have hshow : after = ({ c with entries := nodes.map Block.single },
      (d.reconcile (c.site p) ((shown c.placeholder).map Block.single) (nodes.map Block.single)).document) := by
    show c.showBlocks d (nodes.map Block.single) = _
    rw [ChildBinding.showBlocks, hparent, hentries]
    dsimp only
    rw [Document.reconcile, Pass.result_run, Pass.target, Pass.start, List.reverse_nil, List.nil_append,
      List.append_nil]
  rw [hshow]
  refine ⟨rfl, ?_, by rw [hshow] at hshifts; exact hshifts, ?_⟩
  · exact hmoved.mono fun n hn => by
      rwa [← flatMap_nodes_single (shown c.placeholder ++ nodes)]
  · exact hchildren.trans (congrArg (front ++ · ++ c.placeholder :: behind) (flatMap_nodes_single _))

/-- A hole is given other nodes. -/
theorem Houses.showBlocks (h : d.Houses H shown) (hp : p ∈ H.parents) {c : ChildBinding}
    (ha : c.placeholder ∈ H.frame p) (hentries : c.entries = (shown c.placeholder).map Block.single)
    (hnd : nodes.Nodup) (hnodes : nodes ⊆ H.guests)
    (hfree : ∀ m ≠ c.placeholder, ∀ n ∈ nodes, n ∉ shown m) :
    (c.showBlocks d (nodes.map Block.single)).1 = { c with entries := nodes.map Block.single } ∧
      (c.showBlocks d (nodes.map Block.single)).2.Houses H
        (Function.update shown c.placeholder (standing (shown c.placeholder) nodes)) := by
  have hforest := h.sound.forest
  obtain ⟨front, behind, hframe, hfront, hbehind, hrow⟩ := h.row_eq hp ha
  obtain ⟨hfirst, hmoved, hshifts, hrow'⟩ := h.moved_showBlocks hp hentries hnd hnodes hfree hrow
  refine ⟨hfirst, ?_⟩
  generalize (c.showBlocks d (nodes.map Block.single)).2 = d' at hmoved hshifts hrow' ⊢
  have hguests : shown c.placeholder ++ nodes ⊆ H.guests := List.append_subset.2 ⟨h.shown _, hnodes⟩
  have hstay : ∀ {q}, q ∈ H.container :: H.parents → ∀ m ∈ shown c.placeholder ++ nodes, ¬ d.Above q m :=
    fun hq m hm => h.clear _ hq m (hguests hm)
  have hplace : ∀ q ∈ H.parents, c.placeholder ∈ H.frame q → q = p := fun q hq hmem => by
    have hq' : d.parent? c.placeholder = some q :=
      hforest.parent_of_mem (by rw [h.row q hq]; exact mem_arrange_self hmem)
    have hp' : d.parent? c.placeholder = some p :=
      hforest.parent_of_mem (by rw [h.row p hp]; exact mem_arrange_self ha)
    exact Option.some.inj (hq'.symm.trans hp')
  have habove : ∀ {q n}, q ∈ H.container :: H.parents → n ∈ H.guests → ¬ d'.Above q n := fun hq hn ha => by
    rcases hshifts.above ha with ha | ⟨x, hx, ha⟩
    · exact h.clear _ hq _ hn ha
    · exact h.clear p (List.mem_cons_of_mem _ hp) _ hn (List.mem_singleton.1 hx ▸ ha)
  exact {
    sound := ⟨hmoved.forest, h.sound.owned.relinked hmoved.relinked⟩
    has_parent := fun q hq => hmoved.relinked.has.2 (h.has_parent q hq)
    inner := fun q hq => (hmoved.relinked.leaf? q).trans (h.inner q hq)
    row := fun q hq => by
      by_cases hqp : q = p
      · rw [hqp, hrow', hframe, arrange_append, arrange_cons, Function.update_self, List.append_assoc,
          arrange_update hfront, arrange_update hbehind]
      · -- none of the nodes is in another row before or after
        have hnot : ∀ n ∈ shown c.placeholder ++ nodes, n ∉ d.children q := by
          intro n hn hmem
          rcases List.mem_append.1 hn with hold | hnew
          · have hmem' : n ∈ d.children p := by
              rw [hrow]
              exact List.mem_append_left _ (List.mem_append_right _ hold)
            exact hqp (Option.some.inj ((hforest.parent_of_mem hmem).symm.trans
              (hforest.parent_of_mem hmem')))
          · exact h.not_mem_row hq (hnodes hnew)
              (fun m hm => hfree m (fun he => hqp (hplace q hq (he ▸ hm))) n hnew) hmem
        have hnot' : ∀ n ∈ shown c.placeholder ++ nodes, n ∉ d'.children q := by
          intro n hn hmem
          have hparent := hmoved.forest.parent_of_mem hmem
          rcases hshifts.parent? n with hsame | hnone | ⟨x, hx, hmoved⟩
          · exact hnot n hn (hforest.mem_of_parent (hsame.symm.trans hparent))
          · exact absurd (hnone.symm.trans hparent) (by simp)
          · rw [List.mem_singleton.1 hx] at hmoved
            exact hqp (Option.some.inj (hparent.symm.trans hmoved))
        rw [hmoved.children_eq hnot hnot', h.row q hq, arrange_update fun hm => hqp (hplace q hq hm)]
    kept := fun q hq => (h.kept q hq).moved hforest hmoved (hstay (List.mem_cons_of_mem _ hq))
    has_guest := fun n hn => hmoved.relinked.has.2 (h.has_guest n hn)
    solid := fun n hn => (hmoved.relinked.isFragment n).trans (h.solid n hn)
    clear := fun q hq n hn => habove hq hn
    outside := fun n hn ha => h.outside n hn (ha.congr fun m hm => hmoved.parent? hforest fun hmem =>
      hstay (List.mem_cons_self ..) m hmem hm)
    own := h.own
    shown := fun m => by
      by_cases hm : m = c.placeholder
      · rw [hm, Function.update_self]
        exact List.Subset.trans (standing_subset ..) hnodes
      · rw [Function.update_of_ne hm]
        exact h.shown m }

end Document

/-! ### All holes -/

/-- A list of nodes, none of them a fragment, is shown as these nodes. -/
theorem ChildBinding.update_nodes (c : ChildBinding) {d : Document} {nodes : List NodeId}
    (hsolid : ∀ n ∈ nodes, d.isFragment n = false) :
    c.update d (.list (nodes.map .node))
      = { c with shown := none }.showBlocks d (nodes.map Block.single) := by
  have hitems : ∀ nodes : List NodeId, (∀ n ∈ nodes, d.isFragment n = false) →
      blocksOfItems d (nodes.map .node) = (nodes.map Block.single, d) := by
    intro nodes hsolid
    induction nodes with
    | nil => rfl
    | cons n rest ih =>
      obtain ⟨hn, hrest⟩ := List.forall_mem_cons.1 hsolid
      rw [List.map_cons, blocksOfItems, ih hrest, blocksOf, hn]
      rfl
  cases nodes with
  | nil => rfl
  | cons n rest =>
    show { c with shown := none }.showBlocks (blocksOfItems d ((n :: rest).map .node)).2
      (blocksOfItems d ((n :: rest).map .node)).1 = _
    rw [hitems _ hsolid]

namespace Document

variable {H : House} {shown : NodeId → List NodeId} {custody : Custody}

/-- The holes of a house get other nodes one after another. No node comes to two of them, and none comes to
a hole when it is still on show in a later one. -/
theorem Houses.fill {holes : List (ChildBinding × List NodeId)} (level : Level)
    (h : level.document.Houses H shown) (hroots : H.roots ⊆ custody.nodes)
    (hplaces : ∀ x ∈ holes, ∃ p ∈ H.parents, x.1.placeholder ∈ H.frame p)
    (hentries : ∀ x ∈ holes, x.1.entries = (shown x.1.placeholder).map Block.single)
    (hnodes : ∀ x ∈ holes, x.2.Nodup ∧ x.2 ⊆ H.guests)
    (hapart : holes.Pairwise fun x y => x.1.placeholder ≠ y.1.placeholder ∧ (∀ n ∈ x.2, n ∉ y.2) ∧
      ∀ n ∈ x.2, n ∉ shown y.1.placeholder)
    (hfree : ∀ x ∈ holes, ∀ n ∈ x.2, ∀ m, (∀ y ∈ holes, y.1.placeholder ≠ m) → n ∉ shown m) :
    let filled := level.fill custody (holes.map fun x => .child x.1) (holes.map fun x => .list (x.2.map .node))
    filled.1 = holes.map (fun x => .child { x.1 with shown := none, entries := x.2.map Block.single }) ∧
      ∃ shown' : NodeId → List NodeId, filled.2.document.Houses H shown' ∧
        (∀ x ∈ holes, shown' x.1.placeholder = standing (shown x.1.placeholder) x.2) ∧
        ∀ m, (∀ x ∈ holes, x.1.placeholder ≠ m) → shown' m = shown m := by
  induction holes generalizing level shown custody with
  | nil => exact ⟨rfl, shown, h, fun x hx => by (cases hx), fun _ _ => rfl⟩
  | cons x rest ih =>
    obtain ⟨⟨p, hp, hplace⟩, hplaces⟩ := List.forall_mem_cons.1 hplaces
    obtain ⟨hentry, hentries⟩ := List.forall_mem_cons.1 hentries
    obtain ⟨⟨hnd, hsub⟩, hnodes⟩ := List.forall_mem_cons.1 hnodes
    obtain ⟨hfirst, hapart⟩ := List.pairwise_cons.1 hapart
    have hupdate := x.1.update_nodes fun n hn => h.solid n (hsub hn)
    obtain ⟨hbinding, hshown⟩ := h.showBlocks (c := { x.1 with shown := none }) hp hplace hentry hnd hsub
      fun m hm n hn => by
        by_cases hlater : ∃ y ∈ rest, y.1.placeholder = m
        · obtain ⟨y, hy, rfl⟩ := hlater
          exact (hfirst y hy).2.2 n hn
        · refine hfree x (List.mem_cons_self ..) n hn m (List.forall_mem_cons.2 ⟨fun he => hm he.symm, ?_⟩)
          exact fun y hy he => hlater ⟨y, hy, he⟩
    rw [← hupdate] at hbinding hshown
    rw [List.map_cons, List.map_cons, Level.fill]
    dsimp only [Binding.update]
    generalize hlevel : Level.release _ custody _ = level'
    have hreleased : level'.document.Houses H
        (Function.update shown x.1.placeholder (standing (shown x.1.placeholder) x.2)) := by
      rw [← hlevel]
      exact hshown.release (List.Subset.trans hroots (List.subset_append_right ..))
    -- what the first hole shows now is its own, so the others find what they have been given
    have hother : ∀ y ∈ rest, Function.update shown x.1.placeholder (standing (shown x.1.placeholder) x.2)
        y.1.placeholder = shown y.1.placeholder := fun y hy =>
      Function.update_of_ne (hfirst y hy).1.symm ..
    have hkept : H.roots ⊆ (custody.holding
        (Binding.child (x.1.update level.document (.list (x.2.map .node))).1).held).nodes :=
      List.Subset.trans hroots (List.subset_append_right ..)
    obtain ⟨hbindings, shown', hhouses, hstanding, helsewhere⟩ := ih level' hreleased hkept hplaces
      (fun y hy => by rw [hother y hy]; exact hentries y hy) hnodes
      (hapart.imp_of_mem fun hy hz hyz => ⟨hyz.1, hyz.2.1, by rw [hother _ hz]; exact hyz.2.2⟩)
      fun y hy n hn m hm => by
        by_cases hmx : m = x.1.placeholder
        · rw [hmx, Function.update_self]
          exact fun hstand => (hfirst y hy).2.1 n (standing_subset _ _ hstand) hn
        · rw [Function.update_of_ne hmx]
          exact hfree y (List.mem_cons_of_mem _ hy) n hn m
            (List.forall_mem_cons.2 ⟨fun he => hmx he.symm, hm⟩)
    refine ⟨?_, shown', hhouses, List.forall_mem_cons.2 ⟨?_, fun y hy => ?_⟩, fun m hm => ?_⟩
    · rw [hbindings, hbinding]
      rfl
    · rw [helsewhere _ fun y hy => (hfirst y hy).1.symm, Function.update_self]
    · rw [hstanding y hy, hother y hy]
    · obtain ⟨hne, hm⟩ := List.forall_mem_cons.1 hm
      rw [helsewhere m hm, Function.update_of_ne hne.symm]

end Document

end LiveMarkup
