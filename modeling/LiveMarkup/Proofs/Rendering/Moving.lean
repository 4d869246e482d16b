import LiveMarkup.Proofs.Document.Copies
import LiveMarkup.Proofs.Rendering.Hosting
import LiveMarkup.Proofs.Rendering.Rerendering
import LiveMarkup.Proofs.Rendering.Wandering
import LiveMarkup.Proofs.Rendering.Withdrawal
/-!
# Nodes that move from hole to hole

A new instance whose child holes are all inside elements is a house without guests
(`Document.Created.houses`), and it stays one when it becomes the content of a container
(`Renderer.houses_mount`). From then on its holes can be given lists of nodes again and again
(`Renderer.Lodges.render`). If no node moves to a hole further ahead, each hole shows the nodes of its list
right in front of its placeholder afterwards, all but those that the reconciliation leaves out
(`Renderer.render_moves_back`).
-/

namespace LiveMarkup

namespace Block

variable {b : Block} {n : NodeId}

theorem mem_held : n ∈ b.held ↔ n ∈ b.fragments ∨ n ∈ b.nodes := by
  cases b with
  | single m => simp [held, fragments, nodes]
  | group g => simp [held, fragments, nodes]

theorem mem_fragments : n ∈ b.fragments ↔ ∃ g, b = .group g ∧ g.fragment = n := by
  cases b with
  | single m => simp [fragments]
  | group g => simp [fragments, eq_comm]

end Block

namespace Plant

variable {q r : Plant} {plants : List Plant}

theorem at?_append (q : Plant) (path path' : List Nat) :
    q.at? (path ++ path') = (q.at? path).bind fun r => r.at? path' := by
  induction path generalizing q with
  | nil => rfl
  | cons i path ih =>
    rw [List.cons_append, at?, at?]
    cases q.children[i]? with
    | none => rfl
    | some c => exact ih c

/-- A way of several steps ends at a child of what is reached before. -/
theorem exists_parent_of_follow {path : List Nat} (h : follow plants path = some q)
    (hlength : 2 ≤ path.length) :
    ∃ r, follow plants path.dropLast = some r ∧ q ∈ r.children := by
  have hne : path ≠ [] := by
    rintro rfl
    cases h
  obtain ⟨i, init, hpath⟩ := List.exists_cons_of_ne_nil (l := path.dropLast) (by
    rw [← List.length_pos_iff, List.length_dropLast]
    omega)
  rw [← List.dropLast_concat_getLast hne, hpath, List.cons_append, follow_cons] at h
  obtain ⟨s, hs, hq⟩ := h
  rw [at?_append] at hq
  obtain ⟨r, hr, hq⟩ := Option.bind_eq_some_iff.1 hq
  refine ⟨r, hpath ▸ follow_cons.2 ⟨s, hs, hr⟩, ?_⟩
  rw [at?] at hq
  obtain ⟨c, hc, hq⟩ := Option.bind_eq_some_iff.1 hq
  obtain rfl : c = q := Option.some.inj hq
  exact List.mem_of_getElem? hc

end Plant

/-- A child hole inside an element has a binding that is at a child of that element and has shown nothing. -/
theorem Hole.At.inside {roots : List Plant} {h : Hole} {e : Binding × Spot} (hat : h.At roots e)
    (hunused : Unused e) {d : Document} (hsupports : d.Supports e) (hkind : h.kind = .child) (hlength : 2 ≤ h.path.length) :
    ∃ b q r, e.1 = .child b ∧ b.entries = [] ∧ b.placeholder = q.id ∧ Plant.follow roots h.path = some q ∧
      Plant.follow roots h.path.dropLast = some r ∧ q ∈ r.children := by
  obtain ⟨b, n, plants, rfl⟩ := hat.child hkind
  obtain ⟨q, hq, hplace, -⟩ := hat
  obtain ⟨r, hr, hmem⟩ := Plant.exists_parent_of_follow hq hlength
  exact ⟨b, q, r, rfl, hunused.2.1, hsupports.1.trans hplace, hq, hr, hmem⟩

/-- Some bindings that are all for child holes. -/
theorem exists_childBindings {bs : List Binding} (h : ∀ b ∈ bs, ∃ c, b = .child c) :
    ∃ cs : List ChildBinding, bs = cs.map .child := by
  induction bs with
  | nil => exact ⟨[], rfl⟩
  | cons b rest ih =>
    obtain ⟨⟨c, rfl⟩, hrest⟩ := List.forall_mem_cons.1 h
    obtain ⟨cs, rfl⟩ := ih hrest
    exact ⟨c :: cs, rfl⟩

/-- If all holes are child holes inside elements, the template is plain. -/
theorem Compiled.Coherent.plain_of_inside {compiled : Compiled} (h : compiled.Coherent)
    (hholes : ∀ h ∈ compiled.holes, h.kind = .child ∧ 2 ≤ h.path.length) : compiled.Plain where
  not_lone data hcontent hole hhole _ := by
    obtain ⟨t, ht, -⟩ := h.leads hole hhole
    obtain ⟨-, hlength⟩ := hholes hole hhole
    rw [hcontent] at ht
    -- a comment has nothing below it
    match hole.path, hlength, ht with
    | i :: j :: path, _, ht =>
      cases i <;> simp [Markup.Tree.follow, Markup.Tree.at?, Markup.Tree.children] at ht
  names hole hhole name hname := by
    rw [(hholes hole hhole).1] at hname
    cases hname
  unlisted hole hhole name _ _ hname := by
    rw [(hholes hole hhole).1] at hname
    cases hname
  distinct := List.pairwise_of_forall_mem_list fun hole hhole _ _ name _ _ _ hname => by
    rw [(hholes hole hhole).1] at hname
    cases hname
  open_ hole hhole _ _ htext := by
    rw [(hholes hole hhole).1] at htext
    cases htext

namespace Document

variable {d d' base : Document} {n p c : NodeId} {i : Instance} {compiled : Compiled} {roots : List Plant}
  {entries : List (Binding × Spot)} {guests : List NodeId}

theorem leaf?_of_isFragment (h : d.isFragment n = true) : d.leaf? n = none := by
  rw [leaf?]
  cases hkind : d.kind n with
  | text | comment => simp [isFragment, hkind] at h
  | element | fragment => rfl

/-- Nothing that was there is above a new node as long as no new node has been put into it. -/
theorem Extends.not_above_of_new (h : Extends d d' []) (hf : d.Forest) (hf' : d'.Forest) (hp : ¬ d.Has p)
    (hn : d.Has n) : ¬ d'.Above p n := by
  have hnew : ∀ {m}, d'.Above p m → ¬ d.Has m := fun ha => by
    induction ha with
    | self => exact hp
    | @up m q _ hq ih =>
      intro hhas
      have hmem := hf'.mem_of_parent hq
      rw [h.children q hhas List.not_mem_nil] at hmem
      exact ih (has_of_parent? (hf.parent_of_mem hmem))
  exact fun ha => hnew ha hn

/-- What is above a node that was there has been above it. -/
theorem Extends.above (h : Extends d d' []) (hf : d.Forest) (hn : d.Has n) (ha : d'.Above n p) :
    d.Above n p :=
  ha.congr fun m hm => h.parent? m (Above.has hf hn hm)

/-- The placeholders of child holes with paths of their own are different nodes. -/
theorem nodup_places {holes : List Hole} {places : List NodeId} (hnd : (Plant.idsAll roots).Nodup)
    (heach : List.Forall₂ (fun h n => ∃ q, Plant.follow roots h.path = some q ∧ n = q.id) holes places)
    (hpaths : holes.Pairwise fun h h' => h.path ≠ h'.path) : places.Nodup := by
  induction heach with
  | nil => exact .nil
  | @cons h n holes places hfirst hrest ih =>
    obtain ⟨hhead, htail⟩ := List.pairwise_cons.1 hpaths
    refine List.nodup_cons.2 ⟨fun hmem => ?_, ih htail⟩
    obtain ⟨q, hq, rfl⟩ := hfirst
    obtain ⟨h', hh', q', hq', hid⟩ := exists_of_mem_forall₂ hrest hmem
    exact hhead h' hh' (Plant.eq_of_follow hnd hq hq' hid)

/-- A new instance with its child holes inside elements is a house without guests. -/
theorem Created.houses (h : Created d base d' i compiled roots entries) (hs : d.Sound)
    (hholes : ∀ h ∈ compiled.holes, h.kind = .child ∧ 2 ≤ h.path.length)
    (hapart : compiled.holes.Pairwise Hole.Precedes) (hc : d.Has c)
    (hguests : ∀ n ∈ guests, d.Has n ∧ d.isFragment n = false ∧ ¬ d.Above c n) :
    ∃ (cs : List ChildBinding) (parents : List NodeId), i.bindings = cs.map .child ∧
      cs.length = compiled.holes.length ∧ (∀ b ∈ cs, b.entries = []) ∧
      (cs.map ChildBinding.placeholder).Nodup ∧
      (∀ b ∈ cs, ∃ p ∈ parents, b.placeholder ∈ d'.children p) ∧
      (∀ b ∈ cs, b.placeholder ∉ i.block.nodes) ∧ (∀ p ∈ parents, p ∉ i.block.fragments) ∧
      (∀ p ∈ parents, ∀ m ∈ d'.children p, ¬ d.Has m) ∧
      d'.Houses ⟨c, i.block.held, guests, i.block.fragments ++ parents, d'.children⟩ fun _ => [] := by
  have hforest := h.sound.forest
  have heach : ∀ e ∈ entries, ∃ b q r path, e.1 = .child b ∧ b.entries = [] ∧ b.placeholder = q.id ∧
      Plant.follow roots path = some q ∧ 2 ≤ path.length ∧ Plant.follow roots path.dropLast = some r ∧
      q ∈ r.children := fun e he => by
    obtain ⟨hole, hhole, hat, hunused, hsupports⟩ := exists_of_mem_forall₂ h.each he
    obtain ⟨hkind, hlength⟩ := hholes hole hhole
    obtain ⟨b, q, r, hb, hentries, hplace, hq, hr, hmem⟩ := hat.inside hunused hsupports hkind hlength
    exact ⟨b, q, r, _, hb, hentries, hplace, hq, hlength, hr, hmem⟩
  have hrow : ∀ {path r}, Plant.follow roots path = some r → d'.children r.id = r.children.map Plant.id :=
    fun hr => ((h.loose.bears.of_follow hr).bears hforest).row _ rfl
  obtain ⟨cs, hcs⟩ : ∃ cs : List ChildBinding, i.bindings = cs.map .child := by
    refine exists_childBindings fun b hb => ?_
    rw [h.bindings] at hb
    obtain ⟨e, he, rfl⟩ := List.mem_map.1 hb
    obtain ⟨b, -, -, -, hb, -⟩ := heach e he
    exact ⟨b, hb⟩
  have hbinding : ∀ b ∈ cs, b.entries = [] ∧ b.placeholder ∉ i.block.nodes ∧
      ∃ r path, Plant.follow roots path = some r ∧ b.placeholder ∈ d'.children r.id := fun b hb => by
    have hmem : Binding.child b ∈ entries.map Prod.fst := by
      rw [← h.bindings, hcs]
      exact List.mem_map_of_mem hb
    obtain ⟨e, he, hfst⟩ := List.mem_map.1 hmem
    obtain ⟨b', q, r, path, hb', hentries, hplace, hq, hpath, hr, hmem⟩ := heach e he
    obtain rfl : b = b' := Binding.child.inj (hfst.symm.trans hb')
    refine ⟨hentries, fun htop => ?_, r, _, hr, ?_⟩
    · -- a topmost node is found in one step
      rw [h.tops, hplace] at htop
      obtain ⟨t, ht, hid⟩ := List.mem_map.1 htop
      obtain ⟨k, hk⟩ := List.getElem?_of_mem ht
      have hstep : path = [k] :=
        Plant.eq_of_follow h.nodup hq (Plant.follow_cons.2 ⟨t, hk, rfl⟩) hid.symm
      rw [hstep, List.length_singleton] at hpath
      omega
    · rw [hplace, hrow hr]
      exact List.mem_map_of_mem hmem
  have hlength : cs.length = compiled.holes.length := by
    rw [h.each.length_eq, ← List.length_map (f := Prod.fst), ← h.bindings, hcs, List.length_map]
  -- each parent of a placeholder is a plant of the instance
  have hparents : ∀ p ∈ cs.filterMap fun b => d'.parent? b.placeholder,
      ∃ r path, Plant.follow roots path = some r ∧ r.id = p := fun p hp => by
    obtain ⟨b, hb, hparent⟩ := List.mem_filterMap.1 hp
    obtain ⟨-, -, r, path, hr, hmem⟩ := hbinding b hb
    exact ⟨r, path, hr, Option.some.inj ((hforest.parent_of_mem hmem).symm.trans hparent)⟩
  have hnew : ∀ p ∈ i.block.fragments ++ cs.filterMap fun b => d'.parent? b.placeholder,
      ¬ d.Has p ∧ ∀ m ∈ d'.children p, ¬ d.Has m := fun p hp => by
    rcases List.mem_append.1 hp with hf | hp
    · have hroot := mem_root_iff.1 hf
      refine ⟨(h.own p (.inl hroot)).1, fun m hm => (h.own m (.inr ?_)).1⟩
      rw [h.loose.bears.row p hroot] at hm
      exact mem_idsAll_of_mem_map hm
    · obtain ⟨r, path, hr, rfl⟩ := hparents p hp
      refine ⟨(h.own _ (.inr (Plant.id_mem_of_follow hr))).1, fun m hm => (h.own m (.inr ?_)).1⟩
      rw [hrow hr] at hm
      refine Plant.ids_subset_of_follow hr ?_
      rw [Plant.ids_eq]
      exact List.mem_cons_of_mem _ (mem_idsAll_of_mem_map hm)
  have hheld : ∀ n ∈ i.block.held, ¬ d.Has n := fun n hn => by
    refine (h.own n ?_).1
    rcases Block.mem_held.1 hn with hf | hn
    · exact .inl (mem_root_iff.1 hf)
    · rw [h.tops] at hn
      exact .inr (mem_idsAll_of_mem_map hn)
  refine ⟨cs, cs.filterMap fun b => d'.parent? b.placeholder, hcs, hlength,
    fun b hb => (hbinding b hb).1, ?_, fun b hb => ?_, fun b hb => (hbinding b hb).2.1, fun p hp hf => ?_,
    fun p hp => (hnew p (List.mem_append_right _ hp)).2, ?_⟩
  · have hplaces : List.Forall₂ (fun hole e => ∃ b q, e = Binding.child b ∧
        Plant.follow roots hole.path = some q ∧ b.placeholder = q.id) compiled.holes (entries.map Prod.fst) := by
      rw [List.forall₂_map_right_iff]
      refine ((List.forall₂_and_left _ _).2 ⟨hholes, h.each⟩).imp ?_
      rintro hole e ⟨⟨hkind, hlength⟩, hat, hunused, hsupports⟩
      obtain ⟨b, q, -, hb, -, hplace, hq, -⟩ := hat.inside hunused hsupports hkind hlength
      exact ⟨b, q, hb, hq, hplace⟩
    rw [← h.bindings, hcs, List.forall₂_map_right_iff] at hplaces
    refine nodup_places h.nodup (List.forall₂_map_right_iff.2 (hplaces.imp ?_)) ?_
    · rintro hole b ⟨b', q, hb, hq, hplace⟩
      exact ⟨q, hq, Binding.child.inj hb ▸ hplace⟩
    · refine hapart.imp_of_mem fun {hole hole'} hhole _ hprecedes hpath => ?_
      obtain ⟨name, hname⟩ := hprecedes hpath
      rw [(hholes hole hhole).1] at hname
      cases hname
  · obtain ⟨-, -, r, -, -, hmem⟩ := hbinding b hb
    exact ⟨r.id, List.mem_filterMap.2 ⟨b, hb, hforest.parent_of_mem hmem⟩, hmem⟩
  · obtain ⟨r, path, hr, rfl⟩ := hparents p hp
    obtain ⟨g, hg, hid⟩ := Block.mem_fragments.1 hf
    have hsolid := (h.loose.bears.of_follow hr).solid r.id_mem_ids
    rw [← hid, (h.loose.group g hg).2.1] at hsolid
    cases hsolid
  · exact {
      sound := h.sound
      has_parent := fun p hp => by
        rcases List.mem_append.1 hp with hf | hp
        · obtain ⟨g, hg, rfl⟩ := Block.mem_fragments.1 hf
          exact (h.loose.group g hg).1
        · obtain ⟨r, path, hr, rfl⟩ := hparents p hp
          exact (h.loose.bears.of_follow hr).has
      inner := fun p hp => by
        rcases List.mem_append.1 hp with hf | hp
        · obtain ⟨g, hg, rfl⟩ := Block.mem_fragments.1 hf
          exact leaf?_of_isFragment (h.loose.group g hg).2.1
        · obtain ⟨b, -, hparent⟩ := List.mem_filterMap.1 hp
          exact hforest.inner hparent
      row := fun p _ => (arrange_nothing _).symm
      kept := fun p hp => by
        rcases List.mem_append.1 hp with hf | hp
        · exact .root (Block.mem_held.2 (.inl hf))
        · obtain ⟨r, path, hr, rfl⟩ := hparents p hp
          obtain ⟨q, hq, hmem⟩ := Plant.mem_idsAll.1 (Plant.id_mem_of_follow hr)
          refine (h.loose.bears.stand q hq).kept (.root (Block.mem_held.2 (.inr ?_))) hmem
          rw [h.tops]
          exact List.mem_map_of_mem hq
      has_guest := fun n hn => h.extends_.has (hguests n hn).1
      solid := fun n hn => by
        rw [isFragment, h.extends_.kind (hguests n hn).1]
        exact (hguests n hn).2.1
      clear := List.forall_mem_cons.2
        ⟨fun n hn ha => (hguests n hn).2.2 (h.extends_.above hs.forest hc ha),
          fun p hp n hn => h.extends_.not_above_of_new hs.forest hforest (hnew p hp).1 (hguests n hn).1⟩
      outside := fun n hn ha => hheld n hn (Above.has hs.forest hc (h.extends_.above hs.forest hc ha))
      own := fun p hp n hn hguest => (hnew p hp).2 n hn (hguests n hguest).1
      shown := fun _ => List.nil_subset _ }

/-! ### Mounting -/

theorem spans_nodes {b : Block} (hne : b.nodes ≠ []) (hnd : b.nodes.Nodup) : b.Spans b.nodes := by
  cases b with
  | single n => rfl
  | group g =>
    refine ⟨hne, hnd, .refl _, ?_, ?_⟩
    · show g.members.head? = some (g.members.headD g.fragment)
      cases hm : g.members with
      | nil => exact absurd hm hne
      | cons m rest => rfl
    · show g.members.getLast? = some (g.members.getLastD g.fragment)
      cases hm : g.members with
      | nil => exact absurd hm hne
      | cons m rest => rw [List.getLastD_eq_getLast?, List.getLast?_cons]; rfl

/-- The block of a new instance has all of its nodes in its fragment. -/
theorem Created.unused (h : Created d base d' i compiled roots entries) : d'.Unused i.block := fun f hf => by
  rw [h.loose.bears.row f (mem_root_iff.1 hf), h.tops]

theorem Created.holds (h : Created d base d' i compiled roots entries) (hne : i.block.nodes ≠ []) :
    d'.Holds i.block i.block.nodes := by
  have hnd : i.block.nodes.Nodup := h.tops ▸ h.nodup.sublist (Plant.sublist_idsAll roots)
  have hspans := spans_nodes hne hnd
  rw [h.tops] at hspans ⊢
  exact h.loose.holds hspans

theorem shifts_setText_empty (hinner : d.leaf? n = none) (targets : List NodeId) :
    d.Shifts (d.setText n "") targets := by
  rw [setText, hinner]
  exact (shifts_count d targets).trans (shifts_clear d.count n targets)

variable {H : House} {shown : NodeId → List NodeId} {custody : Custody} {block : Block}

/-- Some of the elements of a house. -/
theorem Houses.of_subset {parents : List NodeId} (h : d.Houses { H with parents } shown)
    (hsub : H.parents ⊆ parents) : d.Houses H shown where
  sound := h.sound
  has_parent p hp := h.has_parent p (hsub hp)
  inner p hp := h.inner p (hsub hp)
  row p hp := h.row p (hsub hp)
  kept p hp := h.kept p (hsub hp)
  has_guest := h.has_guest
  solid := h.solid
  clear p hp := h.clear p (List.cons_subset_cons _ hsub hp)
  outside := h.outside
  own p hp := h.own p (hsub hp)
  shown := h.shown

/-- Nothing that the roots hold is the container. -/
theorem Houses.ne_container (h : d.Houses H shown) (hkept : d.Kept H.roots p) : p ≠ H.container := by
  rintro rfl
  obtain ⟨m, hm, ha⟩ := hkept.exists_above h.sound.forest
  exact h.outside m hm ha

/-- The container is emptied. -/
theorem Houses.setText (h : d.Houses H shown) (hcontainer : d.Has H.container)
    (helement : d.isElement H.container = true) : (d.setText H.container "").Houses H shown := by
  have hset := rewritten_setText h.sound hcontainer helement ""
  have hshifts := shifts_setText_empty (leaf?_of_isElement helement) []
  refine h.of_kept hset.sound (fun _ hn => hset.has hn) (fun _ hn => hset.kind hn)
    (fun q hq hkept => hset.children q hq (h.ne_container hkept)) fun p n ha => ?_
  exact (hshifts.above ha).resolve_right fun ⟨c, hc, _⟩ => by cases hc

/-- Nothing of a block that is in its fragment or stands alone is in an element of its house. -/
theorem Houses.not_mem_of_block (h : d.Houses H shown) (hroots : H.roots = block.held)
    (hunused : d.Unused block) (hkept : d.Kept H.roots p) (hp : p ∉ block.fragments)
    (hn : n ∈ block.nodes) : n ∉ d.children p := by
  intro hmem
  have hforest := h.sound.forest
  have hparent := hforest.parent_of_mem hmem
  cases block with
  | single m =>
    obtain rfl : n = m := List.mem_singleton.1 hn
    obtain ⟨k, hk, ha⟩ := hkept.exists_above hforest
    rw [hroots] at hk
    exact hforest.acyclic hparent (List.mem_singleton.1 hk ▸ ha)
  | group g =>
    have hrow := hunused g.fragment (List.mem_singleton_self _)
    have hfragment := hforest.parent_of_mem (hrow ▸ hn)
    exact hp (List.mem_singleton.2 (Option.some.inj (hparent.symm.trans hfragment)))

/-- An instance without nodes is nothing to put anywhere. -/
theorem insertBlock_nothing (hnodes : block.nodes = [])
    (hfragment : ∀ f ∈ block.fragments, d.isFragment f = true) (hunused : d.Unused block) (p : NodeId) :
    d.insertBlock p block none = d.count := by
  cases block with
  | single n => cases hnodes
  | group g =>
    have hmembers : g.members = [] := hnodes
    have hmem : g.fragment ∈ (Block.group g).fragments := List.mem_singleton_self _
    have hrow : d.count.children g.fragment = [] := (hunused g.fragment hmem).trans hnodes
    have hkind : d.count.isFragment g.fragment = true := hfragment g.fragment hmem
    rw [insertBlock, access, collect, hmembers]
    show d.insertBefore p g.fragment none = d.count
    rw [insertBefore, hkind, if_pos rfl, hrow]
    rfl

/-- The instance becomes the content of the container. -/
theorem Houses.insert_some (h : d.Houses { H with parents := block.fragments ++ H.parents } shown)
    (hcontainer : d.Has H.container) (helement : d.isElement H.container = true)
    (hempty : d.children H.container = []) (hroots : H.roots = block.held)
    (hholds : d.Holds block block.nodes) (hunused : d.Unused block)
    (hparents : ∀ p ∈ H.parents, p ∉ block.fragments) :
    (d.insertBlock H.container block none).Houses H shown := by
  have hforest := h.sound.forest
  have haccepts : d.Accepts H.container [block] := {
    sound := h.sound
    has := hcontainer
    element := helement
    holds := List.forall_mem_singleton.2 hholds
    apart := fun b hb x hx hne => absurd
      ((List.mem_singleton.1 hx).trans (List.mem_singleton.1 hb).symm) hne
    clear := List.forall_mem_singleton.2 fun n hn =>
      h.outside n (hroots ▸ Block.mem_held.2 (.inr hn)) }
  have hraised := raised_of_unused haccepts (List.mem_singleton_self _) hempty hunused
  have hshifts : d.Shifts (d.insertBlock H.container block none) (H.container :: block.fragments) :=
    shifts_insert ..
  generalize d.insertBlock H.container block none = d' at hraised hshifts ⊢
  have hwithin : ∀ {p}, p ∈ H.parents → p ∈ block.fragments ++ H.parents := List.mem_append_right _
  have hne : ∀ {p}, d.Kept H.roots p → p ≠ H.container := fun hkept => h.ne_container hkept
  have hrow : ∀ {p}, d.Kept H.roots p → p ∉ block.fragments → d'.children p = d.children p :=
    fun {p} hkept hp => by
      rw [hraised.rows p (hne hkept) hp]
      exact filter_notMem_of_disjoint fun n hn => h.not_mem_of_block hroots hunused hkept hp hn
  exact {
    sound := ⟨hraised.forest, h.sound.owned.relinked hraised.relinked⟩
    has_parent := fun p hp => hraised.relinked.has.2 (h.has_parent p (hwithin hp))
    inner := fun p hp => (hraised.relinked.leaf? p).trans (h.inner p (hwithin hp))
    row := fun p hp => (hrow (h.kept p (hwithin hp)) (hparents p hp)).trans (h.row p (hwithin hp))
    kept := fun p hp => by
      have hkept : ∀ {n}, d.Kept H.roots n → d'.Kept H.roots n := fun hn => by
        induction hn with
        | root hn => exact .root hn
        | @child q n hq hn ih =>
          by_cases hf : q ∈ block.fragments
          · rw [hunused q hf] at hn
            exact .root (hroots ▸ Block.mem_held.2 (.inr hn))
          · exact .child ih (hrow hq hf ▸ hn)
      exact hkept (h.kept p (hwithin hp))
    has_guest := fun n hn => hraised.relinked.has.2 (h.has_guest n hn)
    solid := fun n hn => (hraised.relinked.isFragment n).trans (h.solid n hn)
    clear := fun p hp n hn ha => by
      have hmem : ∀ {q}, q ∈ H.container :: H.parents →
          q ∈ H.container :: (block.fragments ++ H.parents) := fun hq =>
        List.cons_subset_cons _ (List.subset_append_right ..) hq
      rcases hshifts.above ha with ha | ⟨q, hq, ha⟩
      · exact h.clear p (hmem hp) n hn ha
      · exact h.clear q (List.cons_subset_cons _ (List.subset_append_left ..) hq) n hn ha
    outside := fun n hn ha => h.outside n hn (ha.congr fun m hm => by
      have hout : m ∉ block.nodes := fun hmem =>
        h.outside m (hroots ▸ Block.mem_held.2 (.inr hmem)) hm
      rw [hraised.parent? m, if_neg hout])
    own := fun p hp => h.own p (hwithin hp)
    shown := h.shown }

theorem Houses.insert (h : d.Houses { H with parents := block.fragments ++ H.parents } shown)
    (hcontainer : d.Has H.container) (helement : d.isElement H.container = true)
    (hempty : d.children H.container = []) (hroots : H.roots = block.held)
    (hholds : block.nodes ≠ [] → d.Holds block block.nodes)
    (hfragment : ∀ f ∈ block.fragments, d.isFragment f = true) (hunused : d.Unused block)
    (hparents : ∀ p ∈ H.parents, p ∉ block.fragments) :
    (d.insertBlock H.container block none).Houses H shown := by
  by_cases hnodes : block.nodes = []
  · rw [insertBlock_nothing hnodes hfragment hunused]
    have hsound : d.count.Sound := ⟨h.sound.forest.congr (fun _ => rfl) (fun _ => rfl) fun _ _ => rfl,
      h.sound.owned.congr (fun _ => rfl) fun _ => rfl⟩
    have habove : ∀ p n, d.count.Above p n → d.Above p n := fun p n ha => by
      have hsame : ∀ m, d.Above p m → d.count.parent? m = d.parent? m := fun _ _ => rfl
      exact ha.congr hsame
    have hcount := h.of_kept hsound (fun _ => id) (fun _ _ => rfl) (fun _ _ _ => rfl) habove
    exact hcount.of_subset (List.subset_append_right ..)
  · exact h.insert_some hcontainer helement hempty hroots (hholds hnodes) hunused hparents

end Document

/-! ### Lists for all holes -/

/-- Values that give each hole a list of nodes. -/
def Value.guests (lists : List (List NodeId)) : List Value :=
  lists.map fun nodes => .list (nodes.map .node)

/-- Each hole can be given a list of nodes: there is one for each, the nodes may come to the house and each of
them to one hole only, and none moves to a hole further ahead. -/
structure House.Admits (H : House) (places : List NodeId) (shown : NodeId → List NodeId)
    (lists : List (List NodeId)) : Prop where
  length : lists.length = places.length
  guests : ∀ n ∈ lists.flatten, n ∈ H.guests
  nodup : lists.flatten.Nodup
  back : ∀ (j k : Nat) list a, j < k → lists[j]? = some list → places[k]? = some a → ∀ n ∈ list, n ∉ shown a

namespace Document

variable {H : House} {shown : NodeId → List NodeId} {custody : Custody} {cs : List ChildBinding}
  {lists : List (List NodeId)}

/-- All holes of a house are given lists of nodes. -/
theorem Houses.bring (level : Level) (h : level.document.Houses H shown) (hroots : H.roots ⊆ custody.nodes)
    (hplaces : ∀ b ∈ cs, ∃ p ∈ H.parents, b.placeholder ∈ H.frame p)
    (hnd : (cs.map ChildBinding.placeholder).Nodup)
    (hentries : ∀ b ∈ cs, b.entries = (shown b.placeholder).map Block.single)
    (helsewhere : ∀ m, m ∉ cs.map ChildBinding.placeholder → shown m = [])
    (hlists : H.Admits (cs.map ChildBinding.placeholder) shown lists) :
    ∃ (cs' : List ChildBinding) (shown' : NodeId → List NodeId),
      (level.fill custody (cs.map .child) (Value.guests lists)).1 = cs'.map .child ∧
      (level.fill custody (cs.map .child) (Value.guests lists)).2.document.Houses H shown' ∧
      cs'.map ChildBinding.placeholder = cs.map ChildBinding.placeholder ∧
      cs'.map ChildBinding.entries = lists.map (·.map Block.single) ∧
      cs.map (shown' ·.placeholder) = List.zipWith standing (cs.map (shown ·.placeholder)) lists ∧
      ∀ m, m ∉ cs.map ChildBinding.placeholder → shown' m = [] := by
  have hlength : cs.length = lists.length := by
    rw [hlists.length, List.length_map]
  have hfst : (cs.zip lists).map Prod.fst = cs := List.map_fst_zip hlength.le
  have hsnd : (cs.zip lists).map Prod.snd = lists := List.map_snd_zip hlength.ge
  obtain ⟨hnds, hdisjoint⟩ := List.nodup_flatten.1 hlists.nodup
  have hmem : ∀ x ∈ cs.zip lists, x.1 ∈ cs ∧ x.2 ∈ lists := fun x hx => List.of_mem_zip hx
  have hplaced : ∀ m, (∀ y ∈ cs.zip lists, y.1.placeholder ≠ m) → m ∉ cs.map ChildBinding.placeholder := by
    intro m hm hmem
    rw [← hfst, List.map_map] at hmem
    obtain ⟨y, hy, rfl⟩ := List.mem_map.1 hmem
    exact hm y hy rfl
  obtain ⟨hbindings, shown', hhouses, hstanding, hothers⟩ := h.fill level hroots
    (fun x (hx : x ∈ cs.zip lists) => hplaces x.1 (hmem x hx).1) (fun x hx => hentries x.1 (hmem x hx).1)
    (fun x hx => ⟨hnds x.2 (hmem x hx).2, fun n hn =>
      hlists.guests n (List.mem_flatten.2 ⟨x.2, (hmem x hx).2, hn⟩)⟩)
    (List.pairwise_iff_getElem.2 fun j k hj hk hjk => by
      rw [List.length_zip] at hj hk
      rw [List.getElem_zip, List.getElem_zip]
      refine ⟨fun he => ?_, fun n hn hn' => ?_, ?_⟩
      · rw [List.nodup_iff_injective_getElem] at hnd
        have hindex := @hnd ⟨j, by rw [List.length_map]; omega⟩ ⟨k, by rw [List.length_map]; omega⟩
          (by simpa using he)
        exact absurd (Fin.mk.inj hindex) (Nat.ne_of_lt hjk)
      · exact List.pairwise_iff_getElem.1 hdisjoint j k (by omega) (by omega) hjk hn hn'
      · refine hlists.back j k _ _ hjk (List.getElem?_eq_getElem (by omega)) ?_
        rw [List.getElem?_map, List.getElem?_eq_getElem (by omega)]
        rfl)
    fun x hx n hn m hm => by
      rw [helsewhere m (hplaced m hm)]
      exact List.not_mem_nil
  have hchildren : (cs.zip lists).map (fun x => Binding.child x.1) = cs.map .child := by
    conv_rhs => rw [← hfst, List.map_map]
    rfl
  have hvalues : (cs.zip lists).map (fun x => Value.list (x.2.map .node)) = Value.guests lists := by
    conv_rhs => rw [← hsnd, Value.guests, List.map_map]
    rfl
  rw [hchildren, hvalues] at hbindings hhouses
  refine ⟨(cs.zip lists).map fun x => { x.1 with shown := none, entries := x.2.map Block.single }, shown',
    ?_, hhouses, ?_, ?_, ?_, fun m hm => ?_⟩
  · rw [hbindings, List.map_map]
    rfl
  · conv_rhs => rw [← hfst]
    rw [List.map_map, List.map_map]
    rfl
  · conv_rhs => rw [← hsnd]
    rw [List.map_map, List.map_map]
    rfl
  · rw [List.zipWith_map_left, ← List.map_uncurry_zip_eq_zipWith]
    conv_lhs => rw [← hfst, List.map_map]
    exact List.map_congr_left hstanding
  · rw [hothers m fun x hx he => hm (he ▸ List.mem_map_of_mem (hmem x hx).1)]
    exact helsewhere m hm

end Document

/-! ### Rendering lists of nodes -/

namespace Renderer

variable {r : Renderer} {space : Markup.Namespace} {template : Template} {H : House}
  {cs : List ChildBinding} {shown : NodeId → List NodeId} {lists : List (List NodeId)}

theorem isDirect_guests : ∀ v ∈ Value.guests lists, v.IsDirect := by
  intro v hv
  obtain ⟨nodes, -, rfl⟩ := List.mem_map.1 hv
  intro item hitem hinvocation
  obtain ⟨n, -, rfl⟩ := List.mem_map.1 hitem
  obtain ⟨space, template, values, hn⟩ := hinvocation
  cases hn

/-- A use of a template with a list of nodes for each hole has a plan. -/
theorem planUse_guests {c : Catalogue} (hc : c.Sound)
    (hcomplete : (template.compilation space).isComplete = true)
    (hcount : (template.compilation space).compiled.holes.length = lists.length) :
    ∃ holes c', c.planUse space template (Value.guests lists)
        = (.ok ⟨space, template, (template.compilation space).compiled, holes⟩, c') ∧ c'.Sound ∧
      ∀ custody level, realizeAll custody level holes = ⟨Value.guests lists, [], level⟩ := by
  have husable : (Value.invocation space template (Value.guests lists)).Usable := by
    refine .invocation hcomplete (hcount.trans (List.length_map ..).symm) fun v hv => ?_
    have hdirect := isDirect_guests v hv
    obtain ⟨nodes, -, rfl⟩ := List.mem_map.1 hv
    exact .list fun item hitem hinvocation => absurd hinvocation (hdirect item hitem)
  have hextends := c.extends_planUse space template (Value.guests lists)
  obtain ⟨use, huse⟩ := (Catalogue.planUse_isOk hc space template _).2 husable
  generalize hplan : c.planUse space template (Value.guests lists) = planned at huse hextends
  obtain ⟨outcome, c'⟩ := planned
  obtain rfl : outcome = .ok use := huse
  obtain ⟨holes, rfl, hholes⟩ := Catalogue.planUse_of_direct hc hplan isDirect_guests
  exact ⟨holes, c', rfl, hextends.sound hc, hholes⟩

/-- The instance that a container shows is a house, with these bindings for its holes. -/
structure Lodges (r : Renderer) (space : Markup.Namespace) (template : Template) (H : House)
    (cs : List ChildBinding) (shown : NodeId → List NodeId) : Prop where
  catalogue : r.catalogue.Sound
  complete : (template.compilation space).isComplete = true
  count : (template.compilation space).compiled.holes.length = cs.length
  cache : ∃ i, r.cacheOf H.container = ⟨[i], [], some i.block⟩ ∧ i.isOf space template = true ∧
    H.roots = i.block.held ∧ i.bindings = cs.map .child
  places : ∀ b ∈ cs, ∃ p ∈ H.parents, b.placeholder ∈ H.frame p
  nodup : (cs.map ChildBinding.placeholder).Nodup
  houses : r.document.Houses H shown
  elsewhere : ∀ m, m ∉ cs.map ChildBinding.placeholder → shown m = []

/-- If the bindings remember what is on show, lists of nodes can be rendered. Each hole shows its list then,
but for what the reconciliation leaves out, and remembers all of it. -/
theorem Lodges.render (h : r.Lodges space template H cs shown)
    (hentries : ∀ b ∈ cs, b.entries = (shown b.placeholder).map Block.single)
    (hlists : H.Admits (cs.map ChildBinding.placeholder) shown lists) :
    ∃ r' cs' shown', r.render H.container (.invocation space template (Value.guests lists)) = (.ok (), r') ∧
      r'.Lodges space template H cs' shown' ∧
      cs'.map ChildBinding.placeholder = cs.map ChildBinding.placeholder ∧
      cs'.map ChildBinding.entries = lists.map (·.map Block.single) ∧
      cs.map (shown' ·.placeholder) = List.zipWith standing (cs.map (shown ·.placeholder)) lists := by
  have hlength : cs.length = lists.length := by
    rw [hlists.length, List.length_map]
  obtain ⟨holes, catalogue, hplan, hsound, hholes⟩ :=
    planUse_guests h.catalogue h.complete (h.count.trans hlength)
  obtain ⟨i, hcache, hof, hroots, hbindings⟩ := h.cache
  rw [Renderer.render, hplan]
  dsimp only
  rw [hcache, Cache.realize_of_direct _ _ _ hholes]
  dsimp only [Level.take, Option.elim]
  rw [Level.fit, if_pos hof]
  dsimp only [Level.close]
  rw [mount, if_pos rfl, hbindings]
  generalize hcustody : Custody.holding (Custody.holding _ []) i.block.held = custody
  have hheld : H.roots ⊆ custody.nodes := by
    rw [hroots, ← hcustody]
    exact List.subset_append_left ..
  obtain ⟨cs', shown', hfilled, hhouses, hplaces, hentries', hshown, helsewhere⟩ :=
    Document.Houses.bring ⟨[], [], [], r.document⟩ h.houses hheld h.places h.nodup hentries
      h.elsewhere hlists
  have hslots := (Level.gains_fill ⟨[], [], [], r.document⟩ custody (cs.map .child)
    (Value.guests lists)).newSlots
  generalize Level.fill ⟨[], [], [], r.document⟩ custody _ _ = filled at *
  refine ⟨_, cs', shown', rfl, ?_, hplaces, hentries', hshown⟩
  have hcount : cs'.length = cs.length := by
    simpa using congrArg List.length hplaces
  exact {
    catalogue := hsound
    complete := h.complete
    count := h.count.trans hcount.symm
    cache := by
      refine ⟨{ i with bindings := filled.1 }, ?_, hof, hroots, hfilled⟩
      rw [cacheOf_setCacheOf, hslots]
      rfl
    places := fun b hb => by
      have hmem := List.mem_map_of_mem (f := ChildBinding.placeholder) hb
      rw [hplaces] at hmem
      obtain ⟨b', hb', he⟩ := List.mem_map.1 hmem
      exact he ▸ h.places b' hb'
    nodup := hplaces ▸ h.nodup
    houses := by
      refine hhouses.release fun n hn => ?_
      rw [hroots] at hn
      simp [Custody.holding, Cache.held, Instance.held, hn]
    elsewhere := by
      rw [hplaces]
      exact helsewhere }

/-- Nothing is left out of a list that comes to an empty hole. -/
theorem standing_nil (new : List NodeId) : standing [] new = new := by
  have hleft : Pass.leftover [] (new.map Block.single) = [] :=
    List.eq_nil_of_sublist_nil (Pass.leftover_sublist ..)
  rw [standing, List.map_nil, hleft]
  exact List.filter_eq_self.2 fun n _ => by simp

/-- Nothing is left out of the lists that come to empty holes. -/
theorem zipWith_standing_nil {α : Type} {holes : List α} (h : holes.length = lists.length) :
    List.zipWith standing (holes.map fun _ => []) lists = lists := by
  rw [List.zipWith_map_left]
  exact List.ext_getElem (by simp [h]) fun j _ _ => by simp [standing_nil]

variable {c : NodeId} {guests : List NodeId}

/-- An instance with guests becomes the content of its container, which has had other content before. -/
theorem houses_mount {block : Block} {cache : Cache} (hne : cache.root ≠ some block)
    (h : r.document.Houses { H with parents := block.fragments ++ H.parents } shown)
    (hcontainer : r.document.Has H.container) (helement : r.document.isElement H.container = true)
    (hroots : H.roots = block.held) (hholds : block.nodes ≠ [] → r.document.Holds block block.nodes)
    (hfragment : ∀ f ∈ block.fragments, r.document.Has f ∧ r.document.isFragment f = true)
    (hnodes : ∀ f ∈ block.fragments, H.frame f = block.nodes) (hshown : ∀ m ∈ block.nodes, shown m = [])
    (hparents : ∀ p ∈ H.parents, p ∉ block.fragments) :
    (r.mount H.container cache block).document.Houses H shown := by
  rw [mount, if_neg hne]
  generalize hcustody : (r.custody (some H.container) none).holding (block.held ++ cache.held) = custody
  have hheld : H.roots ⊆ custody.nodes := by
    rw [hroots, ← hcustody]
    exact List.Subset.trans (List.subset_append_left ..) (List.subset_append_left ..)
  have hmem : H.container ∈ custody.nodes := by
    rw [← hcustody]
    refine List.mem_append_right _ (List.mem_append_left _ (List.mem_append_left _ ?_))
    exact List.mem_singleton_self H.container
  have hset := Document.rewritten_setText h.sound hcontainer helement ""
  have hhouses := (h.setText hcontainer helement).release hheld
  have hevolves : r.document.Evolves ((r.document.setText H.container "").release custody) [] [] :=
    (Document.evolves_setText_of_inner _ (Document.leaf?_of_isElement helement) "").trans
      (Document.evolves_release ..)
  refine Document.Houses.insert hhouses (hevolves.grows.has hcontainer) ?_ ?_ hroots
    (fun hne => (hholds hne).evolves hevolves) (fun f hf => ?_) (fun f hf => ?_) hparents
  · rw [Document.isElement, hevolves.kind _ hcontainer]
    exact helement
  · rw [(Document.release_unchanged (.root hmem) (hset.has hcontainer)).children, hset.row]
    rfl
  · rw [Document.isFragment, hevolves.kind f (hfragment f hf).1]
    exact (hfragment f hf).2
  · rw [hhouses.row f (List.mem_append_left _ hf), hnodes f hf]
    exact (List.flatMap_congr fun m hm => by rw [hshown m hm]).trans (arrange_nothing block.nodes)

/-- Rendering lists of nodes where nothing has been shown makes a house of an instance, and each hole shows
its list. -/
theorem lodges_render (hr : r.Sound) (hhas : r.document.Has c) (helement : r.document.isElement c = true)
    (hcache : r.containers.lookup c = none) (hcomplete : (template.compilation space).isComplete = true)
    (hholes : ∀ h ∈ (template.compilation space).compiled.holes, h.kind = .child ∧ 2 ≤ h.path.length)
    (hguests : ∀ n ∈ guests, r.document.Has n ∧ r.document.isFragment n = false ∧ ¬ r.document.Above c n)
    (hcount : lists.length = (template.compilation space).compiled.holes.length)
    (hnd : lists.flatten.Nodup) (hsub : ∀ n ∈ lists.flatten, n ∈ guests) :
    ∃ r' H cs shown, r.render c (.invocation space template (Value.guests lists)) = (.ok (), r') ∧
      r'.Lodges space template H cs shown ∧ H.container = c ∧ H.guests = guests ∧
      (∀ p ∈ H.parents, ∀ m ∈ H.frame p, ¬ r.document.Has m) ∧
      cs.map ChildBinding.entries = lists.map (·.map Block.single) ∧
      cs.map (shown ·.placeholder) = lists := by
  obtain ⟨holes, catalogue, hplan, hsound, hrealize⟩ := planUse_guests hr.catalogue hcomplete hcount.symm
  have hcoherent := template.coherent_compilation space
  have hplain := hcoherent.plain_of_inside hholes
  obtain ⟨base, roots, entries, hcreated⟩ :=
    Document.created_create hr.document space template hcoherent hplain
  have hof : (Instance.create r.document space template (template.compilation space).compiled).1.isOf space
      template = true := Instance.isOf_iff.2 rfl
  obtain ⟨cs, parents, hbindings, hlength, hentries, hnodup, hplaces, houter, hinner, hnew, hhouses⟩ :=
    hcreated.houses hr.document hholes hcoherent.apart hhas hguests
  have hempty : r.cacheOf c = .empty := by rw [cacheOf, hcache]; rfl
  have hstep : r.document.Evolves (Instance.create r.document space template
      (template.compilation space).compiled).2 [] [] := Document.evolves_createInstance ..
  rw [Renderer.render, hplan]
  dsimp only
  rw [hempty, Cache.realize_of_direct _ _ _ hrealize]
  dsimp only [Level.take, Option.elim, Cache.empty]
  rw [Level.fit, if_pos hof]
  generalize Instance.create r.document space template (template.compilation space).compiled = made at *
  obtain ⟨i, d'⟩ := made
  dsimp only [Level.close] at *
  rw [hbindings]
  generalize hcustody : Custody.holding (Custody.holding _ []) i.block.held = custody
  have hheld : i.block.held ⊆ custody.nodes := by
    rw [← hcustody]
    exact List.subset_append_left ..
  obtain ⟨cs', shown', hfilled, hhouses', hplaces', hentries', hshown, helsewhere⟩ :=
    Document.Houses.bring ⟨[], [], [], d'⟩ hhouses hheld
      (fun b hb => by
        obtain ⟨p, hp, hmem⟩ := hplaces b hb
        exact ⟨p, List.mem_append_right _ hp, hmem⟩)
      hnodup (fun b hb => (hentries b hb).trans rfl) (fun _ _ => rfl)
      ⟨hcount.trans (hlength.symm.trans (List.length_map ..).symm), hsub, hnd,
        fun _ _ _ _ _ _ _ _ _ => List.not_mem_nil⟩
  have hslots := (Level.gains_fill ⟨[], [], [], d'⟩ custody (cs.map .child) (Value.guests lists)).newSlots
  have hstep' := Level.evolves_fill ⟨[], [], [], d'⟩ custody (cs.map .child) (Value.guests lists)
  generalize Level.fill ⟨[], [], [], d'⟩ custody _ _ = filled at *
  generalize hkept : Custody.holding (Custody.holding _ []) (Cache.held _) = custody'
  have hheld' : i.block.held ⊆ custody'.nodes := fun n hn => by
    rw [← hkept]
    simp [Custody.holding, Cache.held, Instance.held, hn]
  have hreleased := Document.evolves_release filled.2.document custody'
  have hevolves := hstep'.trans (hreleased.mono (List.nil_subset _) (List.nil_subset _))
  have hcount' : cs'.length = cs.length := by
    simpa using congrArg List.length hplaces'
  refine ⟨_, ⟨c, i.block.held, guests, parents, d'.children⟩, cs', shown', rfl, ?_, rfl, rfl, hnew,
    hentries', ?_⟩
  · exact {
      catalogue := by rw [catalogue_mount]; exact hsound
      complete := hcomplete
      count := hlength.symm.trans hcount'.symm
      cache := ⟨{ i with bindings := filled.1 }, by rw [cacheOf_mount, hslots]; rfl, hof, rfl, hfilled⟩
      places := fun b hb => by
        have hmem := List.mem_map_of_mem (f := ChildBinding.placeholder) hb
        rw [hplaces'] at hmem
        obtain ⟨b', hb', he⟩ := List.mem_map.1 hmem
        exact he ▸ hplaces b' hb'
      nodup := hplaces' ▸ hnodup
      houses := by
        refine houses_mount (H := ⟨c, i.block.held, guests, parents, d'.children⟩) (by simp)
          (hhouses'.release hheld') (hevolves.grows.has (hstep.grows.has hhas)) ?_ rfl
          (fun hne => (hcreated.holds hne).evolves hevolves) (fun f hf => ?_) hcreated.unused
          (fun m hm => helsewhere m fun hmem => ?_) hinner
        · rw [Document.isElement, hevolves.kind _ (hstep.grows.has hhas), hstep.kind _ hhas]
          exact helement
        · obtain ⟨g, hg, rfl⟩ := Block.mem_fragments.1 hf
          obtain ⟨hf, hkind, -⟩ := hcreated.loose.group g hg
          refine ⟨hevolves.grows.has hf, ?_⟩
          rw [Document.isFragment, hevolves.kind _ hf]
          exact hkind
        · obtain ⟨b, hb, rfl⟩ := List.mem_map.1 hmem
          exact houter b hb hm
      elsewhere := by
        rw [hplaces']
        exact helsewhere }
  · have hsame : cs'.map (fun b => shown' b.placeholder) = (cs'.map ChildBinding.placeholder).map shown' := by
      rw [List.map_map]; rfl
    rw [hsame, hplaces', List.map_map]
    exact hshown.trans (zipWith_standing_nil (hlength.trans hcount.symm))

/-- A container shows an instance with these placeholders for its holes, and in front of each of them its
list of nodes. Apart from these the elements that have holes in them have only the children given by
`frame`. -/
structure ShowsGuests (r : Renderer) (c : NodeId) (space : Markup.Namespace) (template : Template)
    (places parents : List NodeId) (frame : NodeId → List NodeId) (lists : List (List NodeId)) : Prop where
  cache : ∃ (i : Instance) (cs : List ChildBinding), r.cacheOf c = ⟨[i], [], some i.block⟩ ∧
    i.isOf space template = true ∧ i.bindings = cs.map .child ∧ places = cs.map ChildBinding.placeholder
  placed : ∀ a ∈ places, ∃ p ∈ parents, a ∈ frame p
  rows : ∃ shown, lists = places.map shown ∧ (∀ m, m ∉ places → shown m = []) ∧
    ∀ p ∈ parents, r.document.children p = arrange shown (frame p)

theorem Lodges.showsGuests (h : r.Lodges space template H cs shown) :
    r.ShowsGuests H.container space template (cs.map ChildBinding.placeholder) H.parents H.frame
      (cs.map (shown ·.placeholder)) where
  cache := by
    obtain ⟨i, hcache, hof, -, hbindings⟩ := h.cache
    exact ⟨i, cs, hcache, hof, hbindings, rfl⟩
  placed := List.forall_mem_map.2 h.places
  rows := ⟨shown, List.map_map.symm, h.elsewhere, h.houses.row⟩

/-- All child holes of a template are inside elements. Lists of nodes are rendered where nothing has been
shown, and then others, so that no node moves to a hole further ahead. Each hole shows its list right in front
of its placeholder, without the nodes that the reconciliation leaves out. -/
theorem render_moves_back (hr : r.Sound) (hwelcomes : r.document.Welcomes [c] guests)
    (helement : r.document.isElement c = true) (hcache : r.containers.lookup c = none)
    (hcomplete : (template.compilation space).isComplete = true)
    (hholes : ∀ h ∈ (template.compilation space).compiled.holes, h.kind = .child ∧ 2 ≤ h.path.length)
    {first second : List (List NodeId)}
    (hlists : ∀ lists ∈ [first, second], lists.length = (template.compilation space).compiled.holes.length ∧
      lists.flatten.Nodup ∧ lists.flatten ⊆ guests)
    (hback : ∀ (j k : Nat) new old, j < k → second[j]? = some new → first[k]? = some old →
      ∀ n ∈ new, n ∉ old) :
    ∃ r₁ r₂ places parents frame,
      r.render c (.invocation space template (Value.guests first)) = (.ok (), r₁) ∧
      r₁.render c (.invocation space template (Value.guests second)) = (.ok (), r₂) ∧
      places.Nodup ∧ (∀ p ∈ parents, ∀ m ∈ frame p, ¬ r.document.Has m) ∧
      r₁.ShowsGuests c space template places parents frame first ∧
      r₂.ShowsGuests c space template places parents frame (List.zipWith standing first second) := by
  obtain ⟨⟨hcount, hnd, hsub⟩, hsecond⟩ := List.forall_mem_cons.1 hlists
  obtain ⟨hcount', hnd', hsub'⟩ := List.forall_mem_singleton.1 hsecond
  have hc : c ∈ [c] := List.mem_singleton_self c
  obtain ⟨r₁, H, cs, shown, hrender, hlodges, hcontainer, hall, hnew, hentries, hshown⟩ :=
    lodges_render hr (hwelcomes.has_container c hc) helement hcache hcomplete hholes
      (fun n hn => ⟨hwelcomes.has n hn, hwelcomes.solid n hn, hwelcomes.clear c hc n hn⟩) hcount hnd hsub
  subst hcontainer
  have hentry : ∀ b ∈ cs, b.entries = (shown b.placeholder).map Block.single := by
    rw [← hshown, List.map_map] at hentries
    exact List.map_inj_left.1 hentries
  have hadmits : H.Admits (cs.map ChildBinding.placeholder) shown second := {
    length := by rw [hcount', hlodges.count, List.length_map]
    guests := hall ▸ hsub'
    nodup := hnd'
    back := fun j k new a hjk hj hk => by
      rw [List.getElem?_map] at hk
      obtain ⟨b, hb, rfl⟩ := Option.map_eq_some_iff.1 hk
      refine hback j k new (shown b.placeholder) hjk hj ?_
      rw [← hshown, List.getElem?_map, hb]
      rfl }
  obtain ⟨r₂, cs', shown', hrender', hlodges', hplaces, -, hshown'⟩ := hlodges.render hentry hadmits
  have hafter := hlodges'.showsGuests
  have hbefore := hlodges.showsGuests
  have hsame : cs'.map (shown' ·.placeholder) = cs.map (shown' ·.placeholder) := by
    have := congrArg (List.map shown') hplaces
    rwa [List.map_map, List.map_map] at this
  rw [hshown] at hbefore hshown'
  rw [hplaces, hsame, hshown'] at hafter
  exact ⟨r₁, r₂, _, H.parents, H.frame, hrender, hrender', hlodges.nodup, hnew, hbefore, hafter⟩

/-- Two paragraphs with a hole each. -/
def twoHoles : Template :=
  ⟨0, ["<p>", "</p><p>-", "</p>"]⟩

theorem render_moves_back_twoHoles :
    let r := twoContainers
    ∃ r₁ r₂ places parents frame,
      r.render ⟨0⟩ (.invocation .html twoHoles (Value.guests [[⟨1⟩, ⟨2⟩], []])) = (.ok (), r₁) ∧
      r₁.render ⟨0⟩ (.invocation .html twoHoles (Value.guests [[⟨2⟩], [⟨1⟩]])) = (.ok (), r₂) ∧
      places.Nodup ∧ (∀ p ∈ parents, ∀ m ∈ frame p, ¬ r.document.Has m) ∧
      r₁.ShowsGuests ⟨0⟩ .html twoHoles places parents frame [[⟨1⟩, ⟨2⟩], []] ∧
      r₂.ShowsGuests ⟨0⟩ .html twoHoles places parents frame [[⟨2⟩], [⟨1⟩]] := by
  have hsound : twoContainers.Sound := ⟨welcomes_twoContainers.sound, Catalogue.sound_empty⟩
  have hwelcomes : twoContainers.document.Welcomes [⟨0⟩] [⟨1⟩, ⟨2⟩] := {
    sound := welcomes_twoContainers.sound
    has_container := by decide
    inner := by decide
    has := by decide
    solid := by decide
    clear := fun c hc n hn ha => by
      have hroot : twoContainers.document.parent? ⟨0⟩ = none := by decide
      obtain rfl := List.mem_singleton.1 hc
      obtain rfl := ha.eq_of_root hroot
      exact absurd hn (by decide) }
  have hstanding : List.zipWith standing [[⟨1⟩, ⟨2⟩], []] [[⟨2⟩], [⟨1⟩]] = [[⟨2⟩], [⟨1⟩]] := by decide +kernel
  have hlists : ∀ lists ∈ ([[[⟨1⟩, ⟨2⟩], []], [[⟨2⟩], [⟨1⟩]]] : List (List (List NodeId))),
      lists.length = (twoHoles.compilation .html).compiled.holes.length ∧ lists.flatten.Nodup ∧
        lists.flatten ⊆ [⟨1⟩, ⟨2⟩] := by decide +kernel
  have key := render_moves_back hsound hwelcomes (by decide) rfl (by decide +kernel) (by decide +kernel)
    hlists (by
      intro j k new old hjk hj hk n hn
      match j, k, hjk with
      | 0, 1, _ =>
        obtain rfl := Option.some.inj hk
        exact List.not_mem_nil
      | 0, k + 2, _ => simp at hk
      | 1, k + 2, _ => simp at hk
      | j + 2, _, _ => simp at hj)
  rwa [hstanding] at key

end Renderer

end LiveMarkup
