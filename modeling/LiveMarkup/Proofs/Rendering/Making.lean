import LiveMarkup.Proofs.Rendering.Instantiation
import LiveMarkup.Proofs.Rendering.Seating
/-!
# What has been made

Pieces and bindings that have been made beside what was there before leave that alone as far as it is held
(`Document.Presents`). All of their nodes are new, and the fragments of the blocks that the bindings have put in
place are empty (`Document.Makes`). A new instance is filled with what has been made for its holes, whether that
was there before the instance or has been made after it (`Document.Makes.filled`).
-/

namespace LiveMarkup

open Exhibit

namespace Exhibit

theorem ShownIn.place_mem {roots : List Plant} {holes : List Hole}
    {es : List (Binding × Spot)} {xs : List Exhibit} {ps : List Plan}
    (h : ShownIn roots holes es xs ps) {e : Binding × Spot} (he : e ∈ es) :
    e.2.place ∈ Plant.idsAll roots := by
  induction h with
  | nil => cases he
  | cons at_ _ _ _ ih =>
    rcases List.mem_cons.1 he with rfl | he
    · obtain ⟨q, hq, hplace, -⟩ := at_
      rw [hplace]
      exact Plant.id_mem_of_follow hq
    · exact ih he

end Exhibit

namespace Document

variable {d d' d'' : Document} {nodes nodes' : List NodeId}
  {pieces pieces' : List (Block × List Plant)} {entries entries' : List (Binding × Spot)}

/-- Some pieces and bindings have been made, and what some nodes lead to has been left alone. -/
structure Presents (d d' : Document) (nodes : List NodeId) (pieces : List (Block × List Plant))
    (entries : List (Binding × Spot)) : Prop where
  keeps : Keeps d d' nodes
  ready : d'.Ready none [] pieces entries
  fresh : Fresh d pieces entries

theorem ready_nil (hs : d.Sound) : d.Ready none [] [] [] where
  sound := hs
  bears := ⟨fun p hp => by (cases hp), fun q hq => by (cases hq)⟩
  rooted p hp := by cases hp
  top _ q hq := by cases hq
  loose x hx := by cases hx
  apart := .nil
  aside x hx := by cases hx
  supports e he := by cases he
  separate := .nil
  hidden c n hc := by cases hc

theorem presents_nil (hs : d.Sound) (nodes : List NodeId) : Presents d d nodes [] [] where
  keeps := .refl d nodes
  ready := ready_nil hs
  fresh := ⟨fun x hx => by (cases hx), fun e he => by (cases he), fun e he => by (cases he)⟩

theorem Fresh.mono (hf : Fresh d' pieces entries) (h : Keeps d d' nodes) :
    Fresh d pieces entries where
  nodes x hx n hn hd := hf.nodes x hx n hn (h.has hd)
  bindings e he := by
    have hnew := hf.bindings e he
    obtain ⟨b, s⟩ := e
    cases b with
    | child c => exact fun hd => hnew (h.has hd)
    | attr n a attached last => exact fun hd => hnew (h.hasAttribute hd)
    | _ => trivial
  places e he hd := hf.places e he (h.has hd)

theorem Fresh.append (hf : Fresh d pieces entries) (hf' : Fresh d pieces' entries') :
    Fresh d (pieces ++ pieces') (entries ++ entries') where
  nodes x hx := (List.mem_append.1 hx).elim (hf.nodes x) (hf'.nodes x)
  bindings e he := (List.mem_append.1 he).elim (hf.bindings e) (hf'.bindings e)
  places e he := (List.mem_append.1 he).elim (hf.places e) (hf'.places e)

namespace Presents

theorem mono (h : Presents d d' nodes' pieces entries) (hsub : nodes ⊆ nodes') :
    Presents d d' nodes pieces entries :=
  ⟨h.keeps.mono hsub, h.ready, h.fresh⟩

/-- What is held survives when all else is let go of. -/
theorem release (h : Presents d d' nodes pieces entries) {custody : Custody}
    (hnodes : nodes ⊆ custody.nodes) (hpieces : ∀ x ∈ pieces, x.1.held ⊆ custody.nodes)
    (hentries : ∀ e ∈ entries, e.1.held ⊆ custody.nodes) :
    Presents d (d'.release custody) nodes pieces entries where
  keeps := h.keeps.trans (keeps_release hnodes)
  ready := h.ready.keeps (keeps_release (List.Subset.refl _)) (h.ready.sound.release custody)
    (fun p hp => by cases hp) (fun _ q hq => by cases hq) hpieces hentries
  fresh := h.fresh

/-- One thing is shown after another. -/
theorem append (h : Presents d d' nodes pieces entries)
    (h' : Presents d' d'' nodes' pieces' entries') (hnodes : nodes ⊆ nodes')
    (hpieces : ∀ x ∈ pieces, x.1.held ⊆ nodes') (hentries : ∀ e ∈ entries, e.1.held ⊆ nodes') :
    Presents d d'' nodes (pieces ++ pieces') (entries ++ entries') where
  keeps := h.keeps.trans (h'.keeps.mono hnodes)
  ready := by
    have hkept := h.ready.keeps h'.keeps h'.ready.sound (fun p hp => by cases hp)
      (fun _ q hq => by cases hq) hpieces hentries
    exact (h.ready.append hkept h'.ready h'.fresh).perm List.perm_append_comm List.perm_append_comm
  fresh := h.fresh.append (h'.fresh.mono h.keeps)

end Presents

/-! ### A new instance -/

theorem Created.ready {base : Document} {i : Instance} {compiled : Compiled} {roots : List Plant}
    {es : List (Binding × Spot)} (h : Created d base d' i compiled roots es) :
    d'.Ready i.block.root? roots [] es := by
  have hp := h.loose
  refine ⟨h.sound, hp.bears, fun p hr => hp.has (.inl hr), fun hr q hq => ?_, fun x hx => by (cases hx),
    .nil, fun x hx => by (cases hx), fun e he => ?_, h.separate, fun c n hc => ⟨fun hw => ?_,
    fun x hx => by (cases hx)⟩⟩
  · rw [hp.parent? h.sound.forest (List.mem_map_of_mem hq)]
    exact hr
  · obtain ⟨hole, -, -, -, hs⟩ := exists_of_mem_forall₂ h.each he
    exact hs
  · exact h.fresh _ hc (h.own _ hw).2

theorem Created.isNew {base : Document} {i : Instance} {compiled : Compiled} {roots : List Plant}
    {es : List (Binding × Spot)} (h : Created d base d' i compiled roots es) :
    ∀ e ∈ es, e.1.IsNew d := by
  intro e he
  have hnew := h.fresh e he
  obtain ⟨b, s⟩ := e
  cases b with
  | child c => exact fun hd => hnew (h.before.has hd)
  | attr n a attached last => exact fun hd => hnew (h.before.hasAttribute hd)
  | _ => trivial

theorem nodup_texts {es : List (Binding × Spot)} (h : es.Pairwise Separate) :
    ((es.map Prod.fst).flatMap Binding.texts).Nodup := by
  rw [List.nodup_flatMap]
  constructor
  · intro b _
    cases b with
    | child c => exact List.nodup_singleton _
    | _ => exact .nil
  · rw [List.pairwise_map]
    refine h.imp_of_mem fun {e e'} _ _ hsep n hn hn' => ?_
    obtain ⟨b, s⟩ := e
    obtain ⟨b', s'⟩ := e'
    cases b with
    | child c =>
      cases b' with
      | child c' =>
        have hsep : c.text ≠ c'.text := hsep
        exact hsep ((List.mem_singleton.1 hn).symm.trans (List.mem_singleton.1 hn'))
      | _ => cases hn'
    | _ => cases hn

/-- The nodes of an instance and the texts of its bindings are new. -/
theorem Created.novel {base : Document} {i : Instance} {compiled : Compiled} {roots : List Plant}
    {es : List (Binding × Spot)} (h : Created d base d' i compiled roots es) :
    d.Novel d' (Plant.idsAll roots ++ i.bindings.flatMap Binding.texts) := by
  have hsupports : ∀ e ∈ es, d'.Supports e := h.ready.supports
  have htext : ∀ n ∈ (es.map Prod.fst).flatMap Binding.texts,
      ∃ c s, (Binding.child c, s) ∈ es ∧ n = c.text := by
    intro n hn
    obtain ⟨b, hb, hn⟩ := List.mem_flatMap.1 hn
    obtain ⟨⟨b, s⟩, he, rfl⟩ := List.mem_map.1 hb
    cases b with
    | child c => exact ⟨c, s, he, List.mem_singleton.1 hn⟩
    | _ => cases hn
  rw [h.bindings]
  refine ⟨h.extends_.nodes, List.nodup_append.2 ⟨h.nodup, nodup_texts h.separate, ?_⟩, ?_⟩
  · rintro n hn m hm rfl
    obtain ⟨c, s, he, rfl⟩ := htext n hm
    exact h.fresh _ he (h.own _ (.inr hn)).2
  · intro n hn
    rcases List.mem_append.1 hn with hn | hn
    · exact ⟨(h.own n (.inr hn)).1, Nat.lt_of_lt_of_le (h.own n (.inr hn)).2 h.nodes⟩
    · obtain ⟨c, s, he, rfl⟩ := htext n hn
      refine ⟨h.isNew _ he, ?_⟩
      have hs := hsupports _ he
      cases s with
      | child m plants => exact hs.2.1
      | _ => exact False.elim hs

/-- A child hole is not at the only topmost node of an instance. -/
theorem Created.not_top {base : Document} {i : Instance} {compiled : Compiled} {roots : List Plant}
    {es : List (Binding × Spot)} (h : Created d base d' i compiled roots es)
    (hc : compiled.Coherent) (hp : compiled.Plain) {hole : Hole} (hhole : hole ∈ compiled.holes)
    (hkind : hole.kind = .child) (hroot : i.block.root? = none) {q : Plant}
    (hq : Plant.follow roots hole.path = some q) : q.id ∉ roots.map Plant.id := by
  intro hmem
  obtain ⟨n, hblock⟩ : ∃ n, i.block = .single n := by
    cases hb : i.block with
    | single n => exact ⟨n, rfl⟩
    | group g => rw [hb] at hroot; cases hroot
  obtain ⟨hids, -⟩ := h.loose.single n hblock
  obtain ⟨r, hr⟩ : ∃ r, roots = [r] := by
    cases roots with
    | nil => cases hids
    | cons r rest =>
      cases rest with
      | nil => exact ⟨r, rfl⟩
      | cons r' rest => cases hids
  have hrid : r.id = q.id := by
    rw [hr, List.map_singleton, List.mem_singleton] at hmem
    exact hmem.symm
  have hfollow : Plant.follow roots [0] = some r := by
    rw [hr]
    rfl
  have hpath := Plant.eq_of_follow h.nodup hfollow hq hrid
  rw [← hpath, hfollow] at hq
  cases hq
  obtain ⟨t, ht, hsuits⟩ := hc.leads hole hhole
  rw [← h.trees, Plant.follow_trees, ← hpath, hfollow] at ht
  cases ht
  rw [hkind] at hsuits
  cases q with
  | element id tag children => rw [Plant.tree] at hsuits; cases hsuits
  | text id data => rw [Plant.tree] at hsuits; cases hsuits
  | comment id data =>
    refine hp.not_lone data ?_ hole hhole hkind
    rw [← h.trees, hr, Plant.trees_cons, Plant.trees_nil, Plant.tree]

/-- An instance whose holes have been filled is a piece. -/
theorem Filling.loose {start : Document} {b : Block} {roots : List Plant}
    {t : Trimming NodeId Plant} (F : Filling start d b.root? roots t pieces entries)
    (hsingle : ∀ n, b = .single n → roots.map Plant.id = [n])
    (hgroup : ∀ g, b = .group g → g.members = [] ∨ g.first ∈ roots.map Plant.id) :
    d.Loose b (Plant.graftAll t.put roots) where
  bears := F.ready.bears
  single n hn := by
    have hr : b.root? = none := by rw [hn]; rfl
    have htops := F.tops hr
    rw [hsingle n hn] at htops
    refine ⟨htops, ?_⟩
    obtain ⟨q, hq, hid⟩ := List.mem_map.1 (show n ∈ (Plant.graftAll t.put roots).map Plant.id by
      rw [htops]
      exact List.mem_singleton_self n)
    rw [← hid]
    exact F.ready.top hr q hq
  group g hg := by
    have hr : b.root? = some g.fragment := by rw [hg]; rfl
    exact ⟨F.ready.rooted _ hr, F.fragment _ hr, (hgroup g hg).imp_right
      Trimming.mem_map_id_graftAll_put⟩

/-! ### Instances that are filled -/

/-- An exhibit is found in a document that did not have anything of it. -/
structure Makes (d d' : Document) (nodes : List NodeId) (pieces : List (Block × List Plant))
    (entries : List (Binding × Spot)) (made : List NodeId) : Prop where
  presents : Presents d d' nodes pieces entries
  novel : d.Novel d' made
  fragments : d.Novel d' ((pieces.map Prod.fst).flatMap Block.fragments ++ placed entries)
  emptied : ∀ f ∈ placed entries, d'.isFragment f = true ∧ d'.children f = []

namespace Makes

variable {made made' : List NodeId}

theorem nil (hs : d.Sound) (nodes : List NodeId) : Makes d d nodes [] [] [] where
  presents := presents_nil hs nodes
  novel := .nil (Nat.le_refl _)
  fragments := .nil (Nat.le_refl _)
  emptied f hf := by cases hf

theorem mono (h : Makes d d' nodes' pieces entries made) (hsub : nodes ⊆ nodes') :
    Makes d d' nodes pieces entries made :=
  { h with presents := h.presents.mono hsub }

theorem perm (h : Makes d d' nodes pieces entries made) (hp : pieces.Perm pieces') (he : entries.Perm entries')
    (hm : made.Perm made') : Makes d d' nodes pieces' entries' made' where
  presents := ⟨h.presents.keeps, h.presents.ready.perm hp he, fun x hx => h.presents.fresh.nodes x (hp.mem_iff.2 hx),
    fun e h' => h.presents.fresh.bindings e (he.mem_iff.2 h'), fun e h' => h.presents.fresh.places e (he.mem_iff.2 h')⟩
  novel := h.novel.perm hm
  fragments := h.fragments.perm (((hp.map _).flatMap_right _).append (placed_perm he))
  emptied f hf := h.emptied f ((placed_perm he).mem_iff.2 hf)

/-- What has been made stays when all that is not held is let go of. -/
theorem release (h : Makes d d' nodes pieces entries made) {custody : Custody} (hnodes : nodes ⊆ custody.nodes)
    (hpieces : ∀ x ∈ pieces, x.1.held ⊆ custody.nodes) (hentries : ∀ e ∈ entries, e.1.held ⊆ custody.nodes) :
    Makes d (d'.release custody) nodes pieces entries made where
  presents := h.presents.release hnodes hpieces hentries
  novel := h.novel.mono (keeps_release (List.Subset.refl _)).nodes_le
  fragments := h.fragments.mono (keeps_release (List.Subset.refl _)).nodes_le
  emptied f hf := by
    have hgentle := gentle_release (d := d') custody
    have hhas := (h.fragments.new f (List.mem_append_right _ hf)).2
    obtain ⟨hfragment, hempty⟩ := h.emptied f hf
    exact ⟨(hgentle.isFragment hhas).trans hfragment, hgentle.empty f hhas hfragment hempty⟩

/-- One thing is made after another. -/
theorem append (h : Makes d d' nodes pieces entries made) (h' : Makes d' d'' nodes' pieces' entries' made')
    (hnodes : nodes ⊆ nodes') (hpieces : ∀ x ∈ pieces, x.1.held ⊆ nodes')
    (hentries : ∀ e ∈ entries, e.1.held ⊆ nodes') :
    Makes d d'' nodes (pieces ++ pieces') (entries ++ entries') (made ++ made') where
  presents := h.presents.append h'.presents hnodes hpieces hentries
  novel := h.novel.append h'.novel
  fragments := by
    refine (h.fragments.append h'.fragments).perm ?_
    rw [List.map_append, List.flatMap_append, placed_append, List.append_assoc, List.append_assoc]
    exact (List.perm_append_comm_assoc ..).append_left _
  emptied f hf := by
    rw [placed_append, List.mem_append] at hf
    refine hf.elim (fun hf => ?_) (h'.emptied f)
    have hhas := (h.fragments.new f (List.mem_append_right _ hf)).2
    have hsame := h'.presents.keeps.same f hhas (.root (placed_held hentries hf))
    obtain ⟨hfragment, hempty⟩ := h.emptied f hf
    exact ⟨by rwa [isFragment, hsame.kind], hsame.children.trans hempty⟩

theorem vacated (h : Makes d d' nodes pieces entries made) : d'.Vacated (placed entries) where
  nodup := (List.nodup_append.1 h.fragments.nodup).2.1
  empty f hf := ⟨(h.fragments.new f (List.mem_append_right _ hf)).2, h.emptied f hf⟩

end Makes

/-- A new instance keeps what its bindings hold. -/
theorem Created.held {base : Document} {i : Instance} {compiled : Compiled} {roots : List Plant}
    {es : List (Binding × Spot)} (h : Created d base d' i compiled roots es) : ∀ e ∈ es, e.1.held ⊆ i.held := by
  refine fun e he n hn => List.mem_append_right _ (List.mem_flatMap.2 ⟨e.1, ?_, hn⟩)
  rw [h.bindings]
  exact List.mem_map_of_mem he

/-- A new instance is made of new nodes, and nothing has been put into it. -/
theorem Created.makes {base : Document} {i : Instance} {compiled : Compiled} {roots : List Plant}
    {es : List (Binding × Spot)} (h : Created d base d' i compiled roots es) (ho : d.Owned) (nodes : List NodeId) :
    Makes d d' nodes [(i.block, roots)] es (Plant.idsAll roots ++ i.bindings.flatMap Binding.texts) := by
  have hplaced : placed es = [] := by
    refine List.eq_nil_iff_forall_not_mem.2 fun f hf => ?_
    obtain ⟨⟨b, s⟩, he, hf⟩ := List.mem_flatMap.1 hf
    obtain ⟨hole, -, -, hunused, -⟩ := exists_of_mem_forall₂ h.each he
    cases b <;> cases s <;> first | exact False.elim hunused | cases hf | skip
    case child.child c n plants =>
      obtain ⟨-, hentries, -⟩ := hunused
      rw [Binding.placed, hentries] at hf
      cases hf
  have hown : ∀ n, Within i.block.root? roots n → ¬ d.Has n ∧ d'.Has n := fun n hn =>
    ⟨(h.own n hn).1, Nat.lt_of_lt_of_le (h.own n hn).2 h.nodes⟩
  refine ⟨⟨h.extends_.keeps ho nodes, h.ready.leave h.loose, ⟨fun x hx n hn => ?_, h.isNew, fun e he => ?_⟩⟩,
    h.novel, ?_, fun f hf => ?_⟩
  · rw [List.mem_singleton.1 hx] at hn
    exact (hown n hn).1
  · obtain ⟨hole, -, ⟨q, hq, hplace, -⟩, -⟩ := exists_of_mem_forall₂ h.each he
    rw [hplace]
    exact (hown _ (.inr (Plant.id_mem_of_follow hq))).1
  · rw [hplaced, List.append_nil, List.map_singleton, List.flatMap_singleton]
    exact ⟨h.extends_.nodes, i.block.nodup_fragments, fun f hf => hown f (.inl (mem_root_iff.1 hf))⟩
  · rw [hplaced] at hf
    cases hf

/-- A new instance comes behind what has been made for its holes. -/
theorem Makes.created {base d'' : Document} {i : Instance} {compiled : Compiled}
    {roots : List Plant} {es : List (Binding × Spot)} {xs : List Exhibit}
    (h : Makes d d' nodes (piecesAll xs) (entriesAll xs) (nodesAll xs))
    (hcreated : Created d' base d'' i compiled roots es) :
    Makes d d'' nodes ((i.block, roots) :: piecesAll xs) (es ++ entriesAll xs)
      (Plant.idsAll roots ++ i.bindings.flatMap Binding.texts ++ nodesAll xs) :=
  (h.append (hcreated.makes h.presents.ready.sound.owned (nodes ++ heldAll xs)) (List.subset_append_left ..)
    (fun y hy => List.Subset.trans (pieces_held.2 xs y hy).1 (List.subset_append_right ..))
    fun e he => List.Subset.trans (entries_held.2 xs e he).1 (List.subset_append_right ..)).perm
      List.perm_append_comm List.perm_append_comm List.perm_append_comm

/-- An instance is ready to be filled when what is to be put into it is there. -/
theorem Makes.filling {b : Block} {roots : List Plant} {made : List NodeId}
    (h : Makes d d' nodes ((b, roots) :: pieces) entries made) :
    Filling d d' b.root? roots .none pieces entries := by
  have hnone : Plant.graftAll (Trimming.none : Trimming NodeId Plant).put roots = roots :=
    Trimming.graftAll_put_none
  have hmem : (b, roots) ∈ (b, roots) :: pieces := List.mem_cons_self ..
  have hloose := h.presents.ready.loose _ hmem
  have hnew := h.presents.fresh.nodes
  refine ⟨hnone.symm ▸ h.presents.ready.enter, fun n hn => h.presents.keeps.has hn, fun n hn =>
    hloose.has (.inr hn), fun n hn => ?_, fun x hx => hnew x (List.mem_cons_of_mem _ hx), fun n hn =>
    ⟨fun hr => ?_, hnew _ hmem n (.inr hn), ⟨fun k => ?_, fun k ps hk => by (cases hk)⟩, fun x hx =>
    (List.pairwise_cons.1 h.presents.ready.apart).1 x hx n (.inr hn)⟩, fun f hf => ?_, fun _ _ _ => rfl⟩
  · rw [hnone] at hn
    exact hnew _ hmem n hn
  · exact hloose.root_not_mem h.presents.ready.sound.forest hr hn
  · rw [Trimming.none, Plant.idsAll_nil]
    exact List.not_mem_nil
  · exact (hloose.fragment (mem_root_iff.2 hf)).2

/-- A binding that is not for content has nothing in place. -/
theorem placed_of_at {roots : List Plant} {hole : Hole} {e : Binding × Spot} (hat : hole.At roots e)
    (hkind : hole.kind ≠ .child) : e.1.placed = [] := by
  cases hk : hole.kind with
  | child => exact absurd hk hkind
  | attr raw =>
    obtain ⟨_, _, _, _, _, _, _, _, _, rfl, -⟩ := hat.attr hk
    rfl
  | text =>
    obtain ⟨_, _, _, _, rfl⟩ := hat.text hk
    rfl

/-- The bindings that show some things have the blocks of these in place. -/
theorem placed_of_shownIn {roots : List Plant} {holes : List Hole} {es : List (Binding × Spot)} {xs : List Exhibit}
    {ps : List Plan} (h : ShownIn roots holes es xs ps) (hshows : ShowsAll xs ps) (hfits : ∀ p ∈ ps, p.Fits) :
    placed es = ((piecesAll xs).map Prod.fst).flatMap Block.fragments := by
  induction h with
  | nil => rfl
  | @cons hole e x p holes es xs ps hat hshown hleaf _ ih =>
    obtain ⟨hp, hps⟩ := List.forall_mem_cons.1 hfits
    rw [placed_cons, piecesAll, List.map_append, List.flatMap_append, ih hshows.2 hps]
    congr 1
    by_cases hkind : hole.kind = .child
    · obtain ⟨c, n, plants, rfl⟩ := hat.child hkind
      have hshown := hshown.2
      rw [Binding.placed]
      cases hv : p.primitive? with
      | none =>
        rw [hv] at hshown
        rw [hshown.1, blocks]
      | some v =>
        rw [hv] at hshown
        rw [hshown.1, pieces_of_primitive hshows.1 hp hv]
        rfl
    · obtain ⟨v, rfl⟩ := hleaf hkind
      rw [eq_leaf_of_shows hshows.1, placed_of_at hat hkind]
      rfl

/-- A new instance becomes an exhibit when its holes are filled with what has been made for them. -/
theorem Makes.filled {d₀ d₁ base : Document} {i : Instance} {compiled : Compiled} {roots : List Plant}
    {es : List (Binding × Spot)} {holes : List Plan} {xs : List Exhibit} (h : Created d₀ base d₁ i compiled roots es)
    (hc : compiled.Coherent) (hp : compiled.Plain) (hcount : compiled.holes.length = holes.length)
    (hfits : ∀ p ∈ holes, p.Fits)
    (hleaves : ∀ h ∈ compiled.holes.zip holes, h.1.kind ≠ .child → ∃ v, h.2 = .leaf v)
    (hshows : ShowsAll xs holes) (inner : Level) (custody : Custody)
    (hm : Makes d inner.document nodes ((i.block, roots) :: piecesAll xs) (es ++ entriesAll xs)
      (Plant.idsAll roots ++ i.bindings.flatMap Binding.texts ++ nodesAll xs))
    (hkept : nodes ⊆ custody.nodes ++ inner.held) (hheld : heldAll xs ⊆ custody.nodes ++ inner.held)
    (hblock : i.block.held ⊆ custody.nodes) :
    ∃ bindings spots d', inner.fill custody i.bindings (results xs) = (bindings, { inner with document := d' }) ∧
      (use { i with bindings } roots spots xs).Shows (.use i.space i.template compiled holes) ∧
      Makes d d' nodes (use { i with bindings } roots spots xs).pieces
        (use { i with bindings } roots spots xs).entries (use { i with bindings } roots spots xs).nodes := by
  have F := hm.filling
  have hawaits := awaits_of_forall₂ h.each hshows hcount hfits hleaves
  have hown : ∀ e ∈ es, ∀ c, e.1 = .child c → c.text ∉ Plant.idsAll roots := by
    rintro ⟨b, s⟩ he c rfl hn
    exact h.fresh _ he (h.own _ (.inr hn)).2
  obtain ⟨es', d', hfill, F', hk', hshown, hisnew, htexts, hnovel, hgentle, hempty⟩ := Document.filled inner custody
    hawaits (clear_of_coherent hc hp h.nodup) F hm.presents.keeps
    (fun _ hh hkind hroot q hq => h.not_top hc hp hh hkind hroot hq)
    (fun e he => hm.presents.fresh.bindings e (List.mem_append_left _ he)) hown hkept
    (fun p hr => hblock (Document.mem_held_of_root hr)) (fun hr n hn => hblock (h.loose.mem_held hr hn))
    (fun x hx => List.Subset.trans (pieces_held.2 xs x hx).1 hheld)
    (fun e he => List.Subset.trans (entries_held.2 xs e he).1 hheld)
  rw [Trimming.none_join] at F'
  have hzip : (es'.map Prod.fst).zip (es'.map Prod.snd) = es' := (List.zip_of_prod rfl rfl).symm
  have hloose := F'.loose (fun n hn => (h.loose.single n hn).1) fun g hg => (h.loose.group g hg).2.2
  have hplaced : placed (es' ++ entriesAll xs)
      = ((piecesAll xs).map Prod.fst).flatMap Block.fragments ++ placed (entriesAll xs) := by
    rw [placed_append, placed_of_shownIn hshown hshows hfits]
  refine ⟨es'.map Prod.fst, es'.map Prod.snd, d', by rw [h.bindings]; exact hfill, ?_, ?_⟩
  · refine ⟨rfl, rfl, h.tops, h.trees, h.nodup, by simp, ?_, hshows⟩
    rw [hzip]
    exact hshown
  · rw [Exhibit.pieces, Exhibit.entries, Exhibit.nodes, hzip]
    refine ⟨⟨hk', F'.ready.leave hloose, ⟨fun x hx n hn => ?_, fun e he => ?_, fun e he => ?_⟩⟩, ?_, ?_, fun f hf => ?_⟩
    · rw [List.mem_singleton.1 hx] at hn
      exact F'.new n hn
    · exact (List.mem_append.1 he).elim (hisnew e) fun he =>
        hm.presents.fresh.bindings e (List.mem_append_right _ he)
    · refine (List.mem_append.1 he).elim (fun he => ?_) fun he =>
        hm.presents.fresh.places e (List.mem_append_right _ he)
      exact (F'.own _ (hshown.place_mem he)).2.1
    · rw [htexts, ← h.bindings]
      exact hm.novel.append hnovel
    · rw [hplaced, List.map_singleton, List.flatMap_singleton, ← List.append_assoc]
      have hfragments := hm.fragments
      rw [List.map_cons, List.flatMap_cons, placed_append] at hfragments
      exact (hfragments.mono hnovel.grown).sublist (List.Sublist.append (.refl _) (List.sublist_append_right ..))
    · rw [placed_append, List.mem_append] at hf
      refine hf.elim (hempty f) fun hf => ?_
      have hf' : f ∈ placed (es ++ entriesAll xs) := by
        rw [placed_append]
        exact List.mem_append_right _ hf
      obtain ⟨hfragment, hempty'⟩ := hm.emptied f hf'
      have hhas := (hm.fragments.new f (List.mem_append_right _ hf')).2
      exact ⟨(hgentle.isFragment hhas).trans hfragment, hgentle.empty f hhas hfragment hempty'⟩

end Document

end LiveMarkup
