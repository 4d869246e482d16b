import LiveMarkup.Proofs.Document.Blocks
import LiveMarkup.Proofs.Document.Contents
import LiveMarkup.Proofs.Rendering.Reachable
/-!
# What a container shows after some blocks

To mount a block the container is emptied, and the nodes in it lose their parent one by one. A group is
not brought back into its fragment by that. If it is mounted again later, only its first node is found;
so a container shows the last block that was rendered into it in full exactly if that block has not been
replaced by another one before (`Renderer.children_renderBlocks`).
-/

namespace LiveMarkup

namespace Document

variable {d d' : Document} {c n m : NodeId} {b x : Block} {g : Group} {nodes : List NodeId}
  {roots : List Block}

/-! ### Emptying the container -/

/-- The children of a node have lost their parent, and others may have as well. The rows below some nodes
are kept. -/
structure Emptied (d d' : Document) (c : NodeId) (nodes : List NodeId) : Prop where
  sound : d'.Sound
  has : ∀ {n}, d.Has n → d'.Has n
  kind : ∀ n, d'.kind n = d.kind n
  row : d'.children c = []
  rows : ∀ n ∈ nodes, d.Has n → n ≠ c → d'.children n = d.children n
  parent? : ∀ n, d'.parent? n = none ∨ d.parent? n ≠ some c ∧ d'.parent? n = d.parent? n

theorem emptied_setText (hs : d.Sound) (hc : d.Has c) (hinner : d.leaf? c = none)
    {custody : Custody} (hheld : c ∈ custody.nodes) (hnodes : nodes ⊆ custody.nodes) :
    Emptied d ((d.setText c "").release custody) c nodes := by
  have hs' : d.count.Sound :=
    ⟨hs.forest.congr (fun _ => rfl) (fun _ => rfl) fun _ _ => rfl,
      hs.owned.congr (fun _ => rfl) fun _ => rfl⟩
  have hchildren : ∀ m ∈ d.children c, d.count.parent? m = some c ∨ d.count.parent? m = none :=
    fun m hm => .inl (hs.forest.parent_of_mem hm)
  obtain ⟨hsound, hrel, hrows, hself, -, -⟩ := foldl_detach hs' hchildren
  have hset : d.setText c "" = (d.children c).foldl detach d.count := by
    rw [setText, hinner]
    rfl
  rw [hset]
  generalize (d.children c).foldl detach d.count = cleared at *
  have hempty : cleared.children c = [] := by
    rw [hself, List.filter_eq_nil_iff]
    intro m hm
    simpa using hm
  have hhas : ∀ {n}, d.Has n → cleared.Has n := fun hn => hrel.has.2 hn
  have hkept : ∀ n ∈ custody.nodes, d.Has n → Unchanged cleared (cleared.release custody) n :=
    fun n hn hd => release_unchanged (.root hn) (hhas hd)
  refine ⟨hsound.release custody, fun hn => has_keepOnly.2 (hhas hn), fun n => ?_, ?_,
    fun n hn hd hne => ?_, fun n => ?_⟩
  · rw [release_eq, kind_keepOnly, hrel.kind]
    rfl
  · rw [(hkept c hheld hc).children, hempty]
  · rw [(hkept n (hnodes hn) hd).children, hrows n hne]
    rfl
  · rw [release_eq, parent?_keepOnly]
    cases hp : cleared.parent? n with
    | none => exact .inl rfl
    | some q =>
      have hmem := hsound.forest.mem_of_parent hp
      have hne : q ≠ c := fun he => by
        rw [he, hempty] at hmem
        cases hmem
      rw [hrows q hne] at hmem
      have hq : d.parent? n = some q := hs.forest.parent_of_mem hmem
      rw [hq, Option.filter_some]
      split
      · exact .inr ⟨fun he => hne (Option.some.inj he), rfl⟩
      · exact .inl rfl

/-- Nodes that lose their parent are not below others because of that. -/
theorem above_of_lost (h : ∀ n, d'.parent? n = none ∨ d'.parent? n = d.parent? n) {a : NodeId}
    (ha : d'.Above n a) : d.Above n a := by
  induction ha with
  | self => exact .self
  | @up m p _ hp ih =>
    rcases h m with hm | hm
    · rw [hm] at hp
      cases hp
    · exact ih.up (hm ▸ hp)

/-! ### Blocks that are mounted by turns -/

/-- An element, and blocks that can be its content. They have no node in common, and none contains the
element. -/
structure Accepts (d : Document) (c : NodeId) (roots : List Block) : Prop where
  sound : d.Sound
  has : d.Has c
  element : d.isElement c = true
  holds : ∀ b ∈ roots, d.Holds b b.nodes
  apart : ∀ b ∈ roots, ∀ x ∈ roots, x ≠ b → ∀ n ∈ b.fragments ++ b.nodes, n ∉ x.fragments ++ x.nodes
  clear : ∀ b ∈ roots, ∀ n ∈ b.nodes, ¬ d.Above c n

/-- A block that has not been mounted: if it is a group, all its nodes are in its fragment. -/
def Unused (d : Document) (b : Block) : Prop :=
  ∀ f ∈ b.fragments, d.children f = b.nodes

/-- A block that has been mounted: its fragment is empty, and what is not in the container has no parent.
-/
structure Used (d : Document) (c : NodeId) (b : Block) : Prop where
  parent? : ∀ n ∈ b.nodes, d.parent? n = none ∨ d.parent? n = some c
  fragment : ∀ f ∈ b.fragments, d.children f = []

namespace Accepts

theorem fragment_ne (h : d.Accepts c roots) (hb : b ∈ roots) {f : NodeId} (hf : f ∈ b.fragments) :
    f ≠ c := by
  rintro rfl
  have hfragment := (h.holds b hb).fragment f hf
  have helement := h.element
  rw [isFragment, beq_iff_eq] at hfragment
  rw [isElement, hfragment] at helement
  cases helement

theorem emptied (h : d.Accepts c roots) (he : Emptied d d' c nodes) : d'.Accepts c roots where
  sound := he.sound
  has := he.has h.has
  element := by rw [isElement, he.kind]; exact h.element
  holds b hb := by
    have hold := h.holds b hb
    exact ⟨hold.spans, fun n hn => he.has (hold.has n hn),
      fun n hn => by rw [isFragment, he.kind]; exact hold.solid n hn,
      fun f hf => he.has (hold.has_fragment f hf),
      fun f hf => by rw [isFragment, he.kind]; exact hold.fragment f hf⟩
  apart := h.apart
  clear b hb n hn ha :=
    h.clear b hb n hn (above_of_lost (fun n => (he.parent? n).imp_right And.right) ha)

end Accepts

theorem Unused.emptied (h : d.Unused b) (hd : d.Accepts c roots) (hb : b ∈ roots)
    (he : Emptied d d' c nodes) (hheld : b.fragments ⊆ nodes) : d'.Unused b := by
  intro f hf
  rw [he.rows f (hheld hf) ((hd.holds b hb).has_fragment f hf) (hd.fragment_ne hb hf), h f hf]

theorem Used.emptied (h : d.Used c b) (hd : d.Accepts c roots) (hb : b ∈ roots)
    (he : Emptied d d' c nodes) (hheld : b.fragments ⊆ nodes) :
    (∀ n ∈ b.nodes, d'.parent? n = none) ∧ ∀ f ∈ b.fragments, d'.children f = [] := by
  refine ⟨fun n hn => ?_, fun f hf => ?_⟩
  · rcases he.parent? n with hp | ⟨hne, hp⟩
    · exact hp
    · rw [hp]
      exact (h.parent? n hn).resolve_right hne
  · rw [he.rows f (hheld hf) ((hd.holds b hb).has_fragment f hf) (hd.fragment_ne hb hf),
      h.fragment f hf]

/-! ### Mounting a block -/

/-- Some nodes of a block have become the content of a container. -/
structure Raised (d d' : Document) (c : NodeId) (b : Block) (nodes : List NodeId) : Prop where
  forest : d'.Forest
  relinked : Relinked d d'
  row : d'.children c = nodes
  fragment : ∀ f ∈ b.fragments, d'.children f = []
  rows : ∀ q, q ≠ c → q ∉ b.fragments → d'.children q = (d.children q).filter (· ∉ nodes)
  parent? : ∀ n, d'.parent? n = if n ∈ nodes then some c else d.parent? n

theorem Accepts.adoptable (h : d.Accepts c roots) (hb : b ∈ roots) (hn : n ∈ b.nodes) :
    d.Adoptable c n :=
  ⟨h.has, (h.holds b hb).has n hn, leaf?_of_isElement h.element, (h.holds b hb).solid n hn,
    h.clear b hb n hn⟩

theorem Accepts.insertable (h : d.Accepts c roots) (hb : b ∈ roots) (hrow : d.children c = [])
    (hsub : nodes ⊆ b.nodes) (hnd : nodes.Nodup) : Insertable d c nodes [] [] :=
  ⟨h.sound.forest, hrow, fun _ hn => h.adoptable hb (hsub hn), hnd⟩

theorem raised_single (h : d.Accepts c roots) (hb : .single n ∈ roots) (hrow : d.children c = []) :
    Raised d (d.insertBlock c (.single n) none) c (.single n) [n] := by
  have hins : Inserted d (d.insertBefore c n none) c [n] [] [] :=
    inserted_insertBefore (h.insertable hb hrow (List.Subset.refl _) (List.nodup_singleton n))
  exact ⟨hins.forest, hins.relinked, hins.children_self, fun _ hf => (List.not_mem_nil hf).elim,
    fun q hq _ => hins.children_of_ne q hq, hins.parent?⟩

theorem Holds.nodup (h : d.Holds b b.nodes) : b.nodes.Nodup := by
  cases b with
  | single n => exact List.nodup_singleton n
  | group g => exact h.spans.2.1

/-- A group that is in its fragment is mounted as a whole. -/
theorem raised_unused (h : d.Accepts c roots) (hb : .group g ∈ roots) (hrow : d.children c = [])
    (hunused : d.Unused (.group g)) : Raised d (d.insertBlock c (.group g) none) c (.group g) g.members := by
  have hholds := h.holds _ hb
  have hmem : g.fragment ∈ (Block.group g).fragments := List.mem_singleton_self _
  have hwhole : d.children g.fragment = g.members := hunused _ hmem
  have hcollect : d.collect g = d := by
    rw [collect, loose_of_whole h.sound.forest hholds hwhole]
    split <;> rfl
  have hins : Inserted d (d.insertBefore c g.fragment none) c (d.children g.fragment) [] [] :=
    inserted_insertBefore_fragment (h.insertable hb hrow (hwhole ▸ List.Subset.refl _)
      (hwhole ▸ hholds.nodup)) (hholds.fragment _ hmem) fun _ _ he => by cases he
  rw [hwhole] at hins
  have hinsert : d.insertBlock c (.group g) none = d.insertBefore c g.fragment none := by
    show (d.collect g).insertBefore c g.fragment none = _
    rw [hcollect]
  rw [hinsert]
  refine ⟨hins.forest, hins.relinked, by simpa using hins.children_self, fun f hf => ?_,
    fun q hq _ => hins.children_of_ne q hq, hins.parent?⟩
  obtain rfl := List.mem_singleton.1 hf
  rw [hins.children_of_ne _ (h.fragment_ne hb hf), hwhole, List.filter_eq_nil_iff]
  exact fun n hn => by simpa using hn

/-- Of a group whose nodes have lost their parent only the first one is mounted. -/
theorem raised_used (h : d.Accepts c roots) (hb : .group g ∈ roots) (hrow : d.children c = [])
    (hparent : ∀ n ∈ g.members, d.parent? n = none) (hempty : d.children g.fragment = []) :
    Raised d (d.insertBlock c (.group g) none) c (.group g) [g.first] := by
  have hholds := h.holds _ hb
  have hmem : g.fragment ∈ (Block.group g).fragments := List.mem_singleton_self _
  have hne := h.fragment_ne hb hmem
  have hfirst : g.first ∈ g.members := hholds.first_mem
  have hcollect : d.collect g = d.insertBefore g.fragment g.first none := by
    rw [collect, if_neg (by simpa using hholds.spans.1), loose, hparent _ hfirst, firstChild?, hempty]
    rfl
  have hgather : Inserted d (d.collect g) g.fragment [g.first] [] [] := by
    have hins : Insertable d g.fragment [g.first] [] [] := ⟨h.sound.forest, hempty,
      fun n hn => hholds.adoptable_fragment h.sound.forest (List.mem_singleton.1 hn ▸ hfirst),
      List.nodup_singleton _⟩
    rw [hcollect]
    exact inserted_insertBefore hins
  have hgathered : (d.collect g).children g.fragment = [g.first] := hgather.children_self
  have hrow' : (d.collect g).children c = [] := by
    rw [hgather.children_of_ne c hne.symm, hrow, List.filter_nil]
  have hadopt : (d.collect g).Adoptable c g.first := by
    have ha := h.adoptable hb hfirst
    refine ⟨hgather.relinked.has.2 ha.has_parent, hgather.relinked.has.2 ha.has_child,
      hgather.relinked.leaf? c ▸ ha.inner, hgather.relinked.isFragment _ ▸ ha.solid, fun habove => ?_⟩
    refine ha.outside (Above.congr (fun a hca => ?_) habove)
    rw [hgather.parent?, if_neg]
    exact fun hm => ha.outside (List.mem_singleton.1 hm ▸ hca)
  have hins : Inserted (d.collect g) ((d.collect g).insertBefore c g.fragment none) c [g.first] [] [] := by
    have hinsertable : Insertable (d.collect g) c ((d.collect g).children g.fragment) [] [] := by
      rw [hgathered]
      exact ⟨hgather.forest, hrow', fun n hn => List.mem_singleton.1 hn ▸ hadopt,
        List.nodup_singleton _⟩
    have hins := inserted_insertBefore_fragment hinsertable
      (hgather.relinked.isFragment _ ▸ hholds.fragment _ hmem) fun _ _ he => by cases he
    rwa [hgathered] at hins
  refine ⟨hins.forest, hgather.relinked.trans hins.relinked, hins.children_self, fun f hf => ?_,
    fun q hq hf => ?_, fun n => ?_⟩
  · obtain rfl := List.mem_singleton.1 hf
    show ((d.collect g).insertBefore c g.fragment none).children g.fragment = []
    rw [hins.children_of_ne _ hne, hgathered, List.filter_eq_nil_iff]
    exact fun n hn => by simpa using hn
  · show ((d.collect g).insertBefore c g.fragment none).children q = _
    rw [hins.children_of_ne q hq, hgather.children_of_ne q fun he => hf (he ▸ hmem),
      List.filter_filter]
    simp only [Bool.and_self]
  · show ((d.collect g).insertBefore c g.fragment none).parent? n = _
    rw [hins.parent?, hgather.parent?]
    split <;> rfl

theorem raised_of_unused (h : d.Accepts c roots) (hb : b ∈ roots) (hrow : d.children c = [])
    (hunused : d.Unused b) : Raised d (d.insertBlock c b none) c b b.nodes := by
  cases b with
  | single n => exact raised_single h hb hrow
  | group g => exact raised_unused h hb hrow hunused

theorem raised_of_used (h : d.Accepts c roots) (hb : b ∈ roots) (hrow : d.children c = [])
    (hparent : ∀ n ∈ b.nodes, d.parent? n = none) (hempty : ∀ f ∈ b.fragments, d.children f = []) :
    Raised d (d.insertBlock c b none) c b [b.first] := by
  cases b with
  | single n => exact raised_single h hb hrow
  | group g => exact raised_used h hb hrow hparent (hempty _ (List.mem_singleton_self _))

namespace Raised

theorem accepts (h : Raised d d' c b nodes) (hd : d.Accepts c roots) (hb : b ∈ roots)
    (hsub : nodes ⊆ b.nodes) : d'.Accepts c roots where
  sound := ⟨h.forest, hd.sound.owned.relinked h.relinked⟩
  has := h.relinked.has.2 hd.has
  element := by rw [h.relinked.isElement, hd.element]
  holds x hx := (hd.holds x hx).relinked h.relinked
  apart := hd.apart
  clear x hx n hn ha := by
    refine hd.clear x hx n hn (Above.congr (fun a hca => ?_) ha)
    rw [h.parent?, if_neg]
    exact fun hm => hd.clear b hb a (hsub hm) hca

theorem used_self (h : Raised d d' c b nodes) (hparent : ∀ n ∈ b.nodes, n ∉ nodes → d.parent? n = none) :
    d'.Used c b where
  parent? n hn := by
    rw [h.parent?]
    split
    · exact .inr rfl
    · rename_i hm
      exact .inl (hparent n hn hm)
  fragment := h.fragment

theorem unused (h : Raised d d' c b nodes) (hd : d.Accepts c roots) (hb : b ∈ roots) (hx : x ∈ roots)
    (hne : x ≠ b) (hsub : nodes ⊆ b.nodes) (hunused : d.Unused x) : d'.Unused x := by
  intro f hf
  have hapart := hd.apart x hx b hb hne.symm
  have hfb : f ∉ b.fragments := fun hm =>
    hapart f (List.mem_append_left _ hf) (List.mem_append_left _ hm)
  rw [h.rows f (hd.fragment_ne hx hf) hfb, hunused f hf, List.filter_eq_self]
  intro n hn
  simpa using fun hm =>
    hapart n (List.mem_append_right _ hn) (List.mem_append_right _ (hsub hm))

theorem used (h : Raised d d' c b nodes) (hd : d.Accepts c roots) (hb : b ∈ roots) (hx : x ∈ roots)
    (hne : x ≠ b) (hsub : nodes ⊆ b.nodes) (hparent : ∀ n ∈ x.nodes, d.parent? n = none)
    (hempty : ∀ f ∈ x.fragments, d.children f = []) : d'.Used c x where
  parent? n hn := by
    rw [h.parent?, if_neg]
    · exact .inl (hparent n hn)
    · exact fun hm => hd.apart x hx b hb hne.symm n (List.mem_append_right _ hn)
        (List.mem_append_right _ (hsub hm))
  fragment f hf := by
    have hfb : f ∉ b.fragments := fun hm => hd.apart x hx b hb hne.symm f
      (List.mem_append_left _ hf) (List.mem_append_left _ hm)
    rw [h.rows f (hd.fragment_ne hx hf) hfb, hempty f hf, List.filter_nil]

end Raised

end Document

/-! ### Rendering blocks by turns -/

namespace Renderer

open Document

variable {r : Renderer} {c : NodeId} {b x : Block} {roots past : List Block}

/-- Renders some blocks one after another, from the last one of the list to the first. -/
def renderBlocks (r : Renderer) (c : NodeId) : List Block → Renderer
  | [] => r
  | b :: past => ((r.renderBlocks c past).render c (.block b)).2

/-- Rendering a node is rendering the block of it alone. -/
theorem render_node (r : Renderer) (c n : NodeId) : r.render c (.node n) = r.render c (.block (.single n)) :=
  rfl

/-- Where the blocks are after those in `past` have been rendered, last one first. -/
structure Turns (r : Renderer) (c : NodeId) (roots past : List Block) : Prop where
  accepts : r.document.Accepts c roots
  held : ∀ b ∈ roots, b.held ⊆ r.hostNodes
  root : ∀ b ∈ roots, (r.cacheOf c).root = some b ↔ past.head? = some b
  unused : ∀ b ∈ roots, b ∉ past → r.document.Unused b
  used : ∀ b ∈ roots, b ∈ past → r.document.Used c b
  row : ∀ b rest, past = b :: rest → r.document.children c
    = if b ∈ rest.dropWhile (· == b) then [b.first] else b.nodes

theorem document_mount (hroot : (r.cacheOf c).root ≠ some b) :
    (r.render c (.block b)).2.document
      = ((r.document.setText c "").release ((r.custody c none).holding
          (b.held ++ (r.cacheOf c).held))).insertBlock c b none := by
  rw [render, mount, if_neg hroot]
  rfl

theorem hostNodes_render_block (r : Renderer) (c : NodeId) (b : Block) :
    (r.render c (.block b)).2.hostNodes = r.hostNodes := by
  rw [render, mount]
  split <;> rfl

theorem root_render_block (r : Renderer) (c : NodeId) (b : Block) :
    ((r.render c (.block b)).2.cacheOf c).root = some b := by
  rw [render, cacheOf_mount]

theorem fragments_subset_held (b : Block) : b.fragments ⊆ b.held := by
  cases b with
  | single n => exact List.nil_subset _
  | group g => exact List.cons_subset_cons _ (List.nil_subset _)

/-- A block that is in the container already stays there. -/
theorem Turns.again (h : r.Turns c roots (b :: past)) (hb : b ∈ roots) :
    (r.render c (.block b)).2.Turns c roots (b :: b :: past) := by
  have hroot : (r.cacheOf c).root = some b := (h.root b hb).2 rfl
  have hdocument : (r.render c (.block b)).2.document = r.document := by
    rw [render, mount, if_pos hroot]
    rfl
  have hmem : ∀ x, x ∈ b :: b :: past ↔ x ∈ b :: past := fun x => by simp
  refine ⟨hdocument ▸ h.accepts, hostNodes_render_block r c b ▸ h.held, fun x _ => ?_,
    fun x hx hnot => ?_, fun x hx hin => ?_, fun x rest heq => ?_⟩
  · rw [root_render_block]
    rfl
  · exact hdocument ▸ h.unused x hx fun hin => hnot ((hmem x).2 hin)
  · exact hdocument ▸ h.used x hx ((hmem x).1 hin)
  · obtain ⟨rfl, rfl⟩ := List.cons.inj heq
    have hdrop : (b :: past).dropWhile (· == b) = past.dropWhile (· == b) :=
      List.dropWhile_cons_of_pos (beq_self_eq_true b)
    rw [hdocument, h.row b past rfl, hdrop]

/-- The container is emptied, and the block becomes its content: all of it if the block has not been used
before, and its first node otherwise. -/
theorem Turns.exchange (h : r.Turns c roots past) (hb : b ∈ roots) (hhead : past.head? ≠ some b) :
    (r.render c (.block b)).2.Turns c roots (b :: past) := by
  have hroot : (r.cacheOf c).root ≠ some b := fun he => hhead ((h.root b hb).1 he)
  have hdrop : past.dropWhile (· == b) = past := by
    cases past with
    | nil => rfl
    | cons x rest =>
      refine List.dropWhile_cons_of_neg fun he => hhead ?_
      rw [List.head?_cons, eq_of_beq he]
  have hdocument := document_mount hroot
  generalize hcustody : (r.custody c none).holding (b.held ++ (r.cacheOf c).held) = custody
    at hdocument
  have hc : c ∈ custody.nodes := by
    rw [← hcustody]
    exact List.mem_append_right _ (List.mem_append_left _ (List.mem_append_left _
      (List.mem_singleton_self c)))
  have hhost : r.hostNodes ⊆ custody.nodes := by
    rw [← hcustody]
    exact fun n hn => List.mem_append_right _ (List.mem_append_left _ (List.mem_append_right _ hn))
  have hemptied := emptied_setText h.accepts.sound h.accepts.has (leaf?_of_isElement h.accepts.element)
    hc hhost
  have haccepts := h.accepts.emptied hemptied
  have hfragments : ∀ x ∈ roots, x.fragments ⊆ r.hostNodes := fun x hx =>
    List.Subset.trans (fragments_subset_held x) (h.held x hx)
  have hused := fun x hx hin =>
    (h.used x hx hin).emptied h.accepts hx hemptied (hfragments x hx)
  have hunused := fun x hx hnot =>
    (h.unused x hx hnot).emptied h.accepts hx hemptied (hfragments x hx)
  generalize (r.document.setText c "").release custody = d at *
  obtain ⟨nodes, hsub, hnodes, hself, hraised⟩ : ∃ nodes ⊆ b.nodes,
      nodes = (if b ∈ past then [b.first] else b.nodes) ∧
      (∀ n ∈ b.nodes, n ∉ nodes → d.parent? n = none) ∧
      Raised d (d.insertBlock c b none) c b nodes := by
    by_cases hin : b ∈ past
    · refine ⟨[b.first], ?_, (if_pos hin).symm, fun n hn _ => (hused b hb hin).1 n hn,
        raised_of_used haccepts hb hemptied.row (hused b hb hin).1 (hused b hb hin).2⟩
      rw [List.cons_subset]
      refine ⟨?_, List.nil_subset _⟩
      rw [(haccepts.holds b hb).eq_first_cons]
      exact List.mem_cons_self ..
    · exact ⟨b.nodes, List.Subset.refl _, (if_neg hin).symm, fun n hn hnot => absurd hn hnot,
        raised_of_unused haccepts hb hemptied.row (hunused b hb hin)⟩
  rw [← hdocument] at hraised
  refine ⟨hraised.accepts haccepts hb hsub, hostNodes_render_block r c b ▸ h.held, fun x _ => ?_,
    fun x hx hnot => ?_, fun x hx hin => ?_, fun x rest heq => ?_⟩
  · rw [root_render_block]
    rfl
  · rw [List.mem_cons, not_or] at hnot
    exact hraised.unused haccepts hb hx hnot.1 hsub (hunused x hx hnot.2)
  · by_cases hne : x = b
    · exact hne ▸ hraised.used_self hself
    · have hpast := (List.mem_cons.1 hin).resolve_left hne
      exact hraised.used haccepts hb hx hne hsub (hused x hx hpast).1 (hused x hx hpast).2
  · obtain ⟨rfl, rfl⟩ := List.cons.inj heq
    rw [hraised.row, hnodes, hdrop]

/-- Blocks are rendered by turns into an element that none of them has been rendered into. -/
theorem turns_renderBlocks (h : r.Turns c roots []) (hpast : ∀ b ∈ past, b ∈ roots) :
    (r.renderBlocks c past).Turns c roots past := by
  induction past with
  | nil => exact h
  | cons b past ih =>
    have hturns := ih fun x hx => hpast x (List.mem_cons_of_mem _ hx)
    have hb := hpast b (List.mem_cons_self ..)
    by_cases hhead : past.head? = some b
    · obtain ⟨rest, rfl⟩ := List.head?_eq_some_iff.1 hhead
      exact hturns.again hb
    · exact hturns.exchange hb hhead

/-- The blocks of which the one rendered last is shown in part have been replaced by another one before. A
group that has not been replaced is shown in full, and so is each node that stands alone. -/
theorem children_renderBlocks (haccepts : r.document.Accepts c roots)
    (hunused : ∀ b ∈ roots, r.document.Unused b) (hheld : ∀ b ∈ roots, b.held ⊆ r.hostNodes)
    (hroot : ∀ b ∈ roots, (r.cacheOf c).root ≠ some b) (b : Block) (past : List Block)
    (hpast : ∀ x ∈ b :: past, x ∈ roots) :
    (r.renderBlocks c (b :: past)).document.children c
      = if b ∈ past.dropWhile (· == b) then [b.first] else b.nodes := by
  have hturns : r.Turns c roots [] :=
    ⟨haccepts, hheld, fun b hb => ⟨fun he => absurd he (hroot b hb), fun he => by cases he⟩,
      fun b hb _ => hunused b hb, fun _ _ hin => (List.not_mem_nil hin).elim,
      fun _ _ heq => by cases heq⟩
  exact (turns_renderBlocks hturns hpast).row b past rfl

/-- An element, a group of two nodes that are in their fragment, and a node that stands alone. -/
def twoBlocks : Renderer :=
  let group := oneElement.document.createFragment
    [.element ⟨"a", .html, []⟩ [], .element ⟨"b", .html, []⟩ []]
  { oneElement with
    document := (group.2.create (.element "i" .html) "").2
    hostNodes := [⟨1⟩, ⟨2⟩, ⟨3⟩, ⟨4⟩] }

/-- The group and the node. -/
def bothBlocks : List Block :=
  [.group ⟨0, ⟨1⟩, [⟨2⟩, ⟨3⟩]⟩, .single ⟨4⟩]

theorem accepts_twoBlocks : twoBlocks.document.Accepts ⟨0⟩ bothBlocks where
  sound := by
    have hfragment := made_create sound_oneElement.document .fragment ""
    exact (made_create (added_addContent hfragment.sound hfragment.has (by decide) _).sound _ _).sound
  has := by decide
  element := by decide
  holds := by
    have hnode : twoBlocks.document.Holds (.single ⟨4⟩) [⟨4⟩] :=
      holds_single (by decide) (by decide)
    refine List.forall_mem_cons.2 ⟨⟨?_, ?_, ?_, ?_, ?_⟩, List.forall_mem_singleton.2 hnode⟩
    · exact ⟨by decide, by decide, List.Sublist.refl _, rfl, rfl⟩
    all_goals decide
  apart := by decide
  clear b hb n hn ha := by
    have hroot := Above.eq_of_root (by decide) ha
    revert b
    subst hroot
    decide

theorem children_renderBlocks_twoBlocks :
    let w : Block := .group ⟨0, ⟨1⟩, [⟨2⟩, ⟨3⟩]⟩
    (twoBlocks.renderBlocks ⟨0⟩ [w, w]).document.children ⟨0⟩ = [⟨2⟩, ⟨3⟩] ∧
      (twoBlocks.renderBlocks ⟨0⟩ [w, .single ⟨4⟩, w]).document.children ⟨0⟩ = [⟨2⟩] := by
  have key := children_renderBlocks accepts_twoBlocks (by unfold Document.Unused; decide) (by decide)
    (by decide)
  exact ⟨(key _ [_] (by decide)).trans rfl, (key _ [_, _] (by decide)).trans rfl⟩

end Renderer

end LiveMarkup
