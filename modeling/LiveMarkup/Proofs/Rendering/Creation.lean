import LiveMarkup.Proofs.Rendering.Display
import LiveMarkup.Proofs.Rendering.Ready
/-!
# Making an instance

A new instance has the plants of its template's content, loose and without anything added to them, and
its bindings are at the nodes that the paths of the holes lead to (`created_create`). Nothing that was
there before is touched.
-/

namespace LiveMarkup

open Markup (Tree Tag)

namespace Document

variable {d d' : Document} {n p : NodeId} {q : Plant} {ps roots : List Plant}

theorem Stands.of_child (h : d.Stands q) : ∀ c ∈ q.children, d.Stands c := by
  cases h with
  | element _ _ _ _ below => exact below
  | text | comment => exact fun c hc => by cases hc

/-- Following the same path in a document and in the plants that stand in it. -/
theorem Stands.descend? (hf : d.Forest) (h : d.Stands q) (path : List Nat) :
    d.descend? q.id path = (q.at? path).map Plant.id := by
  induction path generalizing q with
  | nil => rfl
  | cons i path ih =>
    have hchildren := (h.bears hf).row q.id rfl
    show (d.child? q.id i >>= fun m => d.descend? m path) = _
    rw [child?, hchildren, List.getElem?_map, Plant.at?]
    cases hc : q.children[i]? with
    | none => rfl
    | some c => exact ih (h.of_child c (List.mem_of_getElem? hc))

theorem Bears.descend? (hf : d.Forest) (h : d.Bears (some p) ps) {path : List Nat} {q : Plant}
    (hq : Plant.follow ps path = some q) : d.descend? p path = some q.id := by
  cases path with
  | nil => cases hq
  | cons i path =>
    obtain ⟨c, hc, hq⟩ := Plant.follow_cons.1 hq
    show (d.child? p i >>= fun m => d.descend? m path) = _
    rw [child?, h.row p rfl, List.getElem?_map, hc]
    show d.descend? c.id path = _
    rw [(h.stand c (List.mem_of_getElem? hc)).descend? hf, hq]
    rfl

/-- What is reached by a path stands as well. -/
theorem Stands.of_at? (h : d.Stands q) {path : List Nat} {r : Plant} (hr : q.at? path = some r) :
    d.Stands r := by
  induction path generalizing q with
  | nil =>
    cases hr
    exact h
  | cons i path ih =>
    obtain ⟨c, hc, hr⟩ := Plant.follow_cons.1 (Plant.at?_cons ▸ hr)
    exact ih (h.of_child c (List.mem_of_getElem? hc)) hr

theorem Bears.of_follow {root : Option NodeId} (h : d.Bears root ps) {path : List Nat} {r : Plant}
    (hr : Plant.follow ps path = some r) : d.Stands r := by
  cases path with
  | nil => cases hr
  | cons i path =>
    obtain ⟨c, hc, hr⟩ := Plant.follow_cons.1 hr
    exact (h.stand c (List.mem_of_getElem? hc)).of_at? hr

end Document

/-! ### Bindings -/

theorem ofAttribute_plain {name : String} (h : PlainName name) (d : Document) (n : NodeId) :
    Binding.ofAttribute d n name
      = (.attr n (d.createAttributeFor n name).1 false none, (d.createAttributeFor n name).2) := by
  rw [Binding.ofAttribute, if_neg h.not_ref]
  have hproperty := h.not_property
  have hevent := h.not_event
  split
  · rename_i rest hname
    rw [hname] at hproperty
    exact absurd rfl hproperty
  · rename_i rest hname
    rw [hname] at hevent
    exact absurd (by simp) hevent
  · rfl

namespace Document

variable {d d' d'' : Document} {roots : List Plant} {holes : List Hole}
  {entries : List (Binding × Spot)}

/-- Bindings have been made for some holes. -/
structure Bound (d d' : Document) (roots : List Plant) (holes : List Hole)
    (entries : List (Binding × Spot)) : Prop where
  sound : d'.Sound
  extends_ : Extends d d' []
  each : List.Forall₂ (fun h e => h.At roots e ∧ Unused e ∧ d'.Supports e) holes entries
  separate : entries.Pairwise Separate
  fresh : ∀ e ∈ entries, e.1.IsNew d

/-- The holes are where the plants have nodes for them, and have names of their own. -/
structure Bindable (roots : List Plant) (holes : List Hole) : Prop where
  nodup : (Plant.idsAll roots).Nodup
  leads : ∀ h ∈ holes, ∃ q, Plant.follow roots h.path = some q ∧ h.kind.Suits q.tree
  names : ∀ h ∈ holes, ∀ name, h.kind = .attr name → PlainName name
  unlisted : ∀ h ∈ holes, ∀ name id tag children, h.kind = .attr name →
    Plant.follow roots h.path = some (.element id tag children) →
    ∀ a ∈ tag.attributes, a.1 ≠ tag.space.spell name
  distinct : holes.Pairwise fun h h' => ∀ name name' id tag children, h.kind = .attr name →
    h'.kind = .attr name' → h.path = h'.path →
    Plant.follow roots h.path = some (.element id tag children) →
    tag.space.spell name ≠ tag.space.spell name'

theorem Bindable.tail {h : Hole} (hb : Bindable roots (h :: holes)) : Bindable roots holes where
  nodup := hb.nodup
  leads h hh := hb.leads h (List.mem_cons_of_mem _ hh)
  names h hh := hb.names h (List.mem_cons_of_mem _ hh)
  unlisted h hh := hb.unlisted h (List.mem_cons_of_mem _ hh)
  distinct := (List.pairwise_cons.1 hb.distinct).2

theorem extends_createAttribute (d : Document) (name : String) :
    Extends d (d.createAttribute name).2 [] where
  nodes := Nat.le_refl _
  attributes := by
    show d.attributes.size ≤ (d.attributes.push _).size
    rw [Array.size_push]
    exact Nat.le_succ _
  bare _ _ := rfl
  parent? _ _ := rfl
  children _ _ _ := rfl
  attr a ha := by rw [attr_createAttribute, if_neg ha.ne_next]
  notices := rfl

theorem Sound.createAttribute (hs : d.Sound) (name : String) : (d.createAttribute name).2.Sound :=
  ⟨hs.forest.congr (fun _ => rfl) (fun _ => rfl) fun _ _ => rfl, hs.owned.createAttribute name⟩

theorem spelled_eq {n : NodeId} {tag : Tag} (h : d.kind n = .element tag.name tag.space)
    (name : String) : d.spelled n name = tag.space.spell name := by
  rw [spelled, h]
  cases tag.space <;> rfl

/-- One binding is made at a node that stands. -/
theorem bound_ofHole (hs : d.Sound) {root : Option NodeId} (hb : d.Bears root roots) {h : Hole}
    (hh : Bindable roots [h]) {q : Plant} (hq : Plant.follow roots h.path = some q) :
    ∃ s : Spot, Bound d (Binding.ofHole d q.id h.kind).2 roots [h]
      [((Binding.ofHole d q.id h.kind).1, s)] := by
  obtain ⟨q', hq', hsuits⟩ := hh.leads h (List.mem_singleton_self h)
  rw [hq] at hq'
  cases hq'
  have hstand := hb.of_follow hq
  obtain ⟨kind, path⟩ := h
  cases kind with
  | child =>
    have hmade := made_create hs .text ""
    refine ⟨.child q.id [], hmade.sound, hmade.extends_, .cons ⟨⟨q, hq, rfl, trivial⟩, ⟨rfl, rfl, rfl⟩,
      rfl, hmade.has, kind_create_next, fun _ => hmade.parent?⟩ .nil, List.pairwise_singleton _ _,
      fun e he => ?_⟩
    rw [List.mem_singleton.1 he]
    exact not_has_next
  | text =>
    cases q with
    | element id tag children =>
      cases hstand with
      | element has hkind =>
        refine ⟨.text id none, hs, .refl d [], .cons ⟨⟨_, hq, rfl, trivial⟩, ⟨rfl, rfl⟩, rfl, has, ?_⟩
          .nil, List.pairwise_singleton _ _, fun e he => ?_⟩
        · show d.isElement id = true
          rw [isElement, hkind]
        · rw [List.mem_singleton.1 he]
          trivial
    | text id data => rw [Plant.tree] at hsuits; cases hsuits
    | comment id data => rw [Plant.tree] at hsuits; cases hsuits
  | attr name =>
    cases q with
    | element id tag children =>
      cases hstand with
      | element has hkind pairs =>
        have hname := hh.names _ (List.mem_singleton_self _) name rfl
        have hspelled := spelled_eq hkind name
        have hbinding : Binding.ofHole d id (.attr name) = (.attr id d.nextAttribute false none,
            (d.createAttribute (tag.space.spell name)).2) := by
          rw [Binding.ofHole, ofAttribute_plain hname, createAttributeFor, hspelled]
          rfl
        have hattr : (d.createAttribute (tag.space.spell name)).2.attr d.nextAttribute
            = ⟨tag.space.spell name, "", none⟩ := by rw [attr_createAttribute, if_pos rfl]
        rw [Plant.id_element, hbinding]
        refine ⟨.attr id (tag.space.spell name) none, hs.createAttribute _, extends_createAttribute d _,
          .cons ⟨⟨_, hq, rfl, id, tag, children, rfl, rfl⟩, ⟨rfl, rfl, rfl⟩, rfl, has, ?_, ?_, ?_,
            fun b hb _ => ?_, fun _ => ?_, fun v hv => by cases hv⟩ .nil, List.pairwise_singleton _ _,
          fun e he => ?_⟩
        · show d.isElement id = true
          rw [isElement, hkind]
        · show d.attributes.size < (d.attributes.push _).size
          rw [Array.size_push]
          exact Nat.lt_succ_self _
        · rw [hattr]
        · have hmem : ((d.attr b).name, (d.attr b).value) ∈ d.attributePairs id :=
            List.mem_map_of_mem hb
          rw [pairs] at hmem
          rw [attr_createAttribute, if_neg (hs.owned.hasAttribute hb).ne_next]
          exact hh.unlisted _ (List.mem_singleton_self _) name id tag children rfl hq _ hmem
        · rw [hattr]
        · rw [List.mem_singleton.1 he]
          exact not_hasAttribute_next
    | text id data => rw [Plant.tree] at hsuits; cases hsuits
    | comment id data => rw [Plant.tree] at hsuits; cases hsuits

theorem Bindable.head {h : Hole} (hb : Bindable roots (h :: holes)) : Bindable roots [h] where
  nodup := hb.nodup
  leads h hh := hb.leads h (List.mem_singleton.1 hh ▸ List.mem_cons_self ..)
  names h hh := hb.names h (List.mem_singleton.1 hh ▸ List.mem_cons_self ..)
  unlisted h hh := hb.unlisted h (List.mem_singleton.1 hh ▸ List.mem_cons_self ..)
  distinct := List.pairwise_singleton _ _

theorem exists_of_mem_forall₂ {α β : Type} {r : α → β → Prop} {as : List α} {bs : List β}
    (h : List.Forall₂ r as bs) {b : β} (hb : b ∈ bs) : ∃ a ∈ as, r a b := by
  induction h with
  | nil => cases hb
  | @cons a b' as bs hab _ ih =>
    rcases List.mem_cons.1 hb with rfl | hb
    · exact ⟨a, List.mem_cons_self .., hab⟩
    · obtain ⟨a', ha', hr⟩ := ih hb
      exact ⟨a', List.mem_cons_of_mem _ ha', hr⟩

/-- A binding has nothing in common with one that is made later, if their holes do not want one name on
one element. -/
theorem separate_of_isNew {h h' : Hole} {e e' : Binding × Spot} (hnd : (Plant.idsAll roots).Nodup)
    (hat : h.At roots e) (hat' : h'.At roots e') (hs : d.Supports e) (hnew : e'.1.IsNew d)
    (hdistinct : ∀ name name' id tag children, h.kind = .attr name → h'.kind = .attr name' →
      h.path = h'.path → Plant.follow roots h.path = some (.element id tag children) →
      tag.space.spell name ≠ tag.space.spell name') : Separate e e' := by
  obtain ⟨q, hq, hplace, hkind⟩ := hat
  obtain ⟨q', hq', hplace', hkind'⟩ := hat'
  obtain ⟨b, s⟩ := e
  obtain ⟨b', s'⟩ := e'
  cases b <;> cases s <;> try exact False.elim hs
  case child.child c n plants =>
    cases b' <;> try trivial
    case child c' => exact fun he => hnew (he ▸ hs.2.1)
  case attr.attr n a attached last m name value =>
    cases b' <;> try trivial
    case attr n' a' attached' last' =>
      cases s' <;> try trivial
      case attr m' name' value' =>
        obtain ⟨kind, path⟩ := h
        obtain ⟨kind', path'⟩ := h'
        cases kind <;> try exact False.elim hkind
        cases kind' <;> try exact False.elim hkind'
        case attr.attr raw raw' =>
          refine ⟨fun he => hnew (he ▸ hs.2.2.2.1), fun hm => ?_⟩
          obtain ⟨id, tag, children, rfl, rfl⟩ := hkind
          obtain ⟨id', tag', children', rfl, rfl⟩ := hkind'
          have hid : (Plant.element id tag children).id = (Plant.element id' tag' children').id :=
            hplace.symm.trans (hm.trans hplace')
          have hpath := Plant.eq_of_follow hnd hq hq' hid
          dsimp only at hpath
          subst hpath
          rw [hq] at hq'
          cases hq'
          exact hdistinct raw raw' id tag children rfl rfl rfl hq
  case text.text n last m content => cases b' <;> trivial

theorem Bound.cons {h : Hole} {e : Binding × Spot} (hh : Bindable roots (h :: holes))
    (hfirst : Bound d d' roots [h] [e]) (hrest : Bound d' d'' roots holes entries) :
    Bound d d'' roots (h :: holes) (e :: entries) := by
  have heach := hfirst.each
  rw [List.forall₂_cons] at heach
  obtain ⟨⟨hat, hunused, hsupports⟩, -⟩ := heach
  have hkeeps := hrest.extends_.keeps hfirst.sound.owned e.1.held
  refine ⟨hrest.sound, hfirst.extends_.trans hrest.extends_ fun _ hn _ => hn, .cons ⟨hat, hunused,
    hsupports.keeps hkeeps hfirst.sound.owned (List.Subset.refl _)⟩ hrest.each, ?_, fun e' he' => ?_⟩
  · refine List.pairwise_cons.2 ⟨fun e' he' => ?_, hrest.separate⟩
    obtain ⟨h', hh', hat', -, -⟩ := exists_of_mem_forall₂ hrest.each he'
    exact separate_of_isNew hh.nodup hat hat' hsupports (hrest.fresh e' he')
      ((List.pairwise_cons.1 hh.distinct).1 h' hh')
  · rcases List.mem_cons.1 he' with rfl | he'
    · exact hfirst.fresh _ (List.mem_singleton_self _)
    · have hnew := hrest.fresh e' he'
      obtain ⟨b, s⟩ := e'
      cases b <;> try trivial
      case child c => exact fun h => hnew (hfirst.extends_.has h)
      case attr n a attached last => exact fun h => hnew (hfirst.extends_.hasAttribute h)

/-- The bindings of the holes of some content. -/
theorem bound_ofHoles {root : NodeId} (hs : d.Sound) (hb : d.Bears (some root) roots)
    (hroot : d.Has root) (hh : Bindable roots holes) :
    ∃ entries : List (Binding × Spot), (Binding.ofHoles d root holes).1 = entries.map Prod.fst ∧
      Bound d (Binding.ofHoles d root holes).2 roots holes entries := by
  induction holes generalizing d with
  | nil =>
    rw [Binding.ofHoles]
    exact ⟨[], rfl, hs, .refl d [], .nil, .nil, fun e he => by cases he⟩
  | cons h holes ih =>
    obtain ⟨q, hq, -⟩ := hh.leads h (List.mem_cons_self ..)
    obtain ⟨s, hfirst⟩ := bound_ofHole hs hb hh.head hq
    have hkeeps := hfirst.extends_.keeps hs.owned [root]
    have hb' := hkeeps.bears hb
      (fun p hp => by cases hp; exact ⟨hroot, .root (List.mem_singleton_self _)⟩) fun h => by cases h
    obtain ⟨entries, hbindings, hrest⟩ := ih hfirst.sound hb' (hkeeps.has hroot) hh.tail
    rw [Binding.ofHoles, hb.descend? hs.forest hq]
    exact ⟨_ :: entries, by rw [List.map_cons, ← hbindings], hfirst.cons hh hrest⟩

/-! ### Blocks -/

variable {f n : NodeId} {ps : List Plant}

theorem blockOfOwn_single (h : d.children f = [n]) :
    d.blockOfOwn f = (.single n, d.detach n) := by
  have hblock : d.blockOf f = (.single n, d) := by rw [blockOf, h]
  rw [blockOfOwn, hblock]

theorem blockOfOwn_group (h : ∀ n, d.children f ≠ [n]) :
    d.blockOfOwn f
      = (.group ⟨d.groups, f, d.children f⟩, { d with groups := d.groups + 1 }) := by
  have hblock : d.blockOf f
      = (.group ⟨d.groups, f, d.children f⟩, { d with groups := d.groups + 1 }) := by
    rw [blockOf]
    split
    · rename_i only honly
      exact absurd honly (h only)
    · rfl
  rw [blockOfOwn, hblock]

/-- The block of a fragment is loose, and nothing but the fragment and the node that is taken out of it
is touched. -/
theorem loose_blockOfOwn {base : Document} (hs : d.Sound) (hb : d.Bears (some f) ps) (hf : d.Has f)
    (hfragment : d.isFragment f = true) (hbase : Extends base d []) (hfnew : ¬ base.Has f)
    (hnew : ∀ n ∈ Plant.idsAll ps, ¬ base.Has n) :
    (d.blockOfOwn f).2.Sound ∧ Extends base (d.blockOfOwn f).2 [] ∧
      (d.blockOfOwn f).2.Loose (d.blockOfOwn f).1 ps ∧
      (∀ e : Binding × Spot, d.Supports e → (d.blockOfOwn f).2.Supports e) ∧
      (∀ p, (d.blockOfOwn f).1.root? = some p → p = f) ∧ (d.blockOfOwn f).2.nodes.size = d.nodes.size ∧
      (d.blockOfOwn f).2.attributes.size = d.attributes.size ∧
      (d.blockOfOwn f).1.nodes = ps.map Plant.id := by
  by_cases hsingle : ∃ n, d.children f = [n]
  · obtain ⟨n, hn⟩ := hsingle
    have hids : ps.map Plant.id = [n] := by rw [← hb.row f rfl, hn]
    have hmem : n ∈ d.children f := by rw [hn]; exact List.mem_singleton_self n
    have hparent := hs.forest.parent_of_mem hmem
    have hrelinked := relinked_detach d n
    have hrow : ∀ q, q ≠ f → (d.detach n).children q = d.children q := by
      intro q hq
      rw [children_detach hs.forest, hs.forest.filter_children]
      rw [hparent]
      exact fun he => hq (Option.some.inj he).symm
    obtain ⟨q, hq, rfl⟩ : ∃ q ∈ ps, q.id = n := by
      have hmem' : n ∈ ps.map Plant.id := by rw [hids]; exact List.mem_singleton_self n
      exact List.mem_map.1 hmem'
    have hnd := hb.nodup hs.forest
    rw [List.nodup_cons] at hnd
    rw [blockOfOwn_single hn]
    refine ⟨⟨hs.forest.detach q.id, hs.owned.relinked hrelinked⟩, ?_, ⟨⟨fun p hp => ?_,
      fun r hr => ?_⟩, fun m hm => ?_, fun g hg => ?_⟩, fun e he => ?_, fun p hp => ?_,
      hrelinked.size, by rw [hrelinked.attributes], hids.symm⟩
    · refine ⟨?_, ?_, fun m hm => ?_, fun m hm => ?_, fun m hm _ => ?_, fun a ha => ?_, ?_⟩
      · rw [hrelinked.size]
        exact hbase.nodes
      · rw [hrelinked.attributes]
        exact hbase.attributes
      · rw [hrelinked.bare, hbase.bare m hm]
      · rw [parent?_detach, if_neg fun (he : m = q.id) => hnew _ (Plant.id_mem_idsAll hq) (he ▸ hm),
          hbase.parent? m hm]
      · rw [hrow m fun he => hfnew (he ▸ hm), hbase.children m hm (List.not_mem_nil)]
      · rw [hrelinked.attr, hbase.attr a ha]
      · rw [notices_detach, hbase.notices]
    · cases hp
    · refine (hb.stand r hr).congr fun m hm => hrelinked.unchanged (hrow m ?_)
      rintro rfl
      exact hnd.1 (Plant.mem_idsAll.2 ⟨r, hr, hm⟩)
    · cases hm
      refine ⟨hids, ?_⟩
      rw [parent?_detach, if_pos rfl]
    · cases hg
    · refine he.relinked hrelinked fun c m _ hc => ?_
      rw [parent?_detach]
      split
      · rfl
      · exact hc
    · cases hp
  · have hgroup : ∀ n, d.children f ≠ [n] := fun n hn => hsingle ⟨n, hn⟩
    have hsame : ∀ m, Unchanged d { d with groups := d.groups + 1 } m := fun m =>
      ⟨id, rfl, rfl, rfl, rfl, rfl⟩
    rw [blockOfOwn_group hgroup]
    refine ⟨⟨hs.forest.congr (fun _ => rfl) (fun _ => rfl) fun _ _ => rfl,
      hs.owned.congr (fun _ => rfl) fun _ => rfl⟩, ⟨hbase.nodes, hbase.attributes, hbase.bare,
      hbase.parent?, hbase.children, hbase.attr, hbase.notices⟩, ⟨⟨fun p hp => ?_, fun q hq =>
      (hb.stand q hq).congr fun m _ => hsame m⟩, fun n hn => ?_, fun g hg => ?_⟩, fun e he => ?_,
      fun p hp => ?_, rfl, rfl, hb.row f rfl⟩
    · cases hp
      exact hb.row f rfl
    · cases hn
    · cases hg
      refine ⟨hf, hfragment, ?_⟩
      rw [Group.first, hb.row f rfl]
      cases ps with
      | nil => exact .inl rfl
      | cons q rest => exact .inr (List.mem_cons_self ..)
    · obtain ⟨b, s⟩ := e
      cases b <;> cases s <;> exact he
    · exact (Option.some.inj hp).symm

/-! ### Instances -/

/-- An instance has been made; `base` is the document with its content, but without its bindings. -/
structure Created (d base d' : Document) (i : Instance) (compiled : Compiled) (roots : List Plant)
    (entries : List (Binding × Spot)) : Prop where
  sound : d'.Sound
  extends_ : Extends d d' []
  before : Extends d base []
  nodes : base.nodes.size ≤ d'.nodes.size
  attributes : base.attributes.size ≤ d'.attributes.size
  trees : Plant.trees roots = compiled.content
  nodup : (Plant.idsAll roots).Nodup
  loose : d'.Loose i.block roots
  tops : i.block.nodes = roots.map Plant.id
  bindings : i.bindings = entries.map Prod.fst
  each : List.Forall₂ (fun h e => h.At roots e ∧ Unused e ∧ d'.Supports e) compiled.holes entries
  separate : entries.Pairwise Separate
  fresh : ∀ e ∈ entries, e.1.IsNew base
  own : ∀ n, i.block.root? = some n ∨ n ∈ Plant.idsAll roots → ¬ d.Has n ∧ base.Has n

theorem bindable_of_plain {compiled : Compiled} (hc : compiled.Coherent) (hp : compiled.Plain)
    (htrees : Plant.trees roots = compiled.content) (hnd : (Plant.idsAll roots).Nodup) :
    Bindable roots compiled.holes where
  nodup := hnd
  leads h hh := by
    obtain ⟨t, ht, hsuits⟩ := hc.leads h hh
    rw [← htrees, Plant.follow_trees, Option.map_eq_some_iff] at ht
    obtain ⟨q, hq, rfl⟩ := ht
    exact ⟨q, hq, hsuits⟩
  names := hp.names
  unlisted h hh name id tag children hkind hq := by
    refine hp.unlisted h hh name tag (Plant.trees children) hkind ?_
    rw [← htrees, Plant.follow_trees, hq, Option.map_some, Plant.tree]
  distinct := hp.distinct.imp fun {h h'} hd name name' id tag children hkind hkind' hpath hq => by
    refine hd name name' tag (Plant.trees children) hkind hkind' hpath ?_
    rw [← htrees, Plant.follow_trees, hq, Option.map_some, Plant.tree]

theorem created_create (hs : d.Sound) (space : Markup.Namespace) (template : Template)
    {compiled : Compiled} (hc : compiled.Coherent) (hp : compiled.Plain) :
    ∃ base roots entries, Created d base (Instance.create d space template compiled).2
      (Instance.create d space template compiled).1 compiled roots entries := by
  have hmade := made_create hs .fragment ""
  have hfragment : (d.create .fragment "").2.kind d.next = .fragment := kind_create_next
  rw [create_fst] at hmade
  have hadded := added_addContent hmade.sound hmade.has (by rw [leaf?, hfragment]) compiled.content
  have hhas := hadded.extends_.has hmade.has
  have hrow := hadded.row
  rw [hmade.children, List.nil_append] at hrow
  have htrees := Plant.tree_plant.2 compiled.content (d.create .fragment "").2.nodes.size
  have hids := Plant.idsAll_plantAll (d.create .fragment "").2.nodes.size compiled.content
  generalize hroots : plantAll (d.create .fragment "").2.nodes.size compiled.content = roots at *
  generalize hbase : addContent d.next (d.create .fragment "").2 compiled.content = base at *
  have hext : Extends d base [] := hmade.extends_.trans hadded.extends_ fun n hn hold =>
    absurd (List.mem_singleton.1 hn) hold.ne_next
  have hbears : base.Bears (some d.next) roots :=
    ⟨fun p hp => by cases hp; exact hrow, hadded.stand⟩
  have hnd : (Plant.idsAll roots).Nodup := hids ▸ nodup_numbers _ _
  have hnew : ∀ n ∈ Plant.idsAll roots, ¬ d.Has n := by
    intro n hn
    rw [hids, mem_numbers, hmade.nodes] at hn
    exact Nat.not_lt.2 (Nat.le_of_succ_le hn.1)
  obtain ⟨entries, hbindings, hbound⟩ := bound_ofHoles hadded.sound hbears hhas
    (bindable_of_plain hc hp htrees hnd)
  have hkeeps := hbound.extends_.keeps hadded.sound.owned [d.next]
  have hbears' := hkeeps.bears hbears
    (fun p hp => by cases hp; exact ⟨hhas, .root (List.mem_singleton_self _)⟩) fun h => by cases h
  have hfragment' : (Binding.ofHoles base d.next compiled.holes).2.isFragment d.next = true := by
    rw [isFragment, hbound.extends_.kind hhas, hadded.extends_.kind hmade.has, hfragment]
    rfl
  obtain ⟨hsound, hext', hloose, hsupports, hroot, hsize, hsize', htops⟩ := loose_blockOfOwn hbound.sound
    hbears' (hkeeps.has hhas) hfragment' (hext.trans hbound.extends_ fun _ hn _ => hn) not_has_next hnew
  have hcreate : Instance.create d space template compiled
      = (⟨space, template, ((Binding.ofHoles base d.next compiled.holes).2.blockOfOwn d.next).1,
          (Binding.ofHoles base d.next compiled.holes).1⟩,
        ((Binding.ofHoles base d.next compiled.holes).2.blockOfOwn d.next).2) := by
    rw [Instance.create, createFragment, create_fst, hbase]
  rw [hcreate]
  refine ⟨base, roots, entries, hsound, hext', hext, ?_, ?_, htrees, hnd, hloose, htops, hbindings,
    hbound.each.imp fun h e he => ⟨he.1, he.2.1, hsupports e he.2.2⟩, hbound.separate, hbound.fresh,
    fun n hn => ?_⟩
  · show base.nodes.size ≤ ((Binding.ofHoles base d.next compiled.holes).2.blockOfOwn d.next).2.nodes.size
    rw [hsize]
    exact hbound.extends_.nodes
  · show base.attributes.size
      ≤ ((Binding.ofHoles base d.next compiled.holes).2.blockOfOwn d.next).2.attributes.size
    rw [hsize']
    exact hbound.extends_.attributes
  · rcases hn with hn | hn
    · rw [hroot n hn]
      exact ⟨not_has_next, hhas⟩
    · obtain ⟨q, hq, hn'⟩ := Plant.mem_idsAll.1 hn
      exact ⟨hnew n hn, (hadded.stand q hq).has_of_mem hn'⟩

end Document

end LiveMarkup
