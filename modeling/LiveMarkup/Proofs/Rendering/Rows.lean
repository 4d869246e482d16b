import LiveMarkup.Proofs.Rendering.History
import LiveMarkup.Proofs.Rendering.Laying
import LiveMarkup.Proofs.Rendering.Moving
/-!
# Lists of rows that are rendered one after another

A template with one hole, which is inside an element, is rendered again and again with lists of rows of any
lengths. Each list is shown as a first render of it is, and a row has the nodes that were at its position
before if and only if those were of a row for the same template (`Renderer.renderEach_rows`). What a container
is known to show (`Renderer.Lists`) is handed on from one list to the next one (`Renderer.lists_render`).
-/

namespace LiveMarkup

open Exhibit
open Markup (Namespace Tree)

/-! ### Rows -/

namespace Value

/-- An invocation of a template whose content begins with a node of its own, with null or a primitive for each
hole. -/
inductive IsRow : Value → Prop where
  | invocation {space : Namespace} {template : Template} {values : List Value}
      (fits : (Value.invocation space template values).Fits) (plain : ∀ v ∈ values, v.IsPlain)
      (headed : (template.compilation space).compiled.Headed) : IsRow (.invocation space template values)

/-- The template that a value is an invocation of, with its namespace. -/
def form? : Value → Option (Namespace × Template)
  | .invocation space template _ => some (space, template)
  | _ => none

variable {v : Value} {items : List Value}

theorem IsRow.fits (h : v.IsRow) : v.Fits := by
  cases h with
  | invocation fits => exact fits

theorem IsRow.toPlan (h : v.IsRow) : v.toPlan.IsRow := by
  cases h with
  | invocation fits plain headed =>
    have hfits := fits.toPlan
    rw [Value.toPlan, toPlans_of_isPlain plain] at hfits ⊢
    exact .use hfits headed

theorem IsRow.form?_toPlan (h : v.IsRow) : v.toPlan.form? = v.form? := by
  cases h with
  | invocation =>
    rw [Value.toPlan]
    rfl

theorem isRow_toPlans (h : ∀ v ∈ items, v.IsRow) : ∀ p ∈ toPlans items, p.IsRow := by
  rw [toPlans_eq_map]
  exact List.forall_mem_map.2 fun v hv => (h v hv).toPlan

theorem fits_rows (h : ∀ v ∈ items, v.IsRow) : (Value.list items).Fits := by
  refine .list (fun v hv => (h v hv).fits) fun v hv => ?_
  cases h v hv with
  | invocation => exact ⟨_, _, _, rfl⟩

end Value

/-- The nodes of a row that is on show. -/
def Exhibit.rowNodes (x : Exhibit) : List NodeId :=
  x.blocks.flatMap Block.nodes

namespace Exhibit

variable {x : Exhibit} {p : Plan} {xs : List Exhibit} {ps : List Plan}

theorem rowNodes_row (hp : p.IsRow) (hx : x.Shows p) :
    x.rowNodes = x.instances.flatMap (fun i => i.block.nodes) ∧ x.rowNodes ≠ [] := by
  obtain ⟨i, roots, spots, holes, rfl, hinstances, -⟩ := hp.exists_use hx
  rw [hinstances, rowNodes, blocks, pieces]
  refine ⟨rfl, fun hempty => ?_⟩
  cases hp with
  | use fits headed =>
    obtain ⟨-, -, htops, htrees, -⟩ := hx
    have hroots : roots = [] := by
      rw [← List.map_eq_nil_iff (f := Plant.id), ← htops]
      simpa using hempty
    rw [hroots, Plant.trees_nil] at htrees
    exact headed.nonempty htrees.symm

theorem rowNodes_new {d : Document} (hp : p.IsRow) (hx : x.Shows p)
    (hnew : ∀ y ∈ x.pieces, ∀ n, Within y.1.root? y.2 n → ¬ d.Has n) :
    ∀ n ∈ x.rowNodes, ¬ d.Has n := by
  intro n hn
  obtain ⟨block, hblock, hn⟩ := List.mem_flatMap.1 hn
  have hmem := Document.mem_idsAll_of_mem_map ((sublist_of_isRow hp hx hblock).subset hn)
  obtain ⟨y, hy, -⟩ := List.mem_map.1 hblock
  obtain ⟨i, roots, spots, holes, rfl, -⟩ := hp.exists_use hx
  rw [pieces, List.forall_mem_singleton] at hnew
  exact hnew n (.inr hmem)

/-- The slots of a list of rows remember the nodes of the rows. -/
theorem map_rowNodes (hps : ∀ p ∈ ps, p.IsRow) (hxs : ShowsAll xs ps) :
    (slotsOfItems xs).map (fun slot => slot.instances.flatMap fun i => i.block.nodes)
      = xs.map rowNodes := by
  induction xs generalizing ps with
  | nil => rfl
  | cons x xs ih =>
    cases ps with
    | nil => exact False.elim hxs
    | cons p ps =>
      obtain ⟨hp, hps⟩ := List.forall_mem_cons.1 hps
      rw [slotsOfItems_row hp hxs.1, List.map_cons, List.map_cons, ih hps hxs.2,
        (rowNodes_row hp hxs.1).1]

theorem length_of_showsAll (h : ShowsAll xs ps) : xs.length = ps.length := by
  induction xs generalizing ps with
  | nil =>
    cases ps with
    | nil => rfl
    | cons p ps => exact False.elim h
  | cons x xs ih =>
    cases ps with
    | nil => exact False.elim h
    | cons p ps => rw [List.length_cons, List.length_cons, ih h.2]

theorem showsAll_getElem? (h : ShowsAll xs ps) (j : Nat) :
    (xs[j]? = none ∧ ps[j]? = none) ∨ ∃ x p, xs[j]? = some x ∧ ps[j]? = some p ∧ x.Shows p := by
  induction xs generalizing ps j with
  | nil =>
    cases ps with
    | nil => exact .inl ⟨rfl, rfl⟩
    | cons p ps => exact False.elim h
  | cons x xs ih =>
    cases ps with
    | nil => exact False.elim h
    | cons p ps =>
      cases j with
      | zero => exact .inr ⟨x, p, rfl, rfl, h.1⟩
      | succ j => exact ih h.2 j

/-- Nodes of the rows stand in their order in runs, one for each row. -/
theorem exists_runs (hps : ∀ p ∈ ps, p.IsRow) (hxs : ShowsAll xs ps) :
    List.Forall₂ List.Sublist (xs.map rowNodes) ((plantsAll xs).map fun plants => plants.map Plant.id) := by
  induction xs generalizing ps with
  | nil => exact .nil
  | cons x xs ih =>
    cases ps with
    | nil => exact False.elim hxs
    | cons p ps =>
      obtain ⟨hp, hps⟩ := List.forall_mem_cons.1 hps
      rw [List.map_cons, plantsAll, List.map_cons]
      refine .cons ?_ (ih hps hxs.2)
      obtain ⟨i, roots, spots, holes, rfl, -⟩ := hp.exists_use hxs.1
      have hblock := sublist_of_isRow hp hxs.1 (List.mem_singleton_self i.block)
      rwa [rowNodes, blocks, pieces, List.map_singleton, List.flatMap_singleton]

end Exhibit

/-- Somewhere in a container the nodes of some rows stand side by side, row by row, each with what its holes add
to it. -/
def Document.HasRows (d : Document) (c : NodeId) (rows : List (List NodeId)) : Prop :=
  ∃ p front runs behind, d.Above p c ∧ d.children p = front ++ runs.flatten ++ behind ∧
    List.Forall₂ List.Sublist rows runs

/-- When some rows are followed by others, a row has the nodes that were at its position if those were of a row
for the same template, and only then; otherwise all of its nodes are new. -/
def Document.Succeeds (d : Document) (rows : List (List NodeId)) (items : List Value)
    (rows' : List (List NodeId)) (items' : List Value) : Prop :=
  rows'.length = items'.length ∧ ∀ (j : Nat) (nodes : List NodeId) (item : Value), rows'[j]? = some nodes → items'[j]? = some item →
    nodes ≠ [] ∧ (rows[j]? = some nodes ↔ ∃ old : Value, items[j]? = some old ∧ old.form? = item.form?) ∧
      (rows[j]? ≠ some nodes → ∀ n ∈ nodes, ¬ d.Has n)

theorem Document.Tables.hasRows {d : Document} {c n : NodeId} {i : Instance} {roots : List Plant}
    {b : ChildBinding} {space : Namespace} {template : Template} {compiled : Compiled} {ps : List Plan}
    {xs : List Exhibit} (h : d.Tables c n i roots b space template compiled ps xs) :
    d.HasRows c (xs.map rowNodes) := by
  obtain ⟨-, -, -, hall⟩ := of_shows_listing h.rows h.shows_
  obtain ⟨ps', row, front, q, behind, hready, halike, hrow, halike', rfl⟩ := h.exposes.exists_run
  have hforest := h.exposes.sound.forest
  obtain ⟨p, hp⟩ := hready.bears.of_row hrow
  have hchildren : d.children p = front.map Plant.id
      ++ ((plantsAll xs).map fun plants => plants.map Plant.id).flatten ++ (q :: behind).map Plant.id := by
    rw [hp.row p rfl, halike'.map_id, List.map_append, List.map_append, List.map_flatten]
  have hq : q.id ∈ d.children p := by
    rw [hchildren, List.map_cons]
    simp
  refine ⟨p, front.map Plant.id, _, _, ?_, hchildren, exists_runs h.rows hall⟩
  have hmem : q.id ∈ Plant.idsAll ps' := by
    refine hrow.ids_subset (Document.mem_idsAll_of_mem_map ?_)
    rw [← hp.row p rfl]
    exact hq
  obtain ⟨p', hp', habove⟩ := hready.bears.parent_above hforest hmem
  rw [hforest.parent_of_mem hq] at hp'
  obtain rfl := Option.some.inj hp'
  exact habove

/-! ### Rendering -/

namespace Renderer

variable {r : Renderer} {container n : NodeId} {space : Namespace} {template : Template}
  {path : List Nat} {items items' : List Value} {i : Instance} {roots : List Plant} {b : ChildBinding}
  {xs : List Exhibit}

/-- The nodes of the rows that a container shows in a list, as its slots remember them. -/
def rowsOf (r : Renderer) (container : NodeId) : List (List NodeId) :=
  (r.cacheOf container).slots.map fun slot => slot.instances.flatMap fun i => i.block.nodes

/-- A container shows a list of rows in the one hole of a template, and remembers that. -/
structure Lists (r : Renderer) (container n : NodeId) (i : Instance) (roots : List Plant) (b : ChildBinding)
    (space : Namespace) (template : Template) (items : List Value) (xs : List Exhibit) : Prop where
  catalogue : r.catalogue.Sound
  rows : ∀ v ∈ items, v.IsRow
  tables : r.document.Tables container n i roots b space template (template.compilation space).compiled
    (Value.toPlans items) xs
  cache : r.cacheOf container = (listing i roots (.child b, .child n []) xs).cache

namespace Lists

variable (h : r.Lists container n i roots b space template items xs)
include h

theorem showsAll : ShowsAll xs (Value.toPlans items) :=
  (of_shows_listing h.tables.rows h.tables.shows_).2.2.2

theorem rowsOf_eq : r.rowsOf container = xs.map rowNodes := by
  rw [rowsOf, h.cache, cache_listing]
  exact map_rowNodes h.tables.rows h.showsAll

/-- What is on show is what the last list comes to. -/
theorem content (hv : (Value.invocation space template [.list items]).Fits) :
    Tree.AlikeAll (r.document.content container)
      (Value.invocation space template [.list items]).toPlan.content := by
  obtain ⟨ps, hready, halike⟩ := h.tables.exposes.ready
  have hfits := hv.toPlan
  rw [Value.toPlan, Value.toPlans, Value.toPlan, Value.toPlans] at hfits ⊢
  rw [hready.bears.content hready.sound.forest, ← trees_plants h.tables.shows_ hfits]
  exact halike.trees

/-- All nodes of the rows on show are there. -/
theorem has {x : Exhibit} (hx : x ∈ xs) : ∀ m ∈ x.rowNodes, r.document.Has m := by
  intro m hm
  obtain ⟨block, hblock, hm⟩ := List.mem_flatMap.1 hm
  have hproper := h.tables.exposes.proper.items
  have hmem := blocks_subset_nodes h.tables.rows h.showsAll hproper
    (List.mem_flatMap.2 ⟨x, hx, hblock⟩) hm
  refine h.tables.exposes.has_self m ?_
  rw [nodes_listing]
  exact List.mem_append_left _ (List.mem_append_right _ hmem)

theorem rowNodes_getElem? {j : Nat}
    {nodes : List NodeId} (hj : (r.rowsOf container)[j]? = some nodes) :
    ∃ x v, xs[j]? = some x ∧ items[j]? = some v ∧ x.Shows v.toPlan ∧ v.IsRow ∧ nodes = x.rowNodes := by
  rw [h.rowsOf_eq, List.getElem?_map, Option.map_eq_some_iff] at hj
  obtain ⟨x, hx, rfl⟩ := hj
  rcases showsAll_getElem? h.showsAll j with ⟨hnone, -⟩ | ⟨y, p, hy, hp, hyp⟩
  · rw [hnone] at hx
    cases hx
  · obtain rfl := Option.some.inj (hx.symm.trans hy)
    rw [Value.toPlans_eq_map, List.getElem?_map, Option.map_eq_some_iff] at hp
    obtain ⟨v, hv, rfl⟩ := hp
    exact ⟨x, v, hx, hv, hyp, h.rows v (List.mem_of_getElem? hv), rfl⟩

theorem length_rowsOf :
    (r.rowsOf container).length = items.length := by
  rw [h.rowsOf_eq, List.length_map, length_of_showsAll h.showsAll, Value.toPlans_eq_map, List.length_map]

/-- Where another list of rows is shown, its rows succeed those that were there. -/
theorem succeeds_of_turnover {r' : Renderer} {b' : ChildBinding} {zs l ys : List Exhibit}
    (h' : r'.Lists container n i roots b' space template items' zs)
    (hturn : Turnover r.document (Value.toPlans items) xs (Value.toPlans items') zs l ys) :
    r.document.Succeeds (r.rowsOf container) items (r'.rowsOf container) items' := by
  refine ⟨h'.length_rowsOf, fun j nodes item hnodes hitem => ?_⟩
  obtain ⟨z, v, hz, hv, hshows, hrow, rfl⟩ := h'.rowNodes_getElem? hnodes
  obtain rfl := Option.some.inj (hv.symm.trans hitem)
  have hnonempty := (rowNodes_row hrow.toPlan hshows).2
  obtain ⟨p, hp, hcases⟩ := hturn.getElem? hz
  rw [Value.toPlans_eq_map, List.getElem?_map, hv] at hp
  obtain rfl := Option.some.inj hp
  refine ⟨hnonempty, ?_⟩
  rcases hcases with ⟨q, x, hq, hx, hform, hblocks⟩ | ⟨hform, hnew⟩
  · rw [Value.toPlans_eq_map, List.getElem?_map, Option.map_eq_some_iff] at hq
    obtain ⟨old, hold, rfl⟩ := hq
    have hsame : (r.rowsOf container)[j]? = some z.rowNodes := by
      rw [h.rowsOf_eq, List.getElem?_map, hx, Option.map_some, rowNodes, rowNodes, hblocks]
    rw [(h.rows old (List.mem_of_getElem? hold)).form?_toPlan, hrow.form?_toPlan] at hform
    exact ⟨⟨fun _ => ⟨old, hold, hform⟩, fun _ => hsame⟩, fun hne => absurd hsame hne⟩
  · have hall := rowNodes_new hrow.toPlan hshows hnew
    refine ⟨⟨fun hsame => ?_, ?_⟩, fun _ => hall⟩
    · obtain ⟨x, -, hx, -, -, -, heq⟩ := h.rowNodes_getElem? hsame
      obtain ⟨m, hm⟩ := List.exists_mem_of_ne_nil _ hnonempty
      exact absurd (h.has (List.mem_of_getElem? hx) m (heq ▸ hm)) (hall m hm)
    · rintro ⟨old, hold, heq⟩
      refine absurd ?_ (hform old.toPlan (by rw [Value.toPlans_eq_map, List.getElem?_map, hold]; rfl))
      rw [(h.rows old (List.mem_of_getElem? hold)).form?_toPlan, hrow.form?_toPlan]
      exact heq

/-- Another list of rows is rendered into a container that shows one. -/
theorem render_next
    (hv : (Value.invocation space template [.list items']).Fits) (hitems : ∀ v ∈ items', v.IsRow) :
    ∃ r' b' zs, r.render container (.invocation space template [.list items']) = (.ok (), r') ∧
      r'.Lists container n i roots b' space template items' zs ∧
      r.document.Succeeds (r.rowsOf container) items (r'.rowsOf container) items' := by
  obtain ⟨catalogue, hplan, hcatalogue⟩ := Catalogue.planUse_eq hv h.catalogue
  rw [Value.toPlans, Value.toPlan, Value.toPlans] at hplan
  have hcontainer : container ∈ ((r.custody container none).holding
      (Value.invocation space template [.list items']).held).nodes :=
    List.mem_append_right _ (List.mem_append_left _ (List.mem_append_left _ (List.mem_singleton_self _)))
  obtain ⟨b', zs, l, ys, d', hrealize, htables, hturn, -⟩ :=
    Cache.realize_rows _ h.tables (Value.isRow_toPlans hitems) hcontainer
  have h' : (({ r with catalogue, document := d' } : Renderer).setCacheOf container
      (listing i roots (.child b', .child n []) zs).cache).Lists container n i roots b' space template items'
        zs := ⟨hcatalogue, hitems, htables, cacheOf_setCacheOf ..⟩
  refine ⟨_, b', zs, ?_, h', h.succeeds_of_turnover h' hturn⟩
  rw [render]
  dsimp only
  rw [hplan]
  dsimp only
  rw [h.cache, hrealize]
  dsimp only
  rw [mount, if_pos (by rw [cache_listing])]

end Lists

/-- A template with one hole inside an element, and a list of rows for it. -/
theorem fits_listing (complete : (template.compilation space).isComplete = true)
    (hholes : (template.compilation space).compiled.holes = [⟨.child, path⟩]) (hpath : 2 ≤ path.length)
    (hitems : ∀ v ∈ items, v.IsRow) : (Value.invocation space template [.list items]).Fits := by
  refine .invocation complete ((template.coherent_compilation space).plain_of_inside ?_) ?_ ?_ ?_
  · rw [hholes]
    exact List.forall_mem_singleton.2 ⟨rfl, hpath⟩
  · rw [hholes]
    rfl
  · exact List.forall_mem_singleton.2 (Value.fits_rows hitems)
  · rw [hholes]
    exact List.forall_mem_singleton.2 fun hkind => absurd rfl hkind

/-- A list of rows is rendered where nothing has been shown. -/
theorem lists_render (hr : r.Sound) (hhas : r.document.Has container)
    (helement : r.document.isElement container = true)
    (hcache : r.containers.lookup container = none)
    (hv : (Value.invocation space template [.list items]).Fits)
    (hholes : (template.compilation space).compiled.holes = [⟨.child, path⟩])
    (hitems : ∀ v ∈ items, v.IsRow) :
    ∃ r' n i roots b xs, r.render container (.invocation space template [.list items]) = (.ok (), r') ∧
      r'.Lists container n i roots b space template items xs ∧
      r.document.Succeeds (r.rowsOf container) [] (r'.rowsOf container) items := by
  obtain ⟨r', n, i, roots, b, xs, hrender, hcatalogue, htables, hcached, hnew⟩ :=
    tables_render hr hhas helement hcache hv hholes (Value.isRow_toPlans hitems)
  have h : r'.Lists container n i roots b space template items xs := ⟨hcatalogue, hitems, htables, hcached⟩
  have hempty : r.rowsOf container = [] := by
    rw [rowsOf, cacheOf, hcache]
    rfl
  refine ⟨r', n, i, roots, b, xs, hrender, h, h.length_rowsOf, fun j nodes item hnodes hitem => ?_⟩
  obtain ⟨x, v, hx, hv, hshows, hrow, rfl⟩ := h.rowNodes_getElem? hnodes
  refine ⟨(rowNodes_row hrow.toPlan hshows).2, ?_, fun _ m hm => ?_⟩
  · rw [hempty]
    constructor
    · rintro ⟨⟩
    · rintro ⟨old, ⟨⟩, -⟩
  · obtain ⟨block, hblock, hm⟩ := List.mem_flatMap.1 hm
    exact hnew block (List.mem_flatMap.2 ⟨x, List.mem_of_getElem? hx, hblock⟩) m hm

/-- Lists of rows are rendered one after another into a container that shows one. -/
theorem Lists.renderEach (h : r.Lists container n i roots b space template items xs)
    (complete : (template.compilation space).isComplete = true)
    (hholes : (template.compilation space).compiled.holes = [⟨.child, path⟩]) (hpath : 2 ≤ path.length)
    {lists : List (List Value)} (hlists : ∀ items ∈ lists, ∀ v ∈ items, v.IsRow) :
    ∃ r' b' zs, r.renderEach container (lists.map fun items => .invocation space template [.list items])
        = (.ok (), r') ∧ r'.Lists container n i roots b' space template (lists.getLastD items) zs := by
  induction lists generalizing r items b xs with
  | nil => exact ⟨r, b, xs, rfl, h⟩
  | cons next lists ih =>
    obtain ⟨hnext, hlists⟩ := List.forall_mem_cons.1 hlists
    obtain ⟨r', b', zs, hrender, h', -⟩ := h.render_next (fits_listing complete hholes hpath hnext) hnext
    obtain ⟨r'', b'', zs', heach, h''⟩ := ih h' hlists
    refine ⟨r'', b'', zs', ?_, by rwa [List.getLastD_cons]⟩
    rw [List.map_cons, Renderer.renderEach, hrender]
    exact heach

/-- Lists of rows are rendered one after another, in the one hole of a template inside an element, into a
container in which nothing has been shown. Whatever lists there were before, the next one is shown as a first
render of it is, but for the order of attributes; its rows stand side by side in the container; and the nodes of
a row are those that were at its position if the list before was long enough and had a row for the same template
there, and only then. Otherwise they are new. -/
theorem renderEach_rows (hr : r.Sound) (hhas : r.document.Has container)
    (helement : r.document.isElement container = true)
    (hcache : r.containers.lookup container = none)
    (complete : (template.compilation space).isComplete = true)
    (hholes : (template.compilation space).compiled.holes = [⟨.child, path⟩]) (hpath : 2 ≤ path.length)
    {lists : List (List Value)} (hlists : ∀ items ∈ lists, ∀ v ∈ items, v.IsRow)
    (hitems : ∀ v ∈ items, v.IsRow) :
    ∃ r₁ r₂ r₃, r.renderEach container (lists.map fun items => .invocation space template [.list items])
        = (.ok (), r₁) ∧
      r₁.render container (.invocation space template [.list items]) = (.ok (), r₂) ∧
      r.render container (.invocation space template [.list items]) = (.ok (), r₃) ∧
      Tree.AlikeAll (r₂.document.content container) (r₃.document.content container) ∧
      r₂.document.HasRows container (r₂.rowsOf container) ∧
      r₁.document.Succeeds (r₁.rowsOf container) (lists.getLastD []) (r₂.rowsOf container) items := by
  have hv := fits_listing complete hholes hpath hitems
  obtain ⟨r₃, hrender₃, -, -, hcontent₃⟩ := render_content hr hhas helement hcache hv ⟨_, _, _, rfl⟩
  obtain ⟨r₁, r₂, n, i, roots, b, xs, heach, hrender, h, hsucceeds⟩ : ∃ r₁ r₂ n i roots b xs,
      r.renderEach container (lists.map fun items => .invocation space template [.list items])
        = (.ok (), r₁) ∧
      r₁.render container (.invocation space template [.list items]) = (.ok (), r₂) ∧
      r₂.Lists container n i roots b space template items xs ∧
      r₁.document.Succeeds (r₁.rowsOf container) (lists.getLastD []) (r₂.rowsOf container) items := by
    cases lists with
    | nil =>
      obtain ⟨r₂, n, i, roots, b, xs, hrender, h, hsucceeds⟩ :=
        lists_render hr hhas helement hcache hv hholes hitems
      exact ⟨r, r₂, n, i, roots, b, xs, rfl, hrender, h, hsucceeds⟩
    | cons first lists =>
      obtain ⟨hfirst, hlists⟩ := List.forall_mem_cons.1 hlists
      obtain ⟨r', n, i, roots, b, xs, hrender', h', -⟩ :=
        lists_render hr hhas helement hcache (fits_listing complete hholes hpath hfirst) hholes hfirst
      obtain ⟨r₁, b₁, xs₁, heach, h₁⟩ := h'.renderEach complete hholes hpath hlists
      obtain ⟨r₂, b₂, xs₂, hrender, h₂, hsucceeds⟩ := h₁.render_next hv hitems
      refine ⟨r₁, r₂, n, i, roots, b₂, xs₂, ?_, hrender, h₂, by rwa [List.getLastD_cons]⟩
      rw [List.map_cons, Renderer.renderEach, hrender']
      exact heach
  refine ⟨r₁, r₂, r₃, heach, hrender, hrender₃, ?_, ?_, hsucceeds⟩
  · rw [hcontent₃]
    exact h.content hv
  · rw [h.rowsOf_eq]
    exact h.tables.hasRows

/-- Two rows of one node each, then one of them and a row of two nodes, then nothing but the second of the
first two. -/
theorem renderEach_rows_changing :
    let bold := paragraph.item
    let pair : Value := .invocation .html ⟨2, ["<i></i><u>", "</u>"]⟩ [.null]
    let outer : List Value → Value := fun items => .invocation .html ⟨3, ["<ul>", "</ul>"]⟩ [.list items]
    ∃ r₁ r₂ r₃, oneElement.renderEach ⟨0⟩ [outer [bold "x", bold "y"], outer [bold "z", pair]]
        = (.ok (), r₁) ∧
      r₁.render ⟨0⟩ (outer [bold "y"]) = (.ok (), r₂) ∧
      oneElement.render ⟨0⟩ (outer [bold "y"]) = (.ok (), r₃) ∧
      Tree.AlikeAll (r₂.document.content ⟨0⟩) (r₃.document.content ⟨0⟩) ∧
      r₁.document.Succeeds (r₁.rowsOf ⟨0⟩) [bold "z", pair] (r₂.rowsOf ⟨0⟩) [bold "y"] := by
  intro bold pair outer
  have hholes : (Template.compilation .html ⟨3, ["<ul>", "</ul>"]⟩).compiled.holes
      = [⟨.child, [0, 0]⟩] := by decide +kernel
  have hpairholes : (Template.compilation .html ⟨2, ["<i></i><u>", "</u>"]⟩).compiled.holes
      = [⟨.child, [1, 0]⟩] := by decide +kernel
  have hboldholes : (Template.compilation .html ⟨1, ["<b>", "</b>"]⟩).compiled.holes
      = [⟨.child, [0, 0]⟩] := by decide +kernel
  have hbold : ∀ text, (bold text).IsRow := by
    intro text
    refine .invocation (fits_item text) (List.forall_mem_singleton.2 (.inr rfl)) ⟨by decide +kernel, ?_⟩
    rw [hboldholes]
    exact List.forall_mem_singleton.2 fun _ he => by cases he
  have hpair : pair.IsRow := by
    refine .invocation (.invocation (by decide +kernel) (by decide +kernel) ?_ ?_ ?_)
      (List.forall_mem_singleton.2 (.inl rfl)) ⟨by decide +kernel, ?_⟩
    · rw [hpairholes]
      rfl
    · exact List.forall_mem_singleton.2 (.plain (.inl rfl))
    · rw [hpairholes]
      exact List.forall_mem_singleton.2 fun hkind => absurd rfl hkind
    · rw [hpairholes]
      exact List.forall_mem_singleton.2 fun _ he => by cases he
  have hlists : ∀ items ∈ [[bold "x", bold "y"], [bold "z", pair]], ∀ v ∈ items, v.IsRow := by
    simp [hbold, hpair]
  have hitems : ∀ v ∈ [bold "y"], v.IsRow := by simp [hbold]
  obtain ⟨r₁, r₂, r₃, heach, hrender, hfirst, halike, -, hsucceeds⟩ := renderEach_rows sound_oneElement
    (show oneElement.document.Has ⟨0⟩ by decide) (by decide) rfl (by decide +kernel) hholes (by decide)
    hlists hitems
  exact ⟨r₁, r₂, r₃, heach, hrender, hfirst, halike, hsucceeds⟩

end Renderer

end LiveMarkup
