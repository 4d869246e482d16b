import LiveMarkup.Proofs.Rendering.Relisting
import LiveMarkup.Proofs.Rendering.SecondRender
/-!
# A list that is shown again

A container shows a list of rows in the one hole of a template, and nothing is left in the fragments that the
rows were made in (`Document.Tables`). When another list of rows is shown there, the rows are gone through, and
the blocks of those that come out of it are put in the place of the old ones (`Cache.realize_rows`): afterwards
the container shows the new list in the same way, so the next one can be shown.
-/

namespace LiveMarkup

open Exhibit

namespace Plan.IsRow

variable {ps : List Plan}

theorem exists_headed (h : ∀ p ∈ ps, p.IsRow) : ∀ p ∈ ps, ∃ space template compiled holes,
    p = .use space template compiled holes ∧ compiled.Headed := by
  intro p hp
  cases h p hp with
  | use _ hheaded => exact ⟨_, _, _, _, rfl, hheaded⟩

/-- A list of rows fits into a hole. -/
theorem fits_list (h : ∀ p ∈ ps, p.IsRow) : (Plan.list ps).Fits := by
  refine .list (fun p hp => (h p hp).fits) fun p hp => ?_
  obtain ⟨space, template, compiled, holes, hp, -⟩ := exists_headed h p hp
  exact ⟨space, template, compiled, holes, hp⟩

theorem primitive? (h : ∀ p ∈ ps, p.IsRow) : (Plan.list ps).primitive? = none :=
  (Plan.Headed.list (exists_headed h)).primitive?

end Plan.IsRow

namespace Exhibit

variable {i : Instance} {roots : List Plant} {b b' : ChildBinding} {n : NodeId} {xs zs : List Exhibit}
  {ps qs : List Plan} {space : Markup.Namespace} {template : Template} {compiled : Compiled}

theorem blocks_list (xs : List Exhibit) : (list xs).blocks = xs.flatMap blocks := by
  rw [blocks, pieces, map_fst_piecesAll]

theorem cache_listing (i : Instance) (roots : List Plant) (e : Binding × Spot) (xs : List Exhibit) :
    (listing i roots e xs).cache = ⟨[{ i with bindings := [e.1] }], slotsOfItems xs, some i.block⟩ := by
  rw [cache, listing, seated, instances, instancesAll, instancesAll, instances, slots, slotsAll, slotsAll,
    slots, List.append_nil, List.append_nil]
  rfl

/-- What is known of a use in whose hole a list of rows is shown. -/
theorem of_shows_listing (hps : ∀ p ∈ ps, p.IsRow)
    (h : (listing i roots (.child b, .child n []) xs).Shows (.use space template compiled [.list ps])) :
    i.isOf space template = true ∧ b.shown = none ∧ b.entries = xs.flatMap blocks ∧ ShowsAll xs ps := by
  obtain ⟨hspace, htemplate, -, -, -, -, hshown, hall, -⟩ := h
  generalize compiled.holes = holes at hshown
  cases hshown with
  | cons hat hshown _ hrest =>
    obtain ⟨hprimitive, hblocks⟩ := hshown
    rw [Plan.IsRow.primitive? hps] at hprimitive hblocks
    refine ⟨?_, ?_, hblocks.1.trans (blocks_list xs), hall⟩
    · exact Instance.isOf_of_eq hspace htemplate
    · generalize b.shown = shown at hprimitive
      cases hprimitive
      rfl

/-- A use shows another list of rows when its binding remembers the blocks of that list. -/
theorem Shows.listing (hqs : ∀ q ∈ qs, q.IsRow)
    (h : (listing i roots (.child b, .child n []) xs).Shows (.use space template compiled [.list ps]))
    (hshown : b'.shown = none) (hentries : b'.entries = zs.flatMap blocks) (hzs : ShowsAll zs qs) :
    (Exhibit.listing i roots (.child b', .child n []) zs).Shows
      (.use space template compiled [.list qs]) := by
  obtain ⟨hspace, htemplate, htops, htrees, hnd, hlength, hholes, -⟩ := h
  refine ⟨hspace, htemplate, htops, htrees, hnd, hlength, ?_, hzs, trivial⟩
  generalize compiled.holes = holes at hholes ⊢
  cases hholes with
  | cons hat _ hleaf hrest =>
    cases hrest
    refine .cons (at_of_child hat) ⟨?_, ?_⟩ (fun hkind => ?_) .nil
    · rw [Plan.IsRow.primitive? hqs, hshown]
      exact .none
    · rw [Plan.IsRow.primitive? hqs]
      exact ⟨hentries.trans (blocks_list zs).symm, rfl⟩
    · obtain ⟨v, hv⟩ := hleaf hkind
      cases hv

end Exhibit

namespace Document

variable {d : Document} {c n : NodeId} {fixed emptied : List NodeId} {i : Instance} {roots : List Plant}
  {b : ChildBinding} {l ys : List Exhibit} {z : Exhibit} {p : Plan}

/-- The block of a row spans what the row comes to, in its place or beside it. -/
theorem Exposes.spans_row (g : d.Exposes c fixed ⟨ys, emptied⟩ (listing i roots (.child b, .child n []) l))
    (hz : z ∈ l ++ ys) (hp : p.IsRow) (hzp : z.Shows p) : ∀ y ∈ z.pieces, y.1.Spans (y.2.map Plant.id) := by
  refine Exhibit.spans_row hp hzp ?_
  rcases List.mem_append.1 hz with hz | hz
  · exact (g.nodup_item hz).sublist (Plant.sublist_idsAll _)
  · obtain ⟨j, tops, spots, holes, rfl, -⟩ := hp.exists_use hzp
    obtain ⟨ps, hready, -⟩ := g.ready
    have hmem : (j.block, (use j tops spots holes).plants) ∈ piecesAll ys := by
      rw [piecesAll_eq, List.mem_flatMap]
      exact ⟨_, hz, List.mem_singleton_self _⟩
    exact (hready.loose _ hmem).nodup hready.sound.forest

/-- A node has a use as its content in whose one hole a list of rows is shown, and nothing is left in the
fragments that the rows were made in. -/
structure Tables (d : Document) (c n : NodeId) (i : Instance) (roots : List Plant) (b : ChildBinding)
    (space : Markup.Namespace) (template : Template) (compiled : Compiled) (ps : List Plan)
    (xs : List Exhibit) : Prop where
  exposes : d.Exposes c [] ⟨[], fragmentsAll xs⟩ (listing i roots (.child b, .child n []) xs)
  nodup : (fragmentsAll xs).Nodup
  shows_ : (listing i roots (.child b, .child n []) xs).Shows (.use space template compiled [.list ps])
  rows : ∀ p ∈ ps, p.IsRow

section Fill

variable {d₁ : Document} {ps qs : List Plan} {xs zs : List Exhibit}

/-- When the rows have been gone through, the binding of the hole shows the new list. -/
theorem Exposes.update_rows
    (g : d₁.Exposes c [] ⟨ys, fragmentsAll xs⟩ (listing i roots (.child b, .child n []) l))
    (hturn : Turnover d ps xs qs zs l ys) (hxs : ∀ x ∈ xs, ∀ y ∈ x.pieces, y.1.Spans (y.2.map Plant.id))
    (hqs : ∀ q ∈ qs, q.IsRow) (hzs : ShowsAll zs qs) (hnodup : (fragmentsAll xs).Nodup)
    (hshown : b.shown = none) (hentries : b.entries = xs.flatMap blocks) :
    ∃ d', b.update d₁ (.list (results zs)) = ({ b with entries := zs.flatMap blocks }, d') ∧ d₁.Grows d' ∧
      d'.Exposes c [] ⟨[], fragmentsAll zs⟩
        (listing i roots (.child { b with entries := zs.flatMap blocks }, .child n []) zs) ∧
      (fragmentsAll zs).Nodup := by
  obtain ⟨rest, hperm⟩ := hturn.perm
  have hspans := hturn.spans hxs fun z hz => by
    obtain ⟨q, hq, hzq⟩ := exists_shows hzs hz
    exact g.spans_row (hperm.mem_iff.2 (List.mem_append_left _ hz)) (hqs q hq) hzq
  have hfragments := fragmentsAll_congr hturn.blocks_eq
  have hl : xs.flatMap blocks = l.flatMap blocks := by
    rw [List.flatMap_def, List.flatMap_def, hturn.blocks_eq]
  have hsame : { b with shown := none } = b := by rw [← hshown]
  rw [← Exhibit.result, ChildBinding.update_result b d₁ (show (list zs).Shows (.list qs) from hzs)
    (Plan.IsRow.fits_list hqs), Plan.IsRow.primitive? hqs, blocks_list]
  dsimp only
  rw [hsame]
  exact g.relist hspans (hfragments ▸ List.Subset.refl _) (hfragments ▸ hnodup) (hentries.trans hl)
    (proper_of_shows.2 zs qs hzs fun q hq => (hqs q hq).fits) hperm hturn.common_blocks

end Fill

end Document

/-- A use of a template with one hole in which a list is shown. -/
theorem Level.use_list {level level₀ level₁ : Level} {custody : Custody} {i : Instance}
    {b b' : ChildBinding} {space : Markup.Namespace} {template : Template} (compiled : Compiled)
    {ps : List Plan} {vs : List Value} {d : Document}
    (htake : level.take space template compiled = (i, level₀)) (hof : i.isOf space template = true)
    (hbindings : i.bindings = [.child b])
    (hrealize : realizeItems (custody.holding i.held) level₀ ps = ⟨vs, [], level₁⟩)
    (hupdate : b.update level₁.document (.list vs) = (b', d)) :
    (level.use custody space template compiled fun custody level => realizeAll custody level [.list ps])
      = ⟨i.block, [{ i with bindings := [.child b'] }], { level₁ with document := d }.release
          ((custody.holding []).holding i.block.held) (Binding.child b').held⟩ := by
  have hinner : realizeAll (custody.holding i.held) level₀ [.list ps] = ⟨[.list vs], [], level₁⟩ := by
    rw [realizeAll, realizeAll, Plan.realize, hrealize]
    rfl
  rw [Level.use, htake]
  dsimp only
  rw [hinner]
  dsimp only
  rw [Level.fit, if_pos hof, hbindings]
  dsimp only
  rw [fill, Binding.update, hupdate]
  dsimp only
  rw [fill, List.flatMap_nil, List.flatMap_nil, List.append_nil]
  exact fun _ _ _ _ he => by cases he

/-- With a cache that remembers such a use, it is brought up to date, and all that is not remembered any more is
let go of. -/
theorem Cache.realize_list (custody : Custody) {i : Instance} {slots newSlots rest : List Cache}
    {b b' : ChildBinding} {space : Markup.Namespace} {template : Template} (compiled : Compiled)
    {ps : List Plan} {vs : List Value} {d d₁ d₂ : Document} (hof : i.isOf space template = true)
    (hbindings : i.bindings = [.child b])
    (hrealize : realizeItems ((custody.holding i.block.held).holding i.held) ⟨[], slots, [], d⟩ ps
      = ⟨vs, [], ⟨[], rest, newSlots.reverse, d₁⟩⟩)
    (hupdate : b.update d₁ (.list vs) = (b', d₂)) :
    ∃ first last : Custody,
      (⟨[i], slots, some i.block⟩ : Cache).realize custody d ⟨space, template, compiled, [.list ps]⟩
        = (i.block, ⟨[{ i with bindings := [.child b'] }], newSlots, some i.block⟩,
          (d₂.release first).release last) ∧
      ∀ kept ∈ [first, last],
        custody.nodes ++ (Binding.child b').held ++ heldBySlots newSlots ⊆ kept.nodes := by
  have htake : Level.take ⟨[i], slots, [], d⟩ space template compiled = (i, ⟨[], slots, [], d⟩) := rfl
  have huse := Level.use_list compiled htake hof hbindings hrealize hupdate
  refine ⟨(((custody.holding i.block.held).holding []).holding i.block.held).holding
      ((Binding.child b').held ++ Level.held ⟨[], rest, newSlots.reverse, d₂⟩),
    (custody.holding i.block.held).holding
      (Cache.held ⟨[{ i with bindings := [.child b'] }], newSlots, some i.block⟩), ?_, ?_⟩
  · rw [Cache.realize]
    dsimp only [Option.elim]
    rw [huse]
    dsimp only
    rw [Level.close, Level.release]
    dsimp only
    rw [List.reverse_reverse]
  simp only [List.mem_cons, List.not_mem_nil, or_false, forall_eq_or_imp, forall_eq]
  constructor <;> intro m hm <;> simp only [List.mem_append] at hm
  · simp only [Custody.holding, List.mem_append, Level.mem_held_mk, mem_heldBySlots_reverse]
    tauto
  · have hself : m ∈ (Binding.child b').held → m ∈ ({ i with bindings := [.child b'] } : Instance).held := by
      simp only [Instance.held, List.flatMap_singleton, List.mem_append]
      exact .inr
    simp only [Custody.holding, Cache.held, List.flatMap_singleton, List.mem_append]
    tauto

section Realize

variable {d : Document} {c n : NodeId} {i : Instance} {roots : List Plant} {b : ChildBinding}
  {space : Markup.Namespace} {template : Template} {compiled : Compiled} {ps qs : List Plan}
  {xs zs : List Exhibit} {custody : Custody}

/-- Whatever is remembered of a list of rows is held by its cache. -/
theorem Document.Exposes.release_rows (g : d.Exposes c [] ⟨[], fragmentsAll zs⟩
      (listing i roots (.child b, .child n []) zs)) (hentries : b.entries = zs.flatMap blocks)
    (hc : c ∈ custody.nodes) (hself : (Binding.child b).held ⊆ custody.nodes)
    (hslots : heldBySlots (slotsOfItems zs) ⊆ custody.nodes) :
    (d.release custody).Exposes c [] ⟨[], fragmentsAll zs⟩ (listing i roots (.child b, .child n []) zs) := by
  have hfragments : fragmentsAll zs ⊆ (Binding.child b).held := by
    rw [fragmentsAll, ← hentries]
    exact Binding.fragments_held b
  refine (g.release hc (Stock.held_subset.2 ⟨⟨List.forall_mem_nil _, List.forall_mem_nil _⟩,
    List.Subset.trans hfragments hself⟩) fun e he => ?_).1
  rw [entries_listing, List.mem_cons] at he
  rcases he with rfl | he
  · exact hself
  · exact List.Subset.trans (entries_held.2 zs e he).2 hslots

/-- With the cache of a list of rows, another list of rows is shown. -/
theorem Cache.realize_rows (custody : Custody) (h : d.Tables c n i roots b space template compiled ps xs)
    (hqs : ∀ q ∈ qs, q.IsRow) (hc : c ∈ custody.nodes) :
    ∃ (b' : ChildBinding) (zs l ys : List Exhibit) (d' : Document),
      (listing i roots (.child b, .child n []) xs).cache.realize custody d
          ⟨space, template, compiled, [.list qs]⟩
        = (i.block, (listing i roots (.child b', .child n []) zs).cache, d') ∧
      d'.Tables c n i roots b' space template compiled qs zs ∧ Turnover d ps xs qs zs l ys ∧ d.Grows d' := by
  obtain ⟨hof, hshown, hentries, hall⟩ := of_shows_listing h.rows h.shows_
  have hbinding : (Binding.child b).held ⊆ ({ i with bindings := [.child b] } : Instance).held := by
    simp [Instance.held]
  have hfragments : fragmentsAll xs ⊆ (Binding.child b).held := by
    rw [fragmentsAll, ← hentries]
    exact Binding.fragments_held b
  have hstart : Midway ((custody.holding i.block.held).holding
      ({ i with bindings := [.child b] } : Instance).held) c n [] (fragmentsAll xs) i roots b d ps xs [] [] [] d :=
    { root := List.mem_append_right _ (List.mem_append_right _ hc)
      binding := List.Subset.trans hbinding (List.subset_append_left ..)
      rows := h.rows
      shows := hall
      grows := .refl d
      exposes := h.exposes
      held := List.forall_mem_nil _
      stock := Stock.held_subset.2 ⟨⟨List.forall_mem_nil _, List.forall_mem_nil _⟩,
        List.subset_append_of_subset_left _ (List.subset_append_of_subset_left _
          (List.Subset.trans hfragments hbinding))⟩ }
  obtain ⟨zs, l, ys, d₁, hturn, hzs, hrealize, g, hgrown⟩ := hstart.turnsOver hqs
  have hspans : ∀ x ∈ xs, ∀ y ∈ x.pieces, y.1.Spans (y.2.map Plant.id) := fun x hx => by
    obtain ⟨p, hp, hxp⟩ := exists_shows hall hx
    exact h.exposes.spans_row (List.mem_append_left _ hx) (h.rows p hp) hxp
  obtain ⟨d₂, hupdate, hgrown', g', hnd⟩ := g.update_rows hturn hspans hqs hzs h.nodup hshown hentries
  rw [List.append_nil] at hrealize
  obtain ⟨first, last, hcache, hkept⟩ := Cache.realize_list custody compiled
    (i := { i with bindings := [.child b] }) hof rfl hrealize hupdate
  obtain ⟨hfirst, hlast⟩ : _ ∧ _ := ⟨hkept first (by simp), hkept last (by simp)⟩
  rw [List.append_subset, List.append_subset] at hfirst hlast
  refine ⟨{ b with entries := zs.flatMap Exhibit.blocks }, zs, l, ys, (d₂.release first).release last, ?_,
    ⟨?_, hnd, h.shows_.listing hqs hshown rfl hzs, hqs⟩, hturn, (hgrown.trans hgrown').trans
      ((Document.evolves_release ..).grows.trans (Document.evolves_release ..).grows)⟩
  · rw [cache_listing, cache_listing]
    exact hcache
  · exact (g'.release_rows rfl (hfirst.1.1 hc) hfirst.1.2 hfirst.2).release_rows rfl (hlast.1.1 hc) hlast.1.2
      hlast.2

end Realize

end LiveMarkup
