import LiveMarkup.Proofs.Rendering.Continuity
/-!
# The next value in a container

A value of the same shape as the one on show is rendered without compiling anything and without making
anything anew (`Renderer.render_again`). What comes out is what a first render of it gives, while whatever
is not a text stays where it is, and so do the nodes of each instance; at most two changes are counted for
each primitive or null that is not the same as before (`Renderer.render_same_shape`).
-/

namespace LiveMarkup

open Exhibit
open Markup (Tree)

/-- With the cache of an exhibit, a use of a template that differs in values alone is brought up to
date. -/
theorem Cache.realize_again {x : Exhibit} {space : Markup.Namespace} {template : Template}
    {compiled : Compiled} {ps ps' : List Plan} {d : Document} {c : NodeId} {fixed : List NodeId}
    (custody : Custody) (hx : x.Shows (.use space template compiled ps)) (hlike : Plan.LikeAll ps ps')
    (hfits : (Plan.use space template compiled ps).Fits)
    (hfits' : (Plan.use space template compiled ps').Fits) (g : d.Exposes c fixed .none x)
    (hc : c ∈ custody.nodes) :
    ∃ x' block d', x'.Shows (.use space template compiled ps') ∧
      x.cache.realize custody d ⟨space, template, compiled, ps'⟩ = (block, x'.cache, d') ∧
      x'.cache.root = some block ∧ d.Renews d' c fixed .none x' (Plan.changesAll ps ps') ∧
      x.SameBlocks x' := by
  generalize hcustody : custody.holding (x.cache.root.elim [] Block.held) = custody'
  have hc' : c ∈ custody'.nodes := by
    rw [← hcustody]
    exact List.mem_append_right _ hc
  have hrepeats : Repeats c fixed .none x := repeats.1 x
  obtain ⟨x', d', hx', hrealize, hrenews, hsame⟩ := @hrepeats _ (.use space template compiled ps') hx
    ⟨rfl, rfl, rfl, hlike⟩ hfits hfits' custody' [] [] [] d [] _ (.self []) hc' (List.Subset.refl _) (List.nil_subset _) g
  have hroot : x.cache.root = x'.cache.root := congrArg List.head? hsame.blocks.symm
  cases x' with
  | leaf | list => exact False.elim hx'
  | use i roots spots xs =>
    rw [Plan.realize, List.append_nil, List.append_nil, List.append_nil] at hrealize
    generalize hused : Level.use _ _ _ _ _ _ = used at hrealize
    obtain ⟨block, instances, level⟩ := used
    obtain ⟨hblock, rfl, rfl⟩ := Realized.mk.inj hrealize
    obtain rfl := Value.block.inj hblock
    generalize hexhibit : Exhibit.use i roots spots xs = x' at *
    have hblocks : x'.cache.root = some i.block := by
      rw [← hexhibit]
      rfl
    have hcache : (⟨x'.instances, x'.slots, x.cache.root⟩ : Cache) = x'.cache := by
      rw [hroot]
      rfl
    refine ⟨x', i.block, d'.release (custody'.holding x'.cache.held), hx', ?_, hblocks,
      Document.Renews.release ?_ _ g.sound.forest (List.mem_append_right _ hc') (List.nil_subset _)
      fun e he => ?_, hsame⟩
    · rw [Cache.realize, hcustody]
      dsimp only
      rw [show x.cache.instances = x.instances from rfl, show x.cache.slots = x.slots from rfl, hused]
      dsimp only
      rw [Level.close, List.reverse_reverse, hcache]
    · rw [Plan.inner, if_neg (by exact Bool.false_ne_true), Plan.changes] at hrenews
      exact hrenews
    · refine List.Subset.trans (entries_held.1 x' e he) fun n hn => ?_
      rw [Custody.holding, List.mem_append, ← hcache, Cache.held]
      exact .inl (List.mem_append_left _ hn)

namespace Renderer

variable {r r' : Renderer} {container : NodeId} {space : Markup.Namespace} {template : Template}
  {values : List Value} {x : Exhibit} {v w : Value}

/-- Rendering an invocation leaves what has been planned in the catalogue. -/
theorem catalogue_render (r : Renderer) (container : NodeId) (space : Markup.Namespace)
    (template : Template) (values : List Value) :
    (r.render container (.invocation space template values)).2.catalogue
      = (r.catalogue.planUse space template values).2 := by
  rw [render]
  split
  · rename_i heq
    rw [heq]
  · rename_i heq
    rw [heq]
    dsimp only
    rw [mount]
    split <;> rfl

/-- An element has what an exhibit of a value comes to as its content, but for the order of attributes, and
remembers the exhibit. -/
structure Retains (r : Renderer) (container : NodeId) (fixed : List NodeId) (x : Exhibit) (v : Value) :
    Prop where
  catalogue : r.catalogue.Sound
  known : r.catalogue.Resolves v v.toPlan
  shows_ : x.Shows v.toPlan
  exposes : r.document.Exposes container fixed .none x
  cache : r.cacheOf container = x.cache

/-- A value of the same shape as the one that is remembered is brought up to date. -/
theorem render_retained {fixed : List NodeId} (h : r.Retains container fixed x v) (hv : v.Fits)
    (hw : w.Fits) (hinvocation : v.IsInvocation) (hshape : v.SameShape w) :
    ∃ r' x', r.render container w = (.ok (), r') ∧ x.SameBlocks x' ∧ r'.Retains container fixed x' w ∧
      r.document.Steady r'.document container fixed ∧ r'.mutations ≤ r.mutations + 2 * v.changes w := by
  obtain ⟨space, template, vs, rfl⟩ := hinvocation
  cases w with
  | invocation space' template' ws =>
    obtain ⟨rfl, rfl, hshapes⟩ := id hshape
    have hx := h.shows_
    have hfits := hv.toPlan
    have hfits' := hw.toPlan
    obtain ⟨hlike, hchanges⟩ := Value.like_toPlan.2 vs ws hshapes
    rw [Value.toPlan] at hx hfits hfits'
    obtain ⟨x', block, d', hx', hrealize, hroot, hrenews, hsame⟩ := Cache.realize_again
      ((r.custody container none).holding (Value.invocation space template ws).held) hx hlike
      hfits hfits' h.exposes (List.mem_append_right _ (List.mem_append_left _ (List.mem_append_left _
        (List.mem_singleton_self _))))
    have hplan := Catalogue.planUse_of_resolves h.catalogue h.known hshape hw
    refine ⟨({ r with document := d' } : Renderer).setCacheOf container x'.cache, x', ?_, hsame,
      ⟨h.catalogue, ?_, ?_, hrenews.exposes, cacheOf_setCacheOf ..⟩, hrenews.steady, ?_⟩
    · rw [render]
      dsimp only
      rw [hplan]
      dsimp only
      rw [h.cache, hrealize]
      dsimp only
      rw [mount, if_pos hroot]
    · rw [Value.toPlan]
      exact Catalogue.planUse_resolves hplan
    · rw [Value.toPlan]
      exact hx'
    · have hle := hrenews.mutations
      rw [hchanges] at hle
      rw [Value.changes]
      show d'.mutations + r.catalogue.attributesTaken
        ≤ r.document.mutations + r.catalogue.attributesTaken + 2 * Value.changesAll vs ws
      omega
  | _ => exact absurd rfl (hshape.1.ne_invocation _ _ _)

/-- A value of the same shape as the one on show is brought up to date. -/
theorem render_again (h : r.Displays container x) (hx : x.Shows v.toPlan) (hv : v.Fits) (hw : w.Fits)
    (hinvocation : v.IsInvocation) (hshape : v.SameShape w) (hknown : r.catalogue.Resolves v v.toPlan) :
    ∃ r' x', r.render container w = (.ok (), r') ∧ x'.Shows w.toPlan ∧ x.SameBlocks x' ∧
      r'.document.Exposes container x.fixtures .none x' ∧
      r.document.Steady r'.document container x.fixtures ∧ r'.cacheOf container = x'.cache ∧
      r'.mutations ≤ r.mutations + 2 * v.changes w := by
  obtain ⟨r', x', hrender, hsame, hretains, hsteady, hle⟩ := render_retained
    ⟨h.sound.catalogue, hknown, hx, h.exposes hx hv.toPlan, h.cache⟩ hv hw hinvocation hshape
  exact ⟨r', x', hrender, hretains.shows_, hsame, hretains.exposes, hsteady, hretains.cache, hle⟩

/-- A value is rendered into an element in which nothing has been shown, and then one of the same shape.
What is on show is then what a first render of the second value gives, but for the order of attributes.
Every node below the element other than a text is of the kind it was and has the parent it had, the
instances are those of the first render and their nodes have the parents they had, and at most two changes
are counted for each primitive or null that is not the same as before. -/
theorem render_same_shape (hr : r.Sound) (hhas : r.document.Has container)
    (helement : r.document.isElement container = true)
    (hcache : r.containers.lookup container = none) (hv : v.Fits) (hw : w.Fits)
    (hinvocation : v.IsInvocation) (hshape : v.SameShape w) :
    ∃ r₁ r₂ r₃, r.render container v = (.ok (), r₁) ∧ r₁.render container w = (.ok (), r₂) ∧
      r.render container w = (.ok (), r₃) ∧
      Tree.AlikeAll (r₂.document.content container) (r₃.document.content container) ∧
      (∀ n p, r₁.document.Above p container → r₁.document.parent? n = some p →
        r₁.document.kind n ≠ .text →
        r₂.document.kind n = r₁.document.kind n ∧ r₂.document.parent? n = some p) ∧
      (r₂.cacheOf container).blocks = (r₁.cacheOf container).blocks ∧
      (∀ b ∈ (r₁.cacheOf container).blocks, ∀ n ∈ b.nodes, ∃ p, r₁.document.Above p container ∧
        r₁.document.parent? n = some p ∧ r₂.document.parent? n = some p) ∧
      r₂.mutations ≤ r₁.mutations + 2 * v.changes w := by
  obtain ⟨space, template, vs, rfl⟩ := id hinvocation
  have hinvocation' : w.IsInvocation := by
    cases w with
    | invocation space template values => exact ⟨space, template, values, rfl⟩
    | _ => exact absurd rfl (hshape.1.ne_invocation _ _ _)
  obtain ⟨r₁, x, hrender, hdisplays, hx, -⟩ := displays_render hr hhas helement hcache hv
  have hknown : r₁.catalogue.Resolves (.invocation space template vs)
      (Value.invocation space template vs).toPlan := by
    obtain ⟨catalogue, hplan, -⟩ := Catalogue.planUse_eq hv hr.catalogue
    have hcatalogue := catalogue_render r container space template vs
    rw [hrender, hplan] at hcatalogue
    rw [hcatalogue, Value.toPlan]
    exact Catalogue.planUse_resolves hplan
  obtain ⟨r₂, x', hrender', hx', hsame, hexposes, hsteady, hcache', hle⟩ :=
    render_again hdisplays hx hv hw hinvocation hshape hknown
  obtain ⟨r₃, hrender₃, hcontent₃⟩ : ∃ r₃, r.render container w = (.ok (), r₃) ∧
      r₃.document.content container = w.toPlan.content := by
    obtain ⟨space, template, ws, rfl⟩ := id hinvocation'
    obtain ⟨r₃, y, hrender₃, hdisplays₃, hy, -⟩ := displays_render hr hhas helement hcache hw
    exact ⟨r₃, hrender₃, hdisplays₃.content hy hw hinvocation'⟩
  have hforest := hdisplays.sound.document.forest
  refine ⟨r₁, r₂, r₃, hrender, hrender', hrender₃, ?_, fun n p hp hn hk => hsteady n p hp hn (.inl hk), ?_,
    fun b hb n hn => ?_, hle⟩
  · obtain ⟨ps, hready, halike⟩ := hexposes.ready
    obtain ⟨space', template', ws, rfl⟩ := hinvocation'
    have hfits := hw.toPlan
    rw [Value.toPlan] at hx' hfits hcontent₃
    rw [hready.bears.content hready.sound.forest, hcontent₃, ← trees_plants hx' hfits]
    exact halike.trees
  · rw [hcache', hdisplays.cache, blocks_cache, blocks_cache, frames_of_sameBlocks hsame]
  · rw [hdisplays.cache, blocks_cache] at hb
    have g := hdisplays.exposes hx hv.toPlan
    obtain ⟨hfix, hbeside⟩ := frames_on_show x _ hx g.proper g.nodup_nodes hb hn
    obtain ⟨row, hrow, hmem, -⟩ := hbeside
    have hn := hrow.ids_subset (Document.mem_idsAll_of_mem_map hmem)
    obtain ⟨p, hp, habove⟩ := hdisplays.ready.bears.parent_above hforest hn
    exact ⟨p, habove, hp, (hsteady n p habove hp (.inr hfix)).2⟩

/-- The paragraph without its attribute, and with another second item. -/
def alteredParagraph : Value :=
  .invocation .html ⟨0, ["<p id=", ">", "</p>"]⟩
    [.null, .list [paragraph.item "x", paragraph.item "z"]]

theorem render_same_shape_paragraph :
    ∃ r₁ r₂ r₃, oneElement.render ⟨0⟩ paragraph = (.ok (), r₁) ∧
      r₁.render ⟨0⟩ alteredParagraph = (.ok (), r₂) ∧
      oneElement.render ⟨0⟩ alteredParagraph = (.ok (), r₃) ∧
      Tree.AlikeAll (r₂.document.content ⟨0⟩) (r₃.document.content ⟨0⟩) ∧
      (r₂.cacheOf ⟨0⟩).blocks = (r₁.cacheOf ⟨0⟩).blocks ∧ r₂.mutations ≤ r₁.mutations + 4 := by
  have hfits : alteredParagraph.Fits := fits_paragraph_of (.inl rfl) ["x", "z"]
  have hshape : paragraph.SameShape alteredParagraph :=
    ⟨rfl, rfl, ⟨.inr rfl, .inl rfl⟩, ⟨⟨rfl, rfl, ⟨.inr rfl, .inr rfl⟩, trivial⟩,
      ⟨rfl, rfl, ⟨.inr rfl, .inr rfl⟩, trivial⟩, trivial⟩, trivial⟩
  have hchanges : paragraph.changes alteredParagraph = 2 := by decide +kernel
  obtain ⟨r₁, r₂, r₃, hrender, hagain, hfirst, halike, -, hblocks, -, hle⟩ := render_same_shape
    sound_oneElement (show oneElement.document.Has ⟨0⟩ by decide) (by decide) rfl fits_paragraph hfits
    ⟨_, _, _, rfl⟩ hshape
  rw [hchanges] at hle
  exact ⟨r₁, r₂, r₃, hrender, hagain, hfirst, halike, hblocks, hle⟩

end Renderer

end LiveMarkup
