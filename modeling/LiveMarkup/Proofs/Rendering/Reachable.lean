import LiveMarkup.Proofs.Rendering.FirstRender
import LiveMarkup.Proofs.Rendering.Mirror
import LiveMarkup.Proofs.Rendering.Unrolling
/-!
# Renderers in use

A renderer is changed by the host, by rendering, and by letting go of what is not held
(`Renderer.Step`). The host may change the document in whatever way adds to it at most, which is all
that the operations on a document do. In a renderer that has come about in this way every cached
instance is intact, and what has been compiled is what compiling gives (`Renderer.Reachable.intact`). So
a value is either rendered or refused before anything is touched (`Renderer.render_atomic`), and when an
invocation has been rendered its cache mirrors it, with blocks used again exactly where the template is
the same (`Renderer.render_mirrors`).
-/

namespace LiveMarkup

open Markup (Namespace)

/-- The shape of a cache does not depend on what is mounted. -/
theorem Cache.Mirrors.mount {cache : Cache} {v : Value} (h : cache.Mirrors v) (root : Option Block) :
    Cache.Mirrors { cache with root } v := by
  cases h with
  | mk templates whole slots => exact .mk templates whole slots

theorem Cache.Reuses.mount {old cache : Cache} (h : old.Reuses cache) (root : Option Block) :
    old.Reuses { cache with root } := by
  cases h with
  | mk instances slots => exact .mk instances slots

theorem Cache.Intact.mount {d : Document} {cache : Cache} (h : cache.Intact d)
    (root : Option Block) : Cache.Intact d { cache with root } := by
  cases h with
  | mk instances slots => exact .mk instances slots

namespace Renderer

variable {r r' : Renderer} {container : NodeId} {cache : Cache} {block : Block} {id : CacheId}
  {space : Namespace} {template : Template} {values : List Value} {v : Value}

/-- What can happen to a renderer. -/
inductive Step (r : Renderer) : Renderer → Prop where
  /-- The host changes the document. -/
  | edit {d : Document} (h : r.document.Grows d) : Step r { r with document := d }
  /-- The host takes hold of some nodes and caches, and lets go of all others. -/
  | hold (nodes : List NodeId) (caches : List CacheId) :
      Step r { r with hostNodes := nodes, hostCaches := caches }
  | newKey : Step r r.newKey.2
  | dropKey (key : Key) : Step r (r.dropKey key)
  | cacheFor (key : Key) (name : String) : Step r (r.cacheFor key name).2
  | compile (space : Namespace) (template : Template) : Step r (r.compile space template).2
  | render (container : NodeId) (value : Value) : Step r (r.render container value).2
  | renderDetached (id : CacheId) (space : Namespace) (template : Template) (values : List Value) :
      Step r (r.renderDetached id space template values).2
  | instantiate (space : Namespace) (template : Template) (values : List Value) :
      Step r (r.instantiate space template values).2
  | settle : Step r r.settle

/-- Renderers that come about from an empty one. -/
inductive Reachable : Renderer → Prop where
  | empty : Reachable .empty
  | step {r r' : Renderer} (h : Reachable r) (hstep : r.Step r') : Reachable r'

/-- What has been compiled is right, and all cached instances are intact. -/
structure Intact (r : Renderer) : Prop where
  catalogue : r.catalogue.Sound
  containers : ∀ c ∈ r.containers, c.2.Intact r.document
  detached : ∀ (i : Nat) (cache : Cache), r.detached[i]? = some cache → cache.Intact r.document

/-! ### All caches -/

section Caches

variable {P : Cache → Prop}

/-- What holds of an empty cache and of all caches of containers holds of the cache of any container. -/
theorem forall_cacheOf (hempty : P .empty) (h : ∀ c ∈ r.containers, P c.2) (container : NodeId) :
    P (r.cacheOf container) := by
  rw [cacheOf]
  cases hlookup : r.containers.lookup container with
  | none => exact hempty
  | some cache =>
    obtain ⟨front, back, hcontainers, -⟩ := List.lookup_eq_some_iff.1 hlookup
    exact h (container, cache) (hcontainers ▸ List.mem_append_right _ (List.mem_cons_self ..))

theorem forall_detachedCache (hempty : P .empty)
    (h : ∀ (i : Nat) (cache : Cache), r.detached[i]? = some cache → P cache) (id : CacheId) :
    P (r.detachedCache id) := by
  rw [detachedCache, Array.getD_eq_getD_getElem?]
  cases hat : r.detached[id.index]? with
  | none => exact hempty
  | some cache => exact h _ _ hat

theorem forall_setCacheOf (hcache : P cache) (h : ∀ c ∈ r.containers, P c.2) (container : NodeId) :
    ∀ c ∈ (r.setCacheOf container cache).containers, P c.2 :=
  List.forall_mem_cons.2 ⟨hcache, fun c hc => h c (List.mem_of_mem_filter hc)⟩

theorem forall_setDetached (hcache : P cache)
    (h : ∀ (i : Nat) (cache : Cache), r.detached[i]? = some cache → P cache) (id : CacheId) (i : Nat)
    (old : Cache) (hat : (r.detached.modify id.index fun _ => cache)[i]? = some old) : P old := by
  rw [Array.getElem?_modify] at hat
  split at hat
  · obtain ⟨_, -, rfl⟩ := Option.map_eq_some_iff.1 hat
    exact hcache
  · exact h i old hat

theorem forall_cacheFor (hempty : P .empty)
    (h : ∀ (i : Nat) (cache : Cache), r.detached[i]? = some cache → P cache) (key : Key) (name : String)
    (i : Nat) (cache : Cache) (hat : (r.cacheFor key name).2.detached[i]? = some cache) : P cache := by
  dsimp only [cacheFor] at hat
  split at hat
  · rw [Array.getElem?_push] at hat
    split at hat
    · cases hat
      exact hempty
    · exact h i cache hat
  · exact h i cache hat

end Caches

/-! ### Renderers that come about -/

namespace Intact

theorem cacheOf (h : r.Intact) (container : NodeId) : (r.cacheOf container).Intact r.document :=
  forall_cacheOf (Cache.intact_empty _) h.containers container

theorem detachedCache (h : r.Intact) (id : CacheId) : (r.detachedCache id).Intact r.document :=
  forall_detachedCache (Cache.intact_empty _) h.detached id

/-- A change that only adds to the document and the catalogue. -/
theorem grows (h : r.Intact) {catalogue : Catalogue} (hc : r.catalogue.Extends catalogue)
    {d : Document} (hd : r.document.Grows d) :
    Intact { r with catalogue, document := d } where
  catalogue := hc.sound h.catalogue
  containers c hmem := (h.containers c hmem).grows hd
  detached i cache hat := (h.detached i cache hat).grows hd

theorem setCacheOf (h : r.Intact) (hcache : cache.Intact r.document) (container : NodeId) :
    (r.setCacheOf container cache).Intact where
  catalogue := h.catalogue
  containers := forall_setCacheOf hcache h.containers container
  detached := h.detached

theorem setDetached (h : r.Intact) (hcache : cache.Intact r.document) (id : CacheId) :
    Intact { r with detached := r.detached.modify id.index fun _ => cache } where
  catalogue := h.catalogue
  containers := h.containers
  detached := forall_setDetached hcache h.detached id

theorem mount (h : r.Intact) (hcache : cache.Intact r.document) (container : NodeId)
    (block : Block) : (r.mount container cache block).Intact := by
  unfold Renderer.mount
  split
  · exact h.setCacheOf hcache container
  · have hgrows := ((Document.grows_setText r.document container "").trans
      (Document.evolves_release _ ((r.custody container none).holding (block.held ++ cache.held))).grows).trans
      (Document.shifts_insert _ container block none).grows
    exact (h.grows (.refl _) hgrows).setCacheOf ((hcache.grows hgrows).mount _) container

end Intact

/-- What an invocation that is accepted leaves behind. -/
theorem showWith_spec (h : r.Intact) (hcache : cache.Intact r.document) (custody : Custody)
    {shown : Block × Cache}
    (hshow : r.showWith cache custody space template values = (.ok shown, r')) :
    r'.Intact ∧ shown.2.Intact r'.document ∧ shown.2.Mirrors (.invocation space template values) ∧
      cache.Reuses shown.2 ∧ r'.detached = r.detached := by
  have hextends := r.catalogue.extends_planUse space template values
  rw [showWith] at hshow
  split at hshow
  · cases hshow
  · rename_i use catalogue hplan
    rw [hplan] at hextends
    have hresolves := Catalogue.planUse_resolves hplan
    obtain ⟨hgrows, hintact, hmirrors, hreuses⟩ := Cache.realize_spec (hextends.sound h.catalogue)
      hcache hresolves (custody.holding (heldByValues values))
    cases hshow
    exact ⟨h.grows hextends hgrows, hintact, hmirrors, hreuses, rfl⟩

theorem intact_showWith (h : r.Intact) (hcache : cache.Intact r.document) (custody : Custody)
    (space : Namespace) (template : Template) (values : List Value) :
    (r.showWith cache custody space template values).2.Intact := by
  generalize hshow : r.showWith cache custody space template values = result
  obtain ⟨_ | shown, r'⟩ := result
  · have hextends := r.catalogue.extends_planUse space template values
    rw [showWith] at hshow
    split at hshow
    · rename_i hplan
      rw [hplan] at hextends
      cases hshow
      exact h.grows hextends (.refl _)
    · cases hshow
  · exact (showWith_spec h hcache custody hshow).1

/-- What rendering an invocation that is accepted leaves behind. -/
theorem render_spec (h : r.Intact)
    (hrender : r.render container (.invocation space template values) = (.ok (), r')) :
    r'.Intact ∧ (r'.cacheOf container).Mirrors (.invocation space template values) ∧
      (r.cacheOf container).Reuses (r'.cacheOf container) := by
  have hextends := r.catalogue.extends_planUse space template values
  rw [render] at hrender
  split at hrender
  · cases hrender
  · rename_i use catalogue hplan
    rw [hplan] at hextends
    have hresolves := Catalogue.planUse_resolves hplan
    obtain ⟨hgrows, hintact, hmirrors, hreuses⟩ := Cache.realize_spec (hextends.sound h.catalogue)
      (h.cacheOf container) hresolves
      ((r.custody container none).holding (Value.invocation space template values).held)
    obtain rfl := (Prod.mk.inj hrender).2
    rw [cacheOf_mount]
    exact ⟨(h.grows hextends hgrows).mount hintact container _, hmirrors.mount _, hreuses.mount _⟩

theorem intact_render (h : r.Intact) (container : NodeId) (value : Value) :
    (r.render container value).2.Intact := by
  cases value with
  | invocation space template values =>
    generalize hrender : r.render container (.invocation space template values) = result
    obtain ⟨_ | ⟨⟨⟩⟩, r'⟩ := result
    · have hextends := r.catalogue.extends_planUse space template values
      rw [render] at hrender
      split at hrender
      · rename_i hplan
        rw [hplan] at hextends
        cases hrender
        exact h.grows hextends (.refl _)
      · cases hrender
    · exact (render_spec h hrender).1
  | node n => exact h.mount (h.cacheOf container) container _
  | block block => exact h.mount (h.cacheOf container) container _
  | _ => exact h

/-- Whatever happens to a renderer, its instances stay intact. -/
theorem Intact.step (h : r.Intact) (hstep : r.Step r') : r'.Intact := by
  cases hstep with
  | edit hd => exact h.grows (.refl _) hd
  | hold | newKey | dropKey => exact ⟨h.catalogue, h.containers, h.detached⟩
  | cacheFor key name =>
    exact ⟨h.catalogue, h.containers, forall_cacheFor (Cache.intact_empty _) h.detached key name⟩
  | compile space template =>
    exact h.grows (r.catalogue.extends_compile space template) (.refl _)
  | render container value => exact intact_render h container value
  | renderDetached id space template values =>
    have hintact := intact_showWith h (h.detachedCache id) (r.custody none (some id)) space template
      values
    rw [renderDetached]
    split
    · rename_i hshow
      rw [hshow] at hintact
      exact hintact
    · rename_i hshow
      obtain ⟨-, hcache, -⟩ := showWith_spec h (h.detachedCache id) _ hshow
      rw [hshow] at hintact
      exact hintact.setDetached hcache id
  | instantiate space template values =>
    have hintact := intact_showWith h (Cache.intact_empty _) (r.custody none none) space template
      values
    rw [instantiate]
    split <;> rename_i hshow <;> rw [hshow] at hintact <;> exact hintact
  | settle => exact h.grows (.refl _) (Document.evolves_release ..).grows

/-- All that a renderer has cached is intact at all times. -/
theorem Reachable.intact (h : r.Reachable) : r.Intact := by
  induction h with
  | empty => exact ⟨Catalogue.sound_empty, fun _ hc => (List.not_mem_nil hc).elim, fun _ _ hat => by cases hat⟩
  | step _ hstep ih => exact ih.step hstep

/-- A value that cannot be rendered is refused before anything but the catalogue has changed, and one that
planning accepts is shown without a failure on the way, whatever the cache has in it. -/
theorem render_atomic (hr : r.Reachable) :
    (∀ container value, r.IsAtomic (r.render container value) value.Renderable) ∧
      (∀ id space template values, r.IsAtomic (r.renderDetached id space template values)
        (Value.invocation space template values).Usable) ∧
      (∀ space template values, r.IsAtomic (r.instantiate space template values)
        (Value.invocation space template values).Usable) ∧
      ∀ space template values use catalogue,
        r.catalogue.planUse space template values = (.ok use, catalogue) →
        ∀ (cache : Cache) custody d, (cache.unroll custody d space template values).run.run catalogue
          = (.ok (cache.realize custody d use), catalogue) := by
  have hc := hr.intact.catalogue
  refine ⟨isAtomic_render hc, isAtomic_renderDetached hc, isAtomic_instantiate hc, ?_⟩
  intro space template values use catalogue hplan cache custody d
  have hextends := r.catalogue.extends_planUse space template values
  rw [hplan] at hextends
  exact Cache.yields_unroll (hextends.sound hc) (Catalogue.planUse_resolves hplan) cache custody d

/-- A paragraph with an item that lacks a value. -/
def lackingParagraph : Value :=
  .invocation .html ⟨0, ["<p id=", ">", "</p>"]⟩
    [.string "a", .list [.invocation .html ⟨1, ["<b>", "</b>"]⟩ []]]

theorem not_renderable_lackingParagraph : ¬ lackingParagraph.Renderable := by
  intro h
  cases h with
  | leaf h => exact h
  | invocation _ _ usable =>
    cases usable (.list _) (List.mem_cons_of_mem _ (List.mem_singleton_self _)) with
    | leaf h => exact h
    | list usable =>
      cases usable _ (List.mem_singleton_self _) ⟨_, _, _, rfl⟩ with
      | leaf h => exact h
      | invocation _ count => exact absurd count (by decide +kernel)

theorem reachable_oneElement : oneElement.Reachable :=
  .step .empty (.edit (Document.grows_create ..))

theorem render_atomic_lackingParagraph :
    let r := (oneElement.render ⟨0⟩ paragraph).2
    ∃ e r', r.render ⟨0⟩ lackingParagraph = (.error e, r') ∧ r'.document = r.document ∧
      r'.containers = r.containers := by
  dsimp only
  obtain ⟨hok, herror⟩ := (render_atomic (.step reachable_oneElement (.render ⟨0⟩ paragraph))).1 ⟨0⟩
    lackingParagraph
  generalize (oneElement.render ⟨0⟩ paragraph).2 = r at hok herror ⊢
  generalize r.render ⟨0⟩ lackingParagraph = result at hok herror ⊢
  obtain ⟨e | a, r'⟩ := result
  · obtain ⟨catalogue, -, hr'⟩ := herror e rfl
    obtain rfl : r' = { r with catalogue } := hr'
    exact ⟨e, _, rfl, rfl, rfl⟩
  · exact absurd (hok.1 ⟨a, rfl⟩) not_renderable_lackingParagraph

/-- Rendering an invocation leaves a cache that mirrors it, in which the blocks of the cache before stand
exactly where an instance of the same template stood. -/
theorem render_mirrors (hr : r.Reachable) :
    (∀ container space template values r',
      r.render container (.invocation space template values) = (.ok (), r') →
      (r'.cacheOf container).Mirrors (.invocation space template values) ∧
        (r.cacheOf container).Reuses (r'.cacheOf container)) ∧
      (∀ (id : CacheId) space template values block r', id.index < r.detached.size →
        r.renderDetached id space template values = (.ok block, r') →
        (r'.detachedCache id).Mirrors (.invocation space template values) ∧
          (r.detachedCache id).Reuses (r'.detachedCache id)) ∧
      ∀ custody space template values block cache r',
        r.showWith .empty custody space template values = (.ok (block, cache), r') →
        cache.Mirrors (.invocation space template values) := by
  have h := hr.intact
  refine ⟨fun container space template values r' hrender => (render_spec h hrender).2, ?_, ?_⟩
  · intro id space template values block r' hid hrender
    rw [renderDetached] at hrender
    split at hrender
    · cases hrender
    · rename_i shown r₁ hshow
      obtain ⟨-, -, hmirrors, hreuses, hdetached⟩ := showWith_spec h (h.detachedCache id) _ hshow
      have hcache : r'.detachedCache id = shown.2 := by
        obtain rfl := (Prod.mk.inj hrender).2
        rw [detachedCache, Array.getD_eq_getD_getElem?, Array.getElem?_modify, if_pos rfl,
          hdetached, Array.getElem?_eq_getElem hid]
        rfl
      rw [hcache]
      exact ⟨hmirrors, hreuses⟩
  · intro custody space template values block cache r' hshow
    exact (showWith_spec h (Cache.intact_empty _) _ hshow).2.2.1

theorem render_mirrors_paragraph :
    let r := (oneElement.render ⟨0⟩ paragraph).2
    ∃ r', r.render ⟨0⟩ paragraph = (.ok (), r') ∧ (r'.cacheOf ⟨0⟩).Mirrors paragraph ∧
      (r.cacheOf ⟨0⟩).Reuses (r'.cacheOf ⟨0⟩) := by
  dsimp only
  have hr := Reachable.step reachable_oneElement (.render ⟨0⟩ paragraph)
  generalize (oneElement.render ⟨0⟩ paragraph).2 = r at hr ⊢
  obtain ⟨catalogue, hplan, -⟩ := Catalogue.planUse_eq fits_paragraph hr.intact.catalogue
  obtain ⟨r', hrender⟩ : ∃ r', r.render ⟨0⟩ paragraph = (.ok (), r') := by
    rw [paragraph, render, hplan]
    exact ⟨_, rfl⟩
  exact ⟨r', hrender, (render_mirrors hr).1 _ _ _ _ _ hrender⟩

end Renderer

end LiveMarkup
