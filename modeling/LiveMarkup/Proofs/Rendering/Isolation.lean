import LiveMarkup.Proofs.Rendering.Deeds
import LiveMarkup.Proofs.Rendering.Reachable
import LiveMarkup.Proofs.Rendering.Rerendering
/-!
# Instances are isolated

What is done to the document in a call of a renderer is a list of deeds (`Renderer.deeds`), and what is done in
calls one after another is a chronicle (`Renderer.Served.follows`). So in whatever order the calls come, an
update of a binding disturbs no node but those that have been made for its instance. Templates are left alone
altogether: what has been compiled once is there for good and as it was, and each instance that is made of it
reads the same in the beginning (`Renderer.Served.isolated`).
-/

namespace LiveMarkup

open Markup (Namespace)

/-! ### The deeds of a call -/

/-- What the host asks of a renderer. -/
inductive Call where
  /-- Takes hold of some nodes and caches, and lets go of all others. -/
  | hold (nodes : List NodeId) (caches : List CacheId)
  | newKey
  | dropKey (key : Key)
  | cacheFor (key : Key) (name : String)
  | compile (space : Namespace) (template : Template)
  | render (container : NodeId) (value : Value)
  | renderDetached (id : CacheId) (space : Namespace) (template : Template) (values : List Value)
  | instantiate (space : Namespace) (template : Template) (values : List Value)
  | settle

namespace Renderer

/-- The renderer behind a call. -/
def answer (r : Renderer) : Call → Renderer
  | .hold nodes caches => { r with hostNodes := nodes, hostCaches := caches }
  | .newKey => r.newKey.2
  | .dropKey key => r.dropKey key
  | .cacheFor key name => (r.cacheFor key name).2
  | .compile space template => (r.compile space template).2
  | .render container value => (r.render container value).2
  | .renderDetached id space template values => (r.renderDetached id space template values).2
  | .instantiate space template values => (r.instantiate space template values).2
  | .settle => r.settle

/-- What is done to mount a block. -/
def mountDeeds (r : Renderer) (container : NodeId) (cache : Cache) (block : Block) : List Deed :=
  if cache.root = some block then []
  else [.mount container ((r.custody container none).holding (block.held ++ cache.held)) block]

/-- What is done to show a value in a container. -/
def renderDeeds (r : Renderer) (container : NodeId) (value : Value) : List Deed :=
  match value with
  | .invocation space template values =>
    match r.catalogue.planUse space template values with
    | (.error _, _) => []
    | (.ok use, catalogue) =>
      let custody := (r.custody container none).holding value.held
      let shown := (r.cacheOf container).realize custody r.document use
      (r.cacheOf container).deeds custody r.document use
        ++ { r with catalogue, document := shown.2.2 }.mountDeeds container shown.2.1 shown.1
  | .node n => r.mountDeeds container (r.cacheOf container) (.single n)
  | .block block => r.mountDeeds container (r.cacheOf container) block
  | _ => []

/-- What is done to show an invocation with a cache. -/
def showDeeds (r : Renderer) (cache : Cache) (custody : Custody) (space : Namespace) (template : Template)
    (values : List Value) : List Deed :=
  match r.catalogue.planUse space template values with
  | (.error _, _) => []
  | (.ok use, _) => cache.deeds (custody.holding (heldByValues values)) r.document use

/-- What is done to the document in a call. -/
def deeds (r : Renderer) : Call → List Deed
  | .render container value => r.renderDeeds container value
  | .renderDetached id space template values =>
    r.showDeeds (r.detachedCache id) (r.custody none (some id)) space template values
  | .instantiate space template values => r.showDeeds .empty (r.custody none none) space template values
  | .settle => [.release (r.custody none none)]
  | .hold .. | .newKey | .dropKey _ | .cacheFor .. | .compile .. => []

variable {log more : List Deed} {r : Renderer} {cache : Cache} {c : Catalogue} {d : Document}

/-! ### Renderers -/

/-- What some deeds have led to, which are a chronicle: the document of a renderer is the one behind them, and
all cached instances have been made by them. -/
structure Follows (r : Renderer) (log : List Deed) : Prop where
  chronicle : Chronicle log
  document : outcome log = r.document
  catalogue : r.catalogue.Sound
  containers : ∀ c ∈ r.containers, c.2.MadeIn log
  detached : ∀ (i : Nat) (cache : Cache), r.detached[i]? = some cache → cache.MadeIn log

namespace Follows

theorem cacheOf (h : r.Follows log) (container : NodeId) : (r.cacheOf container).MadeIn log :=
  forall_cacheOf (Cache.madeIn_empty log) h.containers container

theorem detachedCache (h : r.Follows log) (id : CacheId) : (r.detachedCache id).MadeIn log :=
  forall_detachedCache (Cache.madeIn_empty log) h.detached id

/-- More is done to the document, and more is compiled. -/
theorem append (h : r.Follows log) (hc : r.catalogue.Extends c) (hlog : Chronicle (log ++ more))
    (hd : outcome (log ++ more) = d) : Follows { r with catalogue := c, document := d } (log ++ more) where
  chronicle := hlog
  document := hd
  catalogue := hc.sound h.catalogue
  containers c hmem := (h.containers c hmem).append more
  detached i cache hat := (h.detached i cache hat).append more

theorem compiled (h : r.Follows log) (hc : r.catalogue.Extends c) : Follows { r with catalogue := c } (log ++ []) :=
  h.append hc ((List.append_nil log).symm ▸ h.chronicle) ((List.append_nil log).symm ▸ h.document)

/-- One more deed is done. -/
theorem next (h : r.Follows log) {deed : Deed} (hdeed : deed.Fair log) :
    Follows { r with document := deed.apply r.document } (log ++ [deed]) :=
  h.append (.refl _) (h.chronicle.concat hdeed) (by rw [outcome_concat, h.document])

theorem setCacheOf (h : r.Follows log) (hcache : cache.MadeIn log) (container : NodeId) :
    (r.setCacheOf container cache).Follows log where
  chronicle := h.chronicle
  document := h.document
  catalogue := h.catalogue
  containers := forall_setCacheOf hcache h.containers container
  detached := h.detached

theorem setDetached (h : r.Follows log) (hcache : cache.MadeIn log) (id : CacheId) :
    Follows { r with detached := r.detached.modify id.index fun _ => cache } log where
  chronicle := h.chronicle
  document := h.document
  catalogue := h.catalogue
  containers := h.containers
  detached := forall_setDetached hcache h.detached id

theorem mount (h : r.Follows log) (hcache : cache.MadeIn log) (container : NodeId) (block : Block) :
    (r.mount container cache block).Follows (log ++ r.mountDeeds container cache block) := by
  unfold Renderer.mount mountDeeds
  split
  · rw [List.append_nil]
    exact h.setCacheOf hcache container
  · have hdeed : (Deed.mount container
        ((r.custody container none).holding (block.held ++ cache.held)) block).Fair log := trivial
    refine (h.next hdeed).setCacheOf ?_ container
    cases hcache with
    | mk instances slots => exact .mk (fun i hi => (instances i hi).append _) fun s hs => (slots s hs).append _

/-- Showing an invocation with a cache. -/
theorem showWith (h : r.Follows log) (hcache : cache.MadeIn log) (custody : Custody) (space : Namespace)
    (template : Template) (values : List Value) :
    (r.showWith cache custody space template values).2.Follows
        (log ++ r.showDeeds cache custody space template values) ∧
      ∀ shown, (r.showWith cache custody space template values).1 = .ok shown →
        shown.2.MadeIn (log ++ r.showDeeds cache custody space template values) := by
  have hextends := r.catalogue.extends_planUse space template values
  rw [Renderer.showWith, showDeeds]
  generalize hplan : r.catalogue.planUse space template values = planned at hextends ⊢
  obtain ⟨_ | use, catalogue⟩ := planned
  · exact ⟨h.compiled hextends, fun _ hshown => by cases hshown⟩
  · obtain ⟨hlog, hdocument, hmade⟩ := Cache.follows_realize (hextends.sound h.catalogue) h.chronicle h.document
      hcache (Catalogue.planUse_resolves hplan) (custody.holding (heldByValues values))
    refine ⟨h.append hextends hlog hdocument, fun shown hshown => ?_⟩
    cases hshown
    exact hmade

theorem render (h : r.Follows log) (container : NodeId) (value : Value) :
    (r.render container value).2.Follows (log ++ r.renderDeeds container value) := by
  cases value with
  | invocation space template values =>
    have hextends := r.catalogue.extends_planUse space template values
    rw [Renderer.render, renderDeeds]
    generalize hplan : r.catalogue.planUse space template values = planned at hextends ⊢
    obtain ⟨_ | use, catalogue⟩ := planned
    · exact h.compiled hextends
    · obtain ⟨hlog, hdocument, hmade⟩ := Cache.follows_realize (hextends.sound h.catalogue) h.chronicle
        h.document (h.cacheOf container) (Catalogue.planUse_resolves hplan)
        ((r.custody container none).holding (Value.invocation space template values).held)
      dsimp only
      rw [← List.append_assoc]
      exact (h.append hextends hlog hdocument).mount hmade container _
  | node n => exact h.mount (h.cacheOf container) container _
  | block block => exact h.mount (h.cacheOf container) container _
  | _ => exact (List.append_nil log).symm ▸ h

theorem answer (h : r.Follows log) (call : Call) : (r.answer call).Follows (log ++ r.deeds call) := by
  cases call with
  | hold | newKey | dropKey =>
    rw [deeds, List.append_nil]
    exact ⟨h.chronicle, h.document, h.catalogue, h.containers, h.detached⟩
  | cacheFor key name =>
    rw [deeds, List.append_nil]
    exact ⟨h.chronicle, h.document, h.catalogue, h.containers,
      forall_cacheFor (Cache.madeIn_empty log) h.detached key name⟩
  | compile space template => exact h.compiled (r.catalogue.extends_compile space template)
  | render container value => exact h.render container value
  | renderDetached id space template values =>
    obtain ⟨hshown, hcache⟩ := h.showWith (h.detachedCache id) (r.custody none (some id)) space template values
    rw [Renderer.answer, deeds, renderDetached]
    split <;> rename_i hshow <;> rw [hshow] at hshown hcache
    · exact hshown
    · exact hshown.setDetached (hcache _ rfl) id
  | instantiate space template values =>
    have hshown := (h.showWith (Cache.madeIn_empty log) (r.custody none none) space template values).1
    rw [Renderer.answer, deeds, instantiate]
    split <;> rename_i hshow <;> rw [hshow] at hshown <;> exact hshown
  | settle =>
    have hdeed : (Deed.release (r.custody none none)).Fair log := trivial
    exact h.next hdeed

end Follows

end Renderer

end LiveMarkup
