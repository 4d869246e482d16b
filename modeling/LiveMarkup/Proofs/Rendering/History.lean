import LiveMarkup.Proofs.Rendering.SecondRender
/-!
# Values that are rendered one after another

Values of one shape are rendered one after another into a container in which nothing has been shown. Each of
them is brought up to date from what the one before it has left (`renderEach_retained`), and so what is on
show at the end is what a first render of the last one gives (`renderEach_content`): nothing is left of the
others but the order of attributes.
-/

namespace LiveMarkup.Renderer

open Exhibit
open Markup (Tree)

variable {r : Renderer} {container : NodeId} {fixed : List NodeId} {x : Exhibit} {v : Value}
  {values : List Value}

/-- Renders some values one after another, up to the first that cannot be rendered. -/
def renderEach (r : Renderer) (container : NodeId) : List Value → Except Failure Unit × Renderer
  | [] => (.ok (), r)
  | v :: rest =>
    match r.render container v with
    | (.ok (), r') => r'.renderEach container rest
    | (.error e, r') => (.error e, r')

/-- A first render is remembered. -/
theorem retains_render (hr : r.Sound) (hhas : r.document.Has container)
    (helement : r.document.isElement container = true)
    (hcache : r.containers.lookup container = none) (hv : v.Fits) (hinvocation : v.IsInvocation) :
    ∃ r' fixed x, r.render container v = (.ok (), r') ∧ r'.Retains container fixed x v ∧
      r'.document.content container = v.toPlan.content := by
  obtain ⟨space, template, vs, rfl⟩ := id hinvocation
  obtain ⟨r', x, hrender, hdisplays, hx, -⟩ := displays_render hr hhas helement hcache hv
  refine ⟨r', x.fixtures, x, hrender, ⟨hdisplays.sound.catalogue, ?_, hx, hdisplays.exposes hx hv.toPlan,
    hdisplays.cache⟩, hdisplays.content hx hv hinvocation⟩
  obtain ⟨catalogue, hplan, -⟩ := Catalogue.planUse_eq hv hr.catalogue
  have hcatalogue := catalogue_render r container space template vs
  rw [hrender, hplan] at hcatalogue
  rw [hcatalogue, Value.toPlan]
  exact Catalogue.planUse_resolves hplan

/-- What is remembered is on show. -/
theorem Retains.content (h : r.Retains container fixed x v) (hv : v.Fits) (hinvocation : v.IsInvocation) :
    Tree.AlikeAll (r.document.content container) v.toPlan.content := by
  obtain ⟨space, template, vs, rfl⟩ := hinvocation
  obtain ⟨ps, hready, halike⟩ := h.exposes.ready
  have hfits := hv.toPlan
  have hx := h.shows_
  rw [Value.toPlan] at hx hfits ⊢
  rw [hready.bears.content hready.sound.forest, ← trees_plants hx hfits]
  exact halike.trees

/-- Values of the same shape as the one that is remembered are brought up to date one after another. -/
theorem renderEach_retained (h : r.Retains container fixed x v) (hvalues : ∀ u ∈ v :: values, u.Fits)
    (hinvocation : v.IsInvocation) (hshapes : (v :: values).IsChain Value.SameShape) :
    ∃ r' x', r.renderEach container values = (.ok (), r') ∧
      r'.Retains container fixed x' ((v :: values).getLast (List.cons_ne_nil _ _)) := by
  induction values generalizing r x v with
  | nil => exact ⟨r, x, rfl, h⟩
  | cons w values ih =>
    obtain ⟨hv, hvalues⟩ := List.forall_mem_cons.1 hvalues
    obtain ⟨hshape, hshapes⟩ := List.isChain_cons_cons.1 hshapes
    obtain ⟨r', x', hrender, -, hretains, -⟩ :=
      render_retained h hv (hvalues w (List.mem_cons_self ..)) hinvocation hshape
    obtain ⟨r'', x'', heach, hlast⟩ := ih hretains hvalues (hshape.isInvocation hinvocation) hshapes
    refine ⟨r'', x'', ?_, hlast⟩
    rw [renderEach, hrender]
    exact heach

/-- Values of one shape are rendered one after another into an element in which nothing has been shown. What
is on show at the end is what a first render of the last one gives, but for the order of attributes. -/
theorem renderEach_content (hr : r.Sound) (hhas : r.document.Has container)
    (helement : r.document.isElement container = true)
    (hcache : r.containers.lookup container = none) (hvalues : ∀ u ∈ v :: values, u.Fits)
    (hinvocation : ∀ u ∈ v :: values, u.IsInvocation)
    (hshapes : (v :: values).IsChain Value.SameShape) :
    ∃ r₁ r₂, r.renderEach container (v :: values) = (.ok (), r₁) ∧
      r.render container ((v :: values).getLast (List.cons_ne_nil _ _)) = (.ok (), r₂) ∧
      Tree.AlikeAll (r₁.document.content container) (r₂.document.content container) := by
  obtain ⟨r', fixed, x, hrender, hretains, -⟩ := retains_render hr hhas helement hcache
    (hvalues v (List.mem_cons_self ..)) (hinvocation v (List.mem_cons_self ..))
  obtain ⟨r₁, x', heach, hlast⟩ := renderEach_retained hretains hvalues
    (hinvocation v (List.mem_cons_self ..)) hshapes
  have hmem := List.getLast_mem (List.cons_ne_nil v values)
  generalize (v :: values).getLast (List.cons_ne_nil _ _) = w at *
  obtain ⟨r₂, -, -, hfirst, -, hcontent⟩ := retains_render hr hhas helement hcache (hvalues w hmem)
    (hinvocation w hmem)
  refine ⟨r₁, r₂, ?_, hfirst, ?_⟩
  · rw [renderEach, hrender]
    exact heach
  · rw [hcontent]
    exact hlast.content (hvalues w hmem) (hinvocation w hmem)

end LiveMarkup.Renderer
