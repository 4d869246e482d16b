import LiveMarkup.Proofs.Rendering.History
import LiveMarkup.Proofs.Rendering.Matching
import LiveMarkup.Proofs.Rendering.Sustaining
/-!
# Values of any shape that are rendered one after another

Values are rendered one after another into a container in which nothing has been shown. They may use any templates
and have lists of any length, as long as no instance that is found again changes its place. Each of them leaves the
container as a first render would, but for what remains to be brought up to date (`Renderer.Sustains.render`), and so
what is on show at the end is what a first render of the last one gives (`Renderer.renderEach_alike`).
-/

namespace LiveMarkup

open Exhibit
open Markup (Namespace Tree)

namespace Renderer

variable {r : Renderer} {container : NodeId} {x : Exhibit} {v w : Value} {values : List Value}

/-- An element has what an exhibit of a value comes to as its content, but for the order of attributes. Nothing is
left in the fragments of what is in place, and the exhibit is remembered. -/
structure Sustains (r : Renderer) (container : NodeId) (x : Exhibit) (v : Value) : Prop where
  catalogue : r.catalogue.Sound
  element : r.document.isElement container = true
  shows_ : x.Shows v.toPlan
  carries : r.document.Carries container [] x
  cache : r.cacheOf container = x.cache

/-- What has just been displayed is sustained. -/
theorem Displays.sustains (h : r.Displays container x) (hx : x.Shows v.toPlan) (hv : v.Fits)
    (hvacated : r.document.Vacated (placed x.entries)) : r.Sustains container x v := by
  have g := h.exposes hx hv.toPlan
  refine ⟨h.sound.catalogue, h.element, hx, ⟨?_, ?_, fun y hy => (by cases hy), .nil⟩, h.cache⟩
  · refine ⟨g.ready, g.proper, g.nodup, g.has, g.aside, ?_, fun e _ => List.forall_mem_nil _, List.forall_mem_nil _⟩
    rw [entriesAll, List.append_nil]
    exact hvacated.empty
  · rw [entriesAll, List.append_nil]
    exact hvacated.nodup

/-- The block at the top has a node. -/
theorem Sustains.exists_node (h : r.Sustains container x v) (hinvocation : v.IsInvocation)
    (hheaded : v.toPlan.AllHeaded) {b : Block} (hb : x.cache.root = some b) : ∃ n ∈ b.nodes, r.document.Has n := by
  obtain ⟨space, template, values, rfl⟩ := hinvocation
  have hx := h.shows_
  have hhas := h.carries.exposes.has
  rw [Value.toPlan] at hx hheaded
  cases x with
  | leaf | list => exact False.elim hx
  | use i roots spots xs =>
    obtain rfl := Option.some.inj hb
    obtain ⟨-, -, htops, htrees, -⟩ := hx
    cases roots with
    | nil => exact absurd htrees.symm hheaded.2.1.nonempty
    | cons root roots =>
      refine ⟨root.id, by rw [htops]; exact List.mem_cons_self .., hhas root.id (List.mem_append_left _ ?_)⟩
      rw [nodes, List.append_assoc, List.append_assoc]
      exact List.mem_append_left _ (Document.mem_idsAll_of_mem_map (List.mem_cons_self ..))

/-- Another value is rendered, and no instance that is found again changes its place. -/
theorem Sustains.render (h : r.Sustains container x v) (hv : v.Fits) (hw : w.Fits) (hinvocation : v.IsInvocation)
    (hinvocation' : w.IsInvocation) (hheaded : v.toPlan.AllHeaded) (hheaded' : w.toPlan.AllHeaded)
    (hagrees : v.toPlan.roll.Agrees w.toPlan.roll) :
    ∃ r' x', r.render container w = (.ok (), r') ∧ r'.Sustains container x' w := by
  obtain ⟨z, hpruned, hmeets⟩ : ∃ z, Pruned z x ∧ z.Meets x.cache.instances x.cache.slots w.toPlan :=
    exists_meets h.carries h.shows_ hv.toPlan hheaded hw.toPlan hheaded' hagrees
  have hroot := fun b => h.exists_node hinvocation hheaded (b := b)
  obtain ⟨space, template, values, rfl⟩ := hinvocation'
  generalize hinstances : x.cache.instances = is at hmeets
  generalize hslots : x.cache.slots = cs at hmeets
  rw [show Value.toPlan (.invocation space template values) = .use space template
    (template.compilation space).compiled (Value.toPlans values) by rw [Value.toPlan]] at hmeets
  have hfits := hw.toPlan
  rw [Value.toPlan] at hfits
  cases hmeets with
  | anew _ _ _ _ hmisses hslotsMiss =>
    obtain ⟨r', x', hrender, hdisplays, hx', -, -, hvacated⟩ := displays_anew
      ⟨h.carries.exposes.sound, h.catalogue⟩ h.carries.exposes.has_root h.element hw (by
        rw [h.cache, Value.toPlan, hinstances, hslots]
        exact ⟨h.carries.exposes.sound, hmisses, hslotsMiss⟩) (by rwa [h.cache])
    exact ⟨r', x', hrender, hdisplays.sustains hx' hw hvacated⟩
  | @again i is _ roots es xs _ _ _ _ hspace htemplate htops htrees hnodup _ hheaded' hholes =>
    obtain ⟨catalogue, hplan, hcatalogue⟩ := Catalogue.planUse_eq hw h.catalogue
    have hblocks : x.blocks = [i.block] := by
      rw [blocks, ← hpruned.pieces]
      rfl
    have hcontainer : container ∈ ((r.custody container none).holding
        (Value.invocation space template values).held).nodes :=
      List.mem_append_right _ (List.mem_append_left _ (List.mem_append_left _ (List.mem_singleton_self _)))
    rw [← hslots] at hholes
    obtain ⟨x', d', hx', hroot', hrealize, hcarries⟩ := Cache.realize_met hholes hinstances
      (congrArg List.head? hblocks) hspace htemplate htops htrees hnodup hfits hheaded' hcontainer
      (h.carries.pruned hpruned)
    have hlasts := x.cache.lasts_realize
      ((r.custody container none).holding (Value.invocation space template values).held) r.document
      ⟨space, template, (template.compilation space).compiled, Value.toPlans values⟩
    rw [hrealize] at hlasts
    refine ⟨({ r with catalogue, document := d' } : Renderer).setCacheOf container x'.cache, x', ?_,
      ⟨hcatalogue, ?_, ?_, hcarries, cacheOf_setCacheOf ..⟩⟩
    · rw [Renderer.render, hplan]
      dsimp only
      rw [h.cache, hrealize]
      dsimp only
      rw [mount, if_pos hroot']
    · show d'.isElement container = true
      rw [Document.isElement, hlasts.kind _ h.carries.exposes.has_root]
      exact h.element
    · rw [Value.toPlan]
      exact hx'

/-- Values are rendered one after another, and no instance that is found again changes its place. -/
theorem Sustains.renderEach (h : r.Sustains container x v)
    (hvalues : ∀ u ∈ v :: values, u.Fits ∧ u.IsInvocation ∧ u.toPlan.AllHeaded)
    (hagrees : (v :: values).IsChain fun v w => v.toPlan.roll.Agrees w.toPlan.roll) :
    ∃ r' x', r.renderEach container values = (.ok (), r') ∧
      r'.Sustains container x' ((v :: values).getLast (List.cons_ne_nil _ _)) := by
  induction values generalizing r x v with
  | nil => exact ⟨r, x, rfl, h⟩
  | cons w values ih =>
    obtain ⟨⟨hv, hinvocation, hheaded⟩, hvalues⟩ := List.forall_mem_cons.1 hvalues
    obtain ⟨hw, hinvocation', hheaded'⟩ := hvalues w (List.mem_cons_self ..)
    obtain ⟨hagree, hagrees⟩ := List.isChain_cons_cons.1 hagrees
    obtain ⟨r', x', hrender, hsustains⟩ := h.render hv hw hinvocation hinvocation' hheaded hheaded' hagree
    obtain ⟨r'', x'', heach, hlast⟩ := ih hsustains hvalues hagrees
    refine ⟨r'', x'', ?_, hlast⟩
    rw [Renderer.renderEach, hrender]
    exact heach

/-- What is sustained is on show. -/
theorem Sustains.content (h : r.Sustains container x v) (hv : v.Fits) (hinvocation : v.IsInvocation) :
    Tree.AlikeAll (r.document.content container) v.toPlan.content := by
  obtain ⟨space, template, vs, rfl⟩ := hinvocation
  obtain ⟨ps, hready, halike⟩ := h.carries.exposes.ready
  have hfits := hv.toPlan
  have hx := h.shows_
  rw [Value.toPlan] at hx hfits ⊢
  rw [hready.bears.content hready.sound.forest, ← trees_plants hx hfits]
  exact halike.trees

/-- Values are rendered one after another into an element in which nothing has been shown: any templates, lists of any
length, and holes that switch between values of any kind, as long as no instance that is found again changes its
place. What is on show at the end is what a first render of the last value gives, but for the order of attributes. -/
theorem renderEach_alike (hr : r.Sound) (hhas : r.document.Has container)
    (helement : r.document.isElement container = true) (hcache : r.containers.lookup container = none)
    (hvalues : ∀ u ∈ v :: values, u.Fits ∧ u.IsInvocation ∧ u.toPlan.AllHeaded)
    (hagrees : (v :: values).IsChain fun v w => v.toPlan.roll.Agrees w.toPlan.roll) :
    ∃ r₁ r₂, r.renderEach container (v :: values) = (.ok (), r₁) ∧
      r.render container ((v :: values).getLast (List.cons_ne_nil _ _)) = (.ok (), r₂) ∧
      Tree.AlikeAll (r₁.document.content container) (r₂.document.content container) := by
  obtain ⟨hv, hinvocation, -⟩ := hvalues v (List.mem_cons_self ..)
  obtain ⟨r', x, hrender, hsustains⟩ : ∃ r' x, r.render container v = (.ok (), r') ∧ r'.Sustains container x v := by
    obtain ⟨space, template, vs, rfl⟩ := hinvocation
    obtain ⟨r', x, hrender, hdisplays, hx, -, -, hvacated⟩ := displays_render hr hhas helement hcache hv
    exact ⟨r', x, hrender, hdisplays.sustains hx hv hvacated⟩
  obtain ⟨r₁, x', heach, hlast⟩ := hsustains.renderEach hvalues hagrees
  have hmem := List.getLast_mem (List.cons_ne_nil v values)
  generalize (v :: values).getLast (List.cons_ne_nil _ _) = w at *
  obtain ⟨hw, hinvocation', -⟩ := hvalues w hmem
  obtain ⟨r₂, hfirst, -, -, hcontent⟩ := render_content hr hhas helement hcache hw hinvocation'
  refine ⟨r₁, r₂, ?_, hfirst, ?_⟩
  · rw [Renderer.renderEach, hrender]
    exact heach
  · rw [hcontent]
    exact hlast.content hw hinvocation'

/-- A paragraph with some items, in an element that can be without it. -/
def framed : Option (List String) → Value
  | none => .invocation .html ⟨1, ["<b>", "</b>"]⟩ [.null]
  | some texts => .invocation .html ⟨1, ["<b>", "</b>"]⟩
    [.invocation .html ⟨0, ["<p id=", ">", "</p>"]⟩ [.string "a", .list (texts.map paragraph.item)]]

theorem allHeaded_bold (h : v.toPlan.AllHeaded) :
    (Value.invocation .html ⟨1, ["<b>", "</b>"]⟩ [v]).toPlan.AllHeaded := by
  rw [Value.toPlan, Plan.AllHeaded, Value.toPlans, Value.toPlans]
  exact ⟨rfl, ⟨by decide +kernel, by decide +kernel⟩, h, trivial⟩

theorem allHeaded_paragraph_of (texts : List String) : (Value.invocation .html ⟨0, ["<p id=", ">", "</p>"]⟩
    [.string "a", .list (texts.map paragraph.item)]).toPlan.AllHeaded := by
  have hitems : PlansHeaded (Value.toPlans (texts.map paragraph.item)) := by
    rw [plansHeaded_iff, Value.toPlans_eq_map]
    simp only [List.mem_map, forall_exists_index, and_imp, forall_apply_eq_imp_iff₂]
    exact fun text _ => allHeaded_bold trivial
  rw [Value.toPlan, Plan.AllHeaded, Value.toPlans, Value.toPlans, Value.toPlans, Value.toPlan]
  exact ⟨rfl, ⟨by decide +kernel, by decide +kernel⟩, trivial, hitems, trivial⟩

theorem renderEach_framed :
    ∃ r₁ r₂, oneElement.renderEach ⟨0⟩ [framed none, framed (some ["x"]), framed (some ["y", "x", "z"]),
        framed (some []), paragraph] = (.ok (), r₁) ∧
      oneElement.render ⟨0⟩ paragraph = (.ok (), r₂) ∧
      Tree.AlikeAll (r₁.document.content ⟨0⟩) (r₂.document.content ⟨0⟩) := by
  have hparagraph : ∀ texts : List String, (Value.invocation .html ⟨0, ["<p id=", ">", "</p>"]⟩
      [.string "a", .list (texts.map paragraph.item)]).Fits := fun texts => fits_paragraph_of (.inr rfl) texts
  have hframed : ∀ texts, (framed texts).Fits ∧ (framed texts).IsInvocation ∧ (framed texts).toPlan.AllHeaded := by
    intro texts
    cases texts with
    | none => exact ⟨fits_bold (.plain (.inl rfl)), ⟨_, _, _, rfl⟩, allHeaded_bold trivial⟩
    | some texts =>
      exact ⟨fits_bold (hparagraph texts), ⟨_, _, _, rfl⟩, allHeaded_bold (allHeaded_paragraph_of texts)⟩
  refine renderEach_alike sound_oneElement (show oneElement.document.Has ⟨0⟩ by decide) (by decide) rfl ?_ ?_
  · simp only [List.forall_mem_cons]
    exact ⟨hframed _, hframed _, hframed _, hframed _, ⟨fits_paragraph, ⟨_, _, _, rfl⟩,
      allHeaded_paragraph_of ["x", "y"]⟩, List.forall_mem_nil _⟩
  · exact .cons_cons (by decide +kernel) (.cons_cons (by decide +kernel) (.cons_cons (by decide +kernel)
      (.cons_cons (by decide +kernel) (.singleton _))))

end Renderer

end LiveMarkup
