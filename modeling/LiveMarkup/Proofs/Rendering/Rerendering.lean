import LiveMarkup.Proofs.Rendering.Reachable
import LiveMarkup.Proofs.Rendering.Settling
/-!
# Rendering the same values again

A container into which values without invocations have been rendered has one instance, with all its bindings
at rest (`Renderer.AtRest`). Rendering these values into it again, it uses the instance again and changes
nothing below the container (`Renderer.AtRest.still`). For a container to come to rest, no placeholder may be
found detached while the values are shown, none of their nodes may be a fragment, and what fills an element
with text must be the same as itself (`Renderer.render_twice`).
-/

namespace LiveMarkup

open Markup (Namespace)

/-- Whether a value is shown as it is: no invocation has to be made a block first. -/
def Value.IsDirect : Value → Prop
  | .invocation .. => False
  | .list items => ∀ item ∈ items, ¬ item.IsInvocation
  | _ => True

section

variable {c : Catalogue} {v : Value} {vs : List Value} {p : Plan} {ps : List Plan}

theorem realizeItems_of_direct (h : c.ResolvesItems vs ps) (hvs : ∀ v ∈ vs, ¬ v.IsInvocation)
    (custody : Custody) (level : Level) : realizeItems custody level ps = ⟨vs, [], level⟩ := by
  induction vs generalizing ps with
  | nil =>
    cases h
    rfl
  | cons v vs ih =>
    obtain ⟨hv, hvs⟩ := List.forall_mem_cons.1 hvs
    cases h with
    | leaf _ hrest => rw [realizeItems, ih hrest hvs]
    | use hfirst hrest => exact absurd ⟨_, _, _, rfl⟩ hv

theorem realize_of_direct (h : c.Resolves v p) (hv : v.IsDirect) (custody : Custody) (level : Level) :
    p.realize custody level = ⟨v, [], level⟩ := by
  cases h with
  | leaf _ => rfl
  | use _ _ _ => exact hv.elim
  | list hitems => rw [Plan.realize, realizeItems_of_direct hitems hv]

theorem realizeAll_of_direct (h : c.ResolvesAll vs ps) (hvs : ∀ v ∈ vs, v.IsDirect)
    (custody : Custody) (level : Level) : realizeAll custody level ps = ⟨vs, [], level⟩ := by
  induction vs generalizing ps custody with
  | nil =>
    cases h
    rfl
  | cons v vs ih =>
    obtain ⟨hv, hvs⟩ := List.forall_mem_cons.1 hvs
    cases h with
    | cons hfirst hrest =>
      rw [realizeAll, realize_of_direct hfirst hv]
      dsimp only
      rw [ih hrest hvs]
      rfl

/-- The use that is planned for values without invocations. -/
theorem Catalogue.planUse_of_direct {c' : Catalogue} {space : Namespace} {template : Template} {use : Use}
    (hc : c.Sound) (h : c.planUse space template vs = (.ok use, c')) (hvs : ∀ v ∈ vs, v.IsDirect) :
    ∃ holes, use = ⟨space, template, (template.compilation space).compiled, holes⟩ ∧
      ∀ custody level, realizeAll custody level holes = ⟨vs, [], level⟩ := by
  have hextends := c.extends_planUse space template vs
  rw [h] at hextends
  obtain ⟨s, t, compiled, holes⟩ := use
  cases planUse_resolves h with
  | use known _ hholes =>
    have hcompiled : compiled = (t.compilation s).compiled := (hextends.sound hc _ _ _ known).2
    exact ⟨holes, by rw [← hcompiled], realizeAll_of_direct hholes hvs⟩

end

open Document Binding

variable {space : Namespace} {template : Template} {values : List Value} {d : Document} {c : NodeId}

/-- What showing values without invocations comes to: an instance is taken and brought up to date. -/
theorem Cache.realize_of_direct (cache : Cache) (custody : Custody) (d : Document) {use : Use}
    (hholes : ∀ custody level, realizeAll custody level use.holes = ⟨values, [], level⟩) :
    let outside := custody.holding (cache.root.elim [] Block.held)
    let taken := Level.take ⟨cache.instances, cache.slots, [], d⟩ use.space use.template use.compiled
    let fitted := taken.2.fit (outside.holding []) taken.1 use.space use.template use.compiled
    let filled := fitted.2.fill ((outside.holding []).holding fitted.1.block.held) fitted.1.bindings values
    cache.realize custody d use = (fitted.1.block,
      filled.2.close outside [{ fitted.1 with bindings := filled.1 }] cache.root) := by
  dsimp only
  rw [Cache.realize, Level.use]
  simp only [hholes, List.flatMap_nil]

/-- An instance of a template whose bindings have what they have been made with, and no slots beside it. -/
structure Level.Furnished (d : Document) (space : Namespace) (template : Template)
    (fitted : Instance × Level) : Prop where
  evolves : d.Evolves fitted.2.document [] []
  use : fitted.1.use = (space, template)
  wired : Wired fitted.2.document (template.compilation space).compiled.holes fitted.1.bindings
  texts : ∀ b ∈ fitted.1.bindings, ∀ n ∈ b.texts, fitted.2.document.kind n = .text
  newSlots : fitted.2.newSlots = []

theorem Level.Furnished.equipped {fitted : Instance × Level}
    (h : Level.Furnished d space template fitted) :
    ∀ b ∈ fitted.1.bindings, b.Equipped fitted.2.document := fun b hb =>
  ⟨fun n hn => ⟨h.wired.has_text b hb n hn, h.texts b hb n hn⟩, h.wired.has_attribute b hb⟩

/-- The bindings of a furnished instance come to rest. -/
theorem Level.Furnished.rests {fitted : Instance × Level} (h : Level.Furnished d space template fitted)
    (custody : Custody) (hsolid : ∀ v ∈ values, v.Solid d)
    (hsteady : ∀ p ∈ (template.compilation space).compiled.holes.zip values, p.1.kind = .text →
      p.2.isSame p.2 = true ∨ p.2.text? = none) (d' : Document)
    (hd : (fitted.2.fill custody fitted.1.bindings values).2.document.Evolves d' [] [])
    (hquiet : d'.detachments = d.detachments) :
    (∀ b ∈ (fitted.2.fill custody fitted.1.bindings values).1, b.Equipped d') ∧
      ∀ p ∈ (fitted.2.fill custody fitted.1.bindings values).1.zip values, p.1.Rests d' p.2 := by
  have hsites := Level.sites_fill fitted.2 custody fitted.1.bindings values
  have hfilled := Level.evolves_fill fitted.2 custody fitted.1.bindings values
  have hrests := Level.rests_fill fitted.2 custody fitted.1.bindings values h.wired.apart h.equipped
    (fun v hv => (hsolid v hv).evolves h.evolves) (fun p hp hp' => ?_)
    (Nat.le_antisymm ((hd.detachments_le.trans_eq hquiet).trans h.evolves.detachments_le)
      hfilled.detachments_le)
  · generalize fitted.2.fill custody fitted.1.bindings values = filled at *
    have hequipped : ∀ b ∈ filled.1, b.Equipped filled.2.document := by
      intro b hb
      obtain ⟨b', hb', hsite⟩ := List.mem_map.1 (hsites ▸ List.mem_map_of_mem hb)
      have hold := (h.equipped b' hb').evolves hfilled
      refine ⟨fun n hn => hold.has_text n ?_, fun a ha => hold.has_attribute a ?_⟩
      · rwa [← texts_site, hsite, texts_site]
      · rwa [← attributes_site, hsite, attributes_site]
    refine ⟨fun b hb => (hequipped b hb).evolves hd, fun p hp => ?_⟩
    exact Rests.evolves (hrests p hp) (hequipped p.1 (List.of_mem_zip hp).1) hd
      (fun _ _ => List.not_mem_nil) fun _ _ => List.not_mem_nil
  · obtain ⟨k, hk, rfl⟩ := List.mem_iff_getElem.1 hp
    rw [List.length_zip] at hk
    have hlength := h.wired.text.length_eq
    rw [List.getElem_zip] at hp' ⊢
    have hkind := List.forall₂_iff_get.1 h.wired.text
    exact hsteady ⟨(template.compilation space).compiled.holes[k], values[k]⟩
      (List.mem_iff_getElem.2 ⟨k, by rw [List.length_zip]; omega, List.getElem_zip⟩)
      (hkind.2 k (by omega) (by omega) hp')

theorem Level.furnished_create (d : Document) (space : Namespace) (template : Template) :
    let made := Instance.create d space template (template.compilation space).compiled
    d.Evolves made.2 [] [] ∧ Wired made.2 (template.compilation space).compiled.holes made.1.bindings ∧
      ∀ b ∈ made.1.bindings, ∀ n ∈ b.texts, made.2.kind n = .text :=
  ⟨evolves_createInstance .., wired_createInstance d space template (template.coherent_compilation space)⟩

/-- Whether it is used again or made, the instance that is brought up to date is furnished. -/
theorem Cache.furnished_fit {cache : Cache} (hcache : cache.Intact d)
    (htexts : ∀ i ∈ cache.instances, ∀ b ∈ i.bindings, ∀ n ∈ b.texts, d.kind n = .text)
    (custody : Custody) (space : Namespace) (template : Template) :
    let compiled := (template.compilation space).compiled
    let taken := Level.take ⟨cache.instances, cache.slots, [], d⟩ space template compiled
    Level.Furnished d space template (taken.2.fit custody taken.1 space template compiled) := by
  obtain ⟨hinstances, -⟩ := hcache
  have hmade := Level.furnished_create d space template
  unfold Level.take
  cases hold : cache.instances with
  | nil =>
    have hof : (Instance.create d space template (template.compilation space).compiled).1.isOf space template
        = true := Instance.isOf_iff.2 rfl
    dsimp only
    rw [Level.fit, if_pos hof]
    exact ⟨hmade.1, rfl, hmade.2.1, hmade.2.2, rfl⟩
  | cons i rest =>
    have hi : i ∈ cache.instances := hold ▸ List.mem_cons_self ..
    dsimp only
    rw [Level.fit]
    split
    · rename_i hof
      have huse := Instance.isOf_iff.1 hof
      have hwired := (hinstances i hi).wired
      rw [(Prod.mk.inj huse).1, (Prod.mk.inj huse).2] at hwired
      exact ⟨.refl d, huse, hwired, htexts i hi, rfl⟩
    · have hrelease := evolves_release
        (Instance.create d space template (template.compilation space).compiled).2
      refine ⟨hmade.1.trans (hrelease _), rfl, hmade.2.1.grows (hrelease _).grows, fun b hb n hn => ?_, rfl⟩
      exact ((hrelease _).kind n (hmade.2.1.has_text b hb n hn)).trans (hmade.2.2 b hb n hn)

/-- A cache that has shown values without invocations has one instance, which comes to rest with them. -/
theorem Cache.realize_rests {cache : Cache} (hcache : cache.Intact d)
    (htexts : ∀ i ∈ cache.instances, ∀ b ∈ i.bindings, ∀ n ∈ b.texts, d.kind n = .text)
    (hsolid : ∀ v ∈ values, v.Solid d)
    (hsteady : ∀ p ∈ (template.compilation space).compiled.holes.zip values, p.1.kind = .text →
      p.2.isSame p.2 = true ∨ p.2.text? = none)
    {holes : List Plan} (hholes : ∀ custody level, realizeAll custody level holes = ⟨values, [], level⟩)
    (custody : Custody) :
    ∃ i d₁ texts attributes, d.Evolves d₁ texts attributes ∧ i.isOf space template = true ∧
      cache.realize custody d ⟨space, template, (template.compilation space).compiled, holes⟩
        = (i.block, ⟨[i], [], cache.root⟩, d₁) ∧
      ∀ d₂, d₁.Evolves d₂ [] [] → d₂.detachments = d.detachments →
        (∀ b ∈ i.bindings, b.Equipped d₂) ∧ ∀ p ∈ i.bindings.zip values, p.1.Rests d₂ p.2 := by
  have hfurnished := Cache.furnished_fit hcache htexts
    ((custody.holding (cache.root.elim [] Block.held)).holding []) space template
  rw [Cache.realize_of_direct _ _ _ hholes]
  dsimp only at hfurnished ⊢
  generalize Level.fit _ _ _ _ _ _ = fitted at hfurnished ⊢
  generalize hinside : (((custody.holding (cache.root.elim [] Block.held)).holding []).holding
    fitted.1.block.held) = inside
  have hrests := hfurnished.rests inside hsolid hsteady
  have hevolves := (hfurnished.evolves.mono (List.nil_subset _) (List.nil_subset _)).trans
    (Level.evolves_fill fitted.2 inside fitted.1.bindings values)
  have hslots := (Level.gains_fill fitted.2 inside fitted.1.bindings values).newSlots.trans
    hfurnished.newSlots
  generalize fitted.2.fill inside fitted.1.bindings values = filled at hrests hevolves hslots ⊢
  have hclose : Evolves filled.2.document (filled.2.close (custody.holding (cache.root.elim [] Block.held))
      [{ fitted.1 with bindings := filled.1 }] cache.root).2 [] [] := evolves_release ..
  refine ⟨{ fitted.1 with bindings := filled.1 }, _, _, _,
    hevolves.trans (hclose.mono (List.nil_subset _) (List.nil_subset _)), Instance.isOf_iff.2 hfurnished.use,
    ?_, fun d₂ hd₂ hquiet => hrests d₂ (hclose.trans hd₂) hquiet⟩
  rw [Level.close, hslots]
  rfl

theorem Document.Evolves.leaf?_eq {d' : Document} {texts : List NodeId} {attributes : List AttributeId}
    (h : d.Evolves d' texts attributes) (hc : d.Has c) : d'.leaf? c = d.leaf? c := by
  rw [leaf?, leaf?, h.kind c hc]

namespace Renderer

variable {r : Renderer}

theorem evolves_mount (hinner : r.document.leaf? c = none) (cache : Cache)
    (block : Block) : r.document.Evolves (r.mount c cache block).document [] [] := by
  unfold mount
  split
  · exact .refl _
  · have hcleared : r.document.Evolves _ [] [] := evolves_setText_of_inner _ hinner ""
    have hreleased := evolves_release (r.document.setText c "")
      ((r.custody (some c) none).holding (block.held ++ cache.held))
    exact (hcleared.trans hreleased).trans
      (shifts_insert _ c block none).evolves

@[simp] theorem catalogue_mount (cache : Cache) (block : Block) :
    (r.mount c cache block).catalogue = r.catalogue := by
  unfold mount
  split <;> rfl

/-- Values have been rendered into a container, and can be shown again in the same way. -/
structure AtRest (r : Renderer) (c : NodeId) (space : Namespace) (template : Template)
    (values : List Value) : Prop where
  sound : r.catalogue.Sound
  usable : (Value.invocation space template values).Usable
  direct : ∀ v ∈ values, v.IsDirect
  solid : ∀ v ∈ values, v.Solid r.document
  shown : ∃ i, r.cacheOf c = ⟨[i], [], some i.block⟩ ∧ i.isOf space template = true ∧
    (∀ b ∈ i.bindings, b.Equipped r.document) ∧ ∀ p ∈ i.bindings.zip values, p.1.Rests r.document p.2

/-- Rendering the values again is no change to what is below the container. -/
theorem AtRest.still (h : r.AtRest c space template values) :
    let again := r.render c (.invocation space template values)
    again.1 = .ok () ∧ r.document.Still again.2.document c := by
  obtain ⟨i, hcache, hof, hequipped, hrests⟩ := h.shown
  obtain ⟨use, huse⟩ := (Catalogue.planUse_isOk h.sound space template values).2 h.usable
  generalize hplan : r.catalogue.planUse space template values = planned at huse
  obtain ⟨outcome, catalogue⟩ := planned
  obtain rfl : outcome = .ok use := huse
  obtain ⟨holes, rfl, hholes⟩ := Catalogue.planUse_of_direct h.sound hplan h.direct
  have hc : c ∈ (r.custody (some c) none).nodes :=
    List.mem_append_left _ (List.mem_append_left _ (List.mem_singleton_self c))
  rw [render, hplan]
  refine ⟨rfl, ?_⟩
  dsimp only
  rw [hcache, Cache.realize_of_direct _ _ _ hholes]
  dsimp only [Level.take, Option.elim]
  rw [Level.fit, if_pos hof]
  dsimp only [Level.close]
  rw [mount, if_pos rfl]
  refine Still.trans ?_ (still_release ?_)
  · refine Level.still_fill ⟨[], [], [], r.document⟩ _ _ _ ?_ hequipped h.solid hrests
    simp [Custody.holding, hc]
  · simp [Custody.holding, hc]

/-- A container into which values are rendered comes to rest with them. -/
theorem atRest_render (hr : r.Reachable) (hhas : r.document.Has c) (hinner : r.document.leaf? c = none)
    (htexts : ∀ i ∈ (r.cacheOf c).instances, ∀ b ∈ i.bindings, ∀ n ∈ b.texts, r.document.kind n = .text)
    (hdirect : ∀ v ∈ values, v.IsDirect) (hsolid : ∀ v ∈ values, v.Solid r.document)
    (hsteady : ∀ p ∈ (template.compilation space).compiled.holes.zip values, p.1.kind = .text →
      p.2.isSame p.2 = true ∨ p.2.text? = none)
    {r' : Renderer} (hrender : r.render c (.invocation space template values) = (.ok (), r'))
    (hquiet : r'.document.detachments = r.document.detachments) :
    r'.AtRest c space template values := by
  have hextends := r.catalogue.extends_planUse space template values
  rw [render] at hrender
  generalize hplan : r.catalogue.planUse space template values = planned at hrender hextends
  obtain ⟨outcome, catalogue⟩ := planned
  cases outcome with
  | error e => cases hrender
  | ok use =>
    obtain rfl := (Prod.mk.inj hrender).2
    have hsound := hextends.sound hr.intact.catalogue
    have husable := (Catalogue.resolves_usable hsound).1 (Catalogue.planUse_resolves hplan)
    obtain ⟨holes, rfl, hholes⟩ := Catalogue.planUse_of_direct hr.intact.catalogue hplan hdirect
    obtain ⟨i, d₁, texts, attributes, hevolves, hof, hrealize, hrests⟩ := Cache.realize_rests
      (hr.intact.cacheOf c) htexts hsolid hsteady hholes
      ((r.custody (some c) none).holding (Value.invocation space template values).held)
    rw [hrealize] at hquiet ⊢
    have hmount : d₁.Evolves _ [] [] := evolves_mount (r := { r with catalogue, document := d₁ })
      ((hevolves.leaf?_eq hhas).trans hinner) ⟨[i], [], (r.cacheOf c).root⟩ i.block
    obtain ⟨hequipped, hrests⟩ := hrests _ hmount hquiet
    refine ⟨?_, husable, hdirect, fun v hv => ((hsolid v hv).evolves hevolves).evolves hmount,
      i, cacheOf_mount .., hof, hequipped, hrests⟩
    rw [catalogue_mount]
    exact hsound

/-- Rendering values into a container twice in a row is the same as rendering them once, for everything that
is below the container. The values may be of any kind but invocations, and none of their nodes a fragment.
What fills an element with text has to be the same as itself, and no placeholder may be found detached while
the values are shown for the first time. -/
theorem render_twice (hr : r.Reachable) (hhas : r.document.Has c) (hinner : r.document.leaf? c = none)
    (htexts : ∀ i ∈ (r.cacheOf c).instances, ∀ b ∈ i.bindings, ∀ n ∈ b.texts, r.document.kind n = .text)
    (hdirect : ∀ v ∈ values, v.IsDirect) (hsolid : ∀ v ∈ values, v.Solid r.document)
    (hsteady : ∀ p ∈ (template.compilation space).compiled.holes.zip values, p.1.kind = .text →
      p.2.isSame p.2 = true ∨ p.2.text? = none)
    (hquiet : (r.render c (.invocation space template values)).2.document.detachments
      = r.document.detachments) :
    let first := r.render c (.invocation space template values)
    let second := first.2.render c (.invocation space template values)
    (second.1 = .ok () ↔ first.1 = .ok ()) ∧
      ∀ n, first.2.document.Kept [c] n → Unchanged first.2.document second.2.document n := by
  intro first second
  have hintact := hr.intact
  have hatomic := isAtomic_render hintact.catalogue c (.invocation space template values)
  have hagain : IsAtomic _ second _ := isAtomic_render (intact_render hintact c _).catalogue c _
  obtain hok | ⟨e, herror⟩ : first.1 = .ok () ∨ ∃ e, first.1 = .error e := by
    cases first.1 with
    | ok => exact .inl rfl
    | error e => exact .inr ⟨e, rfl⟩
  · have hrender : r.render c (.invocation space template values) = (.ok (), first.2) := Prod.ext hok rfl
    have hrest := atRest_render hr hhas hinner htexts hdirect hsolid hsteady hrender hquiet
    exact ⟨iff_of_true hrest.still.1 hok, hrest.still.2.unchanged⟩
  · -- what is refused once is refused again, and either time nothing has been touched
    have hnot : ∀ a, first.1 ≠ .ok a := fun a ha => by rw [herror] at ha; cases ha
    have hrefused : ∀ a, second.1 ≠ .ok a := fun a ha => by
      obtain ⟨b, hb⟩ := hatomic.1.2 (hagain.1.1 ⟨a, ha⟩)
      exact hnot b hb
    refine ⟨iff_of_false (hrefused ()) (hnot ()), fun n _ => ?_⟩
    cases hsecond : second.1 with
    | ok a => exact absurd hsecond (hrefused a)
    | error e' =>
      obtain ⟨catalogue, -, hr'⟩ := hagain.2 e' hsecond
      rw [hr']
      exact .refl _ n

theorem render_twice_item :
    let first := oneElement.render ⟨0⟩ (paragraph.item "x")
    let second := first.2.render ⟨0⟩ (paragraph.item "x")
    (second.1 = .ok () ↔ first.1 = .ok ()) ∧
      ∀ n, first.2.document.Kept [⟨0⟩] n → Unchanged first.2.document second.2.document n := by
  have hhas : oneElement.document.Has ⟨0⟩ := by decide
  obtain ⟨r', x, hrender, -, -, hnotices, -⟩ := displays_render sound_oneElement hhas (by decide) rfl
    (fits_item "x")
  refine render_twice reachable_oneElement hhas (by decide) (fun i hi => by cases hi) ?_ ?_ ?_ ?_
  · exact List.forall_mem_singleton.2 trivial
  · exact List.forall_mem_singleton.2 fun n hn => by cases hn
  · intro p hp _
    have hp2 : p.2 = .string "x" := List.mem_singleton.1 (List.of_mem_zip hp).2
    rw [hp2]
    exact .inl (by decide)
  · rw [hrender, Document.detachments, hnotices, Document.detachments]

end Renderer

end LiveMarkup
