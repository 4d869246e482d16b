import LiveMarkup.Proofs.Rendering.Continuity
import LiveMarkup.Proofs.Rendering.Reckoning
import LiveMarkup.Proofs.Rendering.Renewal
import LiveMarkup.Proofs.Rendering.Settling
/-!
# Another value in a container

A container has a value on show, and another one is rendered into it. Whatever the other one meets of what is on show
is brought up to date (`Exhibit.Meets.renewed`), and so if the instance at the top is found again, it shows the other
value then (`Cache.realize_met`). No node changes its kind in this (`Cache.lasts_realize`).
-/

namespace LiveMarkup

open Exhibit
open Markup (Namespace)

/-! ### Nodes stay of their kind -/

namespace Document

variable {d d' d'' : Document}

/-- A document has grown, and its nodes are of the kind that they were. -/
structure Lasts (d d' : Document) : Prop where
  grows : d.Grows d'
  kind : ∀ n, d.Has n → d'.kind n = d.kind n

theorem Lasts.refl (d : Document) : d.Lasts d :=
  ⟨.refl d, fun _ _ => rfl⟩

theorem Lasts.trans (h : d.Lasts d') (h' : d'.Lasts d'') : d.Lasts d'' :=
  ⟨h.grows.trans h'.grows, fun n hn => (h'.kind n (h.grows.has hn)).trans (h.kind n hn)⟩

theorem Evolves.lasts {texts : List NodeId} {attributes : List AttributeId} (h : d.Evolves d' texts attributes) :
    d.Lasts d' :=
  ⟨h.grows, h.kind⟩

end Document

theorem Level.lasts_use {holes : Custody → Level → Realized (List Value)}
    (hholes : ∀ (custody : Custody) (level : Level), level.document.Lasts (holes custody level).level.document)
    (level : Level) (custody : Custody) (space : Namespace) (template : Template) (compiled : Compiled) :
    level.document.Lasts (level.use custody space template compiled holes).level.document := by
  have htaken : level.document.Lasts (level.take space template compiled).2.document := by
    unfold take
    split
    · exact .refl _
    · exact (Document.evolves_createInstance level.document space template compiled).lasts
  have hfit : ∀ (level : Level) (custody : Custody) (i : Instance),
      level.document.Lasts (level.fit custody i space template compiled).2.document := by
    intro level custody i
    unfold fit
    split
    · exact .refl _
    · exact (Document.evolves_createInstance level.document space template compiled).lasts.trans
        (Document.evolves_release ..).lasts
  exact ((htaken.trans (hholes ..)).trans (hfit ..)).trans (Level.evolves_fill ..).lasts

/-- Whatever is shown, all nodes stay of their kind. -/
theorem Plan.lasts_realize :
    (∀ (p : Plan) (custody : Custody) (level : Level),
      level.document.Lasts (p.realize custody level).level.document) ∧
    ∀ (ps : List Plan) (custody : Custody) (level : Level),
      level.document.Lasts (realizeAll custody level ps).level.document ∧
        level.document.Lasts (realizeItems custody level ps).level.document := by
  refine Plan.induct ?_ ?_ ?_ ?_ ?_
  · exact fun _ _ _ => .refl _
  · intro space template compiled holes ih custody level
    exact Level.lasts_use (fun custody level => (ih custody level).1) level custody space template compiled
  · exact fun items ih custody level => (ih custody level).2
  · exact fun _ _ => ⟨.refl _, .refl _⟩
  · intro p ps ihp ihps custody level
    refine ⟨(ihp custody level).trans (ihps _ _).1, ?_⟩
    have hitem : level.document.Lasts (level.showItem custody p).document := by
      have hshown := ihp (custody.holding level.takeSlot.2.held)
        ⟨level.takeSlot.1.instances, level.takeSlot.1.slots, [], level.takeSlot.2.document⟩
      rw [show level.document = level.takeSlot.2.document by rw [Level.takeSlot_eq]; rfl]
      exact hshown.trans (Document.evolves_release ..).lasts
    cases p with
    | leaf value => exact (ihps custody level).2
    | use | list => exact hitem.trans (ihps custody _).2

theorem Cache.lasts_realize (cache : Cache) (custody : Custody) (d : Document) (use : Use) :
    d.Lasts (cache.realize custody d use).2.2 :=
  (Level.lasts_use (fun custody level => (Plan.lasts_realize.2 use.holes custody level).1)
    ⟨cache.instances, cache.slots, [], d⟩ _ use.space use.template use.compiled).trans
    (Document.evolves_release ..).lasts

/-! ### The instance at the top -/

namespace Exhibit

/-- Wherever plans meet what has been on show in some holes, they are shown in its place. -/
theorem MeetsAll.renewed {c : NodeId} {roots : List Plant} {holes : List Hole} {es : List (Binding × Spot)}
    {is : List Instance} {cs : List Cache} {xs : List Exhibit} {ps : List Plan}
    (h : MeetsAll roots holes es is cs xs ps) : RenewedAll c roots holes es is cs xs ps := by
  induction ps generalizing holes es is cs xs with
  | nil =>
    cases h
    exact renewedAll_nil _
  | cons p ps ih =>
    cases h with
    | cons hat hshown hbare hfits hleaf hhead htail =>
      exact renewedAll_cons hat hshown hbare hfits hleaf hhead.renewed (ih htail)

end Exhibit

section Realize

variable {cache : Cache} {i : Instance} {is : List Instance} {roots : List Plant} {es : List (Binding × Spot)}
  {xs : List Exhibit} {space : Namespace} {template : Template} {compiled : Compiled} {ps : List Plan} {d : Document}
  {c : NodeId}

/-- With a cache in which the instance at the top is found again, a use of its template is shown in its place. -/
theorem Cache.realize_met (holes : MeetsAll roots compiled.holes es is cache.slots xs ps)
    (hinstances : cache.instances = { i with bindings := es.map Prod.fst } :: is) (hroot : cache.root = some i.block)
    (hspace : i.space = space) (htemplate : i.template = template) (htops : i.block.nodes = roots.map Plant.id)
    (htrees : Plant.trees roots = compiled.content) (hnodup : (Plant.idsAll roots).Nodup)
    (hfits : (Plan.use space template compiled ps).Fits) (hheaded : compiled.Headed) {custody : Custody}
    (hc : c ∈ custody.nodes) (g : d.Carries c [] (seated i roots es xs)) :
    ∃ x' d', x'.Shows (.use space template compiled ps) ∧ x'.cache.root = some i.block ∧
      cache.realize custody d ⟨space, template, compiled, ps⟩ = (i.block, x'.cache, d') ∧ d'.Carries c [] x' := by
  generalize hcustody : custody.holding (cache.root.elim [] Block.held) = outside
  have hshelters : outside.Shelters (Level.past ⟨is, cache.slots, [], d⟩ (formsAll ps).length (decksAll ps).length) c
      [] [] := by
    refine ⟨?_, List.nil_subset _, List.nil_subset _⟩
    rw [← hcustody]
    exact List.mem_append_right _ hc
  obtain ⟨x', d', hrealize, hx', g', hblocks, -⟩ := holes.renewed.again hspace htemplate htops htrees hnodup hfits
    hheaded (Framing.self []) hshelters g
  have hroot' : x'.cache.root = some i.block := by
    rw [Exhibit.cache, hblocks]
    rfl
  have hcache : (⟨x'.instances, x'.slots, cache.root⟩ : Cache) = x'.cache := by
    rw [hroot, ← hroot']
    rfl
  rw [Plan.realize, ← hinstances] at hrealize
  generalize hused : Level.use _ _ _ _ _ _ = used at hrealize
  obtain ⟨block, instances, level⟩ := used
  obtain ⟨hblock, rfl, rfl⟩ := Realized.mk.inj hrealize
  have hresult : x'.result = .block i.block := by
    cases x' with
    | leaf | list => exact False.elim hx'
    | use => exact congrArg Value.block (List.singleton_inj.1 hblocks)
  obtain rfl := Value.block.inj (hblock.trans hresult)
  refine ⟨x', d'.release (outside.holding x'.cache.held), hx', hroot', ?_,
    g'.release (List.mem_append_right _ hshelters.container) (List.nil_subset _) fun e he => ?_⟩
  · rw [Cache.realize, hcustody]
    dsimp only
    rw [hused]
    dsimp only
    rw [Level.close, ← hcache]
    simp [Level.shown, Level.past]
  · refine List.Subset.trans (entries_held.1 x' e he) fun n hn => ?_
    rw [Custody.holding, List.mem_append, ← hcache, Cache.held]
    exact .inl (List.mem_append_left _ hn)

end Realize

end LiveMarkup
